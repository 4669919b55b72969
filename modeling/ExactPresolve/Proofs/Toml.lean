import ExactPresolve.Proofs.Number.Printer
import ExactPresolve.Toml.Document

/-!
# Plain text in TOML documents

Text without quotes, backslashes and control characters stands between double quotes as it is, and
is read back unchanged. The text of a number is of this kind.

* `IsPlain`: such text;
* `cut?_append`, `resolve?_eq_some`: none of it ends the string or has another meaning;
* **`string?_append`**: it is read back, whatever follows the closing quote but another quote;
* `isPlain_chars`: the text of a number is plain;
* `value?_string`, `line?_assignment`, `many_pair`: a value, a line, and two lines.
-/

namespace ExactPresolve.Toml

/-- Text that may stand between double quotes as it is. -/
def IsPlain (t : List Char) : Prop := ∀ c ∈ t, isTextChar c = true ∧ c ≠ '"' ∧ c ≠ '\\'

variable {t r : List Char}

theorem cut?_append (ht : IsPlain t) (r : List Char) :
    cut? '"' true (t ++ '"' :: r) = some (t, r) := by
  induction t with
  | nil =>
    rw [List.nil_append, cut?.eq_def]
    simp
  | cons c t ih =>
    obtain ⟨⟨-, hquote, hslash⟩, ht⟩ := List.forall_mem_cons.mp ht
    -- the generated equations also split what follows the character, so they do not apply
    rw [List.cons_append, cut?.eq_def]
    simp [hquote, hslash, ih ht]

theorem resolve?_eq_some (ht : IsPlain t) : resolve? true false false t = some t := by
  induction t with
  | nil => rfl
  | cons c t ih =>
    obtain ⟨⟨hc, -, hslash⟩, ht⟩ := List.forall_mem_cons.mp ht
    rw [resolve?.eq_def]
    simp [hc, hslash, ih ht]

theorem keyString?_append (ht : IsPlain t) (r : List Char) :
    keyString? ('"' :: (t ++ '"' :: r)) = some (t, r) := by
  show lineString? '"' true (t ++ '"' :: r) = some (t, r)
  simp [lineString?, cut?_append ht, resolve?_eq_some ht]

/-- **Plain text is read back unchanged.** If no quote follows the closing one, the quotes are not
taken for three. -/
theorem string?_append (ht : IsPlain t) (hr : r.head? ≠ some '"') :
    string? ('"' :: (t ++ '"' :: r)) = some (t, r) := by
  -- neither the text nor what follows an empty one starts with a quote
  have hone : string? ('"' :: (t ++ '"' :: r)) = keyString? ('"' :: (t ++ '"' :: r)) := by
    cases t with
    | nil =>
      cases r with
      | nil => rfl
      | cons d r =>
        have hd : d ≠ '"' := fun h => hr (congrArg some h)
        simp [string?, hd]
    | cons c t =>
      have hc : c ≠ '"' := (ht c List.mem_cons_self).2.1
      simp [string?, hc]
  rw [hone, keyString?_append ht]

open Number in
theorem isPlain_chars (q : ℚ) : IsPlain (chars q) := by
  intro c hc
  rcases mem_chars hc with h | rfl | rfl
  · obtain ⟨hlow, hhigh⟩ := toNat_of_isDigit h
    refine ⟨?_, ne_of_isDigit h rfl, ne_of_isDigit h rfl⟩
    simp only [isTextChar, isCommentChar, Bool.or_eq_true, Bool.and_eq_true, decide_eq_true_eq,
      bne_iff_ne]
    omega
  · decide
  · decide

/-! ## Values and lines -/

theorem value?_string (ht : IsPlain t) (n : ℕ) :
    value? n ('"' :: (t ++ ['"'])) = some (.string t, []) := by
  have hscalar : scalar? ('"' :: (t ++ ['"'])) = some (.string t, []) := by
    simp only [scalar?, string?_append (r := []) ht nofun]
  cases n with
  | zero => exact hscalar
  | succ n => exact hscalar

variable {α : Type} {p : Reader α} {a b : α} {s m : List Char} {c d : Char}

/-- A line that does not start like another kind of line is an assignment. -/
theorem line?_assignment {x : Assignment} (hc : c ∉ [' ', '\t', '[', '#', '\n', '\r'])
    (hx : assignment? (value? maxDepth) (c :: s) = some (x, m)) (hm : endLine? m = some r) :
    line? (c :: s) = some (.assignment x, r) := by
  simp only [List.mem_cons, List.not_mem_nil, or_false, not_or] at hc
  obtain ⟨hspace, htab, hbracket, hhash, hfeed, hreturn⟩ := hc
  have hskip : skipSpace (c :: s) = c :: s := by simp [skipSpace, isSpace, hspace, htab]
  simp [line?, lineContent?, hskip, hbracket, hhash, hfeed, hreturn, hx, hm]

theorem manyUpTo_of_none (h : p s = none) (n : ℕ) : manyUpTo p n s = ([], s) := by
  cases n with
  | zero => rfl
  | succ n => simp only [manyUpTo, h]

/-- Something is read twice if nothing can be read after that. -/
theorem many_pair (hs : p (c :: d :: s) = some (a, m)) (hm : p m = some (b, r))
    (hr : p r = none) : many p (c :: d :: s) = ([a, b], r) := by
  simp only [many, List.length_cons, manyUpTo, hs, hm, manyUpTo_of_none hr]

end ExactPresolve.Toml
