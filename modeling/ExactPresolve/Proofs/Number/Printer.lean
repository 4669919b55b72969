import ExactPresolve.Number.Printer
import ExactPresolve.Proofs.Number.Literal

/-!
# Numbers printed and read

The text of an integer is a decimal literal without a point, and the text of any other number is a
fraction. Either denotes the number, so reading undoes printing.

* `placeValue_digits`: the digits of a natural number denote it;
* `integerChars_eq`: the parts of an integer's text;
* `denotes_chars`: the text of a number denotes it;
* `read_text`: it is read as this number, also between blanks;
* **`text_inverse`**: printing and reading are inverse.
-/

namespace ExactPresolve.Number

open Text

/-! ## Digits -/

theorem areDigits_digits (n : ℕ) : AreDigits (digits n) := fun _ => isDigit_of_mem_digits

theorem placeValue_digits (n : ℕ) : placeValue (digits n) = n :=
  (placeValue_eq (digits n)).trans Nat.ofDigitChars_ten_toDigits

theorem withSign_natAbs (n : ℤ) : withSign (decide (n < 0)) n.natAbs = n := by
  by_cases h : n < 0
  · simp only [withSign, h, decide_true, if_true]
    omega
  · simp only [withSign, h, decide_false, Bool.false_eq_true, if_false]
    omega

theorem integerChars_eq (n : ℤ) :
    ∃ sign, IsSign sign (decide (n < 0)) ∧ integerChars n = sign ++ digits n.natAbs := by
  by_cases h : n < 0
  · rw [integerChars, if_pos h, decide_eq_true h]
    exact ⟨['-'], .minus, rfl⟩
  · rw [integerChars, if_neg h, decide_eq_false h]
    exact ⟨[], .absent, rfl⟩

/-! ## The text of a number -/

variable {sign s : List Char} {negative : Bool} {c : Char} {q : ℚ}

/-- A sign and digits are an integer literal. -/
theorem isInteger_append (hsign : IsSign sign negative) (hs : AreDigits s) (hne : s ≠ []) :
    IsInteger (sign ++ s) (withSign negative (placeValue s)) := by
  obtain ⟨c, t, rfl⟩ := List.exists_cons_of_ne_nil hne
  have hfilter : (c :: t).filter (· ≠ '_') = c :: t :=
    List.filter_eq_self.mpr fun d hd => decide_eq_true (ne_of_isDigit (hs d hd) rfl)
  have hint := IsInteger.intro hsign (hs c List.mem_cons_self) fun d hd =>
    .inl (hs d (List.mem_cons_of_mem c hd))
  rwa [hfilter] at hint

/-- A sign and digits are a decimal literal, where the point is not moved. -/
theorem isDecimal_append (hsign : IsSign sign negative) (hs : AreDigits s) (hne : s ≠ []) :
    IsDecimal (sign ++ s) 0 (withSign negative (placeValue s)) := by
  have hm : IsMantissa (sign ++ s ++ []) negative s [] :=
    .intro hsign hs .absent (by rwa [List.append_nil])
  have hd := IsDecimal.intro hm .absent (by decide)
  simpa using hd

theorem isInteger_integerChars (n : ℤ) : IsInteger (integerChars n) n := by
  obtain ⟨sign, hsign, hn⟩ := integerChars_eq n
  have hint := isInteger_append hsign (areDigits_digits n.natAbs) Nat.toDigits_ne_nil
  rwa [placeValue_digits, withSign_natAbs, ← hn] at hint

theorem isDecimal_integerChars (n : ℤ) : IsDecimal (integerChars n) 0 n := by
  obtain ⟨sign, hsign, hn⟩ := integerChars_eq n
  have hdec := isDecimal_append hsign (areDigits_digits n.natAbs) Nat.toDigits_ne_nil
  rwa [placeValue_digits, withSign_natAbs, ← hn] at hdec

theorem isInteger_digits (n : ℕ) : IsInteger (digits n) n := by
  have hint := isInteger_append .absent (areDigits_digits n) Nat.toDigits_ne_nil
  rwa [placeValue_digits] at hint

/-- **The text of a number denotes it.** -/
theorem denotes_chars (q : ℚ) : Denotes (chars q) q := by
  by_cases hq : q.den = 1
  · rw [Denotes, chars, if_pos hq, if_neg (slash_not_mem_integerChars q.num), IsIntegral.eq_num hq]
    exact ⟨0, by decide, isDecimal_integerChars q.num⟩
  · have hf := IsFraction.intro (slash_not_mem_integerChars q.num) (isInteger_integerChars q.num)
      (isInteger_digits q.den) (Int.natCast_ne_zero.mpr q.den_ne_zero)
    rw [Int.cast_natCast, Rat.num_div_den] at hf
    rw [Denotes, chars, if_neg hq, if_pos (by simp)]
    exact hf

/-! ## Printing and reading -/

theorem toNat_of_isDigit (hc : c.isDigit = true) : 48 ≤ c.toNat ∧ c.toNat ≤ 57 := by
  simpa [Char.isDigit, UInt32.le_iff_toNat_le] using hc

theorem not_isBlank_of_isDigit (hc : c.isDigit = true) : isBlank c = false := by
  obtain ⟨hlow, hhigh⟩ := toNat_of_isDigit hc
  have hout : ∀ r ∈ blankRanges, r.2 < 48 ∨ 57 < r.1 := by decide
  refine List.any_eq_false.mpr fun r hr => ?_
  have hr := hout r hr
  simp only [Bool.and_eq_true, decide_eq_true_eq]
  omega

theorem not_isBlank_of_mem_chars (hc : c ∈ chars q) : isBlank c = false := by
  rcases mem_chars hc with h | rfl | rfl
  · exact not_isBlank_of_isDigit h
  · decide
  · decide

/-- The text of a number is read as this number, also with blanks around it. -/
theorem read_text (q : ℚ) {a b : String} (ha : ∀ c ∈ a.toList, isBlank c = true)
    (hb : ∀ c ∈ b.toList, isBlank c = true) : read (a ++ text q ++ b) = .ok q := by
  have htrim : Encloses (a ++ text q ++ b).toList (chars q) := by
    rw [String.toList_append, String.toList_append, text, String.toList_ofList]
    exact .intro ha hb (fun c hc => not_isBlank_of_mem_chars (List.mem_of_mem_head? hc))
      fun c hc => not_isBlank_of_mem_chars (List.mem_of_mem_getLast? hc)
  rw [read_eq_ok_iff, encloses_iff.mp htrim]
  exact denotes_chars q

/-- **Printing and reading are inverse**, with any blanks around the text. -/
theorem text_inverse :
    (∀ (q : ℚ) (a b : String), (∀ c ∈ a.toList ++ b.toList, isBlank c = true) →
      read (a ++ text q ++ b) = .ok q) ∧
      Function.Injective text ∧
        ∀ (s : String) (q : ℚ), read s = .ok q → read (text q) = read s := by
  have hread (q : ℚ) : read (text q) = .ok q := by
    simpa using read_text q (a := "") (b := "") (by simp) (by simp)
  refine ⟨fun q a b h => ?_, fun p q h => ?_, fun s q h => (hread q).trans h.symm⟩
  · obtain ⟨ha, hb⟩ := List.forall_mem_append.mp h
    exact read_text q ha hb
  · have hp := hread p
    rw [h, hread q] at hp
    exact (Except.ok.inj hp).symm

theorem text_inverse_sevenths : text (-15 / 7) = "-15/7" ∧
    read ("\t\u2003" ++ text (-15 / 7) ++ "\u00A0") = .ok (-15 / 7) ∧
      read " -30/1_4" = .ok (-15 / 7) ∧ read (text (-15 / 7)) = read " -30/1_4" := by
  obtain ⟨hblank, -, hsame⟩ := text_inverse
  have hblanks : ("\t\u2003".toList ++ "\u00A0".toList).all isBlank = true := by decide +kernel
  have hread : read " -30/1_4" = .ok (-15 / 7) := by decide +kernel
  refine ⟨by decide +kernel, ?_, hread, hsame _ _ hread⟩
  exact hblank (-15 / 7) "\t\u2003" "\u00A0" (List.all_eq_true.mp hblanks)

example : text 0 = "0" ∧ text (6 / -3) = "-2" := by decide +kernel

end ExactPresolve.Number
