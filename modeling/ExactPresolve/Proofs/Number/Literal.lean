import ExactPresolve.Number.Literal
import ExactPresolve.Proofs.Number.Grammar
import ExactPresolve.Proofs.Text
import Mathlib.Tactic.SplitIfs

/-!
# Reading number literals

The parts of a literal are found by splitting its text at the first character of a kind. Each of the
functions that read a part accepts what the grammar admits for it, and nothing else.

* `splitSign_append`, `splitFirst_append`, `splitFirst_cases`: text split after a sign and at a character;
* `integer?_eq_some_iff`, `fraction?_eq_some_iff`: fractions and their parts;
* `mantissa?_eq_some_iff`, `exponent?_eq_some_iff`, `decimal?_eq_some_iff`: decimals and their parts;
* `ofChars?_eq_some_iff`, `read_eq_ok_iff`: literals;
* **`read_grammar`**: what is read, and what is refused;
* `longZero`, **`not_read_grammar`**: a decimal that is refused for the number of its places alone.
-/

namespace ExactPresolve.Number

open Text

variable {s t a b : List Char} {c d : Char} {p : Char → Bool}

/-! ## Digits and signs -/

theorem placeValue_eq (s : List Char) : placeValue s = ofDigits s := by
  induction s with
  | nil => rfl
  | cons c s ih =>
    have hcons : ofDigits (c :: s) = Nat.ofDigitChars 10 s (c.toNat - '0'.toNat) := by
      rw [ofDigits, Nat.ofDigitChars_cons, Nat.mul_zero, Nat.zero_add]
    rw [hcons, Nat.ofDigitChars_eq_ofDigitChars_zero, placeValue, ih, ofDigits, Nat.mul_comm]

theorem splitSign_append {negative : Bool} (h : IsSign s negative)
    (ht : ∀ c ∈ t.head?, c.isDigit = true) : splitSign (s ++ t) = (negative, t) := by
  cases h with
  | absent =>
    cases t with
    | nil => rfl
    | cons c t =>
      have hc := ht c rfl
      simp [splitSign, ne_of_isDigit hc (d := '-') rfl, ne_of_isDigit hc (d := '+') rfl]
  | plus => rfl
  | minus => rfl

theorem exists_isSign (s : List Char) :
    ∃ sign negative t, splitSign s = (negative, t) ∧ IsSign sign negative ∧ s = sign ++ t := by
  unfold splitSign
  split
  · exact ⟨['-'], true, _, rfl, .minus, rfl⟩
  · exact ⟨['+'], false, _, rfl, .plus, rfl⟩
  · exact ⟨[], false, s, rfl, .absent, rfl⟩

/-! ## The first character of a kind -/

theorem splitFirst_append (hs : ∀ d ∈ s, p d = false) (hc : p c = true) (t : List Char) :
    splitFirst p (s ++ c :: t) = (s, some t) := by
  have hs' : ∀ d ∈ s, (!p d) = true := fun d hd => by rw [hs d hd]; rfl
  rw [splitFirst, List.takeWhile_append_of_pos hs', List.dropWhile_append_of_pos hs']
  simp [hc]

theorem splitFirst_eq_none (hs : ∀ d ∈ s, p d = false) : splitFirst p s = (s, none) := by
  have hs' : ∀ d ∈ s, (!p d) = true := fun d hd => by rw [hs d hd]; rfl
  rw [splitFirst, List.takeWhile_eq_self_iff.mpr hs', List.dropWhile_eq_nil_iff.mpr hs']
  rfl

/-- Text has no character of the kind, or it is split at the first one. -/
theorem splitFirst_cases (p : Char → Bool) (s : List Char) :
    (splitFirst p s = (s, none) ∧ ∀ d ∈ s, p d = false) ∨
      ∃ a c b, splitFirst p s = (a, some b) ∧ s = a ++ c :: b ∧ p c = true ∧ ∀ d ∈ a, p d = false := by
  cases h : s.find? p with
  | none =>
    have hs : ∀ d ∈ s, p d = false := by simpa using List.find?_eq_none.mp h
    exact .inl ⟨splitFirst_eq_none hs, hs⟩
  | some c =>
    obtain ⟨hc, a, b, rfl, ha⟩ := List.find?_eq_some_iff_append.mp h
    have ha' : ∀ d ∈ a, p d = false := by simpa using ha
    exact .inr ⟨a, c, b, splitFirst_append ha' hc b, rfl, hc, ha'⟩

theorem splitFirst_char (hs : d ∉ s) (t : List Char) :
    splitFirst (· == d) (s ++ d :: t) = (s, some t) :=
  splitFirst_append (fun _ hc => beq_false_of_ne (ne_of_mem_of_not_mem hc hs)) (beq_self_eq_true d) t

theorem splitFirst_char_eq_none (hs : d ∉ s) : splitFirst (· == d) s = (s, none) :=
  splitFirst_eq_none fun _ hc => beq_false_of_ne (ne_of_mem_of_not_mem hc hs)

theorem splitFirst_char_cases (d : Char) (s : List Char) :
    (splitFirst (· == d) s = (s, none) ∧ d ∉ s) ∨
      ∃ a b, splitFirst (· == d) s = (a, some b) ∧ s = a ++ d :: b ∧ d ∉ a := by
  by_cases h : d ∈ s
  · obtain ⟨a, b, rfl, ha⟩ := List.eq_append_cons_of_mem h
    exact .inr ⟨a, b, splitFirst_char ha b, rfl, ha⟩
  · exact .inl ⟨splitFirst_char_eq_none h, h⟩

/-! ## Fractions -/

theorem isGroupedDigits_iff : isGroupedDigits s = true ↔
    ∃ c t, s = c :: t ∧ c.isDigit = true ∧ ∀ d ∈ t, d.isDigit = true ∨ d = '_' := by
  cases s <;> simp [isGroupedDigits]

theorem filter_isDigit (hs : ∀ c ∈ s, c.isDigit = true ∨ c = '_') :
    s.filter Char.isDigit = s.filter (· ≠ '_') := by
  refine List.filter_congr fun c hc => ?_
  rcases hs c hc with h | rfl
  · simp [h, ne_of_isDigit h (d := '_') rfl]
  · rfl

theorem integer?_eq_some_iff {n : ℤ} : integer? s = some n ↔ IsInteger s n := by
  have hdigits {c : Char} {t : List Char} (hc : c.isDigit = true)
      (ht : ∀ d ∈ t, d.isDigit = true ∨ d = '_') :
      ofDigits ((c :: t).filter Char.isDigit) = placeValue ((c :: t).filter (· ≠ '_')) := by
    rw [placeValue_eq, filter_isDigit (List.forall_mem_cons.mpr ⟨.inl hc, ht⟩)]
  constructor
  · intro h
    obtain ⟨sign, negative, r, hsplit, hsign, rfl⟩ := exists_isSign s
    simp only [integer?, hsplit] at h
    split_ifs at h with hg
    obtain ⟨c, t, rfl, hc, ht⟩ := isGroupedDigits_iff.mp hg
    rw [← Option.some.inj h, hdigits hc ht]
    exact .intro hsign hc ht
  · intro h
    cases h with
    | @intro sign t negative c hsign hc ht =>
      have hsplit : splitSign (sign ++ c :: t) = (negative, c :: t) :=
        splitSign_append hsign fun d hd => Option.some.inj hd ▸ hc
      have hg := isGroupedDigits_iff.mpr ⟨c, t, rfl, hc, ht⟩
      simp only [integer?, hsplit, hg, if_true, hdigits hc ht]

theorem fraction?_eq_some_iff {q : ℚ} : fraction? s t = some q ↔
    ∃ n d, IsInteger s n ∧ IsInteger t d ∧ d ≠ 0 ∧ n / d = q := by
  simp only [← integer?_eq_some_iff]
  cases hs : integer? s with
  | none => simp [fraction?, hs]
  | some n =>
    cases ht : integer? t with
    | none => simp [fraction?, hs, ht]
    | some d => simp [fraction?, hs, ht, Rat.divInt_eq_div]

/-! ## Decimals -/

theorem areDigits_iff : AreDigits s ↔ s.all Char.isDigit = true := List.all_eq_true.symm

theorem splitSign_append_digits {negative : Bool} (h : IsSign s negative) (ht : AreDigits t) :
    splitSign (s ++ t) = (negative, t) :=
  splitSign_append h fun c hc => ht c (List.mem_of_mem_head? hc)

theorem signed32?_eq_some_iff {n k : ℤ} :
    signed32? n = some k ↔ -2 ^ 31 ≤ n ∧ n < 2 ^ 31 ∧ n = k := by
  rw [signed32?, Option.ite_none_right_eq_some, Option.some.injEq, IsSigned32]
  omega

theorem exponent?_eq_some_iff {k : ℤ} : exponent? s = some k ↔ IsWord s k := by
  constructor
  · intro h
    obtain ⟨sign, negative, ds, hsplit, hsign, rfl⟩ := exists_isSign s
    simp only [exponent?, hsplit, ← placeValue_eq] at h
    split_ifs at h with hd
    obtain ⟨hlow, hhigh, rfl⟩ := signed32?_eq_some_iff.mp h
    exact .intro hsign (areDigits_iff.mpr hd.2) hd.1 hlow hhigh
  · intro h
    cases h with
    | @intro sign ds negative hsign hds hne hlow hhigh =>
      simp only [exponent?, splitSign_append_digits hsign hds, ← placeValue_eq]
      rw [if_pos ⟨hne, areDigits_iff.mp hds⟩]
      exact signed32?_eq_some_iff.mpr ⟨hlow, hhigh, rfl⟩

/-- Text is split at its first point, if it has one. -/
theorem exists_point (s : List Char) : ∃ a after point, splitFirst (· == '.') s = (a, after) ∧
    s = a ++ point ∧ (AreDigits (after.getD []) → IsPlaces point (after.getD [])) := by
  obtain ⟨hsplit, -⟩ | ⟨a, b, hsplit, rfl, -⟩ := splitFirst_char_cases '.' s
  · exact ⟨s, none, [], hsplit, (List.append_nil s).symm, fun _ => .absent⟩
  · exact ⟨a, some b, '.' :: b, hsplit, rfl, fun hb => .given hb⟩

theorem splitFirst_point {places : List Char} (hs : '.' ∉ s) (ht : IsPlaces t places) :
    ∃ after, splitFirst (· == '.') (s ++ t) = (s, after) ∧ after.getD [] = places := by
  cases ht with
  | absent =>
    rw [List.append_nil]
    exact ⟨none, splitFirst_char_eq_none hs, rfl⟩
  | given _ => exact ⟨some _, splitFirst_char hs _, rfl⟩

theorem mantissa?_eq_some_iff {k : ℤ} {d : Decimal} :
    mantissa? s k = some d ↔ IsMantissa s d.negative d.whole d.places ∧ d.exponent = k := by
  constructor
  · intro h
    obtain ⟨a, after, point, hsplit, rfl, hplaces⟩ := exists_point s
    obtain ⟨sign, negative, whole, hsign', hsign, rfl⟩ := exists_isSign a
    simp only [mantissa?, hsplit, hsign'] at h
    split_ifs at h with hd
    obtain ⟨hwhole, hafter, hne⟩ := hd
    obtain rfl := Option.some.inj h
    refine ⟨.intro hsign (areDigits_iff.mpr hwhole) (hplaces (areDigits_iff.mpr hafter)) ?_, rfl⟩
    rwa [Ne, List.append_eq_nil_iff]
  · rintro ⟨h, rfl⟩
    obtain ⟨negative, whole, places, k⟩ := d
    cases h with
    | @intro sign whole point places negative hsign hwhole hplaces hne =>
      have hpoint : '.' ∉ sign ++ whole := fun h =>
        (List.mem_append.mp h).elim (hsign.not_mem (by decide)) (hwhole.not_mem rfl)
      have hdigits := areDigits_iff.mp hplaces.areDigits
      obtain ⟨after, hsplit, rfl⟩ := splitFirst_point hpoint hplaces
      simp only [mantissa?, hsplit, splitSign_append_digits hsign hwhole]
      rw [Ne, List.append_eq_nil_iff] at hne
      exact if_pos ⟨areDigits_iff.mp hwhole, hdigits, hne⟩

/-- The letter that an exponent starts with. -/
theorem isMark_iff : (c == 'e' || c == 'E') = true ↔ c = 'e' ∨ c = 'E' := by
  rw [Bool.or_eq_true, beq_iff_eq, beq_iff_eq]

theorem decimal?_eq_some_iff {d : Decimal} : decimal? s = some d ↔ ∃ m t, s = m ++ t ∧
    IsMantissa m d.negative d.whole d.places ∧ IsExponent t d.exponent := by
  constructor
  · intro h
    obtain ⟨hsplit, -⟩ | ⟨m, c, t, hsplit, rfl, hc, -⟩ :=
      splitFirst_cases (fun c => c == 'e' || c == 'E') s
    · simp only [decimal?, hsplit] at h
      obtain ⟨hm, hk⟩ := mantissa?_eq_some_iff.mp h
      exact ⟨s, [], (List.append_nil s).symm, hm, hk ▸ .absent⟩
    · simp only [decimal?, hsplit] at h
      obtain ⟨k, hk, h⟩ := Option.bind_eq_some_iff.mp h
      obtain ⟨hm, rfl⟩ := mantissa?_eq_some_iff.mp h
      exact ⟨m, c :: t, rfl, hm, .given (isMark_iff.mp hc) (exponent?_eq_some_iff.mp hk)⟩
  · rintro ⟨m, t, rfl, hm, ht⟩
    have hmark : ∀ c ∈ m, (c == 'e' || c == 'E') = false := fun c hc => by
      refine Bool.eq_false_iff.mpr fun h => ?_
      rcases isMark_iff.mp h with rfl | rfl
      · exact hm.not_mem rfl (by decide) hc
      · exact hm.not_mem rfl (by decide) hc
    obtain ⟨negative, whole, places, k⟩ := d
    cases ht with
    | absent =>
      rw [List.append_nil]
      simp only [decimal?, splitFirst_eq_none hmark]
      exact mantissa?_eq_some_iff.mpr ⟨hm, rfl⟩
    | given hc ht =>
      simp only [decimal?, splitFirst_append hmark (isMark_iff.mpr hc)]
      exact Option.bind_eq_some_iff.mpr
        ⟨k, exponent?_eq_some_iff.mpr ht, mantissa?_eq_some_iff.mpr ⟨hm, rfl⟩⟩

theorem scale_eq (b : ℕ) (n k : ℤ) : scale b n k = n * (b : ℚ) ^ k := by
  cases k with
  | ofNat k => simp [scale]
  | negSucc k => rw [scale, Rat.mkRat_eq_div, zpow_negSucc, div_eq_mul_inv]; simp

theorem Decimal.shift?_eq_some_iff {d : Decimal} {k : ℤ} : d.shift? = some k ↔
    d.places.length < 2 ^ 31 ∧ -2 ^ 31 ≤ k ∧ k < 2 ^ 31 ∧ d.exponent - d.places.length = k := by
  simp only [shift?, Option.bind_eq_bind, Option.bind_eq_some_iff, signed32?_eq_some_iff]
  constructor
  · rintro ⟨n, ⟨-, hn, rfl⟩, hlow, hhigh, rfl⟩
    exact ⟨by omega, hlow, hhigh, rfl⟩
  · rintro ⟨hn, hlow, hhigh, rfl⟩
    exact ⟨_, ⟨by omega, by omega, rfl⟩, hlow, hhigh, rfl⟩

theorem Decimal.value?_eq_some_iff {d : Decimal} {q : ℚ} : d.value? = some q ↔
    d.places.length < 2 ^ 31 ∧ |d.exponent - d.places.length| ≤ 10000 ∧
      withSign d.negative (placeValue (d.whole ++ d.places)) *
        10 ^ (d.exponent - d.places.length) = q := by
  have habs (k : ℤ) : |k| ≤ 10000 ↔ k.natAbs ≤ maxShift := by
    rw [Int.abs_eq_natAbs, maxShift]
    omega
  simp only [value?, Option.map_eq_some_iff, Option.filter_eq_some_iff, shift?_eq_some_iff,
    decide_eq_true_eq, habs, scale_eq, placeValue_eq]
  constructor
  · rintro ⟨k, ⟨⟨hn, -, -, rfl⟩, hk⟩, hq⟩
    exact ⟨hn, hk, hq⟩
  · rintro ⟨hn, hk, hq⟩
    have hbound : (d.exponent - d.places.length).natAbs ≤ 10000 := hk
    exact ⟨_, ⟨⟨hn, by omega, by omega, rfl⟩, hk⟩, hq⟩

/-! ## Literals -/

variable {q : ℚ}

theorem isFraction_iff (ha : '/' ∉ a) : IsFraction (a ++ '/' :: b) q ↔ fraction? a b = some q := by
  rw [fraction?_eq_some_iff]
  constructor
  · intro h
    generalize hs : a ++ '/' :: b = s at h
    cases h with
    | @intro a' b' n d ha' hn hd hne =>
      have hsplit := splitFirst_char ha b
      rw [hs, splitFirst_char ha' b'] at hsplit
      cases hsplit
      exact ⟨n, d, hn, hd, hne, rfl⟩
  · rintro ⟨n, d, hn, hd, hne, rfl⟩
    exact .intro ha hn hd hne

theorem isDecimal_iff :
    (∃ n < 2 ^ 31, IsDecimal s n q) ↔ (decimal? s).bind Decimal.value? = some q := by
  simp only [Option.bind_eq_some_iff, Decimal.value?_eq_some_iff]
  constructor
  · rintro ⟨n, hn, h⟩
    cases h with
    | @intro m t whole places negative k hm ht hshift =>
      have hd := decimal?_eq_some_iff (d := ⟨negative, whole, places, k⟩).mpr ⟨m, t, rfl, hm, ht⟩
      exact ⟨_, hd, hn, hshift, rfl⟩
  · rintro ⟨d, hd, hn, hshift, rfl⟩
    obtain ⟨m, t, rfl, hm, ht⟩ := decimal?_eq_some_iff.mp hd
    exact ⟨_, hn, .intro hm ht hshift⟩

/-- **What is read without blanks.** -/
theorem ofChars?_eq_some_iff : ofChars? s = some q ↔ Denotes s q := by
  unfold ofChars? Denotes
  obtain ⟨hsplit, hs⟩ | ⟨a, b, hsplit, rfl, ha⟩ := splitFirst_char_cases '/' s
  · rw [hsplit, if_neg hs]
    exact isDecimal_iff.symm
  · rw [hsplit, if_pos (List.mem_append_right a List.mem_cons_self)]
    exact (isFraction_iff ha).symm

theorem read_eq_ok_iff {s : String} : read s = .ok q ↔ Denotes (trim s.toList) q := by
  rw [← ofChars?_eq_some_iff, read, ofText?]
  cases ofChars? (trim s.toList) <;> simp

theorem read_eq_error_iff {s : String} :
    read s = .error ⟨s⟩ ↔ ¬∃ q, Denotes (trim s.toList) q := by
  simp only [← ofChars?_eq_some_iff, read, ofText?]
  cases ofChars? (trim s.toList) <;> simp

/-- **What is read, and what is refused.** A literal is read as the number that it denotes between its
blanks; any other text is refused, and reported as it stands. -/
theorem read_grammar (s : String) : ∃ t, Encloses s.toList t ∧
    (∀ q, read s = .ok q ↔ Denotes t q) ∧ (read s = .error ⟨s⟩ ↔ ¬∃ q, Denotes t q) :=
  ⟨trim s.toList, encloses_trim s.toList, fun _ => read_eq_ok_iff, read_eq_error_iff⟩

example : read " +1_0/4\u2003" = .ok (5 / 2) ∧ read " 1_0 " = .error ⟨" 1_0 "⟩ := by decide +kernel

/-! ## Too many places -/

/-- Zero with so many places, and the largest exponent that can be read. -/
def longZero (n : ℕ) : List Char :=
  '0' :: '.' :: List.replicate n '0' ++ ['e', '2', '1', '4', '7', '4', '8', '3', '6', '4', '7']

variable {n : ℕ}

theorem isMantissa_longZero (n : ℕ) : IsMantissa ('0' :: '.' :: List.replicate n '0') false ['0']
    (List.replicate n '0') := by
  have hwhole : AreDigits ['0'] := fun c hc => by
    rw [List.mem_singleton.mp hc]
    rfl
  have hplaces : AreDigits (List.replicate n '0') := fun c hc => by
    rw [List.eq_of_mem_replicate hc]
    rfl
  exact .intro .absent hwhole (.given hplaces) nofun

theorem isExponent_longZero :
    IsExponent ['e', '2', '1', '4', '7', '4', '8', '3', '6', '4', '7'] 2147483647 :=
  .given (.inl rfl) (exponent?_eq_some_iff.mp (by decide))

theorem placeValue_replicate_zero (n : ℕ) : placeValue (List.replicate n '0') = 0 := by
  induction n with
  | zero => rfl
  | succ n ih => rw [List.replicate_succ, placeValue, ih, Nat.sub_self, Nat.zero_mul]

theorem isDecimal_longZero (hn : |2147483647 - (n : ℤ)| ≤ 10000) : IsDecimal (longZero n) n 0 := by
  have hvalue : placeValue (['0'] ++ List.replicate n '0') = 0 := placeValue_replicate_zero (n + 1)
  have h := IsDecimal.intro (isMantissa_longZero n) isExponent_longZero
    (by rwa [List.length_replicate])
  rw [List.length_replicate, hvalue, withSign, if_neg Bool.false_ne_true, Nat.cast_zero,
    Int.cast_zero, zero_mul] at h
  exact h

theorem slash_not_mem_longZero (n : ℕ) : '/' ∉ longZero n := by
  intro h
  rcases List.mem_append.mp h with h | h
  · have hn : ∀ c ∈ List.replicate n '0', c ≠ '/' := fun c hc => by
      rw [List.eq_of_mem_replicate hc]
      decide
    simp only [List.mem_cons, Char.reduceEq, false_or] at h
    exact hn '/' h rfl
  · exact absurd h (by decide)

theorem not_denotes_longZero (hn : 2 ^ 31 ≤ n) (q : ℚ) : ¬Denotes (longZero n) q := by
  have hparts : decimal? (longZero n) =
      some ⟨false, ['0'], List.replicate n '0', 2147483647⟩ :=
    decimal?_eq_some_iff.mpr ⟨_, _, rfl, isMantissa_longZero n, isExponent_longZero⟩
  rw [Denotes, if_neg (slash_not_mem_longZero n), isDecimal_iff, hparts, Option.bind_some,
    Decimal.value?_eq_some_iff, List.length_replicate]
  omega

theorem encloses_longZero (n : ℕ) : Encloses (longZero n) (longZero n) := by
  have h := Encloses.intro (a := []) (t := longZero n) (b := []) nofun nofun
    (fun c hc => by rw [← Option.some.inj hc]; decide) fun c hc => ?_
  · simpa using h
  · rw [longZero, List.getLast?_append] at hc
    rw [← Option.some.inj hc]
    decide

/-- It is refused if a signed word of 32 bits cannot count its places. -/
theorem read_longZero (hn : 2 ^ 31 ≤ n) (hshift : |2147483647 - (n : ℤ)| ≤ 10000) :
    ¬∀ q, read (String.ofList (longZero n)) = .ok q ↔
      if '/' ∈ longZero n then IsFraction (longZero n) q else ∃ n', IsDecimal (longZero n) n' q := by
  intro h
  have hread := (h 0).mpr
  rw [if_neg (slash_not_mem_longZero n), read_eq_ok_iff, String.toList_ofList,
    (encloses_longZero n).trim_eq] at hread
  exact not_denotes_longZero hn 0 (hread ⟨n, isDecimal_longZero hshift⟩)

/-- **The number of places has to be bounded.** With `2 ^ 31` of them a decimal is refused, even if its
exponent brings the point back. -/
theorem not_read_grammar :
    Encloses (String.ofList (longZero (2 ^ 31))).toList (longZero (2 ^ 31)) ∧
      ¬∀ q, read (String.ofList (longZero (2 ^ 31))) = .ok q ↔
        if '/' ∈ longZero (2 ^ 31) then IsFraction (longZero (2 ^ 31)) q
        else ∃ n, IsDecimal (longZero (2 ^ 31)) n q := by
  have hshift : |2147483647 - ((2 ^ 31 : ℕ) : ℤ)| ≤ 10000 := by
    rw [Int.abs_eq_natAbs]
    omega
  refine ⟨?_, read_longZero (Nat.le_refl _) hshift⟩
  rw [String.toList_ofList]
  exact encloses_longZero (2 ^ 31)

end ExactPresolve.Number
