/-!
# Numbers as text

A number is written in lowest terms: the numerator with its sign, then, unless it is one, a slash
and the denominator. Zero has no sign.

* `digits`, `naturalText`: the decimal digits of a natural number;
* `integerChars`, `chars`: the characters of an integer and of a number;
* **`text`**: the text of a number;
* `mem_integerChars`, `mem_chars`: which characters occur in it.
-/

namespace ExactPresolve.Number

/-- The decimal digits of a natural number, without leading zeros. -/
def digits (n : Nat) : List Char := Nat.toDigits 10 n

def naturalText (n : Nat) : String := String.ofList (digits n)

def integerChars (n : Int) : List Char :=
  if n < 0 then '-' :: digits n.natAbs else digits n.natAbs

def chars (q : Rat) : List Char :=
  if q.den = 1 then integerChars q.num else integerChars q.num ++ '/' :: digits q.den

/-- The text of a number in lowest terms. -/
def text (q : Rat) : String := String.ofList (chars q)

/-! ## Characters of the text -/

variable {c : Char} {n : Nat} {k : Int} {q : Rat}

theorem isDigit_of_mem_digits (h : c ∈ digits n) : c.isDigit = true :=
  Nat.isDigit_of_mem_toDigits (by decide) (by decide) h

theorem mem_integerChars (h : c ∈ integerChars k) : c.isDigit = true ∨ c = '-' := by
  unfold integerChars at h
  split at h
  · rcases List.mem_cons.mp h with h | h
    · exact .inr h
    · exact .inl (isDigit_of_mem_digits h)
  · exact .inl (isDigit_of_mem_digits h)

theorem slash_not_mem_integerChars (k : Int) : '/' ∉ integerChars k := fun h =>
  absurd (mem_integerChars h) (by decide)

theorem mem_chars (h : c ∈ chars q) : c.isDigit = true ∨ c = '-' ∨ c = '/' := by
  have hnum (h : c ∈ integerChars q.num) : c.isDigit = true ∨ c = '-' ∨ c = '/' :=
    (mem_integerChars h).imp_right .inl
  unfold chars at h
  split at h
  · exact hnum h
  · rcases List.mem_append.mp h with h | h
    · exact hnum h
    · rcases List.mem_cons.mp h with h | h
      · exact .inr (.inr h)
      · exact .inl (isDigit_of_mem_digits h)

end ExactPresolve.Number
