import ExactPresolve.Number.Basic
import Mathlib.Algebra.Order.Group.Unbundled.Int
import Mathlib.Data.Rat.Lemmas

/-!
# The grammar of number literals

The grammar says which texts are number literals and which number each of them denotes. It does not
refer to the functions that read numbers.

* `placeValue`: the number that decimal digits denote;
* `IsSign`, `IsInteger`, `IsFraction`: fractions and their parts;
* `IsMantissa`, `IsExponent`, `IsDecimal`: decimals and their parts;
* **`Denotes`**: literals without blanks around them;
* `IsSign.not_mem`, `IsPlaces.not_mem`, `IsMantissa.not_mem`: characters that do not occur in a part.
-/

namespace ExactPresolve.Number

/-! ## Fractions -/

/-- The number that decimal digits denote. A digit counts by the power of ten of its place. -/
def placeValue : List Char → ℕ
  | [] => 0
  | c :: s => (c.toNat - '0'.toNat) * 10 ^ s.length + placeValue s

/-- At most one sign, and whether it is a minus sign. -/
inductive IsSign : List Char → Bool → Prop
  | absent : IsSign [] false
  | plus : IsSign ['+'] false
  | minus : IsSign ['-'] true

def AreDigits (s : List Char) : Prop := ∀ c ∈ s, c.isDigit = true

/-- An integer literal: at most one sign, a digit, then digits and underscores. -/
inductive IsInteger : List Char → ℤ → Prop
  | intro {sign s : List Char} {negative : Bool} {c : Char} (hsign : IsSign sign negative)
      (hc : c.isDigit = true) (hs : ∀ d ∈ s, d.isDigit = true ∨ d = '_') :
      IsInteger (sign ++ c :: s) (withSign negative (placeValue ((c :: s).filter (· ≠ '_'))))

/-- A fraction: two integer literals around the first slash, the second one not zero. -/
inductive IsFraction : List Char → ℚ → Prop
  | intro {s t : List Char} {n d : ℤ} (hfirst : '/' ∉ s) (hn : IsInteger s n)
      (hd : IsInteger t d) (hne : d ≠ 0) : IsFraction (s ++ '/' :: t) (n / d)

/-! ## Decimals -/

/-- Nothing, or a point and digits. -/
inductive IsPlaces : (s places : List Char) → Prop
  | absent : IsPlaces [] []
  | given {places : List Char} (h : AreDigits places) : IsPlaces ('.' :: places) places

/-- At most one sign, digits, and perhaps a point and more digits, with at least one digit in all. -/
inductive IsMantissa : List Char → (negative : Bool) → (whole places : List Char) → Prop
  | intro {sign whole point places : List Char} {negative : Bool} (hsign : IsSign sign negative)
      (hwhole : AreDigits whole) (hplaces : IsPlaces point places) (hne : whole ++ places ≠ []) :
      IsMantissa (sign ++ whole ++ point) negative whole places

/-- At most one sign and digits, for an integer that a signed word of 32 bits can hold. -/
inductive IsWord : List Char → ℤ → Prop
  | intro {sign s : List Char} {negative : Bool} (hsign : IsSign sign negative) (hs : AreDigits s)
      (hne : s ≠ []) (hlow : -2 ^ 31 ≤ withSign negative (placeValue s))
      (hhigh : withSign negative (placeValue s) < 2 ^ 31) :
      IsWord (sign ++ s) (withSign negative (placeValue s))

/-- Nothing, or the letter `e` in either case and a word. -/
inductive IsExponent : List Char → ℤ → Prop
  | absent : IsExponent [] 0
  | given {c : Char} {s : List Char} {k : ℤ} (hmark : c = 'e' ∨ c = 'E') (hk : IsWord s k) :
      IsExponent (c :: s) k

/-- A decimal with so many places: a mantissa, and perhaps an exponent that moves the point not too
far. -/
inductive IsDecimal : List Char → ℕ → ℚ → Prop
  | intro {s t whole places : List Char} {negative : Bool} {k : ℤ}
      (hm : IsMantissa s negative whole places) (hk : IsExponent t k)
      (hshift : |k - places.length| ≤ 10000) :
      IsDecimal (s ++ t) places.length
        (withSign negative (placeValue (whole ++ places)) * 10 ^ (k - places.length))

/-! ## Literals -/

/-- The text without blanks around it denotes the number. Text with a slash has to be a fraction, and
the places of a decimal are counted by a signed word of 32 bits. -/
def Denotes (s : List Char) (q : ℚ) : Prop :=
  if '/' ∈ s then IsFraction s q else ∃ n < 2 ^ 31, IsDecimal s n q

/-! ## Characters of the parts -/

variable {s t : List Char} {c d : Char}

theorem ne_of_isDigit (hc : c.isDigit = true) (hd : d.isDigit = false) : c ≠ d := by
  rintro rfl
  exact Bool.false_ne_true (hd.symm.trans hc)

theorem AreDigits.not_mem (hs : AreDigits s) (hd : d.isDigit = false) : d ∉ s := fun h =>
  ne_of_isDigit (hs d h) hd rfl

theorem IsSign.not_mem {negative : Bool} (h : IsSign s negative) (hc : c ∉ ['+', '-']) : c ∉ s := by
  cases h with
  | absent => exact List.not_mem_nil
  | plus => exact fun h => hc (List.mem_cons.mpr (.inl (List.mem_singleton.mp h)))
  | minus => exact fun h => hc (List.mem_cons_of_mem _ h)

theorem IsPlaces.areDigits (h : IsPlaces s t) : AreDigits t := by
  cases h with
  | absent => exact nofun
  | given h => exact h

theorem IsPlaces.not_mem (h : IsPlaces s t) (hd : d.isDigit = false) (hpoint : d ≠ '.') : d ∉ s := by
  cases h with
  | absent => exact List.not_mem_nil
  | given h => exact List.not_mem_cons_of_ne_of_not_mem hpoint (h.not_mem hd)

theorem IsMantissa.not_mem {negative : Bool} {whole places : List Char}
    (h : IsMantissa s negative whole places) (hd : d.isDigit = false) (hd' : d ∉ ['+', '-', '.']) :
    d ∉ s := by
  cases h with
  | intro hsign hwhole hplaces =>
    have hs : d ∉ ['+', '-'] := fun h => hd' (List.mem_append_left ['.'] h)
    have hp : d ≠ '.' := fun h => hd' (by simp [h])
    rw [List.mem_append, List.mem_append]
    rintro ((h | h) | h)
    · exact hsign.not_mem hs h
    · exact hwhole.not_mem hd h
    · exact hplaces.not_mem hd hp h

end ExactPresolve.Number
