import ExactPresolve.Number.Binary
import ExactPresolve.Number.Literal
import ExactPresolve.Toml.Reader
import ExactPresolve.Toml.Text

/-!
# TOML numbers, dates and times

Integers are kept exactly and have to fit into a signed word of 64 bits. Numbers with a fraction or
an exponent, dates and times are only recognised; a number must not be too large for binary
floating point, and a date has to exist.

* `decimalInteger?`, `integer?`: integers in base ten, and in any base;
* `float?`: numbers with a fraction or an exponent, infinities and what is not a number;
* `dateTime?`: dates, times, and both.
-/

namespace ExactPresolve.Toml

open Number

/-! ## Digits -/

/-- The digits of a class at the front, where an underscore may stand between two of them. The flag
tells whether the character before was a digit. -/
def groupedDigits (p : Char → Bool) : (inside : Bool) → List Char → List Char × List Char
  | _, [] => ([], [])
  | inside, c :: s =>
    if p c then
      let (ds, r) := groupedDigits p true s
      (c :: ds, r)
    else if inside ∧ c = '_' ∧ s.head?.any p then groupedDigits p false s
    else ([], c :: s)

/-- Reads at least one digit of a class, with underscores between digits. -/
def digits? (p : Char → Bool) : Reader (List Char) := fun s =>
  match groupedDigits p false s with
  | ([], _) => none
  | (ds, r) => some (ds, r)

/-! ## Integers -/

/-- Reads the sign and the digits of an integer in base ten. A leading zero stands alone. -/
def decimalInteger? : Reader (Bool × List Char) := fun s =>
  match splitSign s with
  | (negative, '0' :: r) => some ((negative, ['0']), r)
  | (negative, r) => (digits? Char.isDigit r).map fun (ds, r) => ((negative, ds), r)

def inWord (n : Int) : Option Int := if IsSigned64 n then some n else none

/-- Reads the digits of an integer in another base than ten. -/
def basedInteger? (base : Nat) : Reader Int := fun s => do
  let (ds, r) ← digits? (fun c => (hexDigit? c).any (· < base)) s
  let n := ds.foldl (fun n c => base * n + (hexDigit? c).getD 0) 0
  return (← inWord n, r)

def integer? : Reader Int
  | '0' :: 'x' :: s => basedInteger? 16 s
  | '0' :: 'o' :: s => basedInteger? 8 s
  | '0' :: 'b' :: s => basedInteger? 2 s
  | s => do
    let ((negative, ds), r) ← decimalInteger? s
    return (← inWord (withSign negative (ofDigits ds)), r)

/-! ## Numbers with a fraction or an exponent -/

def exponent? : Reader Int
  | c :: s =>
    if c = 'e' ∨ c = 'E' then
      let (negative, r) := splitSign s
      (digits? Char.isDigit r).map fun (ds, r) => (withSign negative (ofDigits ds), r)
    else none
  | [] => none

/-- The number is too large for a binary word of 64 bits. Whether it is can mostly be told from the
number of its digits before the point. -/
def isTooLarge (d : Decimal) : Bool :=
  let ds := (d.whole ++ d.places).dropWhile (· == '0')
  let shift := d.exponent - d.places.length
  let top := ds.length + shift
  if ds.isEmpty ∨ top < 300 then false
  else if 310 < top then true
  else binary64.encode (scale 10 (ofDigits ds) shift) == binary64.infinity

def special? (s : List Char) : Option (List Char) :=
  (literally ['i', 'n', 'f'] s).or (literally ['n', 'a', 'n'] s)

/-- Takes a number with a fraction or an exponent off the front. Only positive numbers are refused
for being too large. -/
def float? (s : List Char) : Option (List Char) :=
  match special? (splitSign s).2 with
  | some r => some r
  | none => do
    let ((negative, whole), r) ← decimalInteger? s
    let (places, r) ← match r with
      | '.' :: r => digits? Char.isDigit r
      | _ => some ([], r)
    let (exponent, r) ← match exponent? r with
      | some (e, r) => some (e, r)
      | none => if places.isEmpty then none else some (0, r)
    if !negative && isTooLarge ⟨negative, whole, places, exponent⟩ then none else some r

/-! ## Dates and times -/

def twoDigits? (high : Nat) : Reader Nat
  | a :: b :: s =>
    if a.isDigit ∧ b.isDigit ∧ ofDigits [a, b] ≤ high then some (ofDigits [a, b], s) else none
  | _ => none

def daysIn (year month : Nat) : Nat :=
  if month = 2 then
    if year % 4 = 0 ∧ (year % 100 ≠ 0 ∨ year % 400 = 0) then 29 else 28
  else if month = 4 ∨ month = 6 ∨ month = 9 ∨ month = 11 then 30
  else 31

def date? (s : List Char) : Option (List Char) := do
  let year := s.take 4
  if ¬(year.length = 4 ∧ year.all Char.isDigit) then none
  let s ← literally ['-'] (s.drop 4)
  let (month, s) ← twoDigits? 12 s
  let s ← literally ['-'] s
  let (day, s) ← twoDigits? (daysIn (ofDigits year) month) s
  if month = 0 ∨ day = 0 then none else some s

/-- Takes a time of day off the front. A minute may have a leap second. -/
def time? (s : List Char) : Option (List Char) := do
  let (_, s) ← twoDigits? 23 s
  let s ← literally [':'] s
  let (_, s) ← twoDigits? 59 s
  let s ← literally [':'] s
  let (_, s) ← twoDigits? 60 s
  match s with
  | '.' :: d :: r => if d.isDigit then some (r.dropWhile Char.isDigit) else some s
  | _ => some s

def offset? : List Char → Option (List Char)
  | c :: s =>
    if c = 'Z' ∨ c = 'z' then some s
    else if c = '+' ∨ c = '-' then do
      let (_, s) ← twoDigits? 23 s
      let s ← literally [':'] s
      let (_, s) ← twoDigits? 59 s
      return s
    else none
  | [] => none

/-- Takes the time and the offset that may follow a date off the front. -/
def timeAfterDate? : List Char → Option (List Char)
  | c :: s =>
    if c = 'T' ∨ c = 't' ∨ c = ' ' then (time? s).map fun r => (offset? r).getD r else none
  | [] => none

def dateTime? (s : List Char) : Option (List Char) :=
  match date? s with
  | some r => some ((timeAfterDate? r).getD r)
  | none => time? s

end ExactPresolve.Toml
