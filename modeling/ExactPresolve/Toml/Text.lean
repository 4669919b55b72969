import ExactPresolve.Toml.Reader

/-!
# TOML strings

Strings stand in double or in single quotes, on one line or, with the quotes tripled, on many.
Backslashes have a meaning in double quotes only. First the text between the quotes is cut out,
then its escapes are resolved and its characters are checked.

* `cut?`, `cutLines?`: the raw text of a string on one line and on many;
* `resolve?`: raw text with its escapes resolved;
* **`string?`**: the reader of all four forms.
-/

namespace ExactPresolve.Toml

/-! ## Cutting out raw text -/

/-- The raw text up to a quote. If there are escapes, a backslash protects what follows it. -/
def cut? (quote : Char) (escapes : Bool) : Reader (List Char)
  | [] => none
  | c :: s =>
    if c = quote then some ([], s)
    else if c == '\\' && escapes then
      match s with
      | [] => none
      | d :: s => (cut? quote escapes s).map fun (raw, r) => (c :: d :: raw, r)
    else (cut? quote escapes s).map fun (raw, r) => (c :: raw, r)

/-- At most two quotes, which belong to the text if three more have just ended it. -/
def lastQuotes (quote : Char) : List Char → List Char × List Char
  | c :: d :: s =>
    if c = quote then if d = quote then ([c, d], s) else ([c], d :: s) else ([], c :: d :: s)
  | [c] => if c = quote then ([c], []) else ([], [c])
  | [] => ([], [])

/-- The raw text up to three quotes. One or two quotes before these belong to the text. If there
are escapes, a backslash protects what follows it. -/
def cutLines? (quote : Char) (escapes : Bool) : Reader (List Char)
  | [] => none
  | c :: s =>
    if c = quote ∧ s.take 2 = [quote, quote] then some (lastQuotes quote (s.drop 2))
    else if c == '\\' && escapes then
      match s with
      | [] => none
      | d :: s => (cutLines? quote escapes s).map fun (raw, r) => (c :: d :: raw, r)
    else (cutLines? quote escapes s).map fun (raw, r) => (c :: raw, r)

/-! ## Resolving escapes -/

def hexDigit? (c : Char) : Option Nat :=
  if c.isDigit then some (c.toNat - '0'.toNat)
  else if 'a' ≤ c ∧ c ≤ 'f' then some (c.toNat - 'a'.toNat + 10)
  else if 'A' ≤ c ∧ c ≤ 'F' then some (c.toNat - 'A'.toNat + 10)
  else none

/-- The character whose code point is written with hexadecimal digits. -/
def codePoint? (cs : List Char) : Option Char := do
  let n ← cs.foldlM (fun n c => (hexDigit? c).map (16 * n + ·)) 0
  if n.isValidChar then some (Char.ofNat n) else none

/-- The character that a single letter after a backslash stands for. -/
def shortEscape? : Char → Option Char
  | 'b' => some '\x08'
  | 't' => some '\t'
  | 'n' => some '\n'
  | 'f' => some '\x0C'
  | 'r' => some '\r'
  | '"' => some '"'
  | '\\' => some '\\'
  | _ => none

/-- The characters of strings are those of comments. -/
def isTextChar (c : Char) : Bool := isCommentChar c

/-- A backslash at the end of a line stands before this text. -/
def startsWithBreak (s : List Char) : Bool := (lineBreak? (skipSpace s)).isSome

/-- The text that raw text stands for. The second flag tells whether a backslash at the end of a line
is dropping the white space and breaks that follow. -/
def resolve? (escapes lines : Bool) : (dropping : Bool) → List Char → Option (List Char)
  | _, [] => some []
  | dropping, c :: s =>
    if c == '\n' && lines then
      if dropping then resolve? escapes lines true s
      else (resolve? escapes lines false s).map ('\n' :: ·)
    else if c == '\r' && lines then
      if s.head? = some '\n' then resolve? escapes lines dropping s else none
    else if dropping && isSpace c then resolve? escapes lines true s
    else if c == '\\' && escapes then
      if lines && startsWithBreak s then resolve? escapes lines true s
      else match s with
        | 'u' :: a :: b :: c :: d :: s => do
          let x ← codePoint? [a, b, c, d]
          (resolve? escapes lines false s).map (x :: ·)
        | 'U' :: a :: b :: c :: d :: e :: f :: g :: h :: s => do
          let x ← codePoint? [a, b, c, d, e, f, g, h]
          (resolve? escapes lines false s).map (x :: ·)
        | c :: s => do
          let x ← shortEscape? c
          (resolve? escapes lines false s).map (x :: ·)
        | [] => none
    else if isTextChar c then (resolve? escapes lines false s).map (c :: ·)
    else none

/-! ## Strings -/

def lineString? (quote : Char) (escapes : Bool) : Reader (List Char) := fun s => do
  let (raw, r) ← cut? quote escapes s
  return (← resolve? escapes false false raw, r)

/-- Reads a string on many lines, after its opening quotes. A line break right there is dropped. -/
def linesString? (quote : Char) (escapes : Bool) : Reader (List Char) := fun s => do
  let (raw, r) ← cutLines? quote escapes ((lineBreak? s).getD s)
  return (← resolve? escapes true false raw, r)

/-- Reads a string on one line, in either kind of quotes. -/
def keyString? : Reader (List Char)
  | '"' :: s => lineString? '"' true s
  | '\'' :: s => lineString? '\'' false s
  | _ => none

def string? : Reader (List Char)
  | '"' :: '"' :: '"' :: s => linesString? '"' true s
  | '\'' :: '\'' :: '\'' :: s => linesString? '\'' false s
  | s => keyString? s

end ExactPresolve.Toml
