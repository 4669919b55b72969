/-!
# Readers

A reader takes something off the front of a text and leaves the rest. The readers of TOML are put
together from the few operations here.

* `Reader`: the type;
* `many`, `separated`: something again and again, with or without a separator;
* `literally`: a fixed text;
* `skipSpace`, `endLine?`, `skipLines`: white space, the end of a line with its comment, and both
  over many lines.
-/

namespace ExactPresolve.Toml

/-- Takes something off the front of a text, if it is there. -/
abbrev Reader (α : Type) := List Char → Option (α × List Char)

variable {α : Type}

def manyUpTo (p : Reader α) : Nat → List Char → List α × List Char
  | 0, s => ([], s)
  | n + 1, s =>
    match p s with
    | none => ([], s)
    | some (a, r) =>
      let (as, r) := manyUpTo p n r
      (a :: as, r)

/-- Reads as often as possible. The reader takes something off each time, so the length of the text
bounds how often. -/
def many (p : Reader α) (s : List Char) : List α × List Char := manyUpTo p s.length s

/-- Reads what follows a character. -/
def after (c : Char) (p : Reader α) : Reader α
  | d :: s => if d = c then p s else none
  | [] => none

/-- Reads as often as possible with a separator in between. A separator that nothing follows is
left where it is. -/
def separated (c : Char) (p : Reader α) (s : List Char) : List α × List Char :=
  match p s with
  | none => ([], s)
  | some (a, r) =>
    let (as, r) := many (after c p) r
    (a :: as, r)

def literally : List Char → List Char → Option (List Char)
  | [], s => some s
  | c :: cs, d :: s => if c = d then literally cs s else none
  | _ :: _, [] => none

/-! ## White space, comments and lines -/

def isSpace (c : Char) : Bool := c == ' ' || c == '\t'

/-- The characters of comments: all but control characters, and the tab. -/
def isCommentChar (c : Char) : Bool := c == '\t' || (0x20 ≤ c.toNat && c.toNat != 0x7F)

def skipSpace (s : List Char) : List Char := s.dropWhile isSpace

def lineBreak? : List Char → Option (List Char)
  | '\n' :: s => some s
  | '\r' :: '\n' :: s => some s
  | _ => none

def skipComment : List Char → List Char
  | '#' :: s => s.dropWhile isCommentChar
  | s => s

/-- Takes the rest of a line off the front, which holds white space and perhaps a comment. A line
may also end with the text. -/
def endLine? (s : List Char) : Option (List Char) :=
  match skipComment (skipSpace s) with
  | [] => some []
  | r => lineBreak? r

/-- Drops white space, comments and line breaks. The flag tells whether a comment has begun. -/
def skipLinesFrom : (comment : Bool) → List Char → List Char
  | _, [] => []
  | comment, c :: s =>
    if comment && isCommentChar c then skipLinesFrom true s
    else if isSpace c || c == '\n' then skipLinesFrom false s
    else if c == '\r' && s.head? == some '\n' then skipLinesFrom false s
    else if c == '#' then skipLinesFrom true s
    else c :: s

def skipLines (s : List Char) : List Char := skipLinesFrom false s

end ExactPresolve.Toml
