import ExactPresolve.Toml.Number
import ExactPresolve.Toml.Text
import ExactPresolve.Toml.Value

/-!
# TOML documents

A document begins with assignments to its outermost table. Each header then begins a section, to
whose table the assignments below it belong.

* `key?`, `path?`: a key, and keys joined by dots;
* `scalar?`, `array?`, `inlineTable?`, `value?`: values, where arrays and inline tables may be
  nested up to `maxDepth`;
* `Line`, `line?`, `lines?`: what the lines of a document say;
* `Section`, `sections`: the lines of a document in groups;
* **`document?`**: the entries of the outermost table of a document.
-/

namespace ExactPresolve.Toml

/-- The number of arrays and inline tables that may stand inside each other, and the number of keys
that dots may join. -/
def maxDepth : Nat := 79

/-! ## Keys -/

def isBareChar (c : Char) : Bool := c.isAlphanum || c == '-' || c == '_'

def key? : Reader Key := fun s =>
  match keyString? s with
  | some (k, r) => some (k, r)
  | none =>
    let k := s.takeWhile isBareChar
    if k.isEmpty then none else some (k, s.dropWhile isBareChar)

def spacedKey? : Reader Key := fun s =>
  (key? (skipSpace s)).map fun (k, r) => (k, skipSpace r)

/-- Reads keys joined by dots, of which there are at most `maxDepth`. -/
def path? : Reader Path := fun s =>
  let (keys, r) := separated '.' spacedKey? s
  match keys.getLast? with
  | some last => if keys.length ≤ maxDepth then some (⟨keys.dropLast, last⟩, r) else none
  | none => none

/-! ## Values -/

def numeric? : Reader Value := fun s =>
  match dateTime? s with
  | some r => some (.dateTime, r)
  | none =>
    match float? s with
    | some r => some (.float, r)
    | none => (integer? s).map fun (n, r) => (.integer n, r)

def scalar? : Reader Value := fun s =>
  match string? s with
  | some (text, r) => some (.string text, r)
  | none =>
    match literally ['t', 'r', 'u', 'e'] s, literally ['f', 'a', 'l', 's', 'e'] s with
    | some r, _ => some (.boolean true, r)
    | _, some r => some (.boolean false, r)
    | none, none => numeric? s

/-- Reads an array after its opening bracket. Line breaks and comments may stand around its values,
and a comma after the last one. -/
def array? (value : Reader Value) : Reader Value := fun s =>
  let item : Reader Value := fun s => (value (skipLines s)).map fun (v, r) => (v, skipLines r)
  let (items, r) := separated ',' item s
  let r := if items.isEmpty then r else (literally [','] r).getD r
  (literally [']'] (skipLines r)).map fun r => (.array items, r)

def assignment? (value : Reader Value) : Reader Assignment := fun s => do
  let (path, s) ← path? s
  let s ← literally ['='] s
  let (v, r) ← value (skipSpace s)
  return (⟨path, v⟩, r)

/-- Reads an inline table after its opening brace. It stands on one line, and no comma follows its
last value. -/
def inlineTable? (value : Reader Value) : Reader Value := fun s => do
  let item : Reader Assignment := fun s =>
    (assignment? value s).map fun (a, r) => (a, skipSpace r)
  let (items, r) := separated ',' item s
  let r ← literally ['\x7d'] (skipSpace r)
  return (.table .inline (← Entries.assignAll [] items), r)

/-- Reads a value in which at most `depth` arrays and inline tables stand inside each other. -/
def value? : (depth : Nat) → Reader Value
  | 0, s => scalar? s
  | depth + 1, s =>
    match s with
    | '[' :: r => array? (value? depth) r
    | '\x7b' :: r => inlineTable? (value? depth) r
    | _ => scalar? s

/-! ## Lines -/

/-- What a line of a document says. -/
inductive Line where
  | blank
  | assignment (a : Assignment)
  | table (path : Path)
  | element (path : Path)

/-- Reads a line without its end. An empty text is no line. -/
def lineContent? : Reader Line := fun s =>
  match skipSpace s with
  | '[' :: '[' :: r => do
    let (path, r) ← path? r
    return (.element path, ← literally [']', ']'] r)
  | '[' :: r => do
    let (path, r) ← path? r
    return (.table path, ← literally [']'] r)
  | [] => if s.isEmpty then none else some (.blank, [])
  | c :: r =>
    if c = '#' ∨ c = '\n' ∨ c = '\r' then some (.blank, c :: r)
    else (assignment? (value? maxDepth) (c :: r)).map fun (a, r) => (.assignment a, r)

def line? : Reader Line := fun s => do
  let (line, r) ← lineContent? s
  return (line, ← endLine? r)

def lines? (s : List Char) : Option (List Line) :=
  match many line? s with
  | (lines, []) => some lines
  | _ => none

/-! ## Documents -/

structure Section where
  /-- The header stands for an element of an array of tables. -/
  isElement : Bool
  path : Path
  content : List Assignment

/-- The assignments before the first header, and the sections. -/
def sections : List Line → List Assignment × List Section
  | [] => ([], [])
  | .blank :: lines => sections lines
  | .assignment a :: lines =>
    let (content, rest) := sections lines
    (a :: content, rest)
  | .table path :: lines =>
    let (content, rest) := sections lines
    ([], ⟨false, path, content⟩ :: rest)
  | .element path :: lines =>
    let (content, rest) := sections lines
    ([], ⟨true, path, content⟩ :: rest)

def Entries.addSection (es : Entries) (s : Section) : Option Entries :=
  if s.isElement then es.addElement s.path s.content else es.addTable s.path s.content

def dropMark : List Char → List Char
  | '\uFEFF' :: s => s
  | s => s

/-- The entries of the outermost table of a document, if the text is one. -/
def document? (s : List Char) : Option Entries := do
  let (content, rest) := sections (← lines? (dropMark s))
  rest.foldlM Entries.addSection (← Entries.assignAll [] content)

end ExactPresolve.Toml
