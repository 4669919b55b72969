/-!
# TOML values

The tree of values that a TOML document describes, and the rules by which the lines of a document
add to it.

* `Value`, `Entries`: values, and the keys of a table with their values;
* `Origin`: how a table came about, which decides what may still be added to it;
* `assign`: a key with its value added to a table, along a dotted path;
* `within`: the table that a header leads to, changed by a function;
* `addTable`, `addElement`: a table of its own, and an element of an array of tables, added.
-/

namespace ExactPresolve.Toml

abbrev Key := List Char

/-- How a table came about. -/
inductive Origin where
  /-- It is written as a value, in braces. Nothing can be added to it. -/
  | inline
  /-- It has a header of its own. -/
  | header
  /-- It lies on the way to a table with a header. A header of its own may follow. -/
  | implied
  /-- It lies on the way of a dotted key. Dotted keys in the same table may add to it. -/
  | dotted
  deriving DecidableEq, Repr

/-- A TOML value. Of numbers with a fraction and of dates and times only their kind is kept. -/
inductive Value where
  | string (text : List Char)
  | integer (n : Int)
  | float
  | boolean (b : Bool)
  | dateTime
  | array (items : List Value)
  | table (origin : Origin) (entries : List (Key × Value))
  /-- An array of tables, written with headers in double brackets. -/
  | tables (earlier : List (List (Key × Value))) (last : List (Key × Value))

/-- The content of a table, in which no key occurs twice. -/
abbrev Entries := List (Key × Value)

namespace Entries

def find? (es : Entries) (k : Key) : Option Value := (List.find? (·.1 == k) es).map (·.2)

/-- The entries with the value of a key added or replaced. -/
def put (k : Key) (v : Value) : Entries → Entries
  | [] => [(k, v)]
  | e :: es => if e.1 == k then (k, v) :: es else e :: put k v es

/-- The entries with a value for a key that has none yet. -/
def addNew (es : Entries) (k : Key) (v : Value) : Option Entries :=
  match es.find? k with
  | none => some (es.put k v)
  | some _ => none

/-! ## Keys with values -/

/-- Adds a value under a dotted path, whose tables are made as needed. The flag tells whether the table
that has been reached may be added to. -/
def assignAt (extensible : Bool) : List Key → Key → Value → Entries → Option Entries
  | [], k, v, es => if extensible then es.addNew k v else none
  | p :: path, k, v, es =>
    match es.find? p with
    | none => (assignAt true path k v []).map fun sub => es.put p (.table .dotted sub)
    | some (.table .dotted sub) =>
      (assignAt true path k v sub).map fun sub => es.put p (.table .dotted sub)
    | some (.table .implied sub) =>
      (assignAt false path k v sub).map fun sub => es.put p (.table .implied sub)
    | some (.tables earlier last) =>
      (assignAt false path k v last).map fun last => es.put p (.tables earlier last)
    | some _ => none

end Entries

structure Path where
  parents : List Key
  last : Key

structure Assignment where
  path : Path
  value : Value

namespace Entries

/-- Adds an assignment to the table in which it is written. -/
def assign (es : Entries) (a : Assignment) : Option Entries :=
  assignAt true a.path.parents a.path.last a.value es

def assignAll (es : Entries) (as : List Assignment) : Option Entries := as.foldlM assign es

/-! ## Headers -/

/-- Changes the table that the keys of a header lead to. Tables on the way are made as needed, and
an array of tables stands for its last element. -/
def within (change : Entries → Option Entries) : List Key → Entries → Option Entries
  | [], es => change es
  | k :: path, es =>
    match es.find? k with
    | none => (within change path []).map fun sub => es.put k (.table .implied sub)
    | some (.table .inline _) => none
    | some (.table origin sub) =>
      (within change path sub).map fun sub => es.put k (.table origin sub)
    | some (.tables earlier last) =>
      (within change path last).map fun last => es.put k (.tables earlier last)
    | some _ => none

/-- Adds a table with a header of its own and the assignments below it. The table must be new, but
for headers that already passed through it. -/
def addTable (path : Path) (content : List Assignment) : Entries → Option Entries :=
  within (fun es =>
    match es.find? path.last with
    | none => (assignAll [] content).map fun sub => es.put path.last (.table .header sub)
    | some (.table .implied sub) =>
      (assignAll sub content).map fun sub => es.put path.last (.table .header sub)
    | some _ => none) path.parents

/-- Adds an element with the assignments below its header to an array of tables. -/
def addElement (path : Path) (content : List Assignment) : Entries → Option Entries :=
  within (fun es =>
    match es.find? path.last with
    | none => (assignAll [] content).map fun sub => es.put path.last (.tables [] sub)
    | some (.tables earlier last) =>
      (assignAll [] content).map fun sub =>
        es.put path.last (.tables (earlier ++ [last]) sub)
    | some _ => none) path.parents

end Entries

end ExactPresolve.Toml
