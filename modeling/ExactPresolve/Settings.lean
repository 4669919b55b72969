import ExactPresolve.Event
import ExactPresolve.Number.Literal
import ExactPresolve.Model
import ExactPresolve.Toml.Document

/-!
# Settings

Options can be written down as a TOML document with a single table:

    [presolve]
    slack = "1/1000"
    iteration_limit = 50

The slack is a string, so that it is read exactly, or an integer. What is left out keeps its
standard value. The table may also be written as an array of its values in this order. How a
document is read is left to a parameter, for which TOML 1.0 is the reader in use.

* `Settings`, `Settings.ofText?`: what a document says, before the slack is judged;
* `SettingsError`, `SettingsError.message?`: why a document gives no options;
* **`Options.ofSettings`**, `Options.ofDocument`: the options of settings, and of a document, for any
  reader of documents;
* `Options.ofText`: the options of a document read by `Settings.ofText?`.
-/

namespace ExactPresolve

inductive SlackLiteral where
  | integer (n : Int)
  | text (s : String)
  deriving DecidableEq, Repr

/-- What a document says about options. -/
structure Settings where
  slack : Option SlackLiteral
  iterationLimit : Option Nat
  deriving DecidableEq, Repr

namespace Settings

open Toml

/-- A slack is an integer or a string. -/
def slack? : Value → Option SlackLiteral
  | .integer n => some (.integer n)
  | .string s => some (.text (String.ofList s))
  | _ => none

/-- A limit on the number of passes is an integer that is not negative. -/
def iterationLimit? : Value → Option Nat
  | .integer n => n.toNat?
  | _ => none

def optional {α : Type} (read : Value → Option α) : Option Value → Option (Option α)
  | none => some none
  | some v => (read v).map some

def ofValues? (slack iterationLimit : Option Value) : Option Settings := do
  return ⟨← optional slack? slack, ← optional iterationLimit? iterationLimit⟩

def tableKey : Key := ['p', 'r', 'e', 's', 'o', 'l', 'v', 'e']

def slackKey : Key := ['s', 'l', 'a', 'c', 'k']

def iterationLimitKey : Key :=
  ['i', 't', 'e', 'r', 'a', 't', 'i', 'o', 'n', '_', 'l', 'i', 'm', 'i', 't']

/-- The settings in a table, or in an array, of which only the first two values count. A table has
no other keys. -/
def ofValue? : Value → Option Settings
  | .table _ es =>
    if es.all fun e => e.1 == slackKey || e.1 == iterationLimitKey then
      ofValues? (Entries.find? es slackKey) (Entries.find? es iterationLimitKey)
    else none
  | .array items => ofValues? items[0]? items[1]?
  | _ => none

/-- The settings in the outermost table of a document, which has one key at most. -/
def ofEntries? : Entries → Option Settings
  | [] => some ⟨none, none⟩
  | [(k, v)] => if k = tableKey then ofValue? v else none
  | _ => none

def ofText? (s : String) : Option Settings := (document? s.toList).bind ofEntries?

end Settings

/-- Why a document gives no options. -/
inductive SettingsError where
  /-- The text is not a TOML document, or it does not have the expected shape. -/
  | malformed
  /-- The slack is written as a string that denotes no number. -/
  | invalidSlack (literal : Number.LiteralError)
  | negativeSlack (slack : Rat)
  deriving DecidableEq, Repr

/-- The sentence that tells why there are no options, if it says more than the kind of the error. -/
def SettingsError.message? : SettingsError → Option String
  | malformed => none
  | invalidSlack e => some ("invalid slack \"" ++ e.literal ++ "\": " ++ e.message)
  | negativeSlack q => some ("slack can't be negative, got " ++ Number.text q)

def SlackLiteral.number : SlackLiteral → Except SettingsError Rat
  | integer n => .ok n
  | text s => (Number.read s).mapError .invalidSlack

namespace Options

/-- The options with another slack, which may not be negative. -/
def withSlack (o : Options) (slack : Rat) : Except SettingsError Options :=
  if slack < 0 then .error (.negativeSlack slack) else .ok { o with slack }

/-- The options of settings. What is missing keeps its standard value. -/
def ofSettings (s : Settings) : Except SettingsError Options := do
  let o : Options := { standard with
    iterationLimit := s.iterationLimit.or standard.iterationLimit }
  match s.slack with
  | some literal => o.withSlack (← literal.number)
  | none => return o

/-- The options of a document, where `toml` tells what documents say. -/
def ofDocument (toml : String → Option Settings) (document : String) :
    Except SettingsError Options :=
  match toml document with
  | some settings => ofSettings settings
  | none => .error .malformed

def ofText (s : String) : Except SettingsError Options := ofDocument Settings.ofText? s

def readEvent (o : Options) : Event := .optionsRead o.slack o.iterationLimit

end Options

end ExactPresolve
