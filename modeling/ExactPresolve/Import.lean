import ExactPresolve.Settings
import ExactPresolve.Text

/-!
# Options from files

Options are read from files whose name ends in `.toml`. Looking up a file is left to the caller,
who passes the contents on, if there are any.

* `FileName.ofPath?`, `FileName.extension?`: the last component of a path, and what follows its
  last dot;
* `ImportError`, `ImportError.message?`: why a file gives no options;
* **`Options.ofFile`**: the options of a file.
-/

namespace ExactPresolve

namespace FileName

def components : List Char → List (List Char)
  | [] => [[]]
  | c :: s =>
    if c = '/' then [] :: components s
    else match components s with
      | part :: parts => (c :: part) :: parts
      | [] => [[c]]

/-- The last component of a path that names something, unless it is the parent directory. Empty
components and those for the directory itself name nothing. -/
def ofPath? (path : List Char) : Option (List Char) :=
  ((components path).filter fun part => part ≠ [] ∧ part ≠ ['.']).getLast?.filter (· ≠ ['.', '.'])

/-- What follows the last dot of a file name. A dot at the start of the name does not count. -/
def extension? (name : List Char) : Option (List Char) :=
  let stem := (name.reverse.dropWhile (· ≠ '.')).tail
  if stem = [] then none else some (name.reverse.takeWhile (· ≠ '.')).reverse

end FileName

/-- Why a file gives no options. -/
inductive ImportError where
  /-- The name of the file at this path has an extension that is not known. -/
  | unknownExtension (extension path : String)
  /-- The path does not end in a file name with an extension. -/
  | noExtension (path : String)
  | unreadable
  | settings (cause : SettingsError)
  deriving DecidableEq, Repr

/-- The sentence that tells why there are no options, if it says more than the kind of the error. -/
def ImportError.message? : ImportError → Option String
  | unknownExtension extension path =>
    some ("Could not recognise file extension \"" ++ extension ++ "\" of file: " ++
      String.ofList (Text.quoted path.toList))
  | noExtension path =>
    some ("Could not read extension from file path: " ++
      String.ofList (Text.quoted path.toList))
  | unreadable => none
  | settings cause => cause.message?

/-- The options of the file at a path, whose contents are given if it can be read. -/
def Options.ofFile (path : String) (contents : Option String) : Except ImportError Options :=
  match (FileName.ofPath? path.toList).bind FileName.extension? with
  | none => .error (.noExtension path)
  | some extension =>
    if extension = ['t', 'o', 'm', 'l'] then
      match contents with
      | some text => (ofText text).mapError .settings
      | none => .error .unreadable
    else .error (.unknownExtension (String.ofList extension) path)

end ExactPresolve
