import YamlLocator.Files.Access
import YamlLocator.KeyMatch
import YamlLocator.Location

/-!
# Looking Up Keys in Files

From a file and a key path to a location. The steps come in a fixed order: the path is
read, then the file, then its document, then the path is followed, and only for a key
that was found is the absolute path of the file asked for. The first step that fails
decides about the error.

That a key is not there is no error.

## Main definitions

* `LookupError`: Why a lookup fails.
* `LookupError.message`, `LookupError.isNotFound`: Its wording, and whether the file is
  missing.
* `lookup`: The location of a key in a file.
-/

namespace YamlLocator

/-- Why a lookup fails. -/
inductive LookupError where
  /-- The file cannot be had. -/
  | file (path : String) (cause : FileError)
  /-- The file holds no YAML. -/
  | parse (path : String) (cause : Yaml.ParseError)
  /-- The key path addresses no key. -/
  | keyPath (text reason : String)
deriving DecidableEq, Repr

namespace LookupError

/-- The wording of an error. -/
def message : LookupError → String
  | .file path cause => "failed to read " ++ path ++ ": " ++ cause.message
  | .parse path cause => "failed to parse YAML file " ++ path ++ ": " ++ cause.message
  | .keyPath text reason => "invalid key path '" ++ text ++ "': " ++ reason

/-- Whether the file is missing, rather than unreadable. -/
def isNotFound : LookupError → Bool
  | .file _ cause => cause.kind = .notFound
  | _ => false

/-- An error in a key path. -/
def ofKeyPathError (e : KeyPath.Error) : LookupError := .keyPath e.text e.fault.message

end LookupError

/-- The location of a key in a file, if the key is found. -/
def lookup {m : Type → Type} [Monad m] (files : FileAccess m) (file keyPath : String)
    (withColumn : Bool) : m (Except LookupError (Option Location)) := do
  match KeyPath.parse keyPath with
  | .error e => return .error (.ofKeyPathError e)
  | .ok path =>
    match ← files.read file with
    | .error e => return .error (.file file e)
    | .ok text =>
      match path.find text with
      | .error e => return .error (.parse file e)
      | .ok none => return .ok none
      | .ok (some found) =>
        match ← files.canonicalize file with
        | .error e => return .error (.file file e)
        | .ok absolute => return .ok (some (Location.ofSpan text found.span absolute withColumn))

end YamlLocator
