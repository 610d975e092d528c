/-!
# Access to Files

What a lookup asks of a file system: the contents of a file as text, and the absolute
path of a file without dots and links. Either may fail for reasons that belong to the
file system; what matters of an error is whether the file is missing, and how to word it.

The two operations may have effects, which is what `m` stands for.

## Main definitions

* `FileError`: Why a file cannot be had.
* `decodeText`: The text that the contents of a file spell.
* `FileAccess`: The two operations.
-/

namespace YamlLocator

/-- The kinds of reasons for which a file cannot be had. -/
inductive FileErrorKind where
  | notFound
  | permissionDenied
  | invalidData
  | other
deriving DecidableEq, Repr

/-- Why a file cannot be had. -/
structure FileError where
  kind : FileErrorKind
  /-- The reason in the words of the system. -/
  message : String
deriving DecidableEq, Repr

namespace FileError

/-- There is no such file. -/
def notFound : FileError :=
  { kind := .notFound, message := "No such file or directory (os error 2)" }

/-- The file may not be read. -/
def permissionDenied : FileError :=
  { kind := .permissionDenied, message := "Permission denied (os error 13)" }

/-- Something on the way to the file is not a directory. -/
def notADirectory : FileError :=
  { kind := .other, message := "Not a directory (os error 20)" }

/-- The file is a directory. -/
def isADirectory : FileError :=
  { kind := .other, message := "Is a directory (os error 21)" }

/-- The file does not hold text. -/
def invalidText : FileError :=
  { kind := .invalidData, message := "stream did not contain valid UTF-8" }

end FileError

/-- The text that the contents of a file spell, which have to be UTF-8. -/
def decodeText (contents : ByteArray) : Except FileError String :=
  match String.fromUTF8? contents with
  | some text => .ok text
  | none => .error .invalidText

/-- The operations of a file system that a lookup needs. -/
structure FileAccess (m : Type → Type) where
  /-- The contents of a file. -/
  read : String → m (Except FileError String)
  /-- The absolute path of a file, without dots and links. -/
  canonicalize : String → m (Except FileError String)

end YamlLocator
