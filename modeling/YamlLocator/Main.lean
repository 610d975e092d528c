import YamlLocator.CommandLine

/-!
# The Program

The command line on the file system of the machine.

## Main definitions

* `systemFiles`: The file system.
* `main`: The program.
-/

namespace YamlLocator

/-- Why a file cannot be had, in the words of the system. -/
def FileError.ofSystem : IO.Error → FileError
  | .noFileOrDirectory .. => .notFound
  | .permissionDenied .. => .permissionDenied
  | .inappropriateType _ code details =>
    if code = 20 then .notADirectory
    else if code = 21 then .isADirectory
    else { kind := .other, message := details }
  | e => { kind := .other, message := e.toString }

/-- The result of an operation on files. -/
def tryFile {α : Type} (operation : IO α) : IO (Except FileError α) :=
  try
    return .ok (← operation)
  catch e =>
    return .error (.ofSystem e)

/-- The file system of the machine. -/
def systemFiles : FileAccess IO where
  read path := do
    match ← tryFile (IO.FS.readBinFile path) with
    | .error e => return .error e
    | .ok contents => return decodeText contents
  canonicalize path := tryFile do return (← IO.FS.realPath path).toString

end YamlLocator

open YamlLocator in
/-- Answer the arguments. -/
def main (arguments : List String) : IO UInt32 := do
  let outcome ← runCommand systemFiles arguments
  IO.print outcome.output
  IO.eprint outcome.errors
  return outcome.status.code.toUInt32
