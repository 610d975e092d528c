import YamlLocator.Lookup

/-!
# The Command Line

The program asks for one key of one file: `FILE KEY_PATH`, with the options `--column` and
`--format` anywhere between and behind the two. Arguments are read from left to right, and
the first thing that is wrong ends the reading, as does a question for the version or for
help. Behind `--` every argument is an operand, and so is a hyphen alone.

What the program answers is an exit status and the text for its two output streams.
Exactly one stream is used.

## Main definitions

* `Query`: What is asked for.
* `Command.parse`: The command that some arguments spell.
* `Status`, `Outcome`: The answer.
* `Query.answer`: The answer to a query, given the result of its lookup.
* `runCommand`: The answer to some arguments.
-/

namespace YamlLocator

/-- How a location is shown. -/
inductive Format where
  | text
  | json
deriving DecidableEq, Repr

/-- What is asked for. -/
structure Query where
  file : String
  keyPath : String
  withColumn : Bool
  format : Format
deriving DecidableEq, Repr

/-- What the program is told to do. -/
inductive Command where
  | locate (query : Query)
  | showVersion
  | showHelp
deriving DecidableEq, Repr

/-- What can be wrong with the arguments. -/
inductive UsageError where
  | unknownOption (argument : String)
  | repeatedOption (option : String)
  | missingFormat
  | invalidFormat (value : String)
  | emptyFile
  | tooManyOperands (argument : String)
  | missingOperands
deriving DecidableEq, Repr

/-- The wording of a usage error. -/
def UsageError.message : UsageError → String
  | .unknownOption argument => "unexpected argument '" ++ argument ++ "' found"
  | .repeatedOption option => "the argument '" ++ option ++ "' cannot be used multiple times"
  | .missingFormat => "a value is required for '--format'"
  | .invalidFormat value => "invalid value '" ++ value ++ "' for '--format'"
  | .emptyFile => "a value is required for 'FILE'"
  | .tooManyOperands argument => "unexpected argument '" ++ argument ++ "' found"
  | .missingOperands => "FILE and KEY_PATH are required"

/-- The format of the given name. -/
def Format.named? (name : String) : Option Format :=
  if name = "text" then some .text else if name = "json" then some .json else none

namespace Command

/-- An argument by its form. -/
inductive Argument where
  | operand (text : String)
  | endOfOptions
  | column
  /-- The option that takes the next argument as a format. -/
  | format
  | formatIs (name : String)
  | version
  | help
  | unknown (text : String)
deriving DecidableEq, Repr

/-- The part of an argument behind the option that it gives a format with. -/
def formatName? (argument : String) : Option String :=
  let option := "--format=".toList
  if option.isPrefixOf argument.toList then
    some (String.ofList (argument.toList.drop option.length))
  else
    none

/-- The form of an argument. Of a group of short options only the first one matters. -/
def Argument.ofText (text : String) : Argument :=
  if text = "--" then .endOfOptions
  else if text = "--column" then .column
  else if text = "--format" then .format
  else if text = "--version" then .version
  else if text = "--help" then .help
  else
    match formatName? text, text.toList with
    | some name, _ => .formatIs name
    | none, '-' :: 'V' :: _ => .version
    | none, '-' :: 'h' :: _ => .help
    | none, '-' :: _ :: _ => .unknown text
    | none, _ => .operand text

/-- What has been read of a query. -/
structure Draft where
  operands : List String
  column : Bool
  format : Option Format
deriving DecidableEq, Repr

namespace Draft

/-- Nothing yet. -/
def empty : Draft := { operands := [], column := false, format := none }

/-- One more operand. -/
def addOperand (draft : Draft) (text : String) : Except UsageError Draft :=
  match draft.operands with
  | [] => if text = "" then .error .emptyFile else .ok { draft with operands := [text] }
  | [file] => .ok { draft with operands := [file, text] }
  | _ => .error (.tooManyOperands text)

/-- The option for the column. -/
def addColumn (draft : Draft) : Except UsageError Draft :=
  if draft.column then .error (.repeatedOption "--column") else .ok { draft with column := true }

/-- The option for the format. -/
def addFormat (draft : Draft) (name : String) : Except UsageError Draft :=
  match Format.named? name with
  | none => .error (.invalidFormat name)
  | some format =>
    if draft.format.isSome then .error (.repeatedOption "--format")
    else .ok { draft with format := some format }

/-- The query, once all arguments have been read. -/
def finish (draft : Draft) : Except UsageError Command :=
  match draft.operands with
  | [file, keyPath] =>
    .ok (.locate
      { file, keyPath, withColumn := draft.column, format := draft.format.getD .text })
  | _ => .error .missingOperands

end Draft

/-- The command that the arguments behind a draft complete. -/
def read (draft : Draft) : List String → Except UsageError Command
  | [] => draft.finish
  | argument :: rest =>
    match Argument.ofText argument with
    | .operand text => do read (← draft.addOperand text) rest
    | .endOfOptions => do (← rest.foldlM Draft.addOperand draft).finish
    | .column => do read (← draft.addColumn) rest
    | .format =>
      match rest with
      | [] => .error .missingFormat
      | name :: rest => do read (← draft.addFormat name) rest
    | .formatIs name => do read (← draft.addFormat name) rest
    | .version => .ok .showVersion
    | .help => .ok .showHelp
    | .unknown text => .error (.unknownOption text)

/-- The command that some arguments spell. -/
def parse (arguments : List String) : Except UsageError Command := read Draft.empty arguments

end Command

/-- How the program ends. -/
inductive Status where
  | success
  | wrongUsage
  | fileNotFound
  | unreadable
  | keyNotFound
deriving DecidableEq, Repr

/-- The exit status of the process. -/
def Status.code : Status → Nat
  | .success => 0
  | .wrongUsage => 2
  | .fileNotFound => 3
  | .unreadable => 4
  | .keyNotFound => 5

/-- What the program answers. -/
structure Outcome where
  status : Status
  /-- The text for the standard output. -/
  output : String
  /-- The text for the standard error. -/
  errors : String
deriving DecidableEq, Repr

namespace Outcome

/-- A line for the standard output. -/
def success (line : String) : Outcome :=
  { status := .success, output := line ++ "\n", errors := "" }

/-- A line for the standard error. -/
def failure (status : Status) (line : String) : Outcome :=
  { status, output := "", errors := line ++ "\n" }

end Outcome

/-- A location as it is shown. -/
def Format.render (format : Format) (location : Location) : String :=
  match format with
  | .text => location.toText
  | .json => location.toJson

namespace Query

/-- The answer for a lookup that failed. -/
def answerError (query : Query) (e : LookupError) : Outcome :=
  if e.isNotFound then
    .failure .fileNotFound ("File not found: " ++ query.file)
  else
    match e with
    | .keyPath .. => .failure .wrongUsage e.message
    | _ => .failure .unreadable ("Failed to read/parse YAML file: " ++ e.message)

/-- The answer to the query, given the result of its lookup. -/
def answer (query : Query) : Except LookupError (Option Location) → Outcome
  | .ok (some location) => .success (query.format.render location)
  | .ok none => .failure .keyNotFound ("Key '" ++ query.keyPath ++ "' not found.")
  | .error e => query.answerError e

/-- The answer to the query. -/
def run {m : Type → Type} [Monad m] (query : Query) (files : FileAccess m) : m Outcome := do
  return query.answer (← lookup files query.file query.keyPath query.withColumn)

end Query

/-- The name and the version of the program. -/
def versionLine : String := "keyline 0.1.0"

/-- The form of the arguments. -/
def usageLine : String := "Usage: keyline [--column] [--format text|json] FILE KEY_PATH"

/-- The answer to some arguments. -/
def runCommand {m : Type → Type} [Monad m] (files : FileAccess m) (arguments : List String) :
    m Outcome :=
  match Command.parse arguments with
  | .error e => pure (.failure .wrongUsage ("error: " ++ e.message ++ "\n\n" ++ usageLine))
  | .ok .showVersion => pure (.success versionLine)
  | .ok .showHelp => pure (.success usageLine)
  | .ok (.locate query) => query.run files

end YamlLocator
