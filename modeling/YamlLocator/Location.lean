import YamlLocator.Position.Line
import YamlLocator.Position.Span
import YamlLocator.Json.Reader
import YamlLocator.Json.Writer

/-!
# Locations

Where a key stands, in the terms of an editor: a file, a line counted from one, and,
if it is wanted, the column at which the line begins behind its indentation. Columns
count bytes from zero. Only the start of a span decides about its location.

A location is written in two ways. As JSON, the path is a string like any other and the
column appears if it is there. As text, the parts stand between colons, and the column
counts from one there.

## Main definitions

* `Location`: A place in a file.
* `Location.ofSpan`: The location of a span.
* `Location.toJson`, `Location.toText`: The written forms.
* `Location.ofJson?`: The location that a JSON value stands for.
-/

namespace YamlLocator

/-- A place in a file. -/
structure Location where
  path : String
  /-- The line, counted from one. -/
  line : Nat
  /-- The indentation of the line, if it is wanted. -/
  column : Option Nat
deriving DecidableEq, Repr

namespace Location

/-- The location of a span of a text that is the contents of a file. -/
def ofSpan (source : String) (span : Span) (path : String) (withColumn : Bool) : Location :=
  let indentation := Position.indentation (Position.lineText source span.start)
  { path
    line := Position.lineNumber source span.start
    column := if withColumn then some indentation else none }

/-- The location as compact JSON. -/
def toJson (location : Location) : String :=
  let column := match location.column with
    | some column => [("column", Json.Field.natural column)]
    | none => []
  Json.writeObject ([("path", .text location.path), ("line", .natural location.line)] ++ column)

/-- The location as text, the column counted from one. -/
def toText (location : Location) : String :=
  let line := location.path ++ ":" ++ toString location.line
  match location.column with
  | some column => line ++ ":" ++ toString (column + 1)
  | none => line

/-- The location that a JSON value stands for: an object with a path and a line, and with a
    column or without. -/
def ofJson? : Json.Value → Option Location
  | .object members => do
    let [path] := Json.membersNamed "path" members | none
    let [line] := Json.membersNamed "line" members | none
    let path ← path.text?
    let line ← line.natural?
    match Json.membersNamed "column" members with
    | [] => return { path, line, column := none }
    | [column] => return { path, line, column := some (← column.natural?) }
    | _ => none
  | _ => none

end Location

end YamlLocator
