import YamlLocator.Position.Span
import YamlLocator.Json.Reader
import YamlLocator.Json.Writer

/-!
# Spans as JSON

A span is written as an object with the members `start` and `end`. Reading also
takes the two members in either order, among members of other names, and takes an
array of the two numbers. The offsets must be natural numbers below 2^64, and
neither member may be missing or repeated. A name that stands for no text makes
the object unreadable, since it cannot be told apart from the two names wanted.

## Main definitions

* `Span.toJson`: A span as compact JSON.
* `Span.ofJson?`: The span that a JSON value stands for.
* `Span.ofJsonText?`: The span that a JSON document stands for.
-/

namespace YamlLocator

namespace Span

/-- The span as compact JSON. -/
def toJson (span : Span) : String :=
  Json.writeObject [("start", .natural span.start), ("end", .natural span.stop)]

/-- An offset: a natural number of at most 64 bits. -/
def offset? (value : Json.Value) : Option Nat :=
  value.natural?.filter (· < UInt64.size)

/-- The span that a JSON value stands for. -/
def ofJson? : Json.Value → Option Span
  | .object members =>
    if members.all fun member => member.1.isSome then
      match Json.membersNamed "start" members, Json.membersNamed "end" members with
      | [start], [stop] => do
        let start ← offset? start
        let stop ← offset? stop
        return { start, stop }
      | _, _ => none
    else
      none
  | .array [start, stop] => do
    let start ← offset? start
    let stop ← offset? stop
    return { start, stop }
  | _ => none

/-- The span that a JSON document stands for. -/
def ofJsonText? (text : String) : Option Span :=
  (Json.Value.ofText? text).bind ofJson?

end Span

end YamlLocator
