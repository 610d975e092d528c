import YamlLocator.Text.Pieces

/-!
# Key Paths

The address of a key in a document: the names of the keys that lead to it from the
root. A path has at least one segment, and no segment is empty.

A path is usually written with full stops between its segments. A segment may hold a
full stop itself when the path is made from a list; the written form then reads as a
longer path.

## Main definitions

* `KeyPath`: A list of segments that addresses a key.
* `KeyPath.ofSegments`, `KeyPath.parse`: The path with given segments, and the path that
  a text spells.
* `KeyPath.toText`: A path as it is written.

## Theorems

* `joined_segments_of_text`: The segments of a text spell that text.
-/

namespace YamlLocator

/-- The address of a key: the names of the keys that lead to it. -/
structure KeyPath where
  segments : List String
  segments_ne_nil : segments ≠ []
  segments_ne_empty : ∀ segment ∈ segments, segment ≠ ""
deriving DecidableEq, Repr

namespace KeyPath

/-- What stands between two segments in the written form. -/
def separator : Char := '.'

/-- Segments with the separator between them. -/
def joined (segments : List String) : String :=
  String.ofList (Text.glue separator (segments.map String.toList))

/-- The segments that a text spells. -/
def segmentsOf (text : String) : List String :=
  (Text.pieces separator text.toList).map String.ofList

/-- Why segments address no key. -/
inductive Fault where
  | noSegment
  | emptySegment
deriving DecidableEq, Repr

/-- The wording of a fault. -/
def Fault.message : Fault → String
  | .noSegment => "key path is empty"
  | .emptySegment => "key path contains an empty segment"

/-- A fault, together with the path as it would be written. -/
structure Error where
  text : String
  fault : Fault
deriving DecidableEq, Repr

/-- The path with the given segments. -/
def ofSegments (segments : List String) : Except Error KeyPath :=
  if hne : segments ≠ [] then
    if h : ∀ segment ∈ segments, segment ≠ "" then
      .ok { segments, segments_ne_nil := hne, segments_ne_empty := h }
    else
      .error { text := joined segments, fault := .emptySegment }
  else
    .error { text := "", fault := .noSegment }

/-- The path that a text spells. -/
def parse (text : String) : Except Error KeyPath :=
  if text = "" then
    .error { text, fault := .noSegment }
  else
    ofSegments (segmentsOf text)

/-- The path as it is written. -/
def toText (path : KeyPath) : String := joined path.segments

/-- The segments of a text spell that text. -/
theorem joined_segments_of_text (text : String) : joined (segmentsOf text) = text := by
  simp [joined, segmentsOf, Function.comp_def, Text.glue_pieces]

end KeyPath

end YamlLocator
