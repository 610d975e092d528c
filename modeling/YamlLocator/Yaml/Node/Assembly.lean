import YamlLocator.Position.OffsetTable
import YamlLocator.Yaml.Event.Basic
import YamlLocator.Yaml.Node.Basic

/-!
# Assembling Nodes

From events to nodes. Collections that have started and not ended yet are kept on a
stack, and every node that is complete goes into the innermost one; a node outside
every collection is the root. In a mapping, a node is the value of the last entry if
that has none yet, and a new key otherwise.

Marks count characters and spans count bytes, so every mark goes through the offset
table of the text. A collection spans the text from the mark of its start to that of
its end. Where a scalar ends is not told by any mark; its span is as long as its text
and its quotes, which is exact for a scalar written on one line without escapes. An
alias has an empty span.

Events that do not nest are found out. That an end does not match its start is
remembered and reported when all events have been seen.

## Main definitions

* `StructureFault`: What can be wrong with the nesting of events.
* `Frame`: A collection that has not ended yet.
* `Assembly`: What has been assembled so far.
* `Assembly.add`: One more event.
* `Assembly.result`: The root, once all events have been added.

## Theorems

* `Assembly.root_of_ofEvents`: The root is what has been completed last.
-/

namespace YamlLocator

namespace Yaml

/-- What can be wrong with the nesting of events. -/
inductive StructureFault where
  | openCollection
  | straySequenceEnd
  | strayMappingEnd
deriving DecidableEq, Repr

/-- The wording of a fault. -/
def StructureFault.message : StructureFault → String
  | .openCollection => "document ended inside an open collection"
  | .straySequenceEnd => "sequence end without a matching start"
  | .strayMappingEnd => "mapping end without a matching start"

/-- A collection that has not ended yet, with its contents newest first. -/
inductive Frame where
  | sequence (start : Mark) (items : List Node)
  | mapping (start : Mark) (entries : List Entry)

/-- What has been assembled so far. -/
structure Assembly where
  /-- The collections that have not ended yet, innermost first. -/
  frames : List Frame
  /-- The last node that was completed outside every collection. -/
  root : Option Node
  /-- The first fault met. -/
  fault : Option StructureFault

namespace Assembly

/-- Nothing yet. -/
def empty : Assembly := { frames := [], root := none, fault := none }

/-- The span from one mark to another. -/
def spanBetween (offsets : OffsetTable) (first last : Mark) : Span :=
  { start := offsets.byteAt first.index, stop := offsets.byteAt last.index }

/-- The number of quotes around a scalar of the given style. -/
def quoteCount : ScalarStyle → Nat
  | .singleQuoted => 2
  | .doubleQuoted => 2
  | _ => 0

/-- The span of a scalar: its characters and its quotes from its mark on. -/
def scalarSpan (offsets : OffsetTable) (mark : Mark) (style : ScalarStyle) (text : String) : Span :=
  { start := offsets.byteAt mark.index
    stop := offsets.byteAt (mark.index + text.length + quoteCount style) }

/-- The kind of a scalar, which only a plain one can have other than string. -/
def kindOf (style : ScalarStyle) (text : String) : ScalarKind :=
  if style = .plain then ScalarKind.ofPlain text else .string

/-- The entries of a mapping with one more node, newest first. -/
def addToEntries (node : Node) : List Entry → List Entry
  | { key, value := none } :: older => { key, value := some node } :: older
  | entries => { key := node, value := none } :: entries

/-- A collection with one more node. -/
def addToFrame (node : Node) : Frame → Frame
  | .sequence start items => .sequence start (node :: items)
  | .mapping start entries => .mapping start (addToEntries node entries)

/-- Put a complete node into the innermost collection, or make it the root. -/
def complete (a : Assembly) (node : Node) : Assembly :=
  match a.frames with
  | [] => { a with root := some node }
  | frame :: outer => { a with frames := addToFrame node frame :: outer }

/-- Start a collection. -/
def start (a : Assembly) (frame : Frame) : Assembly := { a with frames := frame :: a.frames }

/-- Drop the innermost collection for a fault. -/
def fail (a : Assembly) (fault : StructureFault) : Assembly :=
  { a with frames := a.frames.tail, fault := a.fault.or (some fault) }

/-- One more event. The events of documents and streams carry no node. -/
def add (offsets : OffsetTable) (a : Assembly) (event : Placed Event) : Assembly :=
  match event.item with
  | .scalar style text =>
    a.complete (.scalar text (kindOf style text) (some (scalarSpan offsets event.mark style text)))
  | .alias => a.complete (.alias (some (spanBetween offsets event.mark event.mark)))
  | .sequenceStart => a.start (.sequence event.mark [])
  | .mappingStart => a.start (.mapping event.mark [])
  | .sequenceEnd =>
    match a.frames with
    | .sequence first items :: outer =>
      { a with frames := outer }.complete
        (.sequence items.reverse (some (spanBetween offsets first event.mark)))
    | _ => a.fail .straySequenceEnd
  | .mappingEnd =>
    match a.frames with
    | .mapping first entries :: outer =>
      { a with frames := outer }.complete
        (.mapping entries.reverse (some (spanBetween offsets first event.mark)))
    | _ => a.fail .strayMappingEnd
  | .streamStart => a
  | .streamEnd => a
  | .documentStart => a
  | .documentEnd => a

/-- The root, if there is one, once all events have been added. -/
def result (a : Assembly) : Except StructureFault (Option Node) :=
  match a.fault with
  | some fault => .error fault
  | none => if a.frames.isEmpty then .ok a.root else .error .openCollection

/-- The root that some events describe. -/
def ofEvents (offsets : OffsetTable) (events : List (Placed Event)) :
    Except StructureFault (Option Node) :=
  (events.foldl (add offsets) empty).result

/-- The root of events that nest is the node that was completed last outside every collection. -/
theorem root_of_ofEvents {offsets : OffsetTable} {events : List (Placed Event)}
    {root : Option Node} (h : ofEvents offsets events = .ok root) :
    (events.foldl (add offsets) empty).root = root := by
  rw [ofEvents, result] at h
  split at h
  · cases h
  · split at h
    · exact Except.ok.inj h
    · cases h

end Assembly

end Yaml

end YamlLocator
