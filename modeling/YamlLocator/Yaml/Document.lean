import YamlLocator.Yaml.Event.Stream
import YamlLocator.Yaml.Node.Assembly

/-!
# Documents

From a text to the root of its first document, through tokens and events. A document
without contents has no root.

## Main definitions

* `ParseError`: Why a text has no document.
* `ParseError.message`: Its wording.
* `Document.parse`: The root of the first document of a text.

## Theorems

* `Document.parse_of_events`, `Document.parse_of_events_error`: The root is the one that the
  events describe, and a syntax error in their place is the error of the text.
* `Document.exists_events_of_parse`, `Document.exists_error_of_malformed`: The converses.
-/

namespace YamlLocator

namespace Yaml

/-- Why a text has no document. -/
inductive ParseError where
  /-- The text is not YAML. The line and the column count from one. -/
  | malformed (message : String) (line column : Nat)
  /-- The events do not describe a tree. -/
  | unbalanced (message : String)
deriving DecidableEq, Repr

namespace ParseError

/-- The wording of an error. -/
def message : ParseError → String
  | .malformed message line column =>
    message ++ " at line " ++ toString line ++ ", column " ++ toString column
  | .unbalanced message => "invalid YAML structure: " ++ message

/-- A syntax error as it is shown. -/
def ofSyntaxError (e : SyntaxError) : ParseError :=
  .malformed e.fault.message e.mark.line (e.mark.column + 1)

/-- A fault of nesting as it is shown. -/
def ofStructureFault (fault : StructureFault) : ParseError := .unbalanced fault.message

end ParseError

namespace Document

/-- The events of the first document of a text. -/
def events (text : List Char) : Except SyntaxError (List (Placed Event)) :=
  Event.ofTokens (TokenStream.ofText text)

/-- The root of the first document of a text, if the document is not empty. -/
def parse (text : String) : Except ParseError (Option Node) := do
  let events ← (events text.toList).mapError ParseError.ofSyntaxError
  (Assembly.ofEvents (OffsetTable.ofText text.toList) events).mapError ParseError.ofStructureFault

/-- A text with events has the root that they describe. -/
theorem parse_of_events {text : String} {found : List (Placed Event)}
    (h : events text.toList = .ok found) :
    parse text = (Assembly.ofEvents (OffsetTable.ofText text.toList) found).mapError
      ParseError.ofStructureFault := by
  rw [parse, h]
  rfl

/-- A syntax error in place of the events is the error of the text. -/
theorem parse_of_events_error {text : String} {e : SyntaxError}
    (h : events text.toList = .error e) : parse text = .error (.ofSyntaxError e) := by
  rw [parse, h]
  rfl

/-- A text that is not refused has events that describe what it is found to have. -/
theorem exists_events_of_parse {text : String} {root : Option Node} (h : parse text = .ok root) :
    ∃ found, events text.toList = .ok found ∧
      Assembly.ofEvents (OffsetTable.ofText text.toList) found = .ok root := by
  cases hevents : events text.toList with
  | error e =>
    rw [parse_of_events_error hevents] at h
    cases h
  | ok found =>
    refine ⟨found, rfl, ?_⟩
    rw [parse_of_events hevents] at h
    cases hresult : Assembly.ofEvents (OffsetTable.ofText text.toList) found with
    | error fault =>
      rw [hresult] at h
      cases h
    | ok result =>
      rw [hresult] at h
      exact congrArg Except.ok (Except.ok.inj h)

/-- A text that is refused for its syntax has no events. -/
theorem exists_error_of_malformed {text message : String} {line column : Nat}
    (h : parse text = .error (.malformed message line column)) :
    ∃ e, events text.toList = .error e ∧
      ParseError.ofSyntaxError e = .malformed message line column := by
  cases hevents : events text.toList with
  | error e =>
    rw [parse_of_events_error hevents] at h
    exact ⟨e, rfl, Except.error.inj h⟩
  | ok found =>
    -- Only the nesting of the events can be wrong then, and that is another error.
    rw [parse_of_events hevents] at h
    cases hresult : Assembly.ofEvents (OffsetTable.ofText text.toList) found with
    | error fault =>
      rw [hresult] at h
      exact absurd (Except.error.inj h) nofun
    | ok root =>
      rw [hresult] at h
      cases h

end Document

end Yaml

end YamlLocator
