import YamlLocator.Yaml.Event.Progress

/-!
# Streams of Events

The events of the first document of a stream, from the beginning of the stream to the
event that ends the document, or the stream if there is no document. Steps of the
grammar follow one another until nothing is expected any more; an error on the way
is the error of the whole.

## Main definitions

* `Derivation.events`: The events still to come.
* `Event.ofTokens`: The events of the first document of a stream.
-/

namespace YamlLocator

namespace Yaml

namespace Derivation

/-- The events still to come, behind those that were given already, newest first. -/
def events (d : Derivation) (given : List (Placed Event)) :
    Except SyntaxError (List (Placed Event)) :=
  match _step : d.step with
  | .error error => .error error
  | .ok none => .ok given.reverse
  | .ok (some (event, d')) => d'.events (event :: given)
termination_by (d.tokens.length, weight d.agenda)
decreasing_by
  rcases step_decreases _step with h | ⟨h, hlt⟩
  · exact Prod.Lex.left _ _ h
  · simp only at h hlt
    rw [h]
    exact Prod.Lex.right _ hlt

end Derivation

/-- The events of the first document of a stream. -/
def Event.ofTokens (stream : TokenStream) : Except SyntaxError (List (Placed Event)) :=
  (Derivation.ofStream stream).events []

end Yaml

end YamlLocator
