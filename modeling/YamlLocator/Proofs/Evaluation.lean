import Mathlib.Control.Monad.Basic
import YamlLocator.KeyMatch
import YamlLocator.Proofs.Nesting
import YamlLocator.Proofs.TokenQueue

/-!
# Evaluating Documents

The streams of tokens and events go on until they end, and that they do end is a theorem about
what is left to read. Such a definition says what the tree of a given text is but does not
compute it. Here both streams are followed for a number of steps instead, so that the tree of
a given text is a matter of computation; if the steps were enough, the result is the one of
the streams.

## Main definitions

* `Tokenizer.streamWithin`, `Derivation.eventsWithin`: The streams, if some steps are enough.
* `Tokenizer.holdsWithin`: Whether something holds until enough tokens have been handed out, if
  some steps are enough.
* `Document.parseWithin`: The root of a text, if some steps are enough.

## Theorems

* `Tokenizer.holdsWithin_of_runs`: What holds until then holds behind any steps until then.
* `Document.parse_of_parseWithin`: The result is the root of the text.
* `KeyPath.find_of_parseWithin`: The key that is found in it is the key in the text.
-/

namespace YamlLocator

namespace Yaml

/-- The stream of tokens that are still to come, if it ends within some steps. -/
def Tokenizer.streamWithin : Nat → Tokenizer → List Delivered → Option TokenStream
  | 0, _, _ => none
  | steps + 1, t, given =>
    match t.step with
    | .error error => some { tokens := given.reverse, error }
    | .ok (found, t') => t'.streamWithin steps (found.toList ++ given)

/-- Whether something holds of a reader and of all that come behind it, until enough tokens have
    been handed out, if they are or the stream ends within some steps. -/
def Tokenizer.holdsWithin (holds : Tokenizer → Bool) (enough : List Delivered → Bool) :
    Nat → Tokenizer → List Delivered → Bool
  | 0, _, _ => false
  | steps + 1, t, given =>
    holds t && (enough given || match t.step with
      | .error _ => true
      | .ok (found, t') => t'.holdsWithin holds enough steps (given ++ found.toList))

/-- The events that are still to come, if they end within some steps. -/
def Derivation.eventsWithin :
    Nat → Derivation → List (Placed Event) → Option (Except SyntaxError (List (Placed Event)))
  | 0, _, _ => none
  | steps + 1, d, given =>
    match d.step with
    | .error error => some (.error error)
    | .ok none => some (.ok given.reverse)
    | .ok (some (event, d')) => d'.eventsWithin steps (event :: given)

/-- The root of the first document of a text, if it is found within some steps. -/
def Document.parseWithin (steps : Nat) (text : String) :
    Option (Except ParseError (Option Node)) :=
  ((Tokenizer.ofText text.toList).streamWithin steps []).bind fun stream =>
    ((Derivation.ofStream stream).eventsWithin steps []).map fun events => do
      let events ← events.mapError ParseError.ofSyntaxError
      (Assembly.ofEvents (OffsetTable.ofText text.toList) events).mapError
        ParseError.ofStructureFault

theorem Tokenizer.stream_of_streamWithin {steps : Nat} {t : Tokenizer} {given : List Delivered}
    {stream : TokenStream} (h : t.streamWithin steps given = some stream) :
    t.stream given = stream := by
  induction steps generalizing t given with
  | zero => simp [streamWithin] at h
  | succ steps ih =>
    rw [streamWithin] at h
    cases hstep : t.step with
    | error error =>
      rw [hstep, Option.some.injEq] at h
      rw [stream_of_step_error hstep, h]
    | ok r =>
      rw [hstep] at h
      rw [stream_of_step hstep]
      exact ih h

section Holds

variable {holds : Tokenizer → Bool} {enough : List Delivered → Bool} {steps : Nat}
  {t t' : Tokenizer} {given tokens : List Delivered}

theorem Tokenizer.holds_of_holdsWithin (h : t.holdsWithin holds enough steps given = true) :
    holds t = true := by
  cases steps with
  | zero => simp [holdsWithin] at h
  | succ steps =>
    rw [holdsWithin, Bool.and_eq_true] at h
    exact h.1

theorem Tokenizer.holdsWithin_of_step {found : Option Delivered}
    (h : t.holdsWithin holds enough steps given = true) (hnot : enough given = false)
    (hstep : t.step = .ok (found, t')) :
    ∃ steps', t'.holdsWithin holds enough steps' (given ++ found.toList) = true := by
  cases steps with
  | zero => simp [holdsWithin] at h
  | succ steps =>
    rw [holdsWithin, hstep, hnot, Bool.and_eq_true, Bool.false_or] at h
    exact ⟨steps, h.2⟩

/-- What holds all along holds behind any steps, unless enough tokens have been handed out. -/
theorem Tokenizer.holdsWithin_of_runs (h : t.holdsWithin holds enough steps given = true)
    (hruns : Runs t tokens t')
    (hnot : ∀ front, front <+: tokens → enough (given ++ front) = false) :
    ∃ steps', t'.holdsWithin holds enough steps' (given ++ tokens) = true := by
  induction hruns generalizing steps given with
  | none t => exact ⟨steps, by simpa using h⟩
  | more t t₁ t₂ found tokens hstep _ ih =>
    have hgiven : enough given = false := by simpa using hnot [] List.nil_prefix
    rcases holdsWithin_of_step h hgiven hstep with ⟨steps₁, h₁⟩
    rw [← List.append_assoc]
    refine ih h₁ fun front hfront => ?_
    rw [List.append_assoc]
    exact hnot _ ((List.prefix_append_right_inj _).mpr hfront)

end Holds

theorem Derivation.events_of_eventsWithin {steps : Nat} {d : Derivation}
    {given : List (Placed Event)} {events : Except SyntaxError (List (Placed Event))}
    (h : d.eventsWithin steps given = some events) : d.events given = events := by
  induction steps generalizing d given with
  | zero => simp [eventsWithin] at h
  | succ steps ih =>
    rw [eventsWithin] at h
    rw [Derivation.events]
    split
    · rename_i error hstep
      rw [hstep, Option.some.injEq] at h
      exact h
    · rename_i hstep
      rw [hstep, Option.some.injEq] at h
      exact h
    · rename_i event d' hstep
      rw [hstep] at h
      exact ih h

/-- The root that is found within some steps is the root of the text. -/
theorem Document.parse_of_parseWithin (steps : Nat) {text : String}
    {result : Except ParseError (Option Node)} (h : parseWithin steps text = some result) :
    parse text = result := by
  simp only [parseWithin, Option.bind_eq_some_iff, Option.map_eq_some_iff] at h
  rcases h with ⟨stream, hstream, events, hevents, h⟩
  rw [← h, parse, Document.events, TokenStream.ofText, Event.ofTokens,
    Tokenizer.stream_of_streamWithin hstream, Derivation.events_of_eventsWithin hevents]

end Yaml

/-- So is the key for a path in that root the one for the path in the text. -/
theorem KeyPath.find_of_parseWithin (steps : Nat) {path : KeyPath} {text : String}
    {found : Option KeyMatch}
    (h : (Yaml.Document.parseWithin steps text).map
      (Except.map (Option.bind · (Yaml.Node.locate path.segments))) = some (.ok found)) :
    path.find text = .ok found := by
  rcases Option.map_eq_some_iff.mp h with ⟨result, hparse, hfound⟩
  rw [KeyPath.find, Yaml.Document.parse_of_parseWithin steps hparse]
  cases result with
  | error e => cases hfound
  | ok root => exact hfound

end YamlLocator
