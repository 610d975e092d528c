import YamlLocator.Proofs.Continuation.Events
import YamlLocator.Proofs.Evaluation
import YamlLocator.Yaml.Document

/-!
# Enough Tokens

Not all tokens of a text are looked at. The events of the first document are there when its end is
found, and an error of the grammar is reported as soon as it is met. What lies behind the tokens
that were looked at makes no difference then, and may be anything.

Whether some tokens are enough can be told from the tokens alone: they are if the events stay the
same whatever error follows them. An error of a kind that the events do not end with is a probe for
that, since the grammar would report it if it went on.

So what is asked of the scalars of a text is not asked of those behind enough tokens. Two texts
with tokens that are alike until then have events that are alike.

## Main definitions

* `Document.IsDecidedBy`: Some tokens are enough to find out the events.
* `Document.StaysNarrow`: The block scalars that are read until then are ASCII.
* `Document.isDecidedWithin`: Whether a probe behind some tokens tells that they are enough.

## Theorems

* `Event.ofTokens_eq_of_ne`: Events that do not end with the error behind the tokens stay the same.
* `Document.staysNarrow_of_holdsWithin`: It can be found out that the block scalars are ASCII.
* `Document.agree_events`: A text is told anew by another one, if the first round over it is.
-/

namespace YamlLocator

namespace Yaml

/-- If the grammar does not come to the error behind some tokens, their events are those of every
    stream that goes on behind these tokens. -/
theorem Event.ofTokens_eq_of_ne {tokens : List Delivered} {error : SyntaxError}
    (h : Event.ofTokens { tokens := TokenStream.streamStart :: tokens, error } ≠ .error error)
    (behind : TokenStream) :
    Event.ofTokens
        { tokens := TokenStream.streamStart :: (tokens ++ behind.tokens)
          error := behind.error } =
      Event.ofTokens { tokens := TokenStream.streamStart :: tokens, error } := by
  have hcontinues := Event.continues_ofTokens tokens error behind
  cases hevents : Event.ofTokens { tokens := TokenStream.streamStart :: tokens, error } with
  | ok found => exact (Derivation.ok_of_continues hcontinues hevents).1
  | error e =>
    exact Derivation.error_of_continues hcontinues hevents fun he => h (by rw [hevents, he])

/-- Without tokens there is nothing but the error. -/
theorem Event.ofTokens_nil (error : SyntaxError) :
    Event.ofTokens { tokens := [], error } = .error error :=
  Derivation.events_of_step_error rfl []

namespace Document

/-- The tokens are enough to find out the events of the text: whatever error follows them, the
    events are the same. -/
def IsDecidedBy (text : List Char) (tokens : List Delivered) : Prop :=
  ∀ error, Event.ofTokens { tokens, error } = events text

/-- No block scalar with a character of several bytes is read before the events are found out. -/
def StaysNarrow (text : List Char) : Prop :=
  (Tokenizer.ofText text).StaysNarrowUntil (IsDecidedBy text)

/-- An error that is put behind some tokens to see whether the grammar comes to it. -/
def probe : SyntaxError := ⟨.unexpectedEnd, Mark.start⟩

/-- Whether the events of some tokens are found out within some steps, and the grammar does not come
    to the probe. -/
def isDecidedWithin (steps : Nat) (tokens : List Delivered) : Bool :=
  match (Derivation.ofStream { tokens, error := probe }).eventsWithin steps [] with
  | some events => decide (events ≠ .error probe)
  | none => false

theorem ofTokens_ne_of_isDecidedWithin {steps : Nat} {tokens : List Delivered}
    (h : isDecidedWithin steps tokens = true) :
    Event.ofTokens { tokens, error := probe } ≠ .error probe := by
  rw [isDecidedWithin] at h
  split at h
  · rename_i events hevents
    rw [Event.ofTokens, Derivation.events_of_eventsWithin hevents]
    exact of_decide_eq_true h
  · cases h

/-- If the grammar does not come to a probe behind some tokens, these are enough, and so are
    more. -/
theorem isDecidedBy_of_isDecidedWithin {text : List Char} {steps : Nat}
    {front tokens : List Delivered} {t : Tokenizer} (h : isDecidedWithin steps front = true)
    (hfront : front <+: tokens) (hruns : Tokenizer.Runs (Tokenizer.ofText text) tokens t) :
    IsDecidedBy text tokens := by
  have hne := ofTokens_ne_of_isDecidedWithin h
  rcases hfront with ⟨rest, rfl⟩
  cases front with
  | nil => exact absurd (Event.ofTokens_nil probe) hne
  | cons first front =>
    have hstream : TokenStream.ofText text =
        { tokens := first :: (front ++ rest ++ (t.stream []).tokens)
          error := (t.stream []).error } := by
      rw [TokenStream.ofText, Tokenizer.stream_of_runs hruns, Tokenizer.stream_eq_append]
      simp
    have hfirst : TokenStream.streamStart = first := by
      rw [TokenStream.ofText, Tokenizer.stream_of_step (Tokenizer.step_ofText text),
        Tokenizer.stream_eq_append] at hstream
      exact (List.cons.inj (congrArg TokenStream.tokens hstream)).1
    subst hfirst
    -- Both the stream that is cut behind the tokens and the one of the text go on behind the front.
    intro error
    rw [events, hstream, List.append_assoc]
    exact (Event.ofTokens_eq_of_ne hne { tokens := rest, error }).trans
      (Event.ofTokens_eq_of_ne hne { tokens := rest ++ (t.stream []).tokens, error := _ }).symm

/-- That no such scalar is read can be found out by reading on until the events are. -/
theorem staysNarrow_of_holdsWithin (steps steps' : Nat) {text : List Char}
    (h : (Tokenizer.ofText text).holdsWithin (fun t => t.queue.all fun p => p.item.isNarrow)
      (isDecidedWithin steps') steps [] = true) : StaysNarrow text := by
  intro tokens u r hruns hnot hstep
  have hopen (front : List Delivered) (hfront : front <+: tokens) :
      isDecidedWithin steps' front = false :=
    Bool.eq_false_iff.mpr fun hdecided =>
      hnot (isDecidedBy_of_isDecidedWithin hdecided hfront hruns)
  rcases Tokenizer.holdsWithin_of_runs h hruns hopen with ⟨_, hu⟩
  rcases Tokenizer.holdsWithin_of_step hu (hopen tokens List.prefix_rfl) hstep with ⟨_, hr⟩
  exact List.all_eq_true.mp (Tokenizer.holds_of_holdsWithin hr)

/-- There is an error of a kind that a result does not end with. -/
theorem exists_fault_ne {α : Type} (x : Except SyntaxError α) :
    ∃ probe : SyntaxError, ∀ e, x = .error e → e.fault ≠ probe.fault := by
  rcases x with e | a
  · by_cases hfault : e.fault = .unexpectedEnd
    · exact ⟨⟨.duplicateVersion, Mark.start⟩, fun e' he => by simp_all⟩
    · exact ⟨⟨.unexpectedEnd, Mark.start⟩, fun e' he => by simp_all⟩
  · exact ⟨⟨.unexpectedEnd, Mark.start⟩, by simp⟩

variable {σ : Retelling} {text text' : List Char}

/-- Two streams that are alike until the events are found out have events that are alike. -/
theorem agree_of_told {stream stream' : TokenStream}
    (hstream : TokenStream.ofText text =
      { tokens := TokenStream.streamStart :: stream.tokens, error := stream.error })
    (h : TokenStream.Told σ (fun tokens => IsDecidedBy text (TokenStream.streamStart :: tokens))
      stream stream') :
    σ.Agree
      (fun events events' => ∃ more, events = Event.start :: more ∧
        events' = Event.start :: more.map σ.place)
      (events text)
      (Event.ofTokens
        { tokens := TokenStream.streamStart :: stream'.tokens, error := stream'.error }) := by
  cases h with
  | whole tokens error =>
    rw [events, hstream]
    exact Event.agree_ofTokens σ tokens error
  | front tokens henough behind behind' =>
    rcases exists_fault_ne (events text) with ⟨probe, hprobe⟩
    have hagree := Event.agree_ofTokens σ tokens probe
    rw [henough probe] at hagree
    have hne : Event.ofTokens
        { tokens := TokenStream.streamStart :: tokens.map σ.delivered, error := σ.error probe } ≠
          .error (σ.error probe) := by
      intro hfound
      rcases Retelling.cases_of_agree hagree with ⟨e, hevents, hevents'⟩ | ⟨_, _, _, hevents', _⟩
      · -- The grammar has not come to the probe.
        rw [hevents', Except.error.injEq] at hfound
        have hfault : (σ.error e).fault = (σ.error probe).fault := by rw [hfound]
        exact hprobe e hevents hfault
      · rw [hevents'] at hfound
        cases hfound
    rw [Event.ofTokens_eq_of_ne hne behind']
    exact hagree

/-- The events of a text are told anew by those of another one, if the first round over the two
    texts reads alike. -/
theorem agree_events
    (hround : ¬IsDecidedBy text [TokenStream.streamStart] →
      σ.Agree (Tokenizer.Told σ) (Tokenizer.ofText text).withoutFirst.round
        (Tokenizer.ofText text').withoutFirst.round)
    (hnarrow : σ.doubled = true → StaysNarrow text) :
    σ.Agree
      (fun events events' => ∃ more, events = Event.start :: more ∧
        events' = Event.start :: more.map σ.place)
      (events text) (events text') := by
  rcases TokenStream.told_ofText hround hnarrow with ⟨stream, stream', htold, hstream, hstream'⟩
  rw [events.eq_def text', hstream']
  exact agree_of_told hstream htold

end Document

end Yaml

end YamlLocator
