import YamlLocator.Yaml.Event.Stream

/-!
# Nesting of Events

What a reader of events has to be ready for. A reader that descends into collections waits,
on every level that is open, for one of a few things: the next item of a sequence or its
end, the next key of a mapping or its end, a value. The levels that are open are a stack,
and an event that the innermost level does not wait for has nowhere to go.

The grammar never gives such an event. Its agenda says in detail what is expected next, and
every expectation has a counterpart among the things that a reader of events waits for:
`Production.awaited` forgets whether a mapping is written in braces, whether its colon has
been taken, and so on. Fulfilling an expectation then is a step of the reader, which is
`accept_of_fulfil`, and the whole run follows by induction on its steps. The statement is
about runs that are not finished as well, so it covers the texts that turn out to be
malformed.

## Main definitions

* `Awaited`: What a level waits for.
* `Nesting.accept`, `Nesting.acceptAll`: The levels behind an event, and behind some events.
* `Production.awaited`: What an expectation waits for.
* `Derivation.Gives`: The events that some steps of the grammar give.

## Theorems

* `acceptNode_of_node`: The events that begin a node are accepted as one.
* `accept_of_fulfil`: Every event of the grammar is waited for.
* `acceptAll_of_gives`: The same for the events of a run.
* `gives_of_events`, `events_of_gives`: The events of a document are those of a run to its end.
-/

namespace YamlLocator

namespace Yaml

/-- What an open level waits for. -/
inductive Awaited where
  | streamStart
  /-- The beginning of a document, or the end of the stream. -/
  | document
  /-- The contents of a document. -/
  | root
  | documentEnd
  /-- An item of a sequence, or its end. -/
  | item
  /-- A key of a mapping, or its end. -/
  | key
  | value
deriving DecidableEq, Repr

namespace Nesting

/-- The levels behind an event that begins a node, if it does. -/
def acceptNode (outer : List Awaited) : Event → Option (List Awaited)
  | .scalar _ _ => some outer
  | .alias => some outer
  | .sequenceStart => some (.item :: outer)
  | .mappingStart => some (.key :: outer)
  | _ => none

/-- The levels behind an event, innermost first, if the innermost level waits for it. -/
def accept : List Awaited → Event → Option (List Awaited)
  | .streamStart :: outer, .streamStart => some (.document :: outer)
  | .document :: outer, .streamEnd => some outer
  | .document :: outer, .documentStart => some (.root :: .documentEnd :: outer)
  | .root :: outer, event => acceptNode outer event
  | .documentEnd :: outer, .documentEnd => some outer
  | .item :: outer, .sequenceEnd => some outer
  | .item :: outer, event => acceptNode (.item :: outer) event
  | .key :: outer, .mappingEnd => some outer
  | .key :: outer, event => acceptNode (.value :: outer) event
  | .value :: outer, event => acceptNode (.key :: outer) event
  | _, _ => none

/-- The levels behind some events, if each of them was waited for. -/
def acceptAll (levels : List Awaited) (events : List Event) : Option (List Awaited) :=
  events.foldlM accept levels

theorem accept_item_of_acceptNode {outer levels : List Awaited} {event : Event}
    (h : acceptNode (.item :: outer) event = some levels) :
    accept (.item :: outer) event = some levels := by
  cases event <;> first | exact h | simp [acceptNode] at h

theorem accept_key_of_acceptNode {outer levels : List Awaited} {event : Event}
    (h : acceptNode (.value :: outer) event = some levels) :
    accept (.key :: outer) event = some levels := by
  cases event <;> first | exact h | simp [acceptNode] at h

end Nesting

/-- What an expectation waits for. The end of a pair without braces is the end of a mapping
    that no further key can come in front of. -/
def Production.awaited : Production → Awaited
  | .stream => .streamStart
  | .document => .document
  | .content => .root
  | .root => .root
  | .documentEnd => .documentEnd
  | .blockKey => .key
  | .blockValue => .value
  | .blockColon => .value
  | .blockEntry => .item
  | .levelEntry => .item
  | .flowKey _ => .key
  | .flowValue => .value
  | .flowColon _ => .value
  | .flowNoValue => .value
  | .flowEntry _ => .item
  | .pairKey => .key
  | .pairValue => .value
  | .pairEnd => .key

namespace Derivation

open Nesting

/-- What the levels are that an agenda waits for. -/
def awaited (agenda : List Production) : List Awaited := agenda.map Production.awaited

@[simp]
theorem awaited_cons (p : Production) (rest : List Production) :
    awaited (p :: rest) = p.awaited :: awaited rest := rfl

theorem item_of_emit {d : Derivation} {event : Event} {mark : Mark} {agenda : List Production}
    {r : Placed Event × Derivation} (h : d.emit event mark agenda = .ok r) :
    r.1.item = event ∧ r.2.agenda = agenda := by
  simp only [emit, Except.ok.injEq] at h
  rw [← h]
  exact ⟨rfl, rfl⟩

/-- A step gives an event that the levels wait for, and leaves the levels behind it. -/
def Accepted (levels : List Awaited) (r : Placed Event × Derivation) : Prop :=
  accept levels r.1.item = some (awaited r.2.agenda)

/-- A step gives an event that begins a node inside some levels. -/
def AcceptedNode (levels : List Awaited) (r : Placed Event × Derivation) : Prop :=
  acceptNode levels r.1.item = some (awaited r.2.agenda)

theorem accepted_of_emit {d : Derivation} {event : Event} {mark : Mark}
    {agenda : List Production} {r : Placed Event × Derivation} {levels : List Awaited}
    (h : d.emit event mark agenda = .ok r) (hlevels : accept levels event = some (awaited agenda)) :
    Accepted levels r := by
  rcases item_of_emit h with ⟨hitem, hagenda⟩
  rw [Accepted, hitem, hagenda]
  exact hlevels

theorem acceptedNode_of_emit {d : Derivation} {event : Event} {mark : Mark}
    {agenda : List Production} {r : Placed Event × Derivation} {levels : List Awaited}
    (h : d.emit event mark agenda = .ok r)
    (hlevels : acceptNode levels event = some (awaited agenda)) : AcceptedNode levels r := by
  rcases item_of_emit h with ⟨hitem, hagenda⟩
  rw [AcceptedNode, hitem, hagenda]
  exact hlevels

/-! ### Nodes -/

theorem acceptNode_of_leftOut {d : Derivation} {adorned : Bool} {mark : Mark}
    {rest : List Production} {r : Placed Event × Derivation}
    (h : d.leftOut adorned mark rest = .ok r) : AcceptedNode (awaited rest) r := by
  unfold leftOut at h
  split at h
  · exact acceptedNode_of_emit h rfl
  · simp at h

theorem acceptNode_of_unadorned {d : Derivation} {place : Place} {adorned : Bool}
    {rest : List Production} {r : Placed Event × Derivation}
    (h : d.unadorned place adorned rest = .ok r) : AcceptedNode (awaited rest) r := by
  simp only [unadorned, bind_eq_ok] at h
  rcases h with ⟨⟨next, d'⟩, _, h⟩
  simp only at h
  -- A scalar or a collection begins, or else a scalar stands for a node that is left out.
  split at h
  · exact acceptedNode_of_emit h rfl
  · exact acceptedNode_of_emit h rfl
  · exact acceptedNode_of_emit h rfl
  · split at h
    · exact acceptedNode_of_emit h rfl
    · exact acceptNode_of_leftOut h
  · split at h
    · exact acceptedNode_of_emit h rfl
    · exact acceptNode_of_leftOut h
  · split at h
    · exact acceptedNode_of_emit h rfl
    · exact acceptNode_of_leftOut h
  · exact acceptNode_of_leftOut h

/-- The event that a node begins with is accepted as the beginning of a node. -/
theorem acceptNode_of_node {d : Derivation} {place : Place} {rest : List Production}
    {r : Placed Event × Derivation} (h : d.node place rest = .ok r) :
    AcceptedNode (awaited rest) r := by
  simp only [node, bind_eq_ok] at h
  rcases h with ⟨⟨next, d'⟩, _, h⟩
  simp only at h
  split at h
  · split at h
    · exact acceptedNode_of_emit h rfl
    · simp at h
  · -- An anchor, with a tag behind it or not.
    simp only [anchored, bind_eq_ok] at h
    rcases h with ⟨⟨next', d''⟩, _, h⟩
    simp only at h
    split at h
    · simp only [bind_eq_ok] at h
      rcases h with ⟨_, _, h⟩
      exact acceptNode_of_unadorned h
    · exact acceptNode_of_unadorned h
  · -- A tag, with an anchor behind it or not.
    simp only [tagged, bind_eq_ok] at h
    rcases h with ⟨_, _, ⟨next', d''⟩, _, h⟩
    simp only at h
    split at h
    · exact acceptNode_of_unadorned h
    · exact acceptNode_of_unadorned h
  · exact acceptNode_of_unadorned h

theorem acceptNode_of_nodeUnless {d : Derivation} {isLeftOut : Token → Bool} {place : Place}
    {rest : List Production} {r : Placed Event × Derivation}
    (h : d.nodeUnless isLeftOut place rest = .ok r) : AcceptedNode (awaited rest) r := by
  simp only [nodeUnless, bind_eq_ok] at h
  rcases h with ⟨⟨next, d'⟩, _, h⟩
  simp only at h
  split at h
  · exact acceptedNode_of_emit h rfl
  · exact acceptNode_of_node h

/-! ### Documents -/

theorem accept_of_stream {d : Derivation} {rest : List Production}
    {r : Placed Event × Derivation} (h : d.stream rest = .ok r) :
    Accepted (.streamStart :: awaited rest) r := by
  simp only [stream, bind_eq_ok] at h
  rcases h with ⟨⟨next, d'⟩, _, h⟩
  exact accepted_of_emit h rfl

theorem accept_of_announced {d : Derivation} {rest : List Production}
    {r : Placed Event × Derivation} (h : d.announced rest = .ok r) :
    Accepted (.document :: awaited rest) r := by
  simp only [announced, bind_eq_ok] at h
  rcases h with ⟨d₁, _, ⟨next, d'⟩, _, h⟩
  simp only at h
  split at h
  · exact accepted_of_emit h rfl
  · simp at h

theorem accept_of_document {d : Derivation} {rest : List Production}
    {r : Placed Event × Derivation} (h : d.document rest = .ok r) :
    Accepted (.document :: awaited rest) r := by
  simp only [document, bind_eq_ok] at h
  rcases h with ⟨⟨next, d'⟩, _, h⟩
  simp only at h
  split at h
  · exact accepted_of_emit h rfl
  · exact accept_of_announced h
  · exact accept_of_announced h
  · exact accepted_of_emit h rfl

theorem accept_of_documentEnd {d : Derivation} {rest : List Production}
    {r : Placed Event × Derivation} (h : d.documentEnd rest = .ok r) :
    Accepted (.documentEnd :: awaited rest) r := by
  simp only [documentEnd, bind_eq_ok] at h
  rcases h with ⟨⟨next, d'⟩, _, h⟩
  simp only at h
  split at h
  · exact accepted_of_emit h rfl
  · simp at h
  · exact accepted_of_emit h rfl

/-! ### Block collections -/

theorem accept_of_blockKey {d : Derivation} {rest : List Production}
    {r : Placed Event × Derivation} (h : d.blockKey rest = .ok r) :
    Accepted (.key :: awaited rest) r := by
  simp only [blockKey, bind_eq_ok] at h
  rcases h with ⟨⟨next, d'⟩, _, h⟩
  simp only at h
  split at h
  · exact accept_key_of_acceptNode (acceptNode_of_nodeUnless h)
  · exact accepted_of_emit h rfl
  · exact accepted_of_emit h rfl
  · simp at h

theorem accept_of_blockValue {d : Derivation} {rest : List Production}
    {r : Placed Event × Derivation} (h : d.blockValue rest = .ok r) :
    Accepted (.value :: awaited rest) r := by
  simp only [blockValue, bind_eq_ok] at h
  rcases h with ⟨⟨next, d'⟩, _, h⟩
  simp only at h
  split at h
  · exact acceptNode_of_nodeUnless h
  · exact accepted_of_emit h rfl

theorem accept_of_blockEntry {d : Derivation} {rest : List Production}
    {r : Placed Event × Derivation} (h : d.blockEntry rest = .ok r) :
    Accepted (.item :: awaited rest) r := by
  simp only [blockEntry, bind_eq_ok] at h
  rcases h with ⟨⟨next, d'⟩, _, h⟩
  simp only at h
  split at h
  · exact accept_item_of_acceptNode (acceptNode_of_nodeUnless h)
  · exact accepted_of_emit h rfl
  · simp at h

theorem accept_of_levelEntry {d : Derivation} {rest : List Production}
    {r : Placed Event × Derivation} (h : d.levelEntry rest = .ok r) :
    Accepted (.item :: awaited rest) r := by
  simp only [levelEntry, bind_eq_ok] at h
  rcases h with ⟨⟨next, d'⟩, _, h⟩
  simp only at h
  split at h
  · exact accept_item_of_acceptNode (acceptNode_of_nodeUnless h)
  · exact accepted_of_emit h rfl

/-! ### Flow collections -/

theorem accept_of_flowKeyAt {d : Derivation} {mark : Mark} {rest : List Production}
    {r : Placed Event × Derivation} (h : d.flowKeyAt mark rest = .ok r) :
    Accepted (.key :: awaited rest) r := by
  simp only [flowKeyAt, bind_eq_ok] at h
  rcases h with ⟨⟨next, d'⟩, _, h⟩
  simp only at h
  split at h
  · exact accept_key_of_acceptNode (acceptNode_of_nodeUnless h)
  · exact accepted_of_emit h rfl
  · exact accepted_of_emit h rfl
  · exact accept_key_of_acceptNode (acceptNode_of_node h)

theorem accept_of_flowKey {d : Derivation} {first : Bool} {rest : List Production}
    {r : Placed Event × Derivation} (h : d.flowKey first rest = .ok r) :
    Accepted (.key :: awaited rest) r := by
  simp only [flowKey, bind_eq_ok] at h
  rcases h with ⟨⟨next, d'⟩, _, h⟩
  simp only at h
  split at h
  · exact accept_of_flowKeyAt h
  · split at h
    · exact accept_of_flowKeyAt h
    · simp at h

theorem accept_of_flowColon {d : Derivation} {colon : Mark} {rest : List Production}
    {r : Placed Event × Derivation} (h : d.flowColon colon rest = .ok r) :
    Accepted (.value :: awaited rest) r := by
  simp only [flowColon, bind_eq_ok] at h
  rcases h with ⟨⟨next, d'⟩, _, h⟩
  simp only at h
  split at h
  · exact accepted_of_emit h rfl
  · exact acceptNode_of_node h

theorem accept_of_flowValue {d : Derivation} {rest : List Production}
    {r : Placed Event × Derivation} (h : d.flowValue rest = .ok r) :
    Accepted (.value :: awaited rest) r := by
  simp only [flowValue, bind_eq_ok] at h
  rcases h with ⟨⟨next, d'⟩, _, h⟩
  simp only at h
  split at h
  · exact accept_of_flowColon h
  · exact accepted_of_emit h rfl

theorem accept_of_flowNoValue {d : Derivation} {rest : List Production}
    {r : Placed Event × Derivation} (h : d.flowNoValue rest = .ok r) :
    Accepted (.value :: awaited rest) r := by
  simp only [flowNoValue, bind_eq_ok] at h
  rcases h with ⟨⟨next, d'⟩, _, h⟩
  exact accepted_of_emit h rfl

theorem accept_of_flowEntryAt {d : Derivation} {rest : List Production}
    {r : Placed Event × Derivation} (h : d.flowEntryAt rest = .ok r) :
    Accepted (.item :: awaited rest) r := by
  simp only [flowEntryAt, bind_eq_ok] at h
  rcases h with ⟨⟨next, d'⟩, _, h⟩
  simp only at h
  split at h
  · exact accepted_of_emit h rfl
  · -- A pair without braces: its mapping is open inside the sequence.
    exact accepted_of_emit h rfl
  · exact accept_item_of_acceptNode (acceptNode_of_node h)

theorem accept_of_flowEntry {d : Derivation} {first : Bool} {rest : List Production}
    {r : Placed Event × Derivation} (h : d.flowEntry first rest = .ok r) :
    Accepted (.item :: awaited rest) r := by
  simp only [flowEntry, bind_eq_ok] at h
  rcases h with ⟨⟨next, d'⟩, _, h⟩
  simp only at h
  split at h
  · exact accept_of_flowEntryAt h
  · split at h
    · exact accept_of_flowEntryAt h
    · simp at h

theorem accept_of_pairKey {d : Derivation} {rest : List Production}
    {r : Placed Event × Derivation} (h : d.pairKey rest = .ok r) :
    Accepted (.key :: awaited rest) r := by
  simp only [pairKey, bind_eq_ok] at h
  rcases h with ⟨⟨next, d'⟩, _, h⟩
  simp only at h
  split at h
  · exact accepted_of_emit h rfl
  · exact accept_key_of_acceptNode (acceptNode_of_node h)

theorem accept_of_pairValue {d : Derivation} {rest : List Production}
    {r : Placed Event × Derivation} (h : d.pairValue rest = .ok r) :
    Accepted (.value :: awaited rest) r := by
  simp only [pairValue, bind_eq_ok] at h
  rcases h with ⟨⟨next, d'⟩, _, h⟩
  simp only at h
  split at h
  · exact acceptNode_of_nodeUnless h
  · exact accepted_of_emit h rfl

/-! ### Runs -/

/-- Fulfilling an expectation gives an event that is waited for. -/
theorem accept_of_fulfil {d : Derivation} {p : Production} {rest : List Production}
    {r : Placed Event × Derivation} (h : d.fulfil rest p = .ok r) :
    Accepted (awaited (p :: rest)) r := by
  cases p with
  | stream => exact accept_of_stream h
  | document => exact accept_of_document h
  | content => exact acceptNode_of_nodeUnless h
  | root => exact acceptNode_of_node h
  | documentEnd => exact accept_of_documentEnd h
  | blockKey => exact accept_of_blockKey h
  | blockValue => exact accept_of_blockValue h
  | blockColon => exact acceptNode_of_nodeUnless h
  | blockEntry => exact accept_of_blockEntry h
  | levelEntry => exact accept_of_levelEntry h
  | flowKey first => exact accept_of_flowKey h
  | flowValue => exact accept_of_flowValue h
  | flowColon colon => exact accept_of_flowColon h
  | flowNoValue => exact accept_of_flowNoValue h
  | flowEntry first => exact accept_of_flowEntry h
  | pairKey => exact accept_of_pairKey h
  | pairValue => exact accept_of_pairValue h
  | pairEnd => exact accepted_of_emit h rfl

/-- Some steps of the grammar lead from one place to another and give some events. -/
inductive Gives : Derivation → List (Placed Event) → Derivation → Prop
  | none (d : Derivation) : Gives d [] d
  | more (d d' d'' : Derivation) (event : Placed Event) (events : List (Placed Event))
      (hstep : d.step = .ok (some (event, d'))) (hrest : Gives d' events d'') :
      Gives d (event :: events) d''

theorem gives_append {d d' d'' : Derivation} {front back : List (Placed Event)}
    (h : Gives d front d') (h' : Gives d' back d'') : Gives d (front ++ back) d'' := by
  induction h with
  | none d => exact h'
  | more d d₁ d₂ event events hstep _ ih => exact .more d d₁ d'' event _ hstep (ih h')

theorem gives_of_step {d d' : Derivation} {event : Placed Event}
    (h : d.step = .ok (some (event, d'))) : Gives d [event] d' :=
  .more d d' d' event [] h (.none d')

theorem accept_of_step {d : Derivation} {r : Placed Event × Derivation}
    (h : d.step = .ok (some r)) : Accepted (awaited d.agenda) r := by
  unfold step at h
  split at h
  · simp at h
  · rename_i p rest hagenda
    cases hr : d.fulfil rest p with
    | error e => simp [hr, Except.map] at h
    | ok r' =>
      simp only [hr, Except.map, Except.ok.injEq, Option.some.injEq] at h
      rw [hagenda, ← h]
      exact accept_of_fulfil hr

/-- The events of a run are waited for one after the other, whether or not the run is
    finished. -/
theorem acceptAll_of_gives {d d' : Derivation} {events : List (Placed Event)}
    (h : Gives d events d') :
    acceptAll (awaited d.agenda) (events.map (·.item)) = some (awaited d'.agenda) := by
  induction h with
  | none d => rfl
  | more d d' d'' event events hstep _ ih =>
    have hevent : accept (awaited d.agenda) event.item = some (awaited d'.agenda) :=
      accept_of_step hstep
    rw [acceptAll, List.map_cons, List.foldlM_cons, hevent]
    exact ih

theorem agenda_of_step_none {d : Derivation} (h : d.step = .ok none) : d.agenda = [] := by
  unfold step at h
  split at h
  · assumption
  · rename_i p rest _
    cases hr : d.fulfil rest p <;> simp [hr, Except.map] at h

/-- The events of a document are given by a run after which nothing is expected. -/
theorem gives_of_events {d : Derivation} {given events : List (Placed Event)}
    (h : d.events given = .ok events) :
    ∃ found d', Gives d found d' ∧ d'.agenda = [] ∧ events = given.reverse ++ found := by
  fun_induction Derivation.events d given with
  | case1 => simp at h
  | case2 d given hstep =>
    simp only [Except.ok.injEq] at h
    exact ⟨[], d, .none d, agenda_of_step_none hstep, by simp [← h]⟩
  | case3 d given event d' hstep ih =>
    rcases ih h with ⟨found, last, hgives, hagenda, hevents⟩
    exact ⟨event :: found, last, .more d d' last event found hstep hgives, hagenda,
      by simp [hevents]⟩

/-- Behind a step the events go on with what the step gives. -/
theorem events_of_step {d d' : Derivation} {event : Placed Event}
    (h : d.step = .ok (some (event, d'))) (given : List (Placed Event)) :
    d.events given = d'.events (event :: given) := by
  rw [events]
  split
  · rename_i hstep
    simp [h] at hstep
  · rename_i hstep
    simp [h] at hstep
  · rename_i event' d₁ hstep
    simp only [h, Except.ok.injEq, Option.some.injEq, Prod.mk.injEq] at hstep
    rw [hstep.1, hstep.2]

/-- Where nothing is expected, no more events come. -/
theorem events_of_agenda_nil {d : Derivation} (h : d.agenda = []) (given : List (Placed Event)) :
    d.events given = .ok given.reverse := by
  have hnone : d.step = .ok none := by
    rw [step, h]
  rw [events]
  split
  · rename_i hstep
    simp [hnone] at hstep
  · rfl
  · rename_i hstep
    simp [hnone] at hstep

/-- A run after which nothing is expected gives the events of a document. -/
theorem events_of_gives {d d' : Derivation} {events : List (Placed Event)} (h : Gives d events d')
    (hagenda : d'.agenda = []) (given : List (Placed Event)) :
    d.events given = .ok (given.reverse ++ events) := by
  induction h generalizing given with
  | none d => rw [events_of_agenda_nil hagenda, List.append_nil]
  | more d d' d'' event events hstep _ ih =>
    rw [events_of_step hstep, ih hagenda, List.reverse_cons, List.append_assoc,
      List.singleton_append]

end Derivation

end Yaml

end YamlLocator
