import YamlLocator.Yaml.Event.Grammar

/-!
# Reading a Document Comes to an End

Most steps of the grammar take a token. The others put something in the place of the
first expectation that asks for less: a sequence that is not indented begins at a token
that its first entry will take, a value that is left out leads on to a key, and a
document without a marker begins where its contents do. Weights on the expectations
make that precise, and show that the steps come to an end.

## Main definitions

* `Production.weight`: How many steps an expectation may cause that take no token.
* `Derivation.step`: One step of the grammar.
* `Derivation.Lighter`: What a step leaves is less.

## Theorems

* `Derivation.length_of_node`: What a node takes.
* `Derivation.lighter_of_fulfil`: Every expectation is fulfilled in a lighter state.
* `Derivation.step_decreases`: A step takes a token or lightens the agenda.
-/

namespace YamlLocator

namespace Yaml

/-- How many steps an expectation may cause that take no token. -/
def Production.weight : Production → Nat
  | .document => 3
  | .blockColon => 3
  | .blockValue => 2
  | .flowValue => 2
  | .flowColon _ => 2
  | .flowNoValue => 2
  | .pairValue => 2
  | _ => 1

namespace Derivation

/-- The weight of an agenda. -/
def weight : List Production → Nat
  | [] => 0
  | p :: rest => p.weight + weight rest

@[simp]
theorem weight_cons (p : Production) (rest : List Production) :
    weight (p :: rest) = p.weight + weight rest := rfl

/-- Fulfil the first expectation, with nothing to give if there is none. -/
def step (d : Derivation) : Except SyntaxError (Option (Placed Event × Derivation)) :=
  match d.agenda with
  | [] => .ok none
  | p :: rest => (d.fulfil rest p).map some

/-! ### What steps take away -/

theorem peek_eq_ok {d : Derivation} {r : Delivered × Derivation} (h : d.peek = .ok r) :
    ∃ tokens, d.tokens = r.1 :: tokens ∧ r.2 = { d with reached := r.1.reached } := by
  unfold peek at h
  split at h
  · simp at h
  · rename_i token tokens ht
    simp only [Except.ok.injEq] at h
    rw [← h]
    exact ⟨tokens, ht, rfl⟩

theorem length_skip_of_peek {d : Derivation} {r : Delivered × Derivation} (h : d.peek = .ok r) :
    r.2.tokens.length = d.tokens.length ∧ r.2.skip.tokens.length < d.tokens.length := by
  rcases peek_eq_ok h with ⟨tokens, ht, hr⟩
  rw [hr]
  simp [skip, ht]

theorem emit_eq_ok {d : Derivation} {event : Event} {mark : Mark} {agenda : List Production}
    {r : Placed Event × Derivation} (h : d.emit event mark agenda = .ok r) :
    r.2.tokens = d.tokens ∧ r.2.agenda = agenda := by
  simp only [emit, Except.ok.injEq] at h
  rw [← h]
  exact ⟨rfl, rfl⟩

/-- A step has left fewer tokens, or as many and a lighter agenda. -/
def Lighter (tokens weight : Nat) (r : Placed Event × Derivation) : Prop :=
  r.2.tokens.length < tokens ∨
    (r.2.tokens.length = tokens ∧ Derivation.weight r.2.agenda < weight)

/-- An event that is given lightens if what is left is less. -/
theorem lighter_of_emit {d : Derivation} {event : Event} {mark : Mark} {agenda : List Production}
    {r : Placed Event × Derivation} {tokens w : Nat} (h : d.emit event mark agenda = .ok r)
    (hd : d.tokens.length < tokens ∨ (d.tokens.length = tokens ∧ weight agenda < w)) :
    Lighter tokens w r := by
  rcases emit_eq_ok h with ⟨ht, ha⟩
  unfold Lighter
  rwa [ht, ha]

theorem length_of_leftOut {d : Derivation} {adorned : Bool} {mark : Mark} {rest : List Production}
    {r : Placed Event × Derivation} (h : d.leftOut adorned mark rest = .ok r) :
    adorned = true ∧ r.2.tokens.length = d.tokens.length := by
  unfold leftOut at h
  split at h
  · exact ⟨‹_›, by rw [(emit_eq_ok h).1]⟩
  · simp at h

/-- A node without properties takes a token, unless it is a sequence that is not
    indented; with properties, it may be left out. -/
theorem length_of_unadorned {d : Derivation} {place : Place} {adorned : Bool}
    {rest : List Production} {r : Placed Event × Derivation}
    (h : d.unadorned place adorned rest = .ok r) :
    r.2.tokens.length < d.tokens.length ∨
      (r.2.tokens.length = d.tokens.length ∧
        (adorned = true ∨ (place.level = true ∧ r.2.agenda = .levelEntry :: rest))) := by
  simp only [unadorned, bind_eq_ok] at h
  rcases h with ⟨⟨next, d'⟩, hp, h⟩
  rcases length_skip_of_peek hp with ⟨hlen, hskip⟩
  simp only at hlen hskip h
  have taken {event : Event} {mark : Mark} {agenda : List Production}
      (h : d'.skip.emit event mark agenda = .ok r) : r.2.tokens.length < d.tokens.length := by
    rwa [(emit_eq_ok h).1]
  have out (h : d'.leftOut adorned next.mark rest = .ok r) :
      r.2.tokens.length = d.tokens.length ∧
        (adorned = true ∨ (place.level = true ∧ r.2.agenda = .levelEntry :: rest)) :=
    ⟨by rw [(length_of_leftOut h).2, hlen], .inl (length_of_leftOut h).1⟩
  split at h
  · exact .inl (taken h)
  · exact .inl (taken h)
  · exact .inl (taken h)
  · split at h
    · rcases emit_eq_ok h with ⟨ht, ha⟩
      exact .inr ⟨by rw [ht, hlen], .inr ⟨‹_›, ha⟩⟩
    · exact .inr (out h)
  · split at h
    · exact .inl (taken h)
    · exact .inr (out h)
  · split at h
    · exact .inl (taken h)
    · exact .inr (out h)
  · exact .inr (out h)

theorem length_of_unadorned_le {d : Derivation} {place : Place} {adorned : Bool}
    {rest : List Production} {r : Placed Event × Derivation}
    (h : d.unadorned place adorned rest = .ok r) : r.2.tokens.length ≤ d.tokens.length := by
  rcases length_of_unadorned h with h | ⟨h, _⟩ <;> omega

/-- A node takes a token, unless it is a sequence that is not indented. -/
theorem length_of_node {d : Derivation} {place : Place} {rest : List Production}
    {r : Placed Event × Derivation} (h : d.node place rest = .ok r) :
    r.2.tokens.length < d.tokens.length ∨
      (r.2.tokens.length = d.tokens.length ∧
        place.level = true ∧ r.2.agenda = .levelEntry :: rest) := by
  simp only [node, bind_eq_ok] at h
  rcases h with ⟨⟨next, d'⟩, hp, h⟩
  rcases length_skip_of_peek hp with ⟨hlen, hskip⟩
  simp only at hlen hskip h
  split at h
  · -- An alias is taken.
    split at h
    · left
      rwa [(emit_eq_ok h).1]
    · simp at h
  · -- The anchor is taken, so whatever follows it may be left out.
    rename_i name _
    simp only [anchored, bind_eq_ok] at h
    rcases h with ⟨⟨next₂, d₂⟩, hp₂, h⟩
    rcases length_skip_of_peek hp₂ with ⟨hlen₂, hskip₂⟩
    simp only [addAnchor] at hlen₂ hskip₂ h
    left
    split at h
    · simp only [bind_eq_ok] at h
      rcases h with ⟨_, _, h⟩
      have := length_of_unadorned_le h
      omega
    · have := length_of_unadorned_le h
      omega
  · -- So is the tag.
    simp only [tagged, bind_eq_ok] at h
    rcases h with ⟨_, _, ⟨next₂, d₂⟩, hp₂, h⟩
    rcases length_skip_of_peek hp₂ with ⟨hlen₂, hskip₂⟩
    simp only at hlen₂ hskip₂ h
    left
    split at h
    · have := length_of_unadorned_le h
      simp only [addAnchor] at this
      omega
    · have := length_of_unadorned_le h
      omega
  · -- Without properties, only the sequence that is not indented is left.
    rcases length_of_unadorned h with h | ⟨h, hlevel⟩
    · left
      omega
    · right
      simp only [Bool.false_eq_true, false_or] at hlevel
      exact ⟨by omega, hlevel⟩

theorem lighter_of_node {d : Derivation} {place : Place} {rest : List Production}
    {r : Placed Event × Derivation} {tokens w : Nat} (h : d.node place rest = .ok r)
    (hd : d.tokens.length < tokens ∨
      (d.tokens.length = tokens ∧ (place.level = true → 1 + weight rest < w))) :
    Lighter tokens w r := by
  unfold Lighter
  rcases length_of_node h with h | ⟨h, hlevel, ha⟩
  · omega
  · rcases hd with hd | ⟨hd, hw⟩
    · omega
    · right
      rw [ha, weight_cons]
      exact ⟨by omega, hw hlevel⟩

theorem lighter_of_nodeUnless {d : Derivation} {isLeftOut : Token → Bool} {place : Place}
    {rest : List Production} {r : Placed Event × Derivation} {tokens w : Nat}
    (h : d.nodeUnless isLeftOut place rest = .ok r)
    (hd : d.tokens.length < tokens ∨
      (d.tokens.length = tokens ∧ weight rest < w ∧ (place.level = true → 1 + weight rest < w))) :
    Lighter tokens w r := by
  simp only [nodeUnless, bind_eq_ok] at h
  rcases h with ⟨⟨next, d'⟩, hp, h⟩
  rcases length_skip_of_peek hp with ⟨hlen, _⟩
  simp only at hlen h
  split at h
  · refine lighter_of_emit h ?_
    rw [hlen]
    rcases hd with hd | ⟨hd, hw, _⟩
    · exact .inl hd
    · exact .inr ⟨hd, hw⟩
  · refine lighter_of_node h ?_
    rw [hlen]
    rcases hd with hd | ⟨hd, _, hw⟩
    · exact .inl hd
    · exact .inr ⟨hd, hw⟩

theorem lighter_of_stream {d : Derivation} {rest : List Production}
    {r : Placed Event × Derivation} (h : d.stream rest = .ok r) :
    Lighter d.tokens.length (Production.stream.weight + weight rest) r := by
  simp only [stream, bind_eq_ok] at h
  rcases h with ⟨⟨next, d'⟩, hp, h⟩
  rcases length_skip_of_peek hp with ⟨hlen, hskip⟩
  simp only at hlen hskip h
  exact lighter_of_emit h (.inl hskip)

theorem tokens_passDirectives_le {d d' : Derivation} (h : d.passDirectives = .ok d') :
    d'.tokens.length ≤ d.tokens.length := by
  unfold passDirectives at h
  split at h
  · simp at h
  · simp only [Except.ok.injEq] at h
    rw [← h]
    exact (List.dropWhile_sublist _).length_le

theorem length_of_announced {d : Derivation} {rest : List Production}
    {r : Placed Event × Derivation} (h : d.announced rest = .ok r) :
    r.2.tokens.length < d.tokens.length := by
  simp only [announced, bind_eq_ok] at h
  rcases h with ⟨d₁, hpass, ⟨next, d'⟩, hp, h⟩
  have hle := tokens_passDirectives_le hpass
  rcases length_skip_of_peek hp with ⟨hlen, hskip⟩
  simp only at hlen hskip h
  split at h
  · rw [(emit_eq_ok h).1]
    omega
  · simp at h

theorem lighter_of_document {d : Derivation} {rest : List Production}
    {r : Placed Event × Derivation} (h : d.document rest = .ok r) :
    Lighter d.tokens.length (Production.document.weight + weight rest) r := by
  simp only [document, bind_eq_ok] at h
  rcases h with ⟨⟨next, d'⟩, hp, h⟩
  rcases length_skip_of_peek hp with ⟨hlen, hskip⟩
  have hdrop := (List.dropWhile_sublist (l := d.tokens) (·.item = Token.documentEnd)).length_le
  simp only at hlen hskip h
  split at h
  · exact lighter_of_emit h (.inl (by omega))
  · exact .inl (by have := length_of_announced h; omega)
  · exact .inl (by have := length_of_announced h; omega)
  · -- A document without a marker takes nothing: its root and its end weigh less than it.
    refine lighter_of_emit h ?_
    simp only [weight_cons, Production.weight]
    omega

theorem lighter_of_documentEnd {d : Derivation} {rest : List Production}
    {r : Placed Event × Derivation} (h : d.documentEnd rest = .ok r) :
    Lighter d.tokens.length (Production.documentEnd.weight + weight rest) r := by
  simp only [documentEnd, bind_eq_ok] at h
  rcases h with ⟨⟨next, d'⟩, hp, h⟩
  rcases length_skip_of_peek hp with ⟨hlen, hskip⟩
  simp only at hlen hskip h
  split at h
  · exact lighter_of_emit h (.inl hskip)
  · simp at h
  · exact lighter_of_emit h (.inr ⟨hlen, by simp [Production.weight]⟩)

theorem lighter_of_blockKey {d : Derivation} {rest : List Production}
    {r : Placed Event × Derivation} (h : d.blockKey rest = .ok r) :
    Lighter d.tokens.length (Production.blockKey.weight + weight rest) r := by
  simp only [blockKey, bind_eq_ok] at h
  rcases h with ⟨⟨next, d'⟩, hp, h⟩
  rcases length_skip_of_peek hp with ⟨hlen, hskip⟩
  simp only at hlen hskip h
  split at h
  · exact lighter_of_nodeUnless h (.inl hskip)
  · exact lighter_of_emit h (.inl hskip)
  · exact lighter_of_emit h (.inl hskip)
  · simp at h

theorem lighter_of_blockColon {d : Derivation} {rest : List Production}
    {r : Placed Event × Derivation} (h : d.blockColon rest = .ok r) :
    Lighter d.tokens.length (Production.blockColon.weight + weight rest) r := by
  refine lighter_of_nodeUnless h (.inr ⟨rfl, ?_, fun _ => ?_⟩)
  · simp only [weight_cons, Production.weight]
    omega
  · simp only [weight_cons, Production.weight]
    omega

theorem lighter_of_blockValue {d : Derivation} {rest : List Production}
    {r : Placed Event × Derivation} (h : d.blockValue rest = .ok r) :
    Lighter d.tokens.length (Production.blockValue.weight + weight rest) r := by
  simp only [blockValue, bind_eq_ok] at h
  rcases h with ⟨⟨next, d'⟩, hp, h⟩
  rcases length_skip_of_peek hp with ⟨hlen, hskip⟩
  simp only at hlen hskip h
  split at h
  · -- The colon outweighs the value, but it has been taken with its token.
    have := lighter_of_blockColon h
    unfold Lighter at this ⊢
    omega
  · exact lighter_of_emit h (.inr ⟨hlen, by simp [Production.weight]⟩)

theorem lighter_of_blockEntry {d : Derivation} {rest : List Production}
    {r : Placed Event × Derivation} (h : d.blockEntry rest = .ok r) :
    Lighter d.tokens.length (Production.blockEntry.weight + weight rest) r := by
  simp only [blockEntry, bind_eq_ok] at h
  rcases h with ⟨⟨next, d'⟩, hp, h⟩
  rcases length_skip_of_peek hp with ⟨hlen, hskip⟩
  simp only at hlen hskip h
  split at h
  · exact lighter_of_nodeUnless h (.inl hskip)
  · exact lighter_of_emit h (.inl hskip)
  · simp at h

theorem lighter_of_levelEntry {d : Derivation} {rest : List Production}
    {r : Placed Event × Derivation} (h : d.levelEntry rest = .ok r) :
    Lighter d.tokens.length (Production.levelEntry.weight + weight rest) r := by
  simp only [levelEntry, bind_eq_ok] at h
  rcases h with ⟨⟨next, d'⟩, hp, h⟩
  rcases length_skip_of_peek hp with ⟨hlen, hskip⟩
  simp only at hlen hskip h
  split at h
  · exact lighter_of_nodeUnless h (.inl hskip)
  · exact lighter_of_emit h (.inr ⟨hlen, by simp [Production.weight]⟩)

theorem length_of_node_inFlow {d : Derivation} {rest : List Production}
    {r : Placed Event × Derivation} (h : d.node .inFlow rest = .ok r) :
    r.2.tokens.length < d.tokens.length := by
  rcases length_of_node h with h | ⟨_, hlevel, _⟩
  · exact h
  · simp [Place.inFlow] at hlevel

theorem length_of_flowKeyAt {d : Derivation} {mark : Mark} {rest : List Production}
    {r : Placed Event × Derivation} (h : d.flowKeyAt mark rest = .ok r) :
    r.2.tokens.length < d.tokens.length := by
  simp only [flowKeyAt, bind_eq_ok] at h
  rcases h with ⟨⟨next, d'⟩, hp, h⟩
  rcases length_skip_of_peek hp with ⟨hlen, hskip⟩
  simp only at hlen hskip h
  split at h
  · -- Nothing is lighter than an agenda of weight zero, so a token has been taken.
    have hlighter : Lighter d.tokens.length 0 r := lighter_of_nodeUnless h (.inl hskip)
    rcases hlighter with h | ⟨_, h⟩
    · exact h
    · exact absurd h (Nat.not_lt_zero _)
  · rwa [(emit_eq_ok h).1]
  · rwa [(emit_eq_ok h).1]
  · have := length_of_node_inFlow h
    omega

theorem lighter_of_flowKey {d : Derivation} {first : Bool} {rest : List Production}
    {r : Placed Event × Derivation} (h : d.flowKey first rest = .ok r) :
    Lighter d.tokens.length ((Production.flowKey first).weight + weight rest) r := by
  simp only [flowKey, bind_eq_ok] at h
  rcases h with ⟨⟨next, d'⟩, hp, h⟩
  rcases length_skip_of_peek hp with ⟨hlen, hskip⟩
  simp only at hlen hskip h
  left
  split at h
  · have := length_of_flowKeyAt h
    omega
  · split at h
    · have := length_of_flowKeyAt h
      omega
    · simp at h

theorem lighter_of_flowColon {d : Derivation} {colon : Mark} {rest : List Production}
    {r : Placed Event × Derivation} (h : d.flowColon colon rest = .ok r) :
    Lighter d.tokens.length ((Production.flowColon colon).weight + weight rest) r := by
  simp only [flowColon, bind_eq_ok] at h
  rcases h with ⟨⟨next, d'⟩, hp, h⟩
  rcases length_skip_of_peek hp with ⟨hlen, hskip⟩
  simp only at hlen hskip h
  split at h
  · exact lighter_of_emit h (.inr ⟨hlen, by simp [Production.weight]⟩)
  · have := length_of_node_inFlow h
    exact .inl (by omega)

theorem lighter_of_flowValue {d : Derivation} {rest : List Production}
    {r : Placed Event × Derivation} (h : d.flowValue rest = .ok r) :
    Lighter d.tokens.length (Production.flowValue.weight + weight rest) r := by
  simp only [flowValue, bind_eq_ok] at h
  rcases h with ⟨⟨next, d'⟩, hp, h⟩
  rcases length_skip_of_peek hp with ⟨hlen, hskip⟩
  simp only at hlen hskip h
  split at h
  · have := lighter_of_flowColon h
    unfold Lighter at this ⊢
    omega
  · exact lighter_of_emit h (.inr ⟨hlen, by simp [Production.weight]⟩)

theorem lighter_of_flowNoValue {d : Derivation} {rest : List Production}
    {r : Placed Event × Derivation} (h : d.flowNoValue rest = .ok r) :
    Lighter d.tokens.length (Production.flowNoValue.weight + weight rest) r := by
  simp only [flowNoValue, bind_eq_ok] at h
  rcases h with ⟨⟨next, d'⟩, hp, h⟩
  rcases length_skip_of_peek hp with ⟨hlen, hskip⟩
  simp only at hlen hskip h
  exact lighter_of_emit h (.inr ⟨hlen, by simp [Production.weight]⟩)

theorem length_of_flowEntryAt {d : Derivation} {rest : List Production}
    {r : Placed Event × Derivation} (h : d.flowEntryAt rest = .ok r) :
    r.2.tokens.length < d.tokens.length := by
  simp only [flowEntryAt, bind_eq_ok] at h
  rcases h with ⟨⟨next, d'⟩, hp, h⟩
  rcases length_skip_of_peek hp with ⟨hlen, hskip⟩
  simp only at hlen hskip h
  split at h
  · rwa [(emit_eq_ok h).1]
  · rwa [(emit_eq_ok h).1]
  · have := length_of_node_inFlow h
    omega

theorem lighter_of_flowEntry {d : Derivation} {first : Bool} {rest : List Production}
    {r : Placed Event × Derivation} (h : d.flowEntry first rest = .ok r) :
    Lighter d.tokens.length ((Production.flowEntry first).weight + weight rest) r := by
  simp only [flowEntry, bind_eq_ok] at h
  rcases h with ⟨⟨next, d'⟩, hp, h⟩
  rcases length_skip_of_peek hp with ⟨hlen, hskip⟩
  simp only at hlen hskip h
  left
  split at h
  · have := length_of_flowEntryAt h
    omega
  · split at h
    · have := length_of_flowEntryAt h
      omega
    · simp at h

theorem lighter_of_pairKey {d : Derivation} {rest : List Production}
    {r : Placed Event × Derivation} (h : d.pairKey rest = .ok r) :
    Lighter d.tokens.length (Production.pairKey.weight + weight rest) r := by
  simp only [pairKey, bind_eq_ok] at h
  rcases h with ⟨⟨next, d'⟩, hp, h⟩
  rcases length_skip_of_peek hp with ⟨hlen, hskip⟩
  simp only at hlen hskip h
  split at h
  · exact lighter_of_emit h (.inl hskip)
  · have := length_of_node_inFlow h
    exact .inl (by omega)

theorem lighter_of_pairValue {d : Derivation} {rest : List Production}
    {r : Placed Event × Derivation} (h : d.pairValue rest = .ok r) :
    Lighter d.tokens.length (Production.pairValue.weight + weight rest) r := by
  simp only [pairValue, bind_eq_ok] at h
  rcases h with ⟨⟨next, d'⟩, hp, h⟩
  rcases length_skip_of_peek hp with ⟨hlen, hskip⟩
  simp only at hlen hskip h
  split at h
  · exact lighter_of_nodeUnless h (.inl hskip)
  · exact lighter_of_emit h (.inr ⟨hlen, by simp [Production.weight]⟩)

/-- Fulfilling an expectation takes a token or puts something lighter in its place. -/
theorem lighter_of_fulfil {d : Derivation} {p : Production} {rest : List Production}
    {r : Placed Event × Derivation} (h : d.fulfil rest p = .ok r) :
    Lighter d.tokens.length (p.weight + weight rest) r := by
  cases p with
  | stream => exact lighter_of_stream h
  | document => exact lighter_of_document h
  | content =>
    refine lighter_of_nodeUnless h (.inr ⟨rfl, by simp [Production.weight], fun hlevel => ?_⟩)
    simp [Place.inBlock] at hlevel
  | root =>
    refine lighter_of_node h (.inr ⟨rfl, fun hlevel => ?_⟩)
    simp [Place.inBlock] at hlevel
  | documentEnd => exact lighter_of_documentEnd h
  | blockKey => exact lighter_of_blockKey h
  | blockValue => exact lighter_of_blockValue h
  | blockColon => exact lighter_of_blockColon h
  | blockEntry => exact lighter_of_blockEntry h
  | levelEntry => exact lighter_of_levelEntry h
  | flowKey first => exact lighter_of_flowKey h
  | flowValue => exact lighter_of_flowValue h
  | flowColon colon => exact lighter_of_flowColon h
  | flowNoValue => exact lighter_of_flowNoValue h
  | flowEntry first => exact lighter_of_flowEntry h
  | pairKey => exact lighter_of_pairKey h
  | pairValue => exact lighter_of_pairValue h
  | pairEnd => exact lighter_of_emit h (.inr ⟨rfl, by simp [Production.weight]⟩)

/-- A step takes a token or lightens the agenda. -/
theorem step_decreases {d : Derivation} {r : Placed Event × Derivation}
    (h : d.step = .ok (some r)) : Lighter d.tokens.length (weight d.agenda) r := by
  unfold step at h
  split at h
  · simp at h
  · rename_i p rest hagenda
    rcases hr : d.fulfil rest p with e | r'
    · simp [hr, Except.map] at h
    · simp only [hr, Except.map, Except.ok.injEq, Option.some.injEq] at h
      rw [hagenda, weight_cons, ← h]
      exact lighter_of_fulfil hr

end Derivation

end Yaml

end YamlLocator
