import YamlLocator.Proofs.Continuation.Runs
import YamlLocator.Proofs.Retelling.Events

/-!
# Events of Tokens That Go On

The grammar looks at one token after the other, so what it has found stays what it is if the
tokens go on. It may run out of tokens instead, and then there is nothing to be said: with more
tokens there may be another error or none. But it does not run out of tokens if a marker of the
end of a document is among them. Such a marker is taken by the end of the document and by nothing
else, and nothing is expected behind that.

## Main definitions

* `Derivation.append`: The reading of a document whose tokens go on.
* `Derivation.Continues`: A result stays what it is, unless the tokens run out.
* `Derivation.EndsInTime`: The document comes to its end before the tokens do.

## Theorems

* `Derivation.continues_node`: Nodes stay what they are.
* `Derivation.continues_fulfil`: So does what comes of every expectation.
* `Nesting.isInside_of_accept`: The end of the document is expected last.
* `Event.continues_ofTokens`: The events stay what they are.
-/

namespace YamlLocator

namespace Yaml

namespace Derivation

/-- The reading of a document whose tokens go on, with another error behind them. -/
def append (behind : TokenStream) (d : Derivation) : Derivation :=
  { d with tokens := d.tokens ++ behind.tokens, error := behind.error }

/-- A marker of the end of a document is among the tokens. -/
def IsClosed (d : Derivation) : Prop := ∃ token ∈ d.tokens, token.item = .documentEnd

/-- Two results are the same error, or the second one comes of the first, which satisfies a
    condition. If the tokens are not closed they may have run out instead, and then the first
    result is the error behind them. -/
inductive Continues {α : Type} (out : SyntaxError) (g : α → α) (closed : Prop) (P : α → Prop) :
    Except SyntaxError α → Except SyntaxError α → Prop
  | ok {a : α} (h : P a) : Continues out g closed P (.ok a) (.ok (g a))
  | error (e : SyntaxError) : Continues out g closed P (.error e) (.error e)
  | runsOut (h : ¬closed) (x' : Except SyntaxError α) : Continues out g closed P (.error out) x'

/-- What is left to read: a marker among the tokens, if they are closed, and an error behind
    them. -/
structure Leaves (closed : Prop) (out : SyntaxError) (d : Derivation) : Prop where
  error_eq : d.error = out
  isClosed : closed → d.IsClosed

/-- Two steps of which the second one continues the first. -/
abbrev ContinuesStep (behind : TokenStream) (out : SyntaxError) (closed : Prop) (x x' : Step) :
    Prop :=
  Continues out (Prod.map id (append behind)) closed (fun r => r.2.Leaves closed out) x x'

/-- A token was looked at, and it is the next one. -/
structure HasNext (closed : Prop) (out : SyntaxError) (next : Delivered) (d : Derivation) :
    Prop where
  tokens_eq : ∃ tokens, d.tokens = next :: tokens
  leaves : d.Leaves closed out

section

variable {α β : Type} {g : α → α} {out : SyntaxError} {closed : Prop} {P P' : α → Prop}
  {behind : TokenStream} {d : Derivation} {next : Delivered} {rest : List Production}

theorem continues_refuse (m : Mark) (fault : Fault) :
    Continues out g closed P (m.refuse fault) (m.refuse fault) := .error { fault, mark := m }

theorem continues_ite {p : Prop} [Decidable p] {x x' y y' : Except SyntaxError α}
    (hx : Continues out g closed P x x') (hy : Continues out g closed P y y') :
    Continues out g closed P (if p then x else y) (if p then x' else y') := by
  split
  · exact hx
  · exact hy

/-- Less is to be shown if the tokens are known to be closed more often. -/
theorem continues_imp {closed' : Prop} {x x' : Except SyntaxError α}
    (h : Continues out g closed' P x x') (hclosed : closed → closed')
    (himp : ∀ a, x = .ok a → P a → P' a) : Continues out g closed P' x x' := by
  cases h with
  | ok h => exact .ok (himp _ rfl h)
  | error e => exact .error e
  | runsOut h x' => exact .runsOut (fun hc => h (hclosed hc)) x'

theorem continues_map_some {x x' : Except SyntaxError α} (h : Continues out g closed P x x') :
    Continues out (Option.map g) closed (fun found => ∀ a ∈ found, P a) (x.map some)
      (x'.map some) := by
  cases h with
  | ok h => exact .ok fun a ha => Option.some.inj ha ▸ h
  | error e => exact .error e
  | runsOut h x' => exact .runsOut h _

/-- Two results of which the second one continues the first are two errors or two values, or the
    tokens have run out. -/
theorem cases_of_continues {x x' : Except SyntaxError α} (h : Continues out g closed P x x') :
    (∃ e, x = .error e ∧ x' = .error e) ∨
      (∃ a, x = .ok a ∧ x' = .ok (g a) ∧ P a) ∨ (¬closed ∧ x = .error out) := by
  cases h with
  | ok h => exact .inr (.inl ⟨_, rfl, rfl, h⟩)
  | error e => exact .inl ⟨e, rfl, rfl⟩
  | runsOut h x' => exact .inr (.inr ⟨h, rfl⟩)

theorem ok_of_continues {x x' : Except SyntaxError α} {a : α}
    (h : Continues out g closed P x x') (hx : x = .ok a) : x' = .ok (g a) ∧ P a := by
  subst hx
  cases h with
  | ok h => exact ⟨rfl, h⟩

/-- An error stays the error that it is, unless it is the one behind the tokens. -/
theorem error_of_continues {x x' : Except SyntaxError α} {e : SyntaxError}
    (h : Continues out g closed P x x') (hx : x = .error e) (hne : e ≠ out) : x' = .error e := by
  cases h with
  | ok h => cases hx
  | error e' => exact hx
  | runsOut h x' =>
    cases hx
    exact absurd rfl hne

theorem exists_of_continues {x x' : Except SyntaxError α} {b : α}
    (h : Continues out g closed P x x') (hclosed : closed) (hx' : x' = .ok b) :
    ∃ a, x = .ok a ∧ g a = b := by
  cases h with
  | ok h => exact ⟨_, rfl, Except.ok.inj hx'⟩
  | error e => cases hx'
  | runsOut h x' => exact absurd hclosed h

/-- Checks that do not look at the tokens make no difference. -/
theorem continues_bind_of_eq (x : Except SyntaxError β) {f f' : β → Except SyntaxError α}
    (hf : ∀ b, Continues out g closed P (f b) (f' b)) :
    Continues out g closed P (x >>= f) (x >>= f') := by
  cases x with
  | ok b => exact hf b
  | error e => exact .error e

/-- What is done with the next token is continued if it is for every token. -/
theorem continues_next {f f' : Delivered × Derivation → Except SyntaxError α}
    (h : d.Leaves closed out)
    (hnext : ∀ next d, HasNext closed out next d →
      Continues out g closed P (f (next, d)) (f' (next, d.append behind))) :
    Continues out g closed P (d.peek >>= f) ((d.append behind).peek >>= f') := by
  cases htokens : d.tokens with
  | nil =>
    have herror : d.peek = .error out := by rw [peek, htokens, h.error_eq]
    rw [herror]
    refine .runsOut (fun hclosed => ?_) _
    rcases h.isClosed hclosed with ⟨token, hmem, -⟩
    simp [htokens] at hmem
  | cons next tokens =>
    have hpeek : d.peek = .ok (next, { d with reached := next.reached }) := by rw [peek, htokens]
    have hpeek' : (d.append behind).peek =
        .ok (next, ({ d with reached := next.reached } : Derivation).append behind) := by
      simp [peek, append, htokens]
    rw [hpeek, hpeek']
    exact hnext _ _ ⟨⟨tokens, htokens⟩, h.error_eq, h.isClosed⟩

namespace HasNext

theorem skip_append (h : HasNext closed out next d) :
    (d.append behind).skip = d.skip.append behind := by
  rcases h.tokens_eq with ⟨tokens, htokens⟩
  simp [skip, append, htokens]

/-- Behind any other token the marker is still to come. -/
theorem leaves_skip (h : HasNext closed out next d) (hitem : next.item ≠ .documentEnd) :
    d.skip.Leaves closed out := by
  refine ⟨h.leaves.error_eq, fun hclosed => ?_⟩
  rcases h.tokens_eq with ⟨tokens, htokens⟩
  rcases h.leaves.isClosed hclosed with ⟨token, hmem, hmarker⟩
  rw [htokens, List.mem_cons] at hmem
  rcases hmem with rfl | hmem
  · exact absurd hmarker hitem
  · exact ⟨token, by simpa [skip, htokens] using hmem, hmarker⟩

end HasNext

theorem Leaves.addAnchor (h : d.Leaves closed out) (name : String) :
    (d.addAnchor name).Leaves closed out := ⟨h.error_eq, h.isClosed⟩

theorem continues_emit (h : d.Leaves closed out) (event : Event) (mark : Mark)
    (agenda : List Production) :
    ContinuesStep behind out closed (d.emit event mark agenda)
      ((d.append behind).emit event mark agenda) :=
  .ok ⟨h.error_eq, h.isClosed⟩

/-! ### Nodes -/

theorem continues_leftOut (h : d.Leaves closed out) (adorned : Bool) (mark : Mark)
    (rest : List Production) :
    ContinuesStep behind out closed (d.leftOut adorned mark rest)
      ((d.append behind).leftOut adorned mark rest) := by
  unfold leftOut
  exact continues_ite (continues_emit h ..) (continues_refuse _ _)

theorem continues_unadorned (h : d.Leaves closed out) (place : Place) (adorned : Bool)
    (rest : List Production) :
    ContinuesStep behind out closed (d.unadorned place adorned rest)
      ((d.append behind).unadorned place adorned rest) := by
  refine continues_next h fun next d h => ?_
  have hleftOut : ContinuesStep behind out closed (d.leftOut adorned next.mark rest)
      ((d.append behind).leftOut adorned next.mark rest) := continues_leftOut h.leaves ..
  have hskip := h.leaves_skip
  simp only [h.skip_append]
  cases hitem : next.item with
  | scalar style text => exact continues_emit (hskip (by simp [hitem])) ..
  | flowSequenceStart => exact continues_emit (hskip (by simp [hitem])) ..
  | flowMappingStart => exact continues_emit (hskip (by simp [hitem])) ..
  | blockEntry => exact continues_ite (continues_emit h.leaves ..) hleftOut
  | blockSequenceStart =>
    exact continues_ite (continues_emit (hskip (by simp [hitem])) ..) hleftOut
  | blockMappingStart =>
    exact continues_ite (continues_emit (hskip (by simp [hitem])) ..) hleftOut
  | _ => exact hleftOut

theorem continues_anchored (h : d.Leaves closed out) (place : Place) (mark : Mark)
    (rest : List Production) :
    ContinuesStep behind out closed (d.anchored place mark rest)
      ((d.append behind).anchored place mark rest) := by
  refine continues_next h fun next d h => ?_
  have hskip := h.leaves_skip
  simp only [h.skip_append]
  cases hitem : next.item with
  | tag tag =>
    exact continues_bind_of_eq _ fun _ => continues_unadorned (hskip (by simp [hitem])) ..
  | _ => exact continues_unadorned h.leaves ..

theorem continues_tagged (h : d.Leaves closed out) (place : Place) (rest : List Production) :
    ContinuesStep behind out closed (d.tagged place rest)
      ((d.append behind).tagged place rest) := by
  refine continues_next h fun next d h => ?_
  have hskip := h.leaves_skip
  simp only [h.skip_append]
  cases hitem : next.item with
  | anchor name =>
    exact continues_unadorned ((hskip (by simp [hitem])).addAnchor name) ..
  | _ => exact continues_unadorned h.leaves ..

/-- Nodes stay what they are. -/
theorem continues_node (h : d.Leaves closed out) (place : Place) (rest : List Production) :
    ContinuesStep behind out closed (d.node place rest) ((d.append behind).node place rest) := by
  refine continues_next h fun next d h => ?_
  have hskip := h.leaves_skip
  simp only [h.skip_append]
  cases hitem : next.item with
  | «alias» name =>
    exact continues_ite (continues_emit (hskip (by simp [hitem])) ..) (continues_refuse _ _)
  | anchor name =>
    exact continues_anchored ((hskip (by simp [hitem])).addAnchor name) ..
  | tag tag =>
    exact continues_bind_of_eq _ fun _ => continues_tagged (hskip (by simp [hitem])) ..
  | _ => exact continues_unadorned h.leaves ..

theorem continues_nodeUnless (h : d.Leaves closed out) (isLeftOut : Token → Bool) (place : Place)
    (rest : List Production) :
    ContinuesStep behind out closed (d.nodeUnless isLeftOut place rest)
      ((d.append behind).nodeUnless isLeftOut place rest) := by
  refine continues_next h fun next d h => ?_
  exact continues_ite (continues_emit h.leaves ..) (continues_node h.leaves ..)

/-! ### Documents -/

/-- A marker is no directive, and so it is behind the directives. -/
theorem exists_mem_dropWhile_isDirective (h : d.IsClosed) :
    ∃ token ∈ d.tokens.dropWhile (isDirective ·.item), token.item = .documentEnd := by
  rcases h with ⟨token, hmem, hmarker⟩
  refine ⟨token, ?_, hmarker⟩
  rw [← List.takeWhile_append_dropWhile (p := (isDirective ·.item)) (l := d.tokens),
    List.mem_append] at hmem
  refine hmem.resolve_left fun hdirective => ?_
  have := List.mem_takeWhile_imp hdirective
  simp [hmarker, isDirective] at this

/-- Directives are taken alike if another token is behind them. -/
theorem passDirectives_append {first : Delivered} {tokens : List Delivered}
    (h : d.tokens.dropWhile (isDirective ·.item) = first :: tokens) :
    (d.append behind).passDirectives = d.passDirectives.map (append behind) := by
  have hall : ¬(d.tokens.takeWhile (isDirective ·.item)).length = d.tokens.length := by
    intro hlength
    have happend := List.takeWhile_append_dropWhile (p := (isDirective ·.item)) (l := d.tokens)
    rw [h] at happend
    have := congrArg List.length happend
    rw [List.length_append, hlength, List.length_cons] at this
    omega
  have hdirectives : (d.append behind).directives = d.directives := by
    simp only [directives, append, List.takeWhile_append, if_neg hall]
  have hrest : (d.append behind).tokens.dropWhile (isDirective ·.item) =
      d.tokens.dropWhile (isDirective ·.item) ++ behind.tokens := by
    simp [append, List.dropWhile_append, h]
  simp only [passDirectives, hdirectives, hrest]
  split <;> rfl

/-- What is left behind the directives. -/
theorem leaves_passDirectives {d' : Derivation} (h : d.Leaves closed out)
    (hpassed : d.passDirectives = .ok d') :
    d'.tokens = d.tokens.dropWhile (isDirective ·.item) ∧ d'.Leaves closed out := by
  unfold passDirectives at hpassed
  split at hpassed
  · simp at hpassed
  · simp only [Except.ok.injEq] at hpassed
    rw [← hpassed]
    exact ⟨rfl, h.error_eq, fun hclosed => exists_mem_dropWhile_isDirective (h.isClosed hclosed)⟩

/-- A second version is refused if there are nothing but directives, whatever follows them. -/
theorem passDirectives_append_of_error {e : SyntaxError}
    (hdrop : d.tokens.dropWhile (isDirective ·.item) = [])
    (h : d.passDirectives = .error e) : (d.append behind).passDirectives = .error e := by
  have hdirectives : d.directives = d.tokens := by
    have happend := List.takeWhile_append_dropWhile (p := (isDirective ·.item)) (l := d.tokens)
    rwa [hdrop, List.append_nil] at happend
  have hmore : (d.append behind).directives =
      d.directives ++ behind.tokens.takeWhile (isDirective ·.item) := by
    rw [hdirectives]
    refine List.takeWhile_append_of_pos fun token hmem => ?_
    rw [← hdirectives] at hmem
    simpa using List.mem_takeWhile_imp hmem
  unfold passDirectives at h ⊢
  split at h
  · rename_i first second others hversions
    rw [hmore, List.filter_append, hversions]
    exact h
  · simp at h

theorem continues_announced (h : d.Leaves closed out) (rest : List Production) :
    ContinuesStep behind out closed (d.announced rest) ((d.append behind).announced rest) := by
  unfold announced
  cases hpassed : d.passDirectives with
  | error e =>
    have hpassed' : (d.append behind).passDirectives = .error e := by
      cases hdrop : d.tokens.dropWhile (isDirective ·.item) with
      | nil => exact passDirectives_append_of_error hdrop hpassed
      | cons first tokens => rw [passDirectives_append hdrop, hpassed, Except.map]
    rw [hpassed']
    exact .error e
  | ok d₁ =>
    rcases leaves_passDirectives h hpassed with ⟨htokens, h₁⟩
    cases hdrop : d.tokens.dropWhile (isDirective ·.item) with
    | nil =>
      -- There are no other tokens than directives, and so they run out.
      have herror : d₁.peek = .error out := by rw [peek, htokens, hdrop, h₁.error_eq]
      have hopen : ¬closed := by
        intro hclosed
        rcases h₁.isClosed hclosed with ⟨token, hmem, -⟩
        simp [htokens, hdrop] at hmem
      simp only [bind, Except.bind, herror]
      exact .runsOut hopen _
    | cons first tokens =>
      rw [passDirectives_append hdrop, hpassed]
      refine continues_next h₁ fun next d₂ h₂ => ?_
      simp only [h₂.skip_append]
      split
      · rename_i hitem
        exact continues_emit (h₂.leaves_skip (by simp [hitem])) ..
      · exact continues_refuse _ _

/-- In front of a document markers do not count. -/
theorem continues_document (herror : d.error = out)
    (h : closed → ∃ token ∈ d.tokens.dropWhile (·.item = Token.documentEnd),
      token.item = .documentEnd) (rest : List Production) :
    ContinuesStep behind out closed (d.document rest) ((d.append behind).document rest) := by
  unfold document
  cases hdrop : d.tokens.dropWhile (·.item = Token.documentEnd) with
  | nil =>
    have hpeek : ({ d with tokens := [] } : Derivation).peek = .error out := by
      rw [peek, herror]
    simp only [bind, Except.bind, hpeek]
    refine .runsOut (fun hclosed => ?_) _
    rcases h hclosed with ⟨token, hmem, -⟩
    simp [hdrop] at hmem
  | cons first tokens =>
    have hrest : (d.append behind).tokens.dropWhile (·.item = Token.documentEnd) =
        first :: tokens ++ behind.tokens := by
      simp [append, List.dropWhile_append, hdrop]
    rw [hrest]
    have hleaves : ({ d with tokens := first :: tokens } : Derivation).Leaves closed out :=
      ⟨herror, by rwa [hdrop] at h⟩
    refine continues_next hleaves fun next d h => ?_
    have hskip := h.leaves_skip
    simp only [h.skip_append]
    cases hitem : next.item with
    | streamEnd => exact continues_emit (hskip (by simp [hitem])) ..
    | directive directive => exact continues_announced h.leaves ..
    | documentStart => exact continues_announced h.leaves ..
    | _ => exact continues_emit h.leaves ..

/-- The end of a document takes the marker. -/
theorem continues_documentEnd (h : d.Leaves closed out) (rest : List Production) :
    Continues out (Prod.map id (append behind)) closed (fun r => r.2.error = out)
      (d.documentEnd rest) ((d.append behind).documentEnd rest) := by
  refine continues_next h fun next d h => ?_
  simp only [h.skip_append]
  cases hitem : next.item with
  | directive directive => exact continues_refuse _ _
  | _ => exact .ok h.leaves.error_eq

theorem continues_stream (h : d.Leaves closed out) (rest : List Production) :
    Continues out (Prod.map id (append behind)) closed (fun r => r.2.error = out) (d.stream rest)
      ((d.append behind).stream rest) := by
  refine continues_next h fun next d h => ?_
  simp only [h.skip_append]
  exact .ok h.leaves.error_eq

/-! ### Block collections -/

theorem continues_blockKey (h : d.Leaves closed out) (rest : List Production) :
    ContinuesStep behind out closed (d.blockKey rest) ((d.append behind).blockKey rest) := by
  refine continues_next h fun next d h => ?_
  have hskip := h.leaves_skip
  simp only [h.skip_append]
  cases hitem : next.item with
  | key => exact continues_nodeUnless (hskip (by simp [hitem])) ..
  | value => exact continues_emit (hskip (by simp [hitem])) ..
  | blockEnd => exact continues_emit (hskip (by simp [hitem])) ..
  | _ => exact continues_refuse _ _

theorem continues_blockColon (h : d.Leaves closed out) (rest : List Production) :
    ContinuesStep behind out closed (d.blockColon rest) ((d.append behind).blockColon rest) :=
  continues_nodeUnless h ..

theorem continues_blockValue (h : d.Leaves closed out) (rest : List Production) :
    ContinuesStep behind out closed (d.blockValue rest) ((d.append behind).blockValue rest) := by
  refine continues_next h fun next d h => ?_
  have hskip := h.leaves_skip
  simp only [h.skip_append]
  cases hitem : next.item with
  | value => exact continues_blockColon (hskip (by simp [hitem])) ..
  | _ => exact continues_emit h.leaves ..

theorem continues_blockEntry (h : d.Leaves closed out) (rest : List Production) :
    ContinuesStep behind out closed (d.blockEntry rest) ((d.append behind).blockEntry rest) := by
  refine continues_next h fun next d h => ?_
  have hskip := h.leaves_skip
  simp only [h.skip_append]
  cases hitem : next.item with
  | blockEntry => exact continues_nodeUnless (hskip (by simp [hitem])) ..
  | blockEnd => exact continues_emit (hskip (by simp [hitem])) ..
  | _ => exact continues_refuse _ _

theorem continues_levelEntry (h : d.Leaves closed out) (rest : List Production) :
    ContinuesStep behind out closed (d.levelEntry rest) ((d.append behind).levelEntry rest) := by
  refine continues_next h fun next d h => ?_
  have hskip := h.leaves_skip
  simp only [h.skip_append]
  cases hitem : next.item with
  | blockEntry => exact continues_nodeUnless (hskip (by simp [hitem])) ..
  | _ => exact continues_emit h.leaves ..

/-! ### Flow collections -/

theorem continues_flowKeyAt (h : d.Leaves closed out) (mark : Mark) (rest : List Production) :
    ContinuesStep behind out closed (d.flowKeyAt mark rest)
      ((d.append behind).flowKeyAt mark rest) := by
  refine continues_next h fun next d h => ?_
  have hskip := h.leaves_skip
  simp only [h.skip_append]
  cases hitem : next.item with
  | key => exact continues_nodeUnless (hskip (by simp [hitem])) ..
  | value => exact continues_emit (hskip (by simp [hitem])) ..
  | flowMappingEnd => exact continues_emit (hskip (by simp [hitem])) ..
  | _ => exact continues_node h.leaves ..

theorem continues_flowKey (h : d.Leaves closed out) (first : Bool) (rest : List Production) :
    ContinuesStep behind out closed (d.flowKey first rest)
      ((d.append behind).flowKey first rest) := by
  refine continues_next h fun next d h => ?_
  simp only [h.skip_append]
  refine continues_ite (continues_flowKeyAt h.leaves ..) ?_
  split
  · rename_i hitem
    exact continues_flowKeyAt (h.leaves_skip (by simp [hitem])) ..
  · exact continues_refuse _ _

theorem continues_flowColon (h : d.Leaves closed out) (colon : Mark) (rest : List Production) :
    ContinuesStep behind out closed (d.flowColon colon rest)
      ((d.append behind).flowColon colon rest) := by
  refine continues_next h fun next d h => ?_
  exact continues_ite (continues_emit h.leaves ..) (continues_node h.leaves ..)

theorem continues_flowValue (h : d.Leaves closed out) (rest : List Production) :
    ContinuesStep behind out closed (d.flowValue rest) ((d.append behind).flowValue rest) := by
  refine continues_next h fun next d h => ?_
  have hskip := h.leaves_skip
  simp only [h.skip_append]
  cases hitem : next.item with
  | value => exact continues_flowColon (hskip (by simp [hitem])) ..
  | _ => exact continues_emit h.leaves ..

theorem continues_flowNoValue (h : d.Leaves closed out) (rest : List Production) :
    ContinuesStep behind out closed (d.flowNoValue rest) ((d.append behind).flowNoValue rest) :=
  continues_next h fun _ _ h => continues_emit h.leaves ..

theorem continues_flowEntryAt (h : d.Leaves closed out) (rest : List Production) :
    ContinuesStep behind out closed (d.flowEntryAt rest) ((d.append behind).flowEntryAt rest) := by
  refine continues_next h fun next d h => ?_
  have hskip := h.leaves_skip
  simp only [h.skip_append]
  cases hitem : next.item with
  | flowSequenceEnd => exact continues_emit (hskip (by simp [hitem])) ..
  | key => exact continues_emit (hskip (by simp [hitem])) ..
  | _ => exact continues_node h.leaves ..

theorem continues_flowEntry (h : d.Leaves closed out) (first : Bool) (rest : List Production) :
    ContinuesStep behind out closed (d.flowEntry first rest)
      ((d.append behind).flowEntry first rest) := by
  refine continues_next h fun next d h => ?_
  simp only [h.skip_append]
  refine continues_ite (continues_flowEntryAt h.leaves ..) ?_
  split
  · rename_i hitem
    exact continues_flowEntryAt (h.leaves_skip (by simp [hitem])) ..
  · exact continues_refuse _ _

theorem continues_pairKey (h : d.Leaves closed out) (rest : List Production) :
    ContinuesStep behind out closed (d.pairKey rest) ((d.append behind).pairKey rest) := by
  refine continues_next h fun next d h => ?_
  simp only [h.skip_append]
  split
  · rename_i hitem
    refine continues_emit (h.leaves_skip fun hmarker => ?_) ..
    simp [hmarker, endsPairValue] at hitem
  · exact continues_node h.leaves ..

theorem continues_pairValue (h : d.Leaves closed out) (rest : List Production) :
    ContinuesStep behind out closed (d.pairValue rest) ((d.append behind).pairValue rest) := by
  refine continues_next h fun next d h => ?_
  have hskip := h.leaves_skip
  simp only [h.skip_append]
  cases hitem : next.item with
  | value => exact continues_nodeUnless (hskip (by simp [hitem])) ..
  | _ => exact continues_emit h.leaves ..

/-! ### Steps -/

/-- What comes of an expectation stays what it is. Inside a document the tokens stay closed until
    the end of the document is expected. -/
theorem continues_fulfil (p : Production) (hdocument : p ≠ .document) (h : d.Leaves closed out)
    (hstream : closed → p ≠ .stream) (rest : List Production) :
    Continues out (Prod.map id (append behind)) closed
      (fun r => r.2.error = out ∧ (p ≠ .documentEnd → closed → r.2.IsClosed))
      (d.fulfil rest p) ((d.append behind).fulfil rest p) := by
  have hstep {x x' : Step} (hx : ContinuesStep behind out closed x x') :
      Continues out (Prod.map id (append behind)) closed
        (fun r => r.2.error = out ∧ (p ≠ .documentEnd → closed → r.2.IsClosed)) x x' :=
    continues_imp hx id fun _ _ hr => ⟨hr.error_eq, fun _ => hr.isClosed⟩
  cases p with
  | stream =>
    exact continues_imp (continues_stream h rest) id fun _ _ herror =>
      ⟨herror, fun _ hclosed => absurd rfl (hstream hclosed)⟩
  | document => exact absurd rfl hdocument
  | content => exact hstep (continues_nodeUnless h ..)
  | root => exact hstep (continues_node h ..)
  | documentEnd =>
    exact continues_imp (continues_documentEnd h rest) id fun _ _ herror =>
      ⟨herror, fun hne => absurd rfl hne⟩
  | blockKey => exact hstep (continues_blockKey h rest)
  | blockValue => exact hstep (continues_blockValue h rest)
  | blockColon => exact hstep (continues_blockColon h rest)
  | blockEntry => exact hstep (continues_blockEntry h rest)
  | levelEntry => exact hstep (continues_levelEntry h rest)
  | flowKey first => exact hstep (continues_flowKey h first rest)
  | flowValue => exact hstep (continues_flowValue h rest)
  | flowColon colon => exact hstep (continues_flowColon h colon rest)
  | flowNoValue => exact hstep (continues_flowNoValue h rest)
  | flowEntry first => exact hstep (continues_flowEntry h first rest)
  | pairKey => exact hstep (continues_pairKey h rest)
  | pairValue => exact hstep (continues_pairValue h rest)
  | pairEnd => exact hstep (continues_emit h ..)

end

end Derivation

/-! ### The end of the document -/

/-- What is waited for inside a document. -/
def Awaited.isContent : Awaited → Bool
  | .root => true
  | .item => true
  | .key => true
  | .value => true
  | _ => false

namespace Nesting

/-- Some contents are waited for, and behind them the end of the document. -/
def IsInside (levels : List Awaited) : Prop :=
  ∃ inner, levels = inner ++ [.documentEnd] ∧ ∀ level ∈ inner, level.isContent = true

variable {level : Awaited} {levels outer : List Awaited} {event : Event}

theorem IsInside.cons (h : IsInside levels) (hlevel : level.isContent = true) :
    IsInside (level :: levels) := by
  rcases h with ⟨inner, rfl, hinner⟩
  exact ⟨level :: inner, rfl, List.forall_mem_cons.mpr ⟨hlevel, hinner⟩⟩

/-- Nothing is expected behind the end of the document. -/
theorem eq_nil_of_isInside (h : IsInside (.documentEnd :: outer)) : outer = [] := by
  rcases h with ⟨inner, heq, hinner⟩
  cases inner with
  | nil => simpa using heq
  | cons level inner =>
    rw [List.cons_append, List.cons.injEq] at heq
    have := hinner level List.mem_cons_self
    rw [← heq.1] at this
    exact absurd this (by decide)

/-- In front of the end of the document there are contents. -/
theorem isContent_of_isInside (h : IsInside (level :: outer)) (hne : level ≠ .documentEnd) :
    level.isContent = true ∧ IsInside outer := by
  rcases h with ⟨inner, heq, hinner⟩
  cases inner with
  | nil =>
    simp only [List.nil_append, List.cons.injEq] at heq
    exact absurd heq.1 hne
  | cons first inner =>
    rw [List.cons_append, List.cons.injEq] at heq
    rcases List.forall_mem_cons.mp hinner with ⟨hfirst, hinner⟩
    exact ⟨heq.1 ▸ hfirst, inner, heq.2, hinner⟩

theorem isInside_of_acceptNode (h : IsInside outer)
    (haccept : acceptNode outer event = some levels) : IsInside levels := by
  cases event <;>
    simp only [acceptNode, Option.some.injEq, reduceCtorEq] at haccept <;>
    first
      | exact haccept ▸ h
      | exact haccept ▸ h.cons rfl

/-- An event inside a document leaves something inside it to wait for, unless it is the end of the
    document. -/
theorem isInside_of_accept (h : IsInside (level :: outer))
    (haccept : accept (level :: outer) event = some levels) :
    levels = [] ∨ (level ≠ .documentEnd ∧ IsInside levels) := by
  by_cases hlevel : level = .documentEnd
  · subst hlevel
    have houter := eq_nil_of_isInside h
    cases event <;> simp only [accept, Option.some.injEq, reduceCtorEq] at haccept
    exact .inl (haccept ▸ houter)
  · rcases isContent_of_isInside h hlevel with ⟨hcontent, houter⟩
    refine .inr ⟨hlevel, ?_⟩
    cases level with
    | root => exact isInside_of_acceptNode houter haccept
    | item =>
      cases event <;> simp only [accept, acceptNode, Option.some.injEq, reduceCtorEq] at haccept <;>
        first
          | exact haccept ▸ houter
          | exact haccept ▸ houter.cons rfl
          | exact haccept ▸ (houter.cons rfl).cons rfl
    | key =>
      cases event <;> simp only [accept, acceptNode, Option.some.injEq, reduceCtorEq] at haccept <;>
        first
          | exact haccept ▸ houter
          | exact haccept ▸ houter.cons rfl
          | exact haccept ▸ (houter.cons rfl).cons rfl
    | value => exact isInside_of_acceptNode (houter.cons rfl) haccept
    | _ => exact absurd hcontent (by decide)

end Nesting

namespace Derivation

open Nesting

variable {behind : TokenStream} {d : Derivation}

/-- The document comes to its end before the tokens do: it is over, or there is a marker to come,
    which does not stand in front of it. -/
inductive EndsInTime (d : Derivation) : Prop
  | ended (h : d.agenda = [])
  | before (h : d.agenda = [.document])
    (hclosed : ∃ token ∈ d.tokens.dropWhile (·.item = Token.documentEnd),
      token.item = .documentEnd)
  | inside (h : IsInside (awaited d.agenda)) (hclosed : d.IsClosed)

/-- In front of a document only markers that do not stand in front of it count. -/
theorem exists_mem_of_endsInTime {rest : List Production} (h : d.EndsInTime)
    (hagenda : d.agenda = .document :: rest) :
    rest = [] ∧ ∃ token ∈ d.tokens.dropWhile (·.item = Token.documentEnd),
      token.item = .documentEnd := by
  cases h with
  | ended h => simp [h] at hagenda
  | before h hclosed =>
    rw [h, List.cons.injEq] at hagenda
    exact ⟨hagenda.2.symm, hclosed⟩
  | inside h hclosed =>
    rw [hagenda, awaited_cons] at h
    exact absurd (isContent_of_isInside h (by decide)).1 (by decide)

/-- In front of anything else the reading is inside the document. -/
theorem isInside_of_endsInTime {p : Production} {rest : List Production} (h : d.EndsInTime)
    (hagenda : d.agenda = p :: rest) (hp : p ≠ .document) :
    IsInside (p.awaited :: awaited rest) ∧ d.IsClosed := by
  cases h with
  | ended h => simp [h] at hagenda
  | before h hclosed =>
    rw [h, List.cons.injEq] at hagenda
    exact absurd hagenda.1.symm hp
  | inside h hclosed =>
    rw [hagenda, awaited_cons] at h
    exact ⟨h, hclosed⟩

/-- The beginning of a document leaves its end to come, unless there is none. -/
theorem continues_document_of_agenda {rest : List Production}
    (hagenda : d.agenda = .document :: rest) :
    Continues d.error (Prod.map id (append behind)) d.EndsInTime
      (fun r => r.2.error = d.error ∧ (d.EndsInTime → r.2.EndsInTime))
      (d.document rest) ((d.append behind).document rest) := by
  refine continues_imp (continues_document rfl
    (fun h : d.EndsInTime => (exists_mem_of_endsInTime h hagenda).2) rest) id fun r hr hleaves =>
      ⟨hleaves.error_eq, fun h => ?_⟩
  have haccept : accept [.document] r.1.item = some (awaited r.2.agenda) := by
    have := accept_of_document hr
    rwa [(exists_mem_of_endsInTime h hagenda).1] at this
  cases hevent : r.1.item <;>
    simp only [hevent, accept, Option.some.injEq, reduceCtorEq] at haccept
  · exact .ended (List.map_eq_nil_iff.mp haccept.symm)
  · refine .inside ?_ (hleaves.isClosed h)
    rw [← haccept]
    exact ⟨[.root], rfl, by decide⟩

/-- The next step stays what it is, and the document still ends in time. -/
theorem continues_step (behind : TokenStream) (d : Derivation) :
    Continues d.error (Option.map (Prod.map id (append behind))) d.EndsInTime
      (fun found => ∀ r ∈ found, r.2.error = d.error ∧ (d.EndsInTime → r.2.EndsInTime))
      d.step (d.append behind).step := by
  cases hagenda : d.agenda with
  | nil =>
    have hagenda' : (d.append behind).agenda = [] := hagenda
    rw [step, step, hagenda, hagenda']
    exact .ok (by simp)
  | cons p rest =>
    have hagenda' : (d.append behind).agenda = p :: rest := hagenda
    rw [step, step, hagenda, hagenda']
    have hfulfil : Continues d.error (Prod.map id (append behind)) d.EndsInTime
        (fun r => r.2.error = d.error ∧ (d.EndsInTime → r.2.EndsInTime))
        (d.fulfil rest p) ((d.append behind).fulfil rest p) := by
      by_cases hp : p = .document
      · subst hp
        exact continues_document_of_agenda hagenda
      · have hleaves : d.Leaves d.EndsInTime d.error :=
          ⟨rfl, fun h => (isInside_of_endsInTime h hagenda hp).2⟩
        refine continues_imp (continues_fulfil p hp hleaves (fun h => ?_) rest) id
          fun r hr hleft => ⟨hleft.1, fun h => ?_⟩
        · rintro rfl
          have hinside := (isInside_of_endsInTime h hagenda hp).1
          exact absurd (isContent_of_isInside hinside (by decide)).1 (by decide)
        · rcases isInside_of_accept (isInside_of_endsInTime h hagenda hp).1 (accept_of_fulfil hr)
            with hnil | ⟨hne, hinside⟩
          · exact .ended (List.map_eq_nil_iff.mp hnil)
          · exact .inside hinside (hleft.2 (fun heq => hne (by rw [heq]; rfl)) h)
    exact continues_map_some hfulfil

/-- The events to come stay what they are. -/
theorem continues_events (behind : TokenStream) (d : Derivation) (given : List (Placed Event)) :
    Continues d.error id d.EndsInTime (fun _ => True) (d.events given)
      ((d.append behind).events given) := by
  fun_induction Derivation.events d given with
  | case1 d given error hfailed =>
    rcases cases_of_continues (continues_step behind d) with
      ⟨e, herror, herror'⟩ | ⟨found, hok, -, -⟩ | ⟨hopen, herror⟩
    · rw [hfailed, Except.error.injEq] at herror
      rw [events_of_step_error herror', herror]
      exact .error e
    · simp [hfailed] at hok
    · rw [hfailed, Except.error.injEq] at herror
      rw [herror]
      exact .runsOut hopen _
  | case2 d given hnone =>
    have hagenda := agenda_of_step_none hnone
    have hagenda' : (d.append behind).agenda = [] := hagenda
    rw [events_of_agenda_nil hagenda']
    exact .ok trivial
  | case3 d given event d' hnext ih =>
    rcases cases_of_continues (continues_step behind d) with
      ⟨e, herror, -⟩ | ⟨found, hok, hok', hfound⟩ | ⟨-, herror⟩
    · simp [hnext] at herror
    · rw [hnext, Except.ok.injEq] at hok
      subst hok
      rcases hfound _ rfl with ⟨herror, hclosed⟩
      rw [events_of_step hok', ← herror]
      exact continues_imp ih hclosed fun _ _ => id
    · simp [hnext] at herror

end Derivation

/-- The events of a stream that goes on behind some tokens stay what they are, if a marker among
    them ends the first document. Otherwise the tokens may run out, and then the error is the one
    behind them. -/
theorem Event.continues_ofTokens (tokens : List Delivered) (error : SyntaxError)
    (behind : TokenStream) :
    Derivation.Continues error id
      (∃ token ∈ tokens.dropWhile (·.item = Token.documentEnd), token.item = .documentEnd)
      (fun _ => True)
      (Event.ofTokens { tokens := TokenStream.streamStart :: tokens, error })
      (Event.ofTokens
        { tokens := TokenStream.streamStart :: (tokens ++ behind.tokens)
          error := behind.error }) := by
  have hstep (tokens : List Delivered) (error : SyntaxError) :
      (Derivation.ofStream { tokens := TokenStream.streamStart :: tokens, error }).step =
        .ok (some (Event.start, Derivation.ofStart tokens error)) := rfl
  rw [Event.ofTokens, Event.ofTokens, Derivation.events_of_step (hstep tokens error),
    Derivation.events_of_step (hstep _ _)]
  exact Derivation.continues_imp
    (Derivation.continues_events behind (Derivation.ofStart tokens error) [Event.start])
    (fun hclosed => .before rfl hclosed) fun _ _ => id

end Yaml

end YamlLocator
