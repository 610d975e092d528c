import YamlLocator.Proofs.EnoughTokens
import YamlLocator.Proofs.Places.Tokens

/-!
# Places of Events

The grammar makes up no marks. What an event or an error is reported for is the mark of a token
that was looked at, of the colon that an expectation remembers, or the place that the tokenizer
has come to. A scalar is given for a token that is one, or it is empty and stands for a node that
was left out. So whatever is known of the marks of tokens carries over to the events, and no
production needs an argument of its own. What it is makes no difference to the grammar, and
therefore it is a parameter here: `Q` is a condition on all marks, and `B` one on those of scalars.

## Main definitions

* `Delivered.Bears`: The marks of a token satisfy the conditions.
* `Event.Tells`: So does the mark of an event, unless it stands for a node that is left out.
* `Production.IsPlaced`, `Derivation.IsPlaced`: So do all marks that the reading keeps.

## Theorems

* `Derivation.yields_fulfil`: Fulfilling an expectation keeps to such marks.
* `Event.yields_ofTokens`: The events of tokens are marked as these are.
* `Document.yields_events`: The events of a text are reported for places in it, and so is the error
  that there is instead.
-/

namespace YamlLocator

namespace Yaml

variable {Q : Mark → Prop} {B : Mark → ScalarStyle → String → Prop}

/-- The marks of a token satisfy a condition, and that of a scalar another one. -/
structure Delivered.Bears (Q : Mark → Prop) (B : Mark → ScalarStyle → String → Prop)
    (token : Delivered) : Prop where
  mark : Q token.mark
  begins : ∀ style value, token.item = .scalar style value → B token.mark style value
  reached : Q token.reached

/-- The mark of an event satisfies a condition. If the event is a scalar, the mark satisfies
    another one, or the scalar stands for a node that is left out. -/
structure Event.Tells (Q : Mark → Prop) (B : Mark → ScalarStyle → String → Prop)
    (event : Placed Event) : Prop where
  mark : Q event.mark
  begins : ∀ style value, event.item = .scalar style value →
    event.item = .emptyScalar ∨ B event.mark style value

/-- The mark that an expectation remembers satisfies a condition. -/
def Production.IsPlaced (Q : Mark → Prop) : Production → Prop
  | .flowColon colon => Q colon
  | _ => True

namespace Derivation

/-- All marks that lie before the reading of a document satisfy the conditions. -/
structure IsPlaced (Q : Mark → Prop) (B : Mark → ScalarStyle → String → Prop)
    (d : Derivation) : Prop where
  tokens : ∀ token ∈ d.tokens, token.Bears Q B
  error : Q d.error.mark
  reached : Q d.reached

/-- The mark of the event that a step gives satisfies them, and so do those that are left. -/
structure Told (Q : Mark → Prop) (B : Mark → ScalarStyle → String → Prop)
    (r : Placed Event × Derivation) : Prop where
  tells : Event.Tells Q B r.1
  isPlaced : r.2.IsPlaced Q B
  agenda : ∀ p ∈ r.2.agenda, p.IsPlaced Q

variable {d : Derivation} {rest : List Production}

/-- A step gives such an event, or is refused at such a mark. -/
abbrev YieldsStep (Q : Mark → Prop) (B : Mark → ScalarStyle → String → Prop)
    (step : Step) : Prop :=
  Yields (Told Q B) Q step

theorem IsPlaced.skip (h : d.IsPlaced Q B) : d.skip.IsPlaced Q B :=
  { h with tokens := fun token hmem => h.tokens token (List.mem_of_mem_tail hmem) }

theorem IsPlaced.addAnchor (h : d.IsPlaced Q B) (name : String) :
    (d.addAnchor name).IsPlaced Q B := { h with }

/-- What is done with the next token may use that it is reported for a place. -/
theorem yields_next {α : Type} {P : α → Prop} {next : Delivered × Derivation → Except SyntaxError α}
    (h : d.IsPlaced Q B)
    (hnext : ∀ token d, token.Bears Q B → d.IsPlaced Q B →
      Yields P Q (next (token, d))) :
    Yields P Q (d.peek >>= next) := by
  unfold peek
  split
  · exact h.error
  · rename_i token tokens htokens
    have htoken := h.tokens token (by rw [htokens]; exact List.mem_cons_self)
    exact hnext token _ htoken { h with reached := htoken.reached }

theorem isPlaced_cons {p : Production} (hp : p.IsPlaced Q)
    (hrest : ∀ q ∈ rest, q.IsPlaced Q) : ∀ q ∈ p :: rest, q.IsPlaced Q :=
  List.forall_mem_cons.mpr ⟨hp, hrest⟩

theorem yields_emit_of_tells (h : d.IsPlaced Q B) {event : Event} {m : Mark}
    (htells : Event.Tells Q B ⟨event, m⟩) (hrest : ∀ p ∈ rest, p.IsPlaced Q) :
    YieldsStep Q B (d.emit event m rest) :=
  yields_ok ⟨htells, { h with }, hrest⟩

/-- An event that is no scalar with a text needs nothing but a place. -/
theorem yields_emit (h : d.IsPlaced Q B) {event : Event} {m : Mark} (hm : Q m)
    (hrest : ∀ p ∈ rest, p.IsPlaced Q)
    (hscalar : ∀ style value, event = .scalar style value → event = .emptyScalar) :
    YieldsStep Q B (d.emit event m rest) :=
  yields_emit_of_tells h ⟨hm, fun style value hevent => .inl (hscalar style value hevent)⟩ hrest

/-! ### Nodes -/

theorem yields_emptyScalar (h : d.IsPlaced Q B) {m : Mark} (hm : Q m)
    (hrest : ∀ p ∈ rest, p.IsPlaced Q) : YieldsStep Q B (d.emit .emptyScalar m rest) :=
  yields_emit h hm hrest fun _ _ _ => rfl

theorem yields_checkHandle (tag : Tag) {m : Mark} (hm : Q m) :
    Yields (fun _ => True) Q (d.checkHandle tag m) := by
  unfold checkHandle
  split
  · exact yields_refuse hm _
  · exact yields_ok trivial

theorem yields_leftOut (h : d.IsPlaced Q B) (adorned : Bool) {m : Mark} (hm : Q m)
    (hrest : ∀ p ∈ rest, p.IsPlaced Q) : YieldsStep Q B (d.leftOut adorned m rest) := by
  unfold leftOut
  split
  · exact yields_emptyScalar h hm hrest
  · exact yields_refuse hm _

theorem yields_unadorned (h : d.IsPlaced Q B) (place : Place) (adorned : Bool)
    (hrest : ∀ p ∈ rest, p.IsPlaced Q) : YieldsStep Q B (d.unadorned place adorned rest) := by
  refine yields_next h fun next d hnext h => ?_
  have hmark := hnext.mark
  simp only
  split
  · rename_i style value hitem
    -- The scalar begins where the token does.
    refine yields_emit_of_tells h.skip ⟨hmark, fun style' value' hevent => .inr ?_⟩ hrest
    simp only [Event.scalar.injEq] at hevent
    rcases hevent with ⟨rfl, rfl⟩
    exact hnext.begins style value hitem
  · exact yields_emit h.skip hmark (isPlaced_cons trivial hrest) (by simp)
  · exact yields_emit h.skip hmark (isPlaced_cons trivial hrest) (by simp)
  · split
    · exact yields_emit h hmark (isPlaced_cons trivial hrest) (by simp)
    · exact yields_leftOut h adorned hmark hrest
  · split
    · exact yields_emit h.skip hmark (isPlaced_cons trivial hrest) (by simp)
    · exact yields_leftOut h adorned hmark hrest
  · split
    · exact yields_emit h.skip hmark (isPlaced_cons trivial hrest) (by simp)
    · exact yields_leftOut h adorned hmark hrest
  · exact yields_leftOut h adorned hmark hrest

theorem yields_anchored (h : d.IsPlaced Q B) (place : Place) {m : Mark}
    (hm : Q m) (hrest : ∀ p ∈ rest, p.IsPlaced Q) :
    YieldsStep Q B (d.anchored place m rest) := by
  refine yields_next h fun next d _ h => ?_
  simp only
  split
  · exact yields_bind (yields_checkHandle _ hm) fun _ _ _ =>
      yields_unadorned h.skip place true hrest
  · exact yields_unadorned h place true hrest

theorem yields_tagged (h : d.IsPlaced Q B) (place : Place)
    (hrest : ∀ p ∈ rest, p.IsPlaced Q) : YieldsStep Q B (d.tagged place rest) := by
  refine yields_next h fun next d _ h => ?_
  simp only
  split
  · exact yields_unadorned (h.skip.addAnchor _) place true hrest
  · exact yields_unadorned h place true hrest

theorem yields_node (h : d.IsPlaced Q B) (place : Place) (hrest : ∀ p ∈ rest, p.IsPlaced Q) :
    YieldsStep Q B (d.node place rest) := by
  refine yields_next h fun next d hnext h => ?_
  have hmark := hnext.mark
  simp only
  split
  · split
    · exact yields_emit h.skip hmark hrest (by simp)
    · exact yields_refuse hmark _
  · exact yields_anchored (h.skip.addAnchor _) place hmark hrest
  · exact yields_bind (yields_checkHandle _ hmark) fun _ _ _ => yields_tagged h.skip place hrest
  · exact yields_unadorned h place false hrest

theorem yields_nodeUnless (h : d.IsPlaced Q B) (isLeftOut : Token → Bool) (place : Place)
    (hrest : ∀ p ∈ rest, p.IsPlaced Q) :
    YieldsStep Q B (d.nodeUnless isLeftOut place rest) := by
  refine yields_next h fun next d hnext h => ?_
  simp only
  split
  · exact yields_emptyScalar h hnext.mark hrest
  · exact yields_node h place hrest

/-! ### Documents -/

theorem yields_passDirectives (h : d.IsPlaced Q B) :
    Yields (IsPlaced Q B) Q d.passDirectives := by
  unfold passDirectives
  split
  · rename_i first second others hversions
    have hmem : second ∈ d.directives.filter (isVersion ·.item) := by simp [hversions]
    have htoken := h.tokens second
      ((List.takeWhile_prefix _).subset (List.mem_filter.mp hmem).1)
    exact yields_refuse htoken.mark _
  · exact yields_ok { h with
      tokens := fun token hmem => h.tokens token ((List.dropWhile_suffix _).subset hmem) }

theorem yields_stream (h : d.IsPlaced Q B) (hrest : ∀ p ∈ rest, p.IsPlaced Q) :
    YieldsStep Q B (d.stream rest) := by
  refine yields_next h fun next d hnext h => ?_
  exact yields_emit h.skip hnext.mark (isPlaced_cons trivial hrest) (by simp)

theorem yields_announced (h : d.IsPlaced Q B) (hrest : ∀ p ∈ rest, p.IsPlaced Q) :
    YieldsStep Q B (d.announced rest) := by
  refine yields_bind (yields_passDirectives h) fun d _ h => ?_
  refine yields_next h fun next d hnext h => ?_
  simp only
  split
  · exact yields_emit h.skip hnext.mark
      (isPlaced_cons trivial (isPlaced_cons trivial hrest)) (by simp)
  · exact yields_refuse hnext.mark _

theorem yields_document (h : d.IsPlaced Q B) (hrest : ∀ p ∈ rest, p.IsPlaced Q) :
    YieldsStep Q B (d.document rest) := by
  have hpassed : IsPlaced Q B
      { d with tokens := d.tokens.dropWhile (·.item = Token.documentEnd) } :=
    { h with tokens := fun token hmem => h.tokens token ((List.dropWhile_suffix _).subset hmem) }
  refine yields_next hpassed fun next d hnext h => ?_
  simp only
  split
  · exact yields_emit h.skip hnext.mark hrest (by simp)
  · exact yields_announced h hrest
  · exact yields_announced h hrest
  · exact yields_emit h hnext.mark (isPlaced_cons trivial (isPlaced_cons trivial hrest))
      (by simp)

theorem yields_documentEnd (h : d.IsPlaced Q B) (hrest : ∀ p ∈ rest, p.IsPlaced Q) :
    YieldsStep Q B (d.documentEnd rest) := by
  refine yields_next h fun next d hnext h => ?_
  simp only
  split
  · exact yields_emit h.skip hnext.mark hrest (by simp)
  · exact yields_refuse hnext.mark _
  · exact yields_emit h hnext.mark hrest (by simp)

/-! ### Block collections -/

theorem yields_blockKey (h : d.IsPlaced Q B) (hrest : ∀ p ∈ rest, p.IsPlaced Q) :
    YieldsStep Q B (d.blockKey rest) := by
  refine yields_next h fun next d hnext h => ?_
  simp only
  split
  · exact yields_nodeUnless h.skip _ _ (isPlaced_cons trivial hrest)
  · exact yields_emptyScalar h.skip hnext.mark (isPlaced_cons trivial hrest)
  · exact yields_emit h.skip hnext.mark hrest (by simp)
  · exact yields_refuse hnext.mark _

theorem yields_blockColon (h : d.IsPlaced Q B) (hrest : ∀ p ∈ rest, p.IsPlaced Q) :
    YieldsStep Q B (d.blockColon rest) :=
  yields_nodeUnless h _ _ (isPlaced_cons trivial hrest)

theorem yields_blockValue (h : d.IsPlaced Q B) (hrest : ∀ p ∈ rest, p.IsPlaced Q) :
    YieldsStep Q B (d.blockValue rest) := by
  refine yields_next h fun next d hnext h => ?_
  simp only
  split
  · exact yields_blockColon h.skip hrest
  · exact yields_emptyScalar h hnext.mark (isPlaced_cons trivial hrest)

theorem yields_blockEntry (h : d.IsPlaced Q B) (hrest : ∀ p ∈ rest, p.IsPlaced Q) :
    YieldsStep Q B (d.blockEntry rest) := by
  refine yields_next h fun next d hnext h => ?_
  simp only
  split
  · exact yields_nodeUnless h.skip _ _ (isPlaced_cons trivial hrest)
  · exact yields_emit h.skip hnext.mark hrest (by simp)
  · exact yields_refuse hnext.mark _

theorem yields_levelEntry (h : d.IsPlaced Q B) (hrest : ∀ p ∈ rest, p.IsPlaced Q) :
    YieldsStep Q B (d.levelEntry rest) := by
  refine yields_next h fun next d hnext h => ?_
  simp only
  split
  · exact yields_nodeUnless h.skip _ _ (isPlaced_cons trivial hrest)
  · exact yields_emit h hnext.mark hrest (by simp)

/-! ### Flow collections -/

theorem yields_flowKeyAt (h : d.IsPlaced Q B) {m : Mark} (hm : Q m)
    (hrest : ∀ p ∈ rest, p.IsPlaced Q) : YieldsStep Q B (d.flowKeyAt m rest) := by
  refine yields_next h fun next d hnext h => ?_
  simp only
  split
  · exact yields_nodeUnless h.skip _ _ (isPlaced_cons trivial hrest)
  · exact yields_emptyScalar h.skip hnext.mark (isPlaced_cons hnext.mark hrest)
  · exact yields_emit h.skip hm hrest (by simp)
  · exact yields_node h _ (isPlaced_cons trivial hrest)

theorem yields_flowKey (h : d.IsPlaced Q B) (first : Bool)
    (hrest : ∀ p ∈ rest, p.IsPlaced Q) : YieldsStep Q B (d.flowKey first rest) := by
  refine yields_next h fun next d hnext h => ?_
  simp only
  split
  · exact yields_flowKeyAt h hnext.mark hrest
  · split
    · exact yields_flowKeyAt h.skip hnext.mark hrest
    · exact yields_refuse hnext.mark _

/-- The value that is left out in a flow mapping is placed at its colon. -/
theorem yields_flowColon (h : d.IsPlaced Q B) {colon : Mark} (hcolon : Q colon)
    (hrest : ∀ p ∈ rest, p.IsPlaced Q) : YieldsStep Q B (d.flowColon colon rest) := by
  refine yields_next h fun next d hnext h => ?_
  simp only
  split
  · exact yields_emptyScalar h hcolon (isPlaced_cons trivial hrest)
  · exact yields_node h _ (isPlaced_cons trivial hrest)

theorem yields_flowValue (h : d.IsPlaced Q B) (hrest : ∀ p ∈ rest, p.IsPlaced Q) :
    YieldsStep Q B (d.flowValue rest) := by
  refine yields_next h fun next d hnext h => ?_
  simp only
  split
  · exact yields_flowColon h.skip hnext.mark hrest
  · exact yields_emptyScalar h hnext.mark (isPlaced_cons trivial hrest)

theorem yields_flowNoValue (h : d.IsPlaced Q B) (hrest : ∀ p ∈ rest, p.IsPlaced Q) :
    YieldsStep Q B (d.flowNoValue rest) :=
  yields_next h fun _ _ hnext h => yields_emptyScalar h hnext.mark (isPlaced_cons trivial hrest)

theorem yields_flowEntryAt (h : d.IsPlaced Q B) (hrest : ∀ p ∈ rest, p.IsPlaced Q) :
    YieldsStep Q B (d.flowEntryAt rest) := by
  refine yields_next h fun next d hnext h => ?_
  simp only
  split
  · exact yields_emit h.skip hnext.mark hrest (by simp)
  · exact yields_emit h.skip hnext.mark
      (isPlaced_cons trivial (isPlaced_cons trivial hrest)) (by simp)
  · exact yields_node h _ (isPlaced_cons trivial hrest)

theorem yields_flowEntry (h : d.IsPlaced Q B) (first : Bool)
    (hrest : ∀ p ∈ rest, p.IsPlaced Q) : YieldsStep Q B (d.flowEntry first rest) := by
  refine yields_next h fun next d hnext h => ?_
  simp only
  split
  · exact yields_flowEntryAt h hrest
  · split
    · exact yields_flowEntryAt h.skip hrest
    · exact yields_refuse hnext.mark _

theorem yields_pairKey (h : d.IsPlaced Q B) (hrest : ∀ p ∈ rest, p.IsPlaced Q) :
    YieldsStep Q B (d.pairKey rest) := by
  refine yields_next h fun next d hnext h => ?_
  simp only
  split
  · exact yields_emptyScalar h.skip hnext.mark (isPlaced_cons trivial hrest)
  · exact yields_node h _ (isPlaced_cons trivial hrest)

theorem yields_pairValue (h : d.IsPlaced Q B) (hrest : ∀ p ∈ rest, p.IsPlaced Q) :
    YieldsStep Q B (d.pairValue rest) := by
  refine yields_next h fun next d hnext h => ?_
  simp only
  split
  · exact yields_nodeUnless h.skip _ _ (isPlaced_cons trivial hrest)
  · exact yields_emptyScalar h hnext.mark (isPlaced_cons trivial hrest)

/-! ### Steps -/

/-- Every expectation is fulfilled at places. -/
theorem yields_fulfil (h : d.IsPlaced Q B) {p : Production} (hp : p.IsPlaced Q)
    (hrest : ∀ q ∈ rest, q.IsPlaced Q) : YieldsStep Q B (d.fulfil rest p) := by
  cases p with
  | stream => exact yields_stream h hrest
  | document => exact yields_document h hrest
  | content => exact yields_nodeUnless h _ _ hrest
  | root => exact yields_node h _ hrest
  | documentEnd => exact yields_documentEnd h hrest
  | blockKey => exact yields_blockKey h hrest
  | blockValue => exact yields_blockValue h hrest
  | blockColon => exact yields_blockColon h hrest
  | blockEntry => exact yields_blockEntry h hrest
  | levelEntry => exact yields_levelEntry h hrest
  | flowKey first => exact yields_flowKey h first hrest
  | flowValue => exact yields_flowValue h hrest
  | flowColon colon => exact yields_flowColon h hp hrest
  | flowNoValue => exact yields_flowNoValue h hrest
  | flowEntry first => exact yields_flowEntry h first hrest
  | pairKey => exact yields_pairKey h hrest
  | pairValue => exact yields_pairValue h hrest
  | pairEnd => exact yields_emit h h.reached hrest (by simp)

theorem yields_step (h : d.IsPlaced Q B) (hagenda : ∀ p ∈ d.agenda, p.IsPlaced Q) :
    Yields (fun found => ∀ r ∈ found, Told Q B r) Q d.step := by
  unfold step
  split
  · exact yields_ok (by simp)
  · rename_i p rest hcase
    rw [hcase, List.forall_mem_cons] at hagenda
    have hstep := yields_fulfil h hagenda.1 hagenda.2
    cases hfulfil : d.fulfil rest p with
    | error e => exact of_yields_error hstep hfulfil
    | ok r =>
      have htold := of_yields_ok hstep hfulfil
      exact yields_ok (by simpa using htold)

/-- The events still to come are reported for places. -/
theorem yields_events (h : d.IsPlaced Q B) (hagenda : ∀ p ∈ d.agenda, p.IsPlaced Q)
    {given : List (Placed Event)} (hgiven : ∀ event ∈ given, Event.Tells Q B event) :
    Yields (fun events => ∀ event ∈ events, Event.Tells Q B event) Q
      (d.events given) := by
  fun_induction Derivation.events d given with
  | case1 d given error hstep => exact of_yields_error (yields_step h hagenda) hstep
  | case2 d given hstep => exact yields_ok fun event hmem => hgiven event (List.mem_reverse.mp hmem)
  | case3 d given event d' hstep ih =>
    have htold := of_yields_ok (yields_step h hagenda) hstep (event, d') rfl
    exact ih htold.isPlaced htold.agenda (List.forall_mem_cons.mpr ⟨htold.tells, hgiven⟩)

end Derivation

/-- The events of tokens are marked as these are, and so is the error that there is instead. -/
theorem Event.yields_ofTokens {stream : TokenStream}
    (htokens : ∀ token ∈ stream.tokens, token.Bears Q B)
    (herror : Q stream.error.mark) (hstart : Q Mark.start) :
    Yields (fun events => ∀ event ∈ events, Event.Tells Q B event) Q
      (Event.ofTokens stream) :=
  Derivation.yields_events ⟨htokens, herror, hstart⟩
    (by simp [Derivation.ofStream, Production.IsPlaced]) (by simp)

theorem Tokenizer.BearsDelivered.bears_place {text : List Char} {token : Delivered}
    (h : BearsDelivered text token) : token.Bears (Text.IsPlace text) (Text.BeginsAt text) :=
  ⟨h.bears.isPlace, h.bears.begins, h.reached⟩

/-- The events of a text are reported for places in it, or the error is, unless a block scalar with
    characters of several bytes is read before they are found out. -/
theorem Document.yields_events {text : List Char} (hnarrow : StaysNarrow text) :
    Yields
      (fun events => ∀ event ∈ events,
        Event.Tells (Text.IsPlace text) (Text.BeginsAt text) event)
      (Text.IsPlace text) (events text) := by
  have hstart : Text.IsPlace text Mark.start := Text.isPlace_of_stands (Cursor.stands_ofText text)
  rcases Tokenizer.isPlaced_stream (.inl (Tokenizer.isPlaced_ofText text)) hnarrow with
    hstream | ⟨tokens, hdecided, htokens⟩
  · exact Event.yields_ofTokens (fun d hd => (hstream.tokens d hd).bears_place) hstream.error hstart
  · -- An error at the beginning of the text may follow as well as any other.
    rw [← hdecided ⟨.unexpectedEnd, Mark.start⟩]
    exact Event.yields_ofTokens (fun d hd => (htokens d hd).bears_place) hstart hstart

end Yaml

end YamlLocator
