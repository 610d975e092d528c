import YamlLocator.Proofs.Evaluation
import YamlLocator.Proofs.Places.Scalars
import YamlLocator.Proofs.Retelling.Runs

/-!
# Places of Tokens

Every token is reported for a place in the text, the place that the reader has come to included,
and where a scalar is reported the text begins as that scalar does. Tokens that have no spelling
of their own borrow the place of another one: that of the token they are put in front of, or that
at which the reader stands. So nothing has to be known about the order of tokens. It is enough
that the marks which the reader keeps for later, those of the candidates and of the queue, are
places too.

Behind the end of the text the reader is marked with the line below the last one, which is no
place where a cursor could stand. Nothing is read from there. Behind a block scalar with characters
of several bytes the reader is no longer marked with the place where it is, and nothing is said of
what it reads from there on.

## Main definitions

* `Text.BeginsAt`: A scalar begins at a mark.
* `Text.Bears`: A token is reported for a place, and begins there if it is a scalar.
* `Tokenizer.IsPlaced`, `Tokenizer.IsPlacedAtEnd`: All marks of a reader are places.
* `Tokenizer.IsAstray`: The reader is behind a block scalar with characters of several bytes.
* `TokenStream.IsPlaced`: All marks of a stream are places.

## Theorems

* `Tokenizer.yields_token`, `Tokenizer.yields_round`, `Tokenizer.yields_step`: What is read next
  keeps the reader placed or leads it astray, and errors are reported for places.
* `Tokenizer.isPlaced_stream`: The tokens that are handed out until then are reported for places.
-/

namespace YamlLocator

open Yaml

/-- A scalar of a style and with a value begins at a mark. -/
def Text.BeginsAt (text : List Char) (m : Mark) (style : ScalarStyle) (value : String) : Prop :=
  ∃ c, Cursor.Stands text c ∧ c.mark = m ∧ c.Begins style value.toList

/-- A token is reported for a place in the text. If it is a scalar, it begins there. -/
structure Text.Bears (text : List Char) (p : Placed Token) : Prop where
  isPlace : IsPlace text p.mark
  begins : ∀ style value, p.item = .scalar style value → BeginsAt text p.mark style value

namespace Yaml

/-- Whether a token is a scalar. -/
def Token.isScalar : Token → Bool
  | .scalar _ _ => true
  | _ => false

namespace Tokenizer

open Cursor

/-- The reader stands in the text, and all marks that it keeps are places. -/
structure IsPlaced (text : List Char) (t : Tokenizer) : Prop where
  stands : t.cursor.Stands text
  queue : ∀ p ∈ t.queue, Text.Bears text p
  candidates : ∀ k, some k ∈ t.candidate :: t.outer → Text.IsPlace text k.mark

/-- The reader has come to the end of the text. -/
structure IsPlacedAtEnd (text : List Char) (t : Tokenizer) : Prop where
  ended : t.ended = true
  isPlace : Text.IsPlace text t.mark
  queue : ∀ p ∈ t.queue, Text.Bears text p

/-- A block scalar with a character of several bytes has led the reader astray. The reader is
    marked behind the place where the scalar begins. -/
structure IsAstray (text : List Char) (t : Tokenizer) : Prop where
  queue : ∀ p ∈ t.queue, Text.Bears text p
  wide : ∃ p ∈ t.queue, p.item.isNarrow = false ∧ p.mark.index < t.mark.index

/-- Where the reader may come to from a place. -/
inductive Arrives (text : List Char) (t : Tokenizer) : Prop
  | placed (h : t.IsPlaced text)
  | atEnd (h : t.IsPlacedAtEnd text)
  | astray (h : t.IsAstray text)

variable {text : List Char} {t : Tokenizer}

/-- What leads astray is a wide scalar in the queue. -/
theorem Arrives.isPlaced_of_isNarrow (h : t.Arrives text) (hnarrow : t.IsNarrow) :
    t.IsPlaced text ∨ t.IsPlacedAtEnd text := by
  cases h with
  | placed h => exact .inl h
  | atEnd h => exact .inr h
  | astray h =>
    rcases h.wide with ⟨p, hmem, hwide, -⟩
    simp [hnarrow p hmem] at hwide

theorem IsPlaced.isPlace (h : t.IsPlaced text) : Text.IsPlace text t.mark :=
  Text.isPlace_of_stands h.stands

/-- A token that is no scalar is spelled wherever it is reported. -/
theorem bears_of_isPlace {token : Token} (hscalar : token.isScalar = false) {m : Mark}
    (hm : Text.IsPlace text m) : Text.Bears text ⟨token, m⟩ where
  isPlace := hm
  begins := fun style value h => by
    simp only at h
    simp [h, Token.isScalar] at hscalar

theorem bears_scalar {style : ScalarStyle} {value : List Char} {m : Mark} {c : Cursor}
    (hstands : c.Stands text) (hm : c.mark = m) (hbegins : c.Begins style value) :
    Text.Bears text ⟨.scalar style (String.ofList value), m⟩ where
  isPlace := hm ▸ Text.isPlace_of_stands hstands
  begins := fun style' value' h => by
    simp only [Token.scalar.injEq] at h
    rcases h with ⟨rfl, rfl⟩
    exact ⟨c, hstands, hm, by rwa [String.toList_ofList]⟩

/-! ### The queue and the candidates -/

theorem IsPlaced.push_of_bears (h : t.IsPlaced text) {token : Token} {m : Mark}
    (hbears : Text.Bears text ⟨token, m⟩) : (t.push token m).IsPlaced text :=
  { h with
    queue := fun p hp => by
      rcases List.mem_append.mp hp with hp | hp
      · exact h.queue p hp
      · rwa [List.mem_singleton.mp hp] }

theorem IsPlaced.push (h : t.IsPlaced text) {token : Token} (hscalar : token.isScalar = false)
    {m : Mark} (hm : Text.IsPlace text m) : (t.push token m).IsPlaced text :=
  h.push_of_bears (bears_of_isPlace hscalar hm)

theorem IsPlaced.pushBefore (h : t.IsPlaced text) (number : Nat) {token : Token}
    (hscalar : token.isScalar = false) {m : Mark} (hm : Text.IsPlace text m) :
    (t.pushBefore number token m).IsPlaced text :=
  { h with
    queue := fun p hp => by
      rcases List.eq_or_mem_of_mem_insertIdx hp with rfl | hp
      · exact bears_of_isPlace hscalar hm
      · exact h.queue p hp }

theorem IsPlaced.moveTo (h : t.IsPlaced text) {c : Cursor} (hc : c.Stands text) :
    (t.moveTo c).IsPlaced text :=
  { h with stands := hc }

theorem IsPlaced.allowKey (h : t.IsPlaced text) (allowed : Bool) :
    (t.allowKey allowed).IsPlaced text := { h with }

theorem IsPlaced.withAdjacent (h : t.IsPlaced text) (adjacent : Nat) :
    IsPlaced text { t with adjacent } := { h with }

theorem IsPlaced.withoutCandidate (h : t.IsPlaced text) :
    IsPlaced text { t with candidate := none } :=
  { h with
    candidates := fun k hk =>
      h.candidates k (List.mem_cons_of_mem _ ((List.mem_cons.mp hk).resolve_left (by simp))) }

theorem IsPlaced.saveCandidate (h : t.IsPlaced text) : t.saveCandidate.IsPlaced text := by
  unfold Tokenizer.saveCandidate
  split
  · refine { h with candidates := fun k hk => ?_ }
    rcases List.mem_cons.mp hk with hk | hk
    · rw [Option.some.injEq] at hk
      rw [hk]
      exact h.isPlace
    · exact h.candidates k (List.mem_cons_of_mem _ hk)
  · exact h

theorem yields_dropCandidate (h : t.IsPlaced text) :
    Yields (IsPlaced text) (Text.IsPlace text) t.dropCandidate := by
  unfold dropCandidate
  split
  · exact yields_refuse h.isPlace _
  · exact yields_ok h.withoutCandidate

theorem yields_dropStale (h : t.IsPlaced text) :
    Yields (IsPlaced text) (Text.IsPlace text) t.dropStale := by
  unfold dropStale
  split
  · exact yields_ok h
  · split
    · split
      · exact yields_refuse h.isPlace _
      · exact yields_ok h.withoutCandidate
    · exact yields_ok h

/-! ### Block levels -/

theorem bears_blockEnd {count : Nat} {m : Mark} (hm : Text.IsPlace text m) :
    ∀ p ∈ List.replicate count (⟨.blockEnd, m⟩ : Placed Token), Text.Bears text p := by
  intro p hp
  rw [List.eq_of_mem_replicate hp]
  exact bears_of_isPlace rfl hm

theorem queue_closeTo {column : Nat} (hqueue : ∀ p ∈ t.queue, Text.Bears text p)
    (hm : Text.IsPlace text t.mark) : ∀ p ∈ (t.closeTo column).queue, Text.Bears text p := by
  unfold closeTo
  split
  · exact hqueue
  · intro p hp
    rcases List.mem_append.mp hp with hp | hp
    · exact hqueue p hp
    · exact bears_blockEnd hm p hp

theorem IsPlaced.closeTo (h : t.IsPlaced text) (column : Nat) :
    (t.closeTo column).IsPlaced text where
  stands := by rw [cursor_closeTo]; exact h.stands
  queue := queue_closeTo h.queue h.isPlace
  candidates := by rw [candidate_closeTo, outer_closeTo]; exact h.candidates

theorem IsPlaced.indent (h : t.IsPlaced text) (column : Nat) (number : Option Nat) {token : Token}
    (hscalar : token.isScalar = false) {m : Mark} (hm : Text.IsPlace text m) :
    (t.indent column number token m).IsPlaced text := by
  have hlevels : IsPlaced text { t with levels := (Layout.indent column t.levels).1 } := { h with }
  simp only [Tokenizer.indent]
  split
  · exact h
  · split
    · cases number with
      | some number => exact hlevels.pushBefore number hscalar hm
      | none => exact hlevels.push hscalar hm
    · exact hlevels

theorem IsPlaced.addProvisional (h : t.IsPlaced text) : t.addProvisional.IsPlaced text := by
  unfold Tokenizer.addProvisional
  split
  · exact h
  · exact { h with }

theorem IsPlaced.dropProvisional (h : t.IsPlaced text) : t.dropProvisional.IsPlaced text :=
  { h with }

/-! ### Moves -/

/-- What follows a token on its line is passed. -/
theorem yields_lineRest {c : Cursor} (h : c.Stands text) :
    Yields (Stands text) (Text.IsPlace text) c.lineRest :=
  yields_imp (Cursor.yields_lineRest c) (fun _ hr => h.along hr)
    (fun _ hm => hm ▸ Text.isPlace_of_stands h)

theorem yields_passSign (h : t.IsPlaced text) (hsign : t.cursor.Shows 1) :
    Yields (IsPlaced text) (Text.IsPlace text) t.passSign :=
  yields_bind (yields_lineRest (h.stands.along (along_advance hsign)))
    fun _ _ hc => yields_ok (h.moveTo hc)

theorem yields_separate (h : t.IsPlaced text) :
    Yields (IsPlaced text) (Text.IsPlace text) t.separate :=
  yields_bind (yields_separation h.stands t.margin false)
    fun _ _ hc => yields_ok { h with stands := hc }

/-! ### The end of the text, documents and directives -/

theorem yields_endDocument (h : t.IsPlaced text) :
    Yields (IsPlaced text) (Text.IsPlace text) t.endDocument :=
  yields_bind (yields_dropCandidate (h.closeTo 0)) fun _ _ h₁ => yields_ok (h₁.allowKey false)

/-- The end of the text is reported for the line below the last one. -/
theorem isPlace_afterLastLine {c : Cursor} (h : c.Stands text) (hend : isEnd c.peek = true) :
    Text.IsPlace text (afterLastLine c).mark := by
  unfold afterLastLine
  split
  · exact Text.isPlace_of_stands h
  · exact ⟨c, h, .inr ⟨hend, rfl⟩⟩

theorem yields_streamEnd (h : t.IsPlaced text) (hend : isEnd t.cursor.peek = true) :
    Yields (IsPlacedAtEnd text) (Text.IsPlace text) t.streamEnd := by
  have hmark : Text.IsPlace text t.atLast.mark := isPlace_afterLastLine h.stands hend
  have hclosed : (t.atLast.closeTo 0).mark = t.atLast.mark := mark_closeTo _ _
  rw [streamEnd_eq]
  split
  · exact yields_refuse hmark _
  · refine yields_ok ⟨rfl, ?_, fun p hp => ?_⟩
    · exact hclosed.symm ▸ hmark
    · rcases List.mem_append.mp hp with hp | hp
      · exact queue_closeTo (t := t.atLast) h.queue hmark p hp
      · rw [List.mem_singleton.mp hp, hclosed]
        exact bears_of_isPlace rfl hmark

theorem yields_directive (h : t.IsPlaced text) (hsign : t.cursor.Shows 1) :
    Yields (IsPlaced text) (Text.IsPlace text) t.directive := by
  refine yields_bind (yields_endDocument h) fun t₁ ht₁ h₁ => ?_
  refine yields_bind (Directive.yields_readDirective h₁.stands
    (by rwa [cursor_endDocument ht₁])) fun _ _ hc => ?_
  exact yields_ok ((h₁.moveTo hc).push rfl h.isPlace)

/-- The three characters of a marker between documents are there. -/
theorem shows_of_atSign {c : Cursor} {sign : Char} (hbreak : isBreak sign = false)
    (hend : isEnd sign = false) (h : c.atSign sign = true) : c.Shows 3 := by
  simp only [Cursor.atSign, Bool.and_eq_true, decide_eq_true_eq] at h
  rcases h with ⟨⟨⟨⟨_, h₀⟩, h₁⟩, h₂⟩, _⟩
  exact ((shows_one_of_eq h₀ hbreak hend).succ (by rwa [h₁]) (by rwa [h₁])).succ
    (by rwa [h₂]) (by rwa [h₂])

theorem yields_documentMark (h : t.IsPlaced text) {token : Token}
    (hscalar : token.isScalar = false) (hsign : t.cursor.Shows 3) :
    Yields (IsPlaced text) (Text.IsPlace text) (t.documentMark token) := by
  refine yields_bind (yields_endDocument h) fun t₁ ht₁ h₁ => ?_
  have hsign₁ : t₁.cursor.Shows 3 := by rwa [cursor_endDocument ht₁]
  exact yields_ok ((h₁.moveTo (h₁.stands.along (along_advance hsign₁))).push hscalar h.isPlace)

theorem yields_documentEnd (h : t.IsPlaced text) (hsign : t.cursor.Shows 3) :
    Yields (IsPlaced text) (Text.IsPlace text) t.documentEnd := by
  refine yields_bind (yields_documentMark h rfl hsign) fun t₁ _ h₁ => ?_
  refine yields_bind (yields_lineRest h₁.stands) fun c _ hc => ?_
  split
  · exact yields_ok (h₁.moveTo hc)
  · exact yields_refuse (Text.isPlace_of_stands hc) _

/-! ### Flow collections -/

theorem yields_flowStart (h : t.IsPlaced text) (hsign : t.cursor.Shows 1) {token : Token}
    (hscalar : token.isScalar = false) :
    Yields (IsPlaced text) (Text.IsPlace text) (t.flowStart token) := by
  have h₁ := h.saveCandidate.addProvisional
  simp only [flowStart]
  split
  · exact yields_refuse h₁.isPlace _
  · refine yields_bind (yields_passSign { h₁ with candidates := fun k hk => ?_ }
      (by simpa using hsign)) fun t₂ _ h₂ => ?_
    · exact h₁.candidates k ((List.mem_cons.mp hk).resolve_left (by simp))
    · exact yields_ok (h₂.push hscalar h.isPlace)

theorem IsPlaced.leaveFlow (h : t.IsPlaced text) : t.leaveFlow.IsPlaced text := by
  unfold Tokenizer.leaveFlow
  split
  · exact h
  · rename_i candidate outer houter
    exact { h with
      candidates := fun k hk => h.candidates k (List.mem_cons_of_mem _ (by rwa [houter])) }

theorem IsPlaced.endPair (h : t.IsPlaced text) : t.endPair.IsPlaced text := by
  unfold Tokenizer.endPair
  split
  · have hpushed : (t.push .flowMappingEnd t.mark).IsPlaced text := h.push rfl h.isPlace
    exact { hpushed with }
  · exact h

theorem yields_flowEnd (h : t.IsPlaced text) (hsign : t.cursor.Shows 1) {token : Token}
    (hscalar : token.isScalar = false) :
    Yields (IsPlaced text) (Text.IsPlace text) (t.flowEnd token) := by
  refine yields_bind (yields_dropCandidate h) fun t₁ ht₁ h₁ => ?_
  refine yields_bind (yields_passSign (h₁.leaveFlow.allowKey false).endPair
    (by simpa [cursor_dropCandidate ht₁] using hsign)) fun t₂ _ h₂ => ?_
  exact yields_ok ((h₂.withAdjacent _).push hscalar h.isPlace)

theorem yields_flowEntry (h : t.IsPlaced text) (hsign : t.cursor.Shows 1) :
    Yields (IsPlaced text) (Text.IsPlace text) t.flowEntry := by
  refine yields_bind (yields_dropCandidate h) fun t₁ ht₁ h₁ => ?_
  refine yields_bind (yields_passSign (h₁.allowKey true).endPair
    (by simpa [cursor_dropCandidate ht₁] using hsign)) fun t₂ _ h₂ => ?_
  exact yields_ok (h₂.push rfl h.isPlace)

/-! ### Entries, keys and values -/

theorem isPlace_of_lastProperty? (h : t.IsPlaced text) {m : Mark} (hm : t.lastProperty? = some m) :
    Text.IsPlace text m := by
  unfold lastProperty? at hm
  split at hm
  all_goals
    first
      | (rename_i hlast
         split at hm
         · rw [Option.some.injEq] at hm
           exact hm ▸ (h.queue _ (List.mem_of_getLast? hlast)).isPlace
         · simp at hm)
      | simp at hm

theorem yields_checkProperty (h : t.IsPlaced text) :
    Yields (fun _ => True) (Text.IsPlace text) t.checkProperty := by
  unfold checkProperty
  split
  · rename_i m hm
    split
    · exact yields_refuse (isPlace_of_lastProperty? h hm) _
    · exact yields_ok trivial
  · exact yields_ok trivial

theorem yields_blockEntryAt (h : t.IsPlaced text) {c : Cursor} (hc : c.Stands text) :
    Yields (IsPlaced text) (Text.IsPlace text) (t.blockEntryAt c) := by
  have hindent : (t.indent t.mark.column none .blockSequenceStart t.mark).IsPlaced text :=
    h.indent _ none rfl h.isPlace
  have h₁ := hindent.moveTo hc
  simp only [blockEntryAt]
  refine yields_bind (yields_dropCandidate ?_) fun t₂ _ h₂ =>
    yields_ok ((h₂.allowKey true).push rfl (Text.isPlace_of_stands hc))
  split
  · exact h₁.addProvisional
  · exact h₁

theorem yields_blockEntry (h : t.IsPlaced text) (hsign : t.cursor.Shows 1) :
    Yields (IsPlaced text) (Text.IsPlace text) t.blockEntry := by
  unfold blockEntry
  split
  · exact yields_refuse h.isPlace _
  · split
    · exact yields_refuse h.isPlace _
    · refine yields_bind (yields_checkProperty h) fun _ _ _ => ?_
      refine yields_bind (yields_lineRest (h.stands.along (along_advance hsign))) fun c _ hc => ?_
      split
      · exact yields_refuse (Text.isPlace_of_stands hc) _
      · exact yields_blockEntryAt h hc

theorem yields_explicitKey (h : t.IsPlaced text) (hsign : t.cursor.Shows 1) :
    Yields (IsPlaced text) (Text.IsPlace text) t.explicitKey := by
  unfold explicitKey
  split
  · exact yields_refuse h.isPlace _
  · have h₁ : (t.indent t.mark.column none .blockMappingStart t.mark).IsPlaced text :=
      h.indent _ none rfl h.isPlace
    refine yields_bind (yields_dropCandidate (IsPlaced.mk h₁.stands h₁.queue h₁.candidates))
      fun t₂ ht₂ h₂ => ?_
    have hsign₂ : t₂.cursor.Shows 1 := by
      rw [cursor_dropCandidate ht₂]
      simpa using hsign
    refine yields_bind (yields_keySeparation (h₂.stands.along (along_advance hsign₂)))
      fun c _ hc => ?_
    exact yields_ok (((h₂.allowKey _).moveTo hc).push rfl h.isPlace)

theorem yields_passColon {c : Cursor} (h : c.Stands text) (hsign : c.Shows 1) :
    Yields (Stands text) (Text.IsPlace text) (passColon c) := by
  have hbehind := h.along (along_advance hsign)
  simp only [passColon]
  split
  · refine yields_bind (yields_lineRest hbehind) fun c₁ _ hc => ?_
    split
    · exact yields_refuse (Text.isPlace_of_stands hc) _
    · exact yields_ok hc
  · exact yields_ok hbehind

theorem yields_startPair (h : t.IsPlaced text) (k : Candidate) {colon : Mark}
    (hcolon : Text.IsPlace text colon) :
    Yields (IsPlaced text) (Text.IsPlace text) (t.startPair k colon) := by
  unfold startPair
  split
  · split
    · exact yields_refuse hcolon _
    · exact yields_ok (h.pushBefore k.number rfl h.isPlace)
  · exact yields_ok h

theorem yields_valueOf (h : t.IsPlaced text) {k : Candidate} (hk : Text.IsPlace text k.mark)
    {colon : Mark} (hcolon : Text.IsPlace text colon) :
    Yields (IsPlaced text) (Text.IsPlace text) (t.valueOf k colon) := by
  refine yields_bind (yields_startPair (h.pushBefore k.number rfl hk) k hcolon) fun t₁ _ h₁ => ?_
  have h₂ : (t₁.indent k.mark.column (some k.number) .blockMappingStart colon).IsPlaced text :=
    h₁.indent _ _ rfl hcolon
  exact yields_ok ((h₂.addProvisional.withoutCandidate.allowKey false).push rfl hcolon)

theorem yields_valueAlone (h : t.IsPlaced text) {colon : Mark} (hcolon : Text.IsPlace text colon) :
    Yields (IsPlaced text) (Text.IsPlace text) (t.valueAlone colon) := by
  have hpair : t.startKeylessPair.IsPlaced text := by
    unfold startKeylessPair
    split
    · exact h.push rfl h.isPlace
    · exact h
  simp only [valueAlone]
  split
  · exact yields_refuse hcolon _
  · have hindent : (t.startKeylessPair.indent colon.column none .blockMappingStart
        colon).IsPlaced text := hpair.indent colon.column none rfl hcolon
    exact yields_ok ((hindent.addProvisional.allowKey _).push rfl hcolon)

theorem yields_value (h : t.IsPlaced text) (hsign : t.cursor.Shows 1) :
    Yields (IsPlaced text) (Text.IsPlace text) t.value := by
  refine yields_bind (yields_passColon h.stands hsign) fun c _ hc => ?_
  have h₁ : IsPlaced text { t with cursor := c, inPair := t.inFlow && !t.inMapping } :=
    { h with stands := hc }
  simp only
  split
  · rename_i k hk
    exact yields_valueOf h₁ (h.candidates k (by rw [hk]; exact List.mem_cons_self)) h.isPlace
  · exact yields_valueAlone h₁ h.isPlace

/-! ### Nodes -/

theorem yields_named (h : t.IsPlaced text) (hsign : t.cursor.Shows 1) {token : String → Token}
    (hscalar : ∀ name, (token name).isScalar = false) :
    Yields (IsPlaced text) (Text.IsPlace text) (t.named token) := by
  have hname : Yields (fun r => r.2.Stands text) (Text.IsPlace text)
      (Property.readName t.cursor) :=
    yields_imp (Property.yields_readName hsign) (fun _ hr => h.stands.along hr)
      (fun m hm => hm ▸ h.isPlace)
  exact yields_bind hname fun _ _ hc =>
    yields_ok (((h.saveCandidate.allowKey false).moveTo hc).push (hscalar _) h.isPlace)

theorem yields_tag (h : t.IsPlaced text) (hpeek : t.cursor.peek = '!') :
    Yields (IsPlaced text) (Text.IsPlace text) t.tag := by
  have htag : Yields (fun r => r.2.Stands text) (Text.IsPlace text)
      (Property.readTag t.inFlow t.cursor) :=
    yields_imp (Property.yields_readTag t.inFlow hpeek) (fun _ hr => h.stands.along hr)
      (fun m hm => hm ▸ h.isPlace)
  exact yields_bind htag fun _ _ hc =>
    yields_ok (((h.saveCandidate.allowKey false).moveTo hc).push rfl h.isPlace)

theorem yields_blockScalar (h : t.IsPlaced text) (style : ScalarStyle)
    (hstyle : (style = .literal ∧ t.cursor.peek = '|') ∨
      (style = .folded ∧ t.cursor.peek = '>')) :
    Yields (Arrives text) (Text.IsPlace text) (t.blockScalar style) := by
  have h₁ := (h.saveCandidate.allowKey true).dropProvisional
  have hread {sign : Char} (hsign : t.cursor.peek = sign) (hlineEnd : isLineEnd sign = false)
      (hnarrow : ∀ value, Token.isNarrow (.scalar style value) = value.toList.all (·.val < 128))
      (hbegins : ∀ (c : Cursor) value,
        isLineEnd c.peek = false ∧ (c.peek = sign ∨ c.Reads value) → c.Begins style value) :
      Yields (Arrives text) (Text.IsPlace text) (t.blockScalar style) := by
    refine yields_bind (Block.yields_readBlock h.stands hsign hlineEnd _ _) fun r _ hr => ?_
    rcases hr.begins with ⟨c, hc, hm, hvalue⟩
    have hscalar := bears_scalar hc hm (hbegins c r.text hvalue)
    rcases hr.behind with hbehind | ⟨hwide, hlt⟩
    · exact yields_ok (.placed ((h₁.moveTo hbehind).push_of_bears hscalar))
    · -- The queue does not depend on where the reader has come to.
      refine yields_ok (.astray ⟨(h₁.push_of_bears hscalar).queue,
        ⟨.scalar style (String.ofList r.text), r.mark⟩, ?_, ?_, hlt⟩)
      · exact List.mem_append_right _ List.mem_cons_self
      · rw [hnarrow]
        simpa [Text.IsNarrow] using hwide
  rcases hstyle with ⟨rfl, hsign⟩ | ⟨rfl, hsign⟩
  · exact hread hsign (by decide) (fun _ => rfl) fun _ _ => id
  · exact hread hsign (by decide) (fun _ => rfl) fun _ _ => id

theorem yields_quotedScalar (h : t.IsPlaced text) (quotes : Quoted.Quotes) (style : ScalarStyle)
    (hstyle : (quotes = .single ∧ style = .singleQuoted ∧ t.cursor.peek = '\'') ∨
      (quotes = .double ∧ style = .doubleQuoted ∧ t.cursor.peek = '"')) :
    Yields (IsPlaced text) (Text.IsPlace text) (t.quotedScalar quotes style) := by
  have hsign : t.cursor.Shows 1 := by
    rcases hstyle with ⟨-, -, hpeek⟩ | ⟨-, -, hpeek⟩
    · exact shows_one_of_eq hpeek (by decide) (by decide)
    · exact shows_one_of_eq hpeek (by decide) (by decide)
  have hbegins (value : List Char) : t.cursor.Begins style value := by
    rcases hstyle with ⟨-, rfl, hpeek⟩ | ⟨-, rfl, hpeek⟩ <;> exact hpeek
  refine yields_bind (Quoted.yields_readQuoted quotes t.margin [] .none
    (h.stands.along (along_advance hsign)) h.isPlace) fun r _ hclosed => ?_
  refine yields_bind (yields_lineRest hclosed) fun behind _ hbehind => ?_
  split
  · refine yields_bind (yields_separate ((h.saveCandidate.allowKey false).moveTo hbehind))
      fun t₂ _ h₂ => ?_
    exact yields_ok ((h₂.withAdjacent _).push_of_bears (bears_scalar h.stands rfl (hbegins _)))
  · exact yields_refuse (Text.isPlace_of_stands hbehind) _

theorem yields_plainScalar (h : t.IsPlaced text) (hgap : isGap t.cursor.peek = false) :
    Yields (IsPlaced text) (Text.IsPlace text) t.plainScalar := by
  have h₁ := (h.saveCandidate.allowKey false).dropProvisional
  have hsign : t.cursor.Shows 1 := shows_one_of_class (fun ch => !isGap ch) (by decide) (by decide)
    (by decide) (by simpa using hgap)
  simp only [plainScalar]
  split
  · exact yields_refuse h.isPlace _
  · split
    · exact yields_refuse h.isPlace _
    · refine yields_bind (Plain.yields_readPlain t.inFlow _
        (h.stands.along (along_advance hsign)) h.isPlace (Plain.follows_advance hsign))
        fun r _ hr => ?_
      exact yields_ok (((h₁.moveTo hr.1).allowKey _).push_of_bears
        (bears_scalar h.stands rfl ⟨hgap, hr.2⟩))

/-! ### Rounds -/

/-- What is found with quotes is what the quote at the cursor says. -/
theorem quotes_of_upcoming {quotes : Quoted.Quotes} {style : ScalarStyle}
    (h : t.upcoming = .quotedScalar quotes style) :
    (quotes = .single ∧ style = .singleQuoted ∧ t.cursor.peek = '\'') ∨
      (quotes = .double ∧ style = .doubleQuoted ∧ t.cursor.peek = '"') := by
  have hindicated : t.indicated t.cursor.peek (isGap (t.cursor.peekAt 1)) =
      .quotedScalar quotes style := by
    unfold upcoming at h
    repeat' split at h
    all_goals first | exact h | simp at h
  unfold indicated at hindicated
  split at hindicated
  all_goals first
    | (split at hindicated <;> simp at hindicated)
    | (simp only [Upcoming.quotedScalar.injEq, reduceCtorEq] at hindicated)
  · rename_i hpeek
    exact .inl ⟨hindicated.1.symm, hindicated.2.symm, hpeek⟩
  · rename_i hpeek
    exact .inr ⟨hindicated.1.symm, hindicated.2.symm, hpeek⟩

/-- No flow collection is a scalar. -/
theorem isScalar_of_upcoming {token : Token}
    (h : t.upcoming = .flowStart token ∨ t.upcoming = .flowEnd token) : token.isScalar = false := by
  have hindicated : t.indicated t.cursor.peek (isGap (t.cursor.peekAt 1)) = .flowStart token ∨
      t.indicated t.cursor.peek (isGap (t.cursor.peekAt 1)) = .flowEnd token := by
    unfold upcoming at h
    repeat' split at h
    all_goals first | exact h | simp at h
  unfold indicated at hindicated
  split at hindicated
  all_goals first
    | (split at hindicated <;> simp at hindicated)
    | simp at hindicated
  all_goals
    rw [← hindicated]
    rfl

/-- The end of the text is found where it is. -/
theorem isEnd_peek_iff : isEnd t.cursor.peek = true ↔ t.upcoming = .streamEnd := by
  refine ⟨fun h => by rw [upcoming, if_pos h], fun h => ?_⟩
  by_contra hend
  have hindicated : t.indicated t.cursor.peek (isGap (t.cursor.peekAt 1)) = .streamEnd := by
    unfold upcoming at h
    rw [if_neg hend] at h
    repeat' split at h
    all_goals first | exact h | simp at h
  unfold indicated at hindicated
  split at hindicated
  all_goals first
    | (split at hindicated <;> simp at hindicated)
    | simp at hindicated

/-- From a place, the next token leads to another one, to the end, or astray. -/
theorem yields_token (h : t.IsPlaced text) (hbreak : isBreak t.cursor.peek = false)
    (hblank : isBlank t.cursor.peek = false) :
    Yields (Arrives text) (Text.IsPlace text) t.token := by
  have hsigned := isSigned_upcoming t
  simp only [token]
  have hplaced {x : Except SyntaxError Tokenizer}
      (hx : Yields (IsPlaced text) (Text.IsPlace text) x) :
      Yields (Arrives text) (Text.IsPlace text) x :=
    yields_imp hx (fun _ => .placed) (fun _ => id)
  -- What is no end is a character.
  have hsign (hnext : t.upcoming ≠ .streamEnd) : t.cursor.Shows 1 := by
    refine shows_one hbreak (Bool.eq_false_iff.mpr fun hend => hnext ?_)
    exact isEnd_peek_iff.mp hend
  cases hnext : t.upcoming with
  | streamEnd =>
    exact yields_imp (yields_streamEnd h (isEnd_peek_iff.mpr hnext)) (fun _ => .atEnd)
      (fun _ => id)
  | directive => exact hplaced (yields_directive h (hsign (by simp [hnext])))
  | documentStart =>
    rw [hnext] at hsigned
    exact hplaced (yields_documentMark h rfl (shows_of_atSign (by decide) (by decide) hsigned))
  | documentEnd =>
    rw [hnext] at hsigned
    exact hplaced (yields_documentEnd h (shows_of_atSign (by decide) (by decide) hsigned))
  | flowStart token =>
    exact hplaced (yields_flowStart h (hsign (by simp [hnext])) (isScalar_of_upcoming (.inl hnext)))
  | flowEnd token =>
    exact hplaced (yields_flowEnd h (hsign (by simp [hnext])) (isScalar_of_upcoming (.inr hnext)))
  | flowEntry => exact hplaced (yields_flowEntry h (hsign (by simp [hnext])))
  | blockEntry => exact hplaced (yields_blockEntry h (hsign (by simp [hnext])))
  | explicitKey => exact hplaced (yields_explicitKey h (hsign (by simp [hnext])))
  | value => exact hplaced (yields_value h (hsign (by simp [hnext])))
  | «alias» => exact hplaced (yields_named h (hsign (by simp [hnext])) fun _ => rfl)
  | anchor => exact hplaced (yields_named h (hsign (by simp [hnext])) fun _ => rfl)
  | tag =>
    rw [hnext] at hsigned
    exact hplaced (yields_tag h hsigned)
  | blockScalar style =>
    rw [hnext] at hsigned
    exact yields_blockScalar h style hsigned
  | quotedScalar quotes style =>
    exact hplaced (yields_quotedScalar h quotes style (quotes_of_upcoming hnext))
  | plainScalar =>
    have hend : isEnd t.cursor.peek = false := by
      refine Bool.eq_false_iff.mpr fun hend => ?_
      rw [isEnd_peek_iff, hnext] at hend
      simp at hend
    exact hplaced (yields_plainScalar h (by simp [isGap, isLineEnd, hblank, hbreak, hend]))
  | refused fault => exact yields_refuse h.isPlace fault

/-- What is next behind a separation is no blank. -/
theorem isBlank_of_separation {margin : Nat} {broken broken' : Bool} {c c' : Cursor}
    (h : separation margin broken c = .ok (c', broken')) : isBlank c'.peek = false := by
  fun_induction separation margin broken c with
  | case1 broken c hblank htab hend ih => exact ih h
  | case2 => simp at h
  | case3 broken c hblank htab ih => exact ih h
  | case4 broken c hblank hbreak ih => exact ih h
  | case5 broken c hblank hbreak hcomment ih => exact ih h
  | case6 broken c hblank hbreak hcomment =>
    simp only [Except.ok.injEq, Prod.mk.injEq] at h
    rw [← h.1]
    exact Bool.eq_false_iff.mpr hblank

theorem yields_round (h : t.IsPlaced text) :
    Yields (Arrives text) (Text.IsPlace text) t.round := by
  refine yields_bind (yields_separate h) fun t₁ ht₁ h₁ => ?_
  refine yields_bind (yields_dropStale h₁) fun t₂ ht₂ h₂ => ?_
  simp only [separate, bind_eq_ok, pure_eq_ok, Except.ok.injEq] at ht₁
  rcases ht₁ with ⟨⟨c, broken⟩, hread, rfl⟩
  have hcursor : (t₂.closeTo (t₂.mark.column + 1)).cursor = c := by
    rw [cursor_closeTo, cursor_dropStale ht₂]
  exact yields_token (h₂.closeTo _) (hcursor ▸ Cursor.not_isBreak_of_separation hread)
    (hcursor ▸ isBlank_of_separation hread)

/-- A token that is handed out, and the place that the reader has come to. -/
structure BearsDelivered (text : List Char) (d : Delivered) : Prop where
  bears : Text.Bears text d.toPlaced
  reached : Text.IsPlace text d.reached

theorem bears_withoutFirst (hqueue : ∀ p ∈ t.queue, Text.Bears text p) :
    ∀ p ∈ t.withoutFirst.queue, Text.Bears text p :=
  fun p hp => hqueue p (List.mem_of_mem_tail hp)

/-- From a place, a step leads to another one, to the end, or astray, and what it hands out is
    reported for a place. -/
theorem yields_step (h : t.IsPlaced text ∨ t.IsPlacedAtEnd text) :
    Yields (fun r => (∀ d ∈ r.1, BearsDelivered text d) ∧ r.2.Arrives text)
      (Text.IsPlace text) t.step := by
  have hplace : Text.IsPlace text t.mark := h.elim IsPlaced.isPlace IsPlacedAtEnd.isPlace
  have hqueue : ∀ p ∈ t.queue, Text.Bears text p := h.elim IsPlaced.queue IsPlacedAtEnd.queue
  cases hcase : t.queue with
  | nil =>
    simp only [step, hcase]
    split
    · exact yields_refuse hplace _
    · rename_i hended
      have hplaced := h.resolve_right fun hend => hended hend.ended
      exact yields_bind (yields_round hplaced) fun u _ hu => yields_ok ⟨by simp, hu⟩
  | cons first rest =>
    have hfirst := hqueue first (by rw [hcase]; exact List.mem_cons_self)
    simp only [step, hcase]
    refine yields_bind (P := fun t₁ => t₁.IsPlaced text ∨ t₁.IsPlacedAtEnd text) ?_
      fun t₁ ht₁ h₁ => ?_
    · rcases h with h | h
      · exact yields_imp (yields_dropStale h) (fun _ => .inl) (fun _ => id)
      · unfold dropStale
        split
        · exact yields_ok (.inr h)
        · split
          · split
            · exact yields_refuse hplace _
            · exact yields_ok (.inr { h with })
          · exact yields_ok (.inr h)
    · split
      · rename_i hwaiting
        simp only [Bool.and_eq_true, Bool.not_eq_true'] at hwaiting
        have hplaced := h₁.resolve_right fun hend => by simp [hend.ended] at hwaiting
        exact yields_bind (yields_round hplaced) fun u _ hu => yields_ok ⟨by simp, hu⟩
      · have hreached : Text.IsPlace text t₁.mark :=
          h₁.elim IsPlaced.isPlace IsPlacedAtEnd.isPlace
        refine yields_ok ⟨fun d hd => ?_, ?_⟩
        · rw [Option.mem_some_iff] at hd
          rw [← hd]
          exact ⟨hfirst, hreached⟩
        · rcases h₁ with h₁ | h₁
          · exact .placed { h₁ with queue := bears_withoutFirst h₁.queue }
          · exact .atEnd { h₁ with queue := bears_withoutFirst h₁.queue }

end Tokenizer

/-! ### Streams -/

/-- All tokens of a stream are reported for places, and so is the error behind them. -/
structure TokenStream.IsPlaced (text : List Char) (stream : TokenStream) : Prop where
  tokens : ∀ d ∈ stream.tokens, Tokenizer.BearsDelivered text d
  error : Text.IsPlace text stream.error.mark

namespace Tokenizer

variable {text : List Char} {t : Tokenizer} {enough : List Delivered → Prop}

/-- What is still to come is reported for places, until enough tokens have been handed out. -/
theorem isPlaced_stream (h : t.IsPlaced text ∨ t.IsPlacedAtEnd text)
    (hnarrow : t.StaysNarrowUntil enough) :
    (t.stream []).IsPlaced text ∨
      ∃ tokens, enough tokens ∧ ∀ d ∈ tokens, BearsDelivered text d := by
  induction t using induction_step generalizing enough with
  | refused t error hstep =>
    left
    rw [stream_of_step_error hstep]
    exact ⟨by simp, of_yields_error (yields_step h) hstep⟩
  | more t found u hstep ih =>
    by_cases henough : enough []
    · exact .inr ⟨[], henough, by simp⟩
    · rcases of_yields_ok (yields_step h) hstep with ⟨hfound, hu⟩
      have hfound : ∀ d ∈ found.toList, BearsDelivered text d := by simpa using hfound
      have hplaced := hu.isPlaced_of_isNarrow (isNarrow_of_step hnarrow henough hstep)
      rcases ih hplaced (staysNarrowUntil_of_step hnarrow hstep) with
        hstream | ⟨tokens, henough, htokens⟩
      · left
        rw [stream_of_step hstep, stream_eq_append]
        refine ⟨fun d hd => ?_, hstream.error⟩
        rcases List.mem_append.mp hd with hd | hd
        · exact hfound d (by simpa using hd)
        · exact hstream.tokens d hd
      · refine .inr ⟨found.toList ++ tokens, henough, fun d hd => ?_⟩
        exact (List.mem_append.mp hd).elim (hfound d) (htokens d)

theorem isPlaced_ofText (text : List Char) : (ofText text).IsPlaced text where
  stands := Cursor.stands_ofText text
  queue := by
    have hstart : Text.IsPlace text Mark.start := Text.isPlace_of_stands (Cursor.stands_ofText text)
    simpa [ofText] using bears_of_isPlace rfl hstart
  candidates := by simp [ofText]

end Tokenizer

end Yaml

end YamlLocator
