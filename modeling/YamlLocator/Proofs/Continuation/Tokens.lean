import YamlLocator.Proofs.Continuation.Scalars
import YamlLocator.Proofs.Places.Tokens

/-!
# Tokens of a Text That Goes On

The reader of tokens sees the text through its cursor only. In front of the line that ends the
document, every kind of token is read alike whether or not the text goes on behind that line, and
the line is still ahead behind the token. The marker at the end of the document is read alike as
well, and leaves nothing but the break of its line.

## Main definitions

* `Tokenizer.append`: The reader in the text that goes on.
* `Tokenizer.IsAhead`: The line that ends the document has not been read.
* `Tokenizer.IsPast`, `Tokenizer.IsJustPast`: That line has been read.

## Theorems

* `Tokenizer.carries_token`: The next token is read alike.
* `Tokenizer.carries_round`: And so is a round.
-/

namespace YamlLocator

namespace Yaml

namespace Tokenizer

open Cursor

variable {t u : Tokenizer} (more : List Char)

/-- The reader in the text that goes on. -/
def append (more : List Char) (t : Tokenizer) : Tokenizer := t.moveTo (t.cursor.append more)

@[simp]
theorem cursor_append (t : Tokenizer) : (t.append more).cursor = t.cursor.append more := rfl

@[simp]
theorem queue_append (t : Tokenizer) : (t.append more).queue = t.queue := rfl

@[simp]
theorem delivered_append (t : Tokenizer) : (t.append more).delivered = t.delivered := rfl

@[simp]
theorem keyAllowed_append (t : Tokenizer) : (t.append more).keyAllowed = t.keyAllowed := rfl

@[simp]
theorem candidate_append (t : Tokenizer) : (t.append more).candidate = t.candidate := rfl

@[simp]
theorem outer_append (t : Tokenizer) : (t.append more).outer = t.outer := rfl

@[simp]
theorem levels_append (t : Tokenizer) : (t.append more).levels = t.levels := rfl

@[simp]
theorem inMapping_append (t : Tokenizer) : (t.append more).inMapping = t.inMapping := rfl

@[simp]
theorem inPair_append (t : Tokenizer) : (t.append more).inPair = t.inPair := rfl

@[simp]
theorem ended_append (t : Tokenizer) : (t.append more).ended = t.ended := rfl

@[simp]
theorem adjacent_append (t : Tokenizer) : (t.append more).adjacent = t.adjacent := rfl

@[simp]
theorem mark_append (t : Tokenizer) : (t.append more).mark = t.mark := rfl

@[simp]
theorem inFlow_append (t : Tokenizer) : (t.append more).inFlow = t.inFlow := rfl

@[simp]
theorem margin_append (t : Tokenizer) : (t.append more).margin = t.margin := rfl

/-! ### What leaves the cursor alone -/

theorem pushBefore_append (t : Tokenizer) (number : Nat) (token : Token) (mark : Mark) :
    (t.append more).pushBefore number token mark = (t.pushBefore number token mark).append more :=
  rfl

theorem allowKey_append (t : Tokenizer) (allowed : Bool) :
    (t.append more).allowKey allowed = (t.allowKey allowed).append more := rfl

theorem saveCandidate_append (t : Tokenizer) :
    (t.append more).saveCandidate = t.saveCandidate.append more := by
  rw [saveCandidate, saveCandidate, keyAllowed_append]
  split <;> rfl

theorem closeTo_append (t : Tokenizer) (column : Nat) :
    (t.append more).closeTo column = (t.closeTo column).append more := by
  rw [closeTo, closeTo, inFlow_append]
  split <;> rfl

theorem indent_append (t : Tokenizer) (column : Nat) (number : Option Nat) (token : Token)
    (mark : Mark) :
    (t.append more).indent column number token mark =
      (t.indent column number token mark).append more := by
  unfold indent
  rw [inFlow_append, levels_append]
  by_cases hflow : t.inFlow = true
  · rw [if_pos hflow, if_pos hflow]
  · rw [if_neg hflow, if_neg hflow]
    cases Layout.indent column t.levels with
    | mk levels opened => cases opened <;> cases number <;> rfl

theorem addProvisional_append (t : Tokenizer) :
    (t.append more).addProvisional = t.addProvisional.append more := by
  rw [addProvisional, addProvisional, inFlow_append]
  split <;> rfl

theorem leaveFlow_append (t : Tokenizer) :
    (t.append more).leaveFlow = t.leaveFlow.append more := by
  simp only [leaveFlow, outer_append]
  split <;> rfl

theorem endPair_append (t : Tokenizer) : (t.append more).endPair = t.endPair.append more := by
  rw [endPair, endPair, inPair_append]
  split <;> rfl

theorem startKeylessPair_append (t : Tokenizer) :
    (t.append more).startKeylessPair = t.startKeylessPair.append more := by
  rw [startKeylessPair, startKeylessPair, inPair_append]
  split <;> rfl

theorem carries_dropStale (t : Tokenizer) :
    Carries (append more) (fun u => u.cursor = t.cursor) t.dropStale (t.append more).dropStale := by
  simp only [dropStale, candidate_append, inFlow_append, mark_append]
  split
  · exact .ok rfl
  · refine carries_ite (fun _ => ?_) fun _ => .ok rfl
    exact carries_ite (fun _ => carries_refuse _ _) fun _ =>
      carries_ok rfl rfl

theorem carries_dropCandidate (t : Tokenizer) :
    Carries (append more) (fun u => u.cursor = t.cursor) t.dropCandidate
      (t.append more).dropCandidate := by
  rw [dropCandidate, dropCandidate, candidate_append]
  exact carries_ite (fun _ => carries_refuse _ _) fun _ =>
    carries_ok rfl rfl

theorem carries_endDocument (t : Tokenizer) :
    Carries (append more) (fun u => u.cursor = t.cursor) t.endDocument
      (t.append more).endDocument := by
  simp only [endDocument, closeTo_append]
  refine carries_bind (carries_dropCandidate more _) fun u _ hu => ?_
  exact carries_ok rfl (hu.trans (cursor_closeTo t 0))

/-! ### Moves, documents and directives -/

theorem carries_passSign (h : t.cursor.IsInside) (hsign : t.cursor.Shows 1) :
    Carries (append more) (fun u => u.cursor.IsInside) t.passSign (t.append more).passSign := by
  simp only [passSign, cursor_append, advance_append more hsign.le_left]
  refine carries_bind (carries_lineRest more (h.advance hsign)) fun c _ hc => ?_
  exact carries_ok rfl hc

theorem carries_separate (h : t.cursor.IsBefore) :
    Carries (append more) (fun u => u.cursor.IsBefore) t.separate (t.append more).separate := by
  refine carries_bind (carries_separation more h t.margin false) fun r _ hr => ?_
  exact carries_ok rfl hr

theorem atLast_append (t : Tokenizer) : (t.append more).atLast = t.atLast.append more := by
  have hlast : afterLastLine (t.cursor.append more) = (afterLastLine t.cursor).append more := by
    rw [afterLastLine, afterLastLine, column_append]
    by_cases hcolumn : t.cursor.column = 0
    · rw [if_pos hcolumn, if_pos hcolumn]
    · rw [if_neg hcolumn, if_neg hcolumn]
      rfl
  simp only [atLast, cursor_append, hlast]
  rfl

theorem carries_streamEnd (t : Tokenizer) :
    Carries (append more) (fun u => u.ended = true) t.streamEnd (t.append more).streamEnd := by
  simp only [streamEnd_eq, atLast_append, closeTo_append, candidate_append, outer_append]
  refine carries_ite (fun _ => carries_refuse _ _) fun _ => ?_
  exact carries_ok rfl rfl

theorem carries_directive (h : t.cursor.IsInside) (hsign : t.cursor.Shows 1) :
    Carries (append more) (fun u => u.cursor.IsBefore) t.directive (t.append more).directive := by
  refine carries_bind (carries_endDocument more t) fun t₁ _ h₁ => ?_
  have hinside : t₁.cursor.IsInside := by rwa [h₁]
  refine carries_bind (Directive.carries_readDirective more hinside (by rwa [h₁])) fun r _ hr => ?_
  exact carries_ok rfl hr

/-- A marker between documents is passed alike wherever its three characters are. -/
theorem carries_documentMark (hleft : 3 ≤ t.cursor.left) (token : Token) :
    Carries (append more) (fun u => u.cursor = t.cursor.advance 3) (t.documentMark token)
      ((t.append more).documentMark token) := by
  refine carries_bind (carries_endDocument more t) fun t₁ _ h₁ => ?_
  have hmoved : (t₁.append more).cursor.advance 3 = (t₁.cursor.advance 3).append more :=
    advance_append more (by rwa [h₁])
  rw [hmoved]
  exact carries_ok rfl (by rw [← h₁]; rfl)

/-- The marker behind a document leads along its line. -/
theorem carries_documentEnd (hleft : 3 ≤ t.cursor.left)
    (hmem : '\n' ∈ (t.cursor.advance 3).rest) :
    Carries (append more) (fun u => Along (t.cursor.advance 3) u.cursor) t.documentEnd
      (t.append more).documentEnd := by
  refine carries_bind (carries_documentMark more hleft .documentEnd) fun t₁ _ h₁ => ?_
  refine carries_bind (carries_lineRest_of_mem more (by rwa [h₁])) fun c _ hc => ?_
  rw [h₁] at hc
  rw [Cursor.peek_append more (left_pos_of_mem (mem_of_along hmem hc))]
  exact carries_ite (fun _ => carries_ok rfl hc) fun _ => carries_refuse _ _

/-! ### Flow collections -/

theorem carries_flowStart (h : t.cursor.IsInside) (hsign : t.cursor.Shows 1) (token : Token) :
    Carries (append more) (fun u => u.cursor.IsInside) (t.flowStart token)
      ((t.append more).flowStart token) := by
  have hcursor : t.saveCandidate.addProvisional.cursor = t.cursor := by simp
  simp only [flowStart, saveCandidate_append, addProvisional_append, outer_append]
  refine carries_ite (fun _ => carries_refuse _ _) fun _ => ?_
  refine carries_bind (carries_passSign more (t := { t.saveCandidate.addProvisional with
    candidate := none
    outer := t.saveCandidate.addProvisional.candidate :: t.saveCandidate.addProvisional.outer
    keyAllowed := true
    inMapping := t.saveCandidate.addProvisional.inMapping ||
      decide (token = Token.flowMappingStart) }) (by rwa [hcursor]) (by rwa [hcursor]))
    fun u _ hu => ?_
  exact carries_ok rfl hu

theorem carries_flowEnd (h : t.cursor.IsInside) (hsign : t.cursor.Shows 1) (token : Token) :
    Carries (append more) (fun u => u.cursor.IsInside) (t.flowEnd token)
      ((t.append more).flowEnd token) := by
  refine carries_bind (carries_dropCandidate more t) fun t₁ _ h₁ => ?_
  have hcursor : (t₁.leaveFlow.allowKey false).endPair.cursor = t.cursor := by simpa using h₁
  rw [leaveFlow_append, allowKey_append, endPair_append]
  refine carries_bind (carries_passSign more (by rwa [hcursor]) (by rwa [hcursor]))
    fun u _ hu => ?_
  exact carries_ok rfl hu

theorem carries_flowEntry (h : t.cursor.IsInside) (hsign : t.cursor.Shows 1) :
    Carries (append more) (fun u => u.cursor.IsInside) t.flowEntry (t.append more).flowEntry := by
  refine carries_bind (carries_dropCandidate more t) fun t₁ _ h₁ => ?_
  have hcursor : (t₁.allowKey true).endPair.cursor = t.cursor := by simpa using h₁
  rw [allowKey_append, endPair_append]
  refine carries_bind (carries_passSign more (by rwa [hcursor]) (by rwa [hcursor]))
    fun u _ hu => ?_
  exact carries_ok rfl hu

/-! ### Entries, keys and values -/

theorem entryAfterTab_append {c : Cursor} (h : c.IsInside) :
    entryAfterTab (c.append more) = entryAfterTab c := by
  have htail := (h.along (along_lineTail c)).isBefore
  rw [entryAfterTab, entryAfterTab, takeWhile_append more h.isBefore.mem isBlank (by decide),
    lineTail_append more h.isBefore.mem, htail.peek_append,
    htail.peekAt_append more (by decide : 1 ≤ 3)]

theorem carries_blockEntryAt {c : Cursor} (h : c.IsInside) (t : Tokenizer) :
    Carries (append more) (fun u => u.cursor.IsInside) (t.blockEntryAt c)
      ((t.append more).blockEntryAt (c.append more)) := by
  have hmoved (t₁ : Tokenizer) : (t₁.append more).moveTo (c.append more) =
      (t₁.moveTo c).append more := rfl
  simp only [blockEntryAt, h.isBefore.peek_append, indent_append, mark_append, hmoved,
    addProvisional_append]
  generalize (t.indent t.mark.column none .blockSequenceStart t.mark) = t₁
  have hcursor : (if isBreak c.peek || isFlow c.peek then (t₁.moveTo c).addProvisional
      else t₁.moveTo c).cursor = c := by
    split <;> simp
  rw [← apply_ite (append more)]
  refine carries_bind (carries_dropCandidate more _) fun u _ hu => ?_
  refine carries_ok rfl ?_
  have hu : u.cursor = c := hu.trans hcursor
  show u.cursor.IsInside
  rwa [hu]

theorem carries_blockEntry (h : t.cursor.IsInside) (hsign : t.cursor.Shows 1) :
    Carries (append more) (fun u => u.cursor.IsInside) t.blockEntry
      (t.append more).blockEntry := by
  have hbehind := h.advance hsign
  unfold blockEntry
  refine carries_ite (fun _ => carries_refuse _ _) fun _ => ?_
  refine carries_ite (fun _ => carries_refuse _ _) fun _ => ?_
  have hproperty : (t.append more).checkProperty = t.checkProperty := rfl
  rw [hproperty, cursor_append, advance_append more hsign.le_left,
    entryAfterTab_append more hbehind]
  have hchecked : Carries id (fun _ => True) t.checkProperty t.checkProperty := by
    cases t.checkProperty with
    | error e => exact .error e
    | ok r => exact .ok trivial
  refine carries_bind hchecked fun _ _ _ => ?_
  refine carries_bind (carries_lineRest more hbehind) fun c _ hc => ?_
  exact carries_ite (fun _ => carries_refuse _ _) fun _ => carries_blockEntryAt more hc t

theorem carries_explicitKey (h : t.cursor.IsInside) (hsign : t.cursor.Shows 1) :
    Carries (append more) (fun u => u.cursor.IsBefore) t.explicitKey
      (t.append more).explicitKey := by
  have hcursor : (t.indent t.mark.column none .blockMappingStart t.mark).cursor = t.cursor := by
    simp
  simp only [explicitKey, inFlow_append, keyAllowed_append, mark_append, indent_append]
  refine carries_ite (fun _ => carries_refuse _ _) fun _ => ?_
  generalize t.indent t.mark.column none .blockMappingStart t.mark = t₁ at hcursor ⊢
  refine carries_bind (carries_dropCandidate more
    { t₁ with inMapping := t₁.inMapping || t₁.inFlow }) fun t₂ _ h₂ => ?_
  have h₂ : t₂.cursor = t.cursor := h₂.trans hcursor
  have hadvanced : ((t₂.append more).allowKey !t.inFlow).cursor.advance 1 =
      (t.cursor.advance 1).append more := by
    rw [← advance_append more hsign.le_left, ← h₂]
    rfl
  have hadvanced' : (t₂.allowKey !t.inFlow).cursor.advance 1 = t.cursor.advance 1 := by
    rw [← h₂]
    rfl
  rw [hadvanced, hadvanced']
  refine carries_bind (carries_keySeparation more (h.advance hsign).isBefore) fun c _ hc => ?_
  exact carries_ok rfl hc

theorem carries_passColon {c : Cursor} (h : c.IsInside) (hsign : c.Shows 1) :
    Carries (Cursor.append more) IsInside (passColon c) (passColon (c.append more)) := by
  have hbehind := h.advance hsign
  simp only [passColon, advance_append more hsign.le_left, hbehind.isBefore.peek_append,
    takeWhile_append more hbehind.isBefore.mem isBlank (by decide)]
  refine carries_ite (fun _ => ?_) fun _ => .ok hbehind
  refine carries_bind (carries_lineRest more hbehind) fun c₁ _ h₁ => ?_
  rw [h₁.isBefore.peek_append]
  exact carries_ite (fun _ => carries_refuse _ _) fun _ => .ok h₁

theorem carries_startPair (t : Tokenizer) (k : Candidate) (colon : Mark) :
    Carries (append more) (fun u => u.cursor = t.cursor) (t.startPair k colon)
      ((t.append more).startPair k colon) := by
  unfold startPair
  refine carries_ite (fun _ => ?_) fun _ => .ok rfl
  exact carries_ite (fun _ => carries_refuse _ _) fun _ =>
    carries_ok rfl rfl

theorem carries_valueOf (t : Tokenizer) (k : Candidate) (colon : Mark) :
    Carries (append more) (fun u => u.cursor = t.cursor) (t.valueOf k colon)
      ((t.append more).valueOf k colon) := by
  simp only [valueOf, pushBefore_append]
  refine carries_bind (carries_startPair more _ k colon) fun t₁ _ h₁ => ?_
  rw [indent_append, addProvisional_append]
  refine carries_ok rfl ?_
  simpa using h₁

theorem carries_valueAlone (t : Tokenizer) (colon : Mark) :
    Carries (append more) (fun u => u.cursor = t.cursor) (t.valueAlone colon)
      ((t.append more).valueAlone colon) := by
  simp only [valueAlone, startKeylessPair_append, indent_append, addProvisional_append]
  refine carries_ite (fun _ => carries_refuse _ _) fun _ => ?_
  refine carries_ok rfl ?_
  simp

theorem carries_value (h : t.cursor.IsInside) (hsign : t.cursor.Shows 1) :
    Carries (append more) (fun u => u.cursor.IsInside) t.value (t.append more).value := by
  refine carries_bind (carries_passColon more h hsign) fun c _ hc => ?_
  simp only [candidate_append]
  split
  · rename_i k hk
    refine carries_imp (carries_valueOf more
      { t with cursor := c, inPair := t.inFlow && !t.inMapping } k t.mark) fun u _ hu => ?_
    rwa [hu]
  · refine carries_imp (carries_valueAlone more
      { t with cursor := c, inPair := t.inFlow && !t.inMapping } t.mark) fun u _ hu => ?_
    rwa [hu]

/-! ### Nodes -/

theorem carries_named (h : t.cursor.IsInside) (hsign : t.cursor.Shows 1)
    (token : String → Token) :
    Carries (append more) (fun u => u.cursor.IsInside) (t.named token)
      ((t.append more).named token) := by
  simp only [named, saveCandidate_append]
  refine carries_bind (Property.carries_readName more h hsign) fun r _ hr => ?_
  exact carries_ok rfl hr

theorem carries_tag (h : t.cursor.IsInside) (hpeek : t.cursor.peek = '!') :
    Carries (append more) (fun u => u.cursor.IsInside) t.tag (t.append more).tag := by
  simp only [tag, saveCandidate_append]
  refine carries_bind (Property.carries_readTag more h t.inFlow hpeek) fun r _ hr => ?_
  exact carries_ok rfl hr

theorem carries_blockScalar (h : t.cursor.IsInside) (hsign : t.cursor.Shows 1)
    (style : ScalarStyle) :
    Carries (append more) (fun u => u.cursor.IsBefore) (t.blockScalar style)
      ((t.append more).blockScalar style) := by
  simp only [blockScalar, saveCandidate_append]
  refine carries_bind (Block.carries_readBlock more h hsign _ _) fun r _ hr => ?_
  exact carries_ok rfl hr

theorem endsQuoted_append {c : Cursor} (h : c.IsBefore) (inFlow : Bool) (line : Nat) :
    endsQuoted inFlow line (c.append more) = endsQuoted inFlow line c := by
  rw [endsQuoted, endsQuoted, h.peek_append, Cursor.mark_append]

theorem carries_quotedScalar (h : t.cursor.IsInside) (hsign : t.cursor.Shows 1)
    (quotes : Quoted.Quotes) (style : ScalarStyle) :
    Carries (append more) (fun u => u.cursor.IsBefore) (t.quotedScalar quotes style)
      ((t.append more).quotedScalar quotes style) := by
  simp only [quotedScalar, saveCandidate_append, cursor_append, advance_append more hsign.le_left]
  refine carries_bind (Quoted.carries_readQuoted more quotes t.margin t.mark [] .none
    (h.advance hsign).isBefore) fun r _ hr => ?_
  refine carries_bind (carries_lineRest more hr) fun behind _ hbehind => ?_
  rw [endsQuoted_append more hbehind.isBefore]
  refine carries_ite (fun _ => ?_) fun _ => carries_refuse _ _
  refine carries_bind (carries_separate more
    (t := (t.saveCandidate.allowKey false).moveTo behind) hbehind.isBefore) fun u _ hu => ?_
  exact carries_ok rfl hu

theorem carries_plainScalar (h : t.cursor.IsInside) (hsign : t.cursor.Shows 1) :
    Carries (append more) (fun u => u.cursor.IsBefore) t.plainScalar
      (t.append more).plainScalar := by
  have hbehind := h.advance hsign
  have hnotEnd : (t.cursor.advance 1).IsAtEnd → Gap.none ≠ .none :=
    fun hend => absurd hend hbehind.not_isAtEnd
  simp only [plainScalar, saveCandidate_append, cursor_append, h.isBefore.peek_append,
    advance_append more hsign.le_left, Plain.atFlowDash_append more h.isBefore]
  refine carries_ite (fun _ => carries_refuse _ _) fun _ => ?_
  refine carries_ite (fun _ => carries_refuse _ _) fun _ => ?_
  refine carries_bind (Plain.carries_readPlain more _ _ _ _ _ hbehind.isBefore hnotEnd)
    fun r _ hr => ?_
  exact carries_ok rfl hr

/-! ### Rounds -/

theorem atValue_append (h : t.cursor.IsBefore) : (t.append more).atValue = t.atValue := by
  rw [atValue, atValue, cursor_append, h.peekAt_append more (by decide : 1 ≤ 3)]
  rfl

theorem indicated_append (h : t.cursor.IsBefore) (next : Char) (spaced : Bool) :
    (t.append more).indicated next spaced = t.indicated next spaced := by
  unfold indicated
  rw [atValue_append more h, inFlow_append]

/-- What is next is told by the characters in front of the end of the line. -/
theorem upcoming_append (h : t.cursor.IsBefore) : (t.append more).upcoming = t.upcoming := by
  rw [upcoming, upcoming, indicated_append more h, cursor_append, h.peek_append,
    h.peekAt_append more (by decide : 1 ≤ 3), h.atSign_append, h.atSign_append, margin_append]
  rfl

/-- The line that ends the document has not been read, and never will be if the reader has come
    to the end of the text. -/
def IsAhead (t : Tokenizer) : Prop := t.ended = true ∨ t.cursor.IsBefore

/-- The line that ends the document has been read, up to its break. -/
structure IsPast (t : Tokenizer) : Prop where
  rest_eq : t.cursor.rest = ['\n']
  candidate_eq : t.candidate = none
  levels_eq : t.inFlow = false → t.levels = []
  ended_eq : t.ended = false

/-- That line has just been read: its marker is the last token of the queue. -/
structure IsJustPast (t : Tokenizer) : Prop extends IsPast t where
  exists_last : ∃ front last, t.queue = front ++ [last] ∧ last.item = .documentEnd

theorem ended_closeTo (t : Tokenizer) (column : Nat) : (t.closeTo column).ended = t.ended := by
  unfold closeTo
  split <;> rfl

/-- The marker at the beginning of the line is found there. -/
theorem upcoming_of_isAtEnd (h : t.cursor.IsAtEnd) : t.upcoming = .documentEnd := by
  have hdash : t.cursor.atSign '-' = false := by
    simp [Cursor.atSign, h.peek_eq]
  simp [upcoming, h.peek_eq, isEnd, endMark, hdash, h.atSign]

theorem isJustPast_of_documentEnd (hended : t.ended = false)
    (hrest : (t.cursor.advance 3).rest = ['\n']) (h : t.documentEnd = .ok u)
    (halong : Along (t.cursor.advance 3) u.cursor) : u.IsJustPast := by
  simp only [documentEnd, documentMark, endDocument, bind_eq_ok, pure_eq_ok, Except.ok.injEq] at h
  rcases h with ⟨t₁, ⟨t₂, ⟨t₃, h₃, rfl⟩, rfl⟩, c, -, h⟩
  have hu : ((((t₃.allowKey false).moveTo ((t₃.allowKey false).cursor.advance 3)).push .documentEnd
      t.mark).moveTo c) = u := by
    split at h
    · simpa using h
    · simp at h
  have h₃ := eq_of_dropCandidate h₃
  refine ⟨⟨?_, ?_, fun hflow => ?_, ?_⟩, ?_⟩
  · rcases halong with ⟨count, hshows, hcount, -⟩
    rw [hrest] at hcount
    cases count with
    | zero => exact hcount
    | succ count =>
      have hfeed := hshows.not_isBreak '\n' (by rw [hrest]; simp)
      exact absurd hfeed (by decide)
  · rw [← hu, h₃]
    rfl
  · have hclosed : t.inFlow = false := by
      rw [← hflow, ← hu, h₃]
      show _ = !(t.closeTo 0).outer.isEmpty
      rw [outer_closeTo]
      rfl
    rw [← hu, h₃]
    show (t.closeTo 0).levels = []
    rw [closeTo, hclosed]
    simp [Layout.closeTo]
  · rw [← hu, h₃]
    show (t.closeTo 0).ended = false
    rw [ended_closeTo, hended]
  · rw [← hu]
    exact ⟨t₃.queue, _, rfl, rfl⟩

/-- The next token is read alike. -/
theorem carries_token (h : t.cursor.IsBefore) (hended : t.ended = false)
    (hbreak : isBreak t.cursor.peek = false) :
    Carries (append more) (fun u => u.IsAhead ∨ u.IsJustPast) t.token (t.append more).token := by
  have hsigned := isSigned_upcoming t
  have hsign (hnext : t.upcoming ≠ .streamEnd) : t.cursor.Shows 1 := by
    refine shows_one hbreak (Bool.eq_false_iff.mpr fun hend => hnext ?_)
    exact isEnd_peek_iff.mp hend
  have hinside (hnext : t.upcoming ≠ .documentEnd) : t.cursor.IsInside :=
    h.resolve_right fun hend => hnext (upcoming_of_isAtEnd hend)
  have hbefore {x x' : Except SyntaxError Tokenizer}
      (hx : Carries (append more) (fun u => u.cursor.IsBefore) x x') :
      Carries (append more) (fun u => u.IsAhead ∨ u.IsJustPast) x x' :=
    carries_imp hx fun _ _ hu => .inl (.inr hu)
  have hahead {x x' : Except SyntaxError Tokenizer}
      (hx : Carries (append more) (fun u => u.cursor.IsInside) x x') :
      Carries (append more) (fun u => u.IsAhead ∨ u.IsJustPast) x x' :=
    hbefore (carries_imp hx fun _ _ hu => hu.isBefore)
  simp only [token, upcoming_append more h]
  cases hnext : t.upcoming with
  | streamEnd => exact carries_imp (carries_streamEnd more t) fun _ _ hu => .inl (.inl hu)
  | directive =>
    exact hbefore (carries_directive more (hinside (by simp [hnext])) (hsign (by simp [hnext])))
  | documentStart =>
    rw [hnext] at hsigned
    have hshows := shows_of_atSign (by decide) (by decide) hsigned
    refine hahead (carries_imp (carries_documentMark more hshows.le_left .documentStart)
      fun u _ hu => ?_)
    rw [hu]
    exact (hinside (by simp [hnext])).advance hshows
  | documentEnd =>
    rw [hnext] at hsigned
    have hshows := shows_of_atSign (by decide) (by decide) hsigned
    rcases h with h | h
    · -- A marker further up ends another document.
      have hbehind := h.advance hshows
      exact hahead (carries_imp (carries_documentEnd more hshows.le_left hbehind.isBefore.mem)
        fun _ _ hu => hbehind.along hu)
    · have hrest : (t.cursor.advance 3).rest = ['\n'] := by
        show t.cursor.rest.drop 3 = ['\n']
        rw [h.rest_eq]
        rfl
      exact carries_imp (carries_documentEnd more hshows.le_left (by rw [hrest]; simp))
        fun _ hu halong => .inr (isJustPast_of_documentEnd hended hrest hu halong)
  | flowStart token =>
    exact hahead (carries_flowStart more (hinside (by simp [hnext])) (hsign (by simp [hnext])) _)
  | flowEnd token =>
    exact hahead (carries_flowEnd more (hinside (by simp [hnext])) (hsign (by simp [hnext])) _)
  | flowEntry =>
    exact hahead (carries_flowEntry more (hinside (by simp [hnext])) (hsign (by simp [hnext])))
  | blockEntry =>
    exact hahead (carries_blockEntry more (hinside (by simp [hnext])) (hsign (by simp [hnext])))
  | explicitKey =>
    exact hbefore (carries_explicitKey more (hinside (by simp [hnext])) (hsign (by simp [hnext])))
  | value =>
    exact hahead (carries_value more (hinside (by simp [hnext])) (hsign (by simp [hnext])))
  | «alias» =>
    exact hahead (carries_named more (hinside (by simp [hnext])) (hsign (by simp [hnext])) _)
  | anchor =>
    exact hahead (carries_named more (hinside (by simp [hnext])) (hsign (by simp [hnext])) _)
  | tag =>
    rw [hnext] at hsigned
    exact hahead (carries_tag more (hinside (by simp [hnext])) hsigned)
  | blockScalar style =>
    exact hbefore (carries_blockScalar more (hinside (by simp [hnext])) (hsign (by simp [hnext])) _)
  | quotedScalar quotes style =>
    exact hbefore (carries_quotedScalar more (hinside (by simp [hnext])) (hsign (by simp [hnext]))
      _ _)
  | plainScalar =>
    exact hbefore (carries_plainScalar more (hinside (by simp [hnext])) (hsign (by simp [hnext])))
  | refused fault => exact carries_refuse _ _

/-- A round is read alike, and leaves the line that ends the document ahead or reads it. -/
theorem carries_round (h : t.cursor.IsBefore) (hended : t.ended = false) :
    Carries (append more) (fun u => u.IsAhead ∨ u.IsJustPast) t.round (t.append more).round := by
  refine carries_bind (carries_separate more h) fun t₁ ht₁ h₁ => ?_
  refine carries_bind (carries_dropStale more t₁) fun t₂ ht₂ h₂ => ?_
  simp only [separate, bind_eq_ok, pure_eq_ok, Except.ok.injEq] at ht₁
  rcases ht₁ with ⟨⟨c, broken⟩, hread, rfl⟩
  have hcursor : (t₂.closeTo (t₂.mark.column + 1)).cursor = c := by
    rw [cursor_closeTo, h₂]
  have hbefore : (t₂.closeTo (t₂.mark.column + 1)).cursor.IsBefore := by rwa [hcursor]
  have hended₂ : (t₂.closeTo (t₂.mark.column + 1)).ended = false := by
    rw [ended_closeTo, eq_of_dropStale ht₂]
    exact hended
  simp only [closeTo_append, mark_append]
  refine carries_token more hbefore hended₂ ?_
  rw [hcursor]
  exact Cursor.not_isBreak_of_separation hread

end Tokenizer

end Yaml

end YamlLocator
