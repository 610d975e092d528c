import Mathlib.Data.List.InsertIdx
import YamlLocator.Proofs.Retelling.BlockScalars
import YamlLocator.Proofs.Retelling.Scalars
import YamlLocator.Yaml.Token.Progress

/-!
# Tokens of a Text Told Anew

Two readers of tokens at the same place of two texts are in the same state, up to marks, and
every kind of token is read alike by the two. What is decided from marks comes down to three
questions: in which column something stands, whether a candidate lies too far back, and
whether a colon stands right behind a quoted scalar. The answers do not change, since columns
stay, the number of characters within a line stays, and different indices stay different.

The last question is the only one for which the beginning of the text matters, as the index that
is asked for is zero until a scalar has been read. Inside flow collections, where it is asked,
no character of either text has that index any more.

## Main definitions

* `Retelling.place`, `Retelling.candidate`: What becomes of tokens and candidates.
* `Tokenizer.IsNarrow`: Block scalars in the queue are ASCII.
* `Tokenizer.Retold`: Two readers in the same state at the same place.

## Theorems

* `Retelling.isStale_candidate`: Candidates lie too far back for both readers or for none.
* `Tokenizer.agree_separate`: What separates tokens is passed alike.
* `Tokenizer.agree_value`, `Tokenizer.agree_blockScalar`, `Tokenizer.agree_quotedScalar`,
  `Tokenizer.agree_plainScalar`: Colons and scalars are read alike, as is every other token.
-/

namespace YamlLocator

namespace Yaml

namespace Retelling

/-- What becomes of something that is reported for a mark. -/
def place {α : Type} (σ : Retelling) (p : Placed α) : Placed α := { p with mark := σ.mark p.mark }

/-- What becomes of a candidate. -/
def candidate (σ : Retelling) (k : Candidate) : Candidate := { k with mark := σ.mark k.mark }

/-- A candidate lies too far back for both readers or for none of them. -/
theorem isStale_candidate {σ : Retelling} {k : Candidate} {m : Mark} (hk : σ.IsPlace k.mark)
    (hm : σ.IsPlace m) : (σ.candidate k).isStale (σ.mark m) = k.isStale m := by
  have hline : k.mark.line + σ.lines < m.line + σ.lines ↔ k.mark.line < m.line :=
    Nat.add_lt_add_iff_right
  have hreach (hle : m.line ≤ k.mark.line) :
      σ.index k.mark.index + Candidate.reach < σ.index m.index ↔
        k.mark.index + Candidate.reach < m.index := by
    rcases Nat.eq_or_lt_of_le hle with heq | hlt
    · -- Both marks are on one line.
      have hsub := index_sub_of_isPlace hk hm heq.symm
      omega
    · cases hdoubled : σ.doubled with
      | false =>
        simp only [Retelling.index, hdoubled, Bool.false_eq_true, if_false]
        omega
      | true =>
        -- The candidate stands further on.
        have hindex : m.index < k.mark.index := by
          refine Nat.lt_of_not_le fun hle => ?_
          have := line_le_of_isPlace hdoubled hk hm hle
          omega
        have := index_lt σ hindex
        omega
  have hdecide : ((σ.candidate k).isStale (σ.mark m) = true) ↔ k.isStale m = true := by
    simp only [Candidate.isStale, Bool.or_eq_true, decide_eq_true_eq]
    show (k.mark.line + σ.lines < m.line + σ.lines ∨
      σ.index k.mark.index + Candidate.reach < σ.index m.index) ↔ _
    rw [hline]
    rcases Nat.lt_or_ge k.mark.line m.line with hlt | hge
    · simp [hlt]
    · rw [hreach hge]
  exact Bool.eq_iff_iff.mpr hdecide

end Retelling

/-- Whether a token is no block scalar with a character of several bytes. -/
def Token.isNarrow : Token → Bool
  | .scalar .literal text => text.toList.all fun c => c.val < 128
  | .scalar .folded text => text.toList.all fun c => c.val < 128
  | _ => true

/-- No token in the queue is a block scalar with a character of several bytes. -/
def Tokenizer.IsNarrow (t : Tokenizer) : Prop := ∀ p ∈ t.queue, p.item.isNarrow = true

/-- Two readers in the same state at the same place of the two texts, which have not come to the
    end. -/
structure Tokenizer.Retold (σ : Retelling) (t t' : Tokenizer) : Prop where
  cursor : Cursor.Retold σ t.cursor t'.cursor
  queue_eq : t'.queue = t.queue.map σ.place
  delivered_eq : t'.delivered = t.delivered
  keyAllowed_eq : t'.keyAllowed = t.keyAllowed
  candidate_eq : t'.candidate = t.candidate.map σ.candidate
  outer_eq : t'.outer = t.outer.map (·.map σ.candidate)
  isPlace : ∀ k, some k ∈ t.candidate :: t.outer → σ.IsPlace k.mark
  levels_eq : t'.levels = t.levels
  adjacent_eq : t'.adjacent = σ.index t.adjacent ∨ (t.adjacent = 0 ∧ t'.adjacent = 0)
  inMapping_eq : t'.inMapping = t.inMapping
  inPair_eq : t'.inPair = t.inPair
  ended : t.ended = false ∧ t'.ended = false

namespace Tokenizer

open Retelling

variable {σ : Retelling} {t t' : Tokenizer} {c c' : Cursor}

/-! ### What is seen -/

theorem Retold.mark_eq (h : Retold σ t t') : t'.mark = σ.mark t.mark := h.cursor.mark_eq

theorem Retold.column_eq (h : Retold σ t t') : t'.mark.column = t.mark.column := by
  rw [h.mark_eq, column_mark]

theorem Retold.margin_eq (h : Retold σ t t') : t'.margin = t.margin := by
  rw [margin, margin, h.levels_eq]

theorem Retold.inFlow_eq (h : Retold σ t t') : t'.inFlow = t.inFlow := by
  simp [inFlow, h.outer_eq]

/-! ### The queue and the candidates -/

theorem Retold.push (h : Retold σ t t') (token : Token) (mark : Mark) :
    Retold σ (t.push token mark) (t'.push token (σ.mark mark)) :=
  { h with queue_eq := by simp [Tokenizer.push, h.queue_eq, place] }

theorem Retold.pushBefore (h : Retold σ t t') (number : Nat) (token : Token) (mark : Mark) :
    Retold σ (t.pushBefore number token mark) (t'.pushBefore number token (σ.mark mark)) :=
  { h with
    queue_eq := by
      simp only [Tokenizer.pushBefore, h.queue_eq, h.delivered_eq, List.map_insertIdx]
      rfl }

theorem Retold.moveTo (h : Retold σ t t') (hc : Cursor.Retold σ c c') :
    Retold σ (t.moveTo c) (t'.moveTo c') :=
  { h with cursor := hc }

theorem Retold.allowKey (h : Retold σ t t') (allowed : Bool) :
    Retold σ (t.allowKey allowed) (t'.allowKey allowed) :=
  { h with keyAllowed_eq := rfl }

theorem Retold.withoutCandidate (h : Retold σ t t') :
    Retold σ { t with candidate := none } { t' with candidate := none } :=
  { h with
    candidate_eq := rfl
    isPlace := fun k hk =>
      h.isPlace k (List.mem_cons_of_mem _ ((List.mem_cons.mp hk).resolve_left (by simp))) }

theorem Retold.withAdjacent (h : Retold σ t t') {i i' : Nat}
    (hi : i' = σ.index i ∨ (i = 0 ∧ i' = 0)) :
    Retold σ { t with adjacent := i } { t' with adjacent := i' } :=
  { h with adjacent_eq := hi }

theorem Retold.saveCandidate (h : Retold σ t t') :
    Retold σ t.saveCandidate t'.saveCandidate := by
  simp only [Tokenizer.saveCandidate, h.keyAllowed_eq]
  split
  · refine { h with keyAllowed_eq := rfl, candidate_eq := ?_, isPlace := fun k hk => ?_ }
    · simp only [h.inFlow_eq, h.margin_eq, h.levels_eq, h.delivered_eq, h.queue_eq,
        List.length_map, h.mark_eq, Option.map_some]
      rfl
    · rcases List.mem_cons.mp hk with hk | hk
      · rw [Option.some.injEq] at hk
        rw [hk]
        exact h.cursor.isPlace
      · exact h.isPlace k (List.mem_cons_of_mem _ hk)
  · exact h

theorem any_required_map (candidate : Option Candidate) :
    (candidate.map σ.candidate).any (·.required) = candidate.any (·.required) := by
  cases candidate <;> rfl

theorem agree_dropCandidate (h : Retold σ t t') :
    σ.Agree (Retold σ) t.dropCandidate t'.dropCandidate := by
  simp only [dropCandidate, h.candidate_eq, any_required_map]
  split
  · exact agree_refuse h.mark_eq _
  · exact .ok h.withoutCandidate

theorem agree_dropStale (h : Retold σ t t') : σ.Agree (Retold σ) t.dropStale t'.dropStale := by
  simp only [dropStale, h.candidate_eq]
  cases hk : t.candidate with
  | none => exact .ok h
  | some k =>
    have hplace := h.isPlace k (by rw [hk]; exact List.mem_cons_self)
    have hstale : (σ.candidate k).isStale (σ.mark t.mark) = k.isStale t.mark :=
      isStale_candidate hplace h.cursor.isPlace
    simp only [Option.map_some, h.inFlow_eq, h.mark_eq, hstale]
    split
    · have hrequired : (σ.candidate k).required = k.required := rfl
      cases hk' : k.required with
      | true =>
        rw [if_pos rfl, if_pos (by rw [hrequired, hk'])]
        exact agree_refuse rfl _
      | false =>
        rw [if_neg (by simp), if_neg (by simp [hrequired, hk'])]
        exact .ok h.withoutCandidate
    · exact .ok h

/-! ### Block levels -/

/-- The collections that end are the same, and so are their tokens. -/
theorem queue_closeTo_eq (hqueue : t'.queue = t.queue.map σ.place) (hflow : t'.inFlow = t.inFlow)
    (hlevels : t'.levels = t.levels) (hmark : t'.mark = σ.mark t.mark) (column : Nat) :
    (t'.closeTo column).queue = (t.closeTo column).queue.map σ.place := by
  simp only [Tokenizer.closeTo, hflow]
  split
  · exact hqueue
  · simp [hqueue, hlevels, hmark, place]

theorem Retold.closeTo (h : Retold σ t t') (column : Nat) :
    Retold σ (t.closeTo column) (t'.closeTo column) := by
  have hqueue := queue_closeTo_eq h.queue_eq h.inFlow_eq h.levels_eq h.mark_eq column
  simp only [Tokenizer.closeTo, h.inFlow_eq] at hqueue ⊢
  split
  · exact h
  · rename_i hflow
    simp only [if_neg hflow] at hqueue
    exact { h with queue_eq := hqueue, levels_eq := by rw [h.levels_eq] }

theorem Retold.indent (h : Retold σ t t') (column : Nat) (number : Option Nat) (token : Token)
    (mark : Mark) :
    Retold σ (t.indent column number token mark)
      (t'.indent column number token (σ.mark mark)) := by
  simp only [Tokenizer.indent, h.inFlow_eq, h.levels_eq]
  split
  · exact h
  · have hlevels : Retold σ { t with levels := (Layout.indent column t.levels).1 }
        { t' with levels := (Layout.indent column t.levels).1 } := { h with levels_eq := rfl }
    split
    · cases number with
      | some number => exact hlevels.pushBefore number token mark
      | none => exact hlevels.push token mark
    · exact hlevels

theorem Retold.addProvisional (h : Retold σ t t') :
    Retold σ t.addProvisional t'.addProvisional := by
  simp only [Tokenizer.addProvisional, h.inFlow_eq]
  split
  · exact h
  · exact { h with levels_eq := by rw [h.levels_eq] }

theorem Retold.dropProvisional (h : Retold σ t t') :
    Retold σ t.dropProvisional t'.dropProvisional :=
  { h with levels_eq := by rw [Tokenizer.dropProvisional, Tokenizer.dropProvisional, h.levels_eq] }

/-! ### Moves -/

theorem agree_passSign (h : Retold σ t t') (hbreak : isBreak t.cursor.peek = false) :
    σ.Agree (Retold σ) t.passSign t'.passSign :=
  agree_bind (h.cursor.advance_one hbreak).lineRest fun _ _ hc => .ok (h.moveTo hc)

/-- The two readers go on to the next token. Whether a key may begin there is the same, if it is
    where the line breaks are or if one may begin anyway. -/
theorem agree_separate (h : Retold σ t t') : σ.Agree (Retold σ) t.separate t'.separate := by
  simp only [separate, h.margin_eq]
  refine agree_bind (Cursor.agree_separation h.cursor t.margin false false) ?_
  rintro ⟨c, broken⟩ ⟨c', broken'⟩ ⟨hc, hbroken⟩
  refine .ok { h with cursor := hc, keyAllowed_eq := ?_ }
  rw [h.keyAllowed_eq, show broken' = broken from hbroken rfl, h.inFlow_eq]

/-! ### Documents and directives -/

theorem agree_endDocument (h : Retold σ t t') :
    σ.Agree (Retold σ) t.endDocument t'.endDocument :=
  agree_bind (agree_dropCandidate (h.closeTo 0)) fun _ _ h₁ => .ok (h₁.allowKey false)

theorem agree_directive (h : Retold σ t t') (hbreak : isBreak t.cursor.peek = false) :
    σ.Agree (Retold σ) t.directive t'.directive := by
  refine agree_bind_of_eq (agree_endDocument h) fun t₁ t₁' ht₁ h₁ => ?_
  have hcursor := cursor_endDocument ht₁
  refine agree_bind (Directive.agree_readDirective h₁.cursor (by rwa [hcursor])) ?_
  rintro ⟨_, c⟩ ⟨directive, c'⟩ ⟨rfl, hc⟩
  rw [h.mark_eq]
  exact .ok ((h₁.moveTo hc).push _ _)

/-- No line break is in a marker between documents. -/
theorem not_isBreak_of_atSign {sign : Char} (hsign : isBreak sign = false)
    (h : c.atSign sign = true) : ∀ ch ∈ c.rest.take 3, isBreak ch = false := by
  simp only [Cursor.atSign, Bool.and_eq_true, decide_eq_true_eq] at h
  rcases h with ⟨⟨⟨⟨_, h₀⟩, h₁⟩, h₂⟩, _⟩
  have hone := Cursor.not_isBreak_of_mem_take_one (c := c) (by rw [h₀, hsign])
  have htwo := Cursor.not_isBreak_of_mem_take_succ hone (by rw [h₁, hsign])
  exact Cursor.not_isBreak_of_mem_take_succ htwo (by rw [h₂, hsign])

theorem agree_documentMark (h : Retold σ t t') (token : Token)
    (hbreak : ∀ ch ∈ t.cursor.rest.take 3, isBreak ch = false) :
    σ.Agree (Retold σ) (t.documentMark token) (t'.documentMark token) := by
  refine agree_bind_of_eq (agree_endDocument h) fun t₁ t₁' ht₁ h₁ => ?_
  have hcursor := cursor_endDocument ht₁
  rw [h.mark_eq]
  exact .ok ((h₁.moveTo (h₁.cursor.advance (by rwa [hcursor]))).push _ _)

theorem agree_documentEnd (h : Retold σ t t')
    (hbreak : ∀ ch ∈ t.cursor.rest.take 3, isBreak ch = false) :
    σ.Agree (Retold σ) t.documentEnd t'.documentEnd := by
  refine agree_bind (agree_documentMark h _ hbreak) fun t₁ t₁' h₁ => ?_
  refine agree_bind h₁.cursor.lineRest fun c c' hc => ?_
  rw [hc.isLineEnd_peek]
  split
  · exact .ok (h₁.moveTo hc)
  · exact agree_refuse hc.mark_eq _

/-! ### Flow collections -/

theorem agree_flowStart (h : Retold σ t t') (token : Token)
    (hbreak : isBreak t.cursor.peek = false) :
    σ.Agree (Retold σ) (t.flowStart token) (t'.flowStart token) := by
  have h₁ := h.saveCandidate.addProvisional
  have hlength : t'.saveCandidate.addProvisional.outer.length =
      t.saveCandidate.addProvisional.outer.length := by rw [h₁.outer_eq, List.length_map]
  simp only [flowStart, hlength]
  split
  · exact agree_refuse h₁.mark_eq _
  · have hinner := { h₁ with
      candidate_eq := rfl
      outer_eq := by rw [h₁.candidate_eq, h₁.outer_eq]; rfl
      isPlace := fun k hk => h₁.isPlace k ((List.mem_cons.mp hk).resolve_left (by simp))
      keyAllowed_eq := rfl
      inMapping_eq := by rw [h₁.inMapping_eq] : Retold σ
        { t.saveCandidate.addProvisional with
          candidate := none
          outer := t.saveCandidate.addProvisional.candidate :: t.saveCandidate.addProvisional.outer
          keyAllowed := true
          inMapping := t.saveCandidate.addProvisional.inMapping ||
            decide (token = Token.flowMappingStart) }
        { t'.saveCandidate.addProvisional with
          candidate := none
          outer :=
            t'.saveCandidate.addProvisional.candidate :: t'.saveCandidate.addProvisional.outer
          keyAllowed := true
          inMapping := t'.saveCandidate.addProvisional.inMapping ||
            decide (token = Token.flowMappingStart) } }
    refine agree_bind (agree_passSign hinner (by simpa using hbreak)) fun t₁ t₁' h₂ => ?_
    rw [h.mark_eq]
    exact .ok (h₂.push _ _)

theorem Retold.leaveFlow (h : Retold σ t t') : Retold σ t.leaveFlow t'.leaveFlow := by
  have houter := h.outer_eq
  simp only [Tokenizer.leaveFlow]
  cases hcase : t.outer with
  | nil =>
    rw [hcase, List.map_nil] at houter
    simpa only [houter] using h
  | cons candidate outer =>
    rw [hcase, List.map_cons] at houter
    simp only [houter]
    exact { h with
      candidate_eq := rfl
      outer_eq := rfl
      isPlace := fun k hk => h.isPlace k (List.mem_cons_of_mem _ (by rwa [hcase])) }

theorem Retold.endPair (h : Retold σ t t') : Retold σ t.endPair t'.endPair := by
  simp only [Tokenizer.endPair, h.inPair_eq]
  split
  · rw [h.mark_eq]
    exact { h.push .flowMappingEnd t.mark with inMapping_eq := rfl, inPair_eq := rfl }
  · exact h

theorem agree_flowEnd (h : Retold σ t t') (token : Token) (hbreak : isBreak t.cursor.peek = false) :
    σ.Agree (Retold σ) (t.flowEnd token) (t'.flowEnd token) := by
  refine agree_bind_of_eq (agree_dropCandidate h) fun t₁ t₁' ht₁ h₁ => ?_
  have h₂ := (h₁.leaveFlow.allowKey false).endPair
  refine agree_bind (agree_passSign h₂ (by simpa [cursor_dropCandidate ht₁] using hbreak))
    fun t₂ t₂' h₃ => ?_
  rw [h.mark_eq]
  refine .ok ((h₃.withAdjacent ?_).push _ _)
  simp only [h₃.inFlow_eq]
  split
  · exact .inl (by rw [h₃.mark_eq]; rfl)
  · exact h₃.adjacent_eq

theorem agree_flowEntry (h : Retold σ t t') (hbreak : isBreak t.cursor.peek = false) :
    σ.Agree (Retold σ) t.flowEntry t'.flowEntry := by
  refine agree_bind_of_eq (agree_dropCandidate h) fun t₁ t₁' ht₁ h₁ => ?_
  refine agree_bind (agree_passSign (h₁.allowKey true).endPair
    (by simpa [cursor_dropCandidate ht₁] using hbreak)) fun t₂ t₂' h₂ => ?_
  rw [h.mark_eq]
  exact .ok (h₂.push _ _)

/-! ### Entries -/

theorem lastProperty?_eq (h : Retold σ t t') :
    t'.lastProperty? = t.lastProperty?.map σ.mark := by
  simp only [lastProperty?, h.queue_eq, List.getLast?_map]
  rcases t.queue.getLast? with _ | ⟨token, mark⟩
  · rfl
  · cases token <;> by_cases hcolumn : mark.column = 0 <;> simp [place, hcolumn]

theorem agree_checkProperty (h : Retold σ t t') :
    σ.Agree (fun _ _ => True) t.checkProperty t'.checkProperty := by
  simp only [checkProperty, lastProperty?_eq h, h.column_eq, h.levels_eq]
  cases t.lastProperty? with
  | none => exact .ok trivial
  | some mark =>
    simp only [Option.map_some]
    split
    · exact agree_refuse rfl _
    · exact .ok trivial

theorem entryAfterTab_eq (hc : Cursor.Retold σ c c') : entryAfterTab c' = entryAfterTab c := by
  have htail := hc.lineTail
  simp only [entryAfterTab, hc.takeWhile_eq isBlank (by decide) (by decide),
    htail.peek_eq_iff '-' (by decide)]
  by_cases hdash : c.lineTail.peek = '-'
  · have hgap : isGap (c'.lineTail.peekAt 1) = isGap (c.lineTail.peekAt 1) :=
      (htail.blanks_one (by rw [hdash]; decide)).isGap_peek
    rw [hgap]
  · simp [hdash]

theorem agree_blockEntryAt (h : Retold σ t t') (hc : Cursor.Retold σ c c') :
    σ.Agree (Retold σ) (t.blockEntryAt c) (t'.blockEntryAt c') := by
  have h₁ := (h.indent t.mark.column none .blockSequenceStart t.mark).moveTo hc
  simp only [blockEntryAt, h.mark_eq, hc.isBreak_peek, hc.isFlow_peek, hc.mark_eq]
  refine agree_bind (agree_dropCandidate ?_) fun t₂ t₂' h₂ => .ok ((h₂.allowKey true).push _ _)
  split
  · exact h₁.addProvisional
  · exact h₁

theorem agree_blockEntry (h : Retold σ t t') (hbreak : isBreak t.cursor.peek = false) :
    σ.Agree (Retold σ) t.blockEntry t'.blockEntry := by
  have hnext := h.cursor.advance_one hbreak
  simp only [blockEntry, h.inFlow_eq, h.keyAllowed_eq, entryAfterTab_eq hnext]
  split
  · exact agree_refuse h.mark_eq _
  · split
    · exact agree_refuse h.mark_eq _
    · refine agree_bind (agree_checkProperty h) fun _ _ _ => ?_
      refine agree_bind hnext.lineRest fun c c' hc => ?_
      split
      · exact agree_refuse hc.mark_eq _
      · exact agree_blockEntryAt h hc

/-! ### Keys and values -/

theorem agree_explicitKey (h : Retold σ t t') (hbreak : isBreak t.cursor.peek = false) :
    σ.Agree (Retold σ) t.explicitKey t'.explicitKey := by
  simp only [explicitKey, h.inFlow_eq, h.keyAllowed_eq]
  split
  · exact agree_refuse h.mark_eq _
  · have h₁ := h.indent t.mark.column none .blockMappingStart t.mark
    rw [h.column_eq, h.mark_eq]
    have h₂ : Retold σ
        { t.indent t.mark.column none .blockMappingStart t.mark with
          inMapping := (t.indent t.mark.column none .blockMappingStart t.mark).inMapping ||
            (t.indent t.mark.column none .blockMappingStart t.mark).inFlow }
        { t'.indent t.mark.column none .blockMappingStart (σ.mark t.mark) with
          inMapping :=
            (t'.indent t.mark.column none .blockMappingStart (σ.mark t.mark)).inMapping ||
              (t'.indent t.mark.column none .blockMappingStart (σ.mark t.mark)).inFlow } :=
      { h₁ with inMapping_eq := by rw [h₁.inMapping_eq, h₁.inFlow_eq] }
    refine agree_bind_of_eq (agree_dropCandidate h₂) fun t₃ t₃' ht₃ h₃ => ?_
    have hcursor : t₃.cursor = t.cursor := by rw [cursor_dropCandidate ht₃, cursor_indent]
    refine agree_bind (Cursor.agree_keySeparation
      ((h₃.allowKey (!t.inFlow)).cursor.advance_one (by rw [cursor_allowKey, hcursor, hbreak])))
      fun c c' hc => ?_
    exact .ok (((h₃.allowKey (!t.inFlow)).moveTo hc).push _ _)

theorem agree_passColon (hc : Cursor.Retold σ c c') (hbreak : isBreak c.peek = false) :
    σ.Agree (Cursor.Retold σ) (passColon c) (passColon c') := by
  have hnext := hc.advance_one hbreak
  simp only [passColon, hnext.peek_eq_iff '\t' (by decide),
    hnext.takeWhile_eq isBlank (by decide) (by decide)]
  split
  · refine agree_bind hnext.lineRest fun c₁ c₁' h₁ => ?_
    rw [h₁.class_peek isWord (by decide)]
    split
    · exact agree_refuse h₁.mark_eq _
    · exact .ok h₁
  · exact .ok hnext

theorem agree_startPair (h : Retold σ t t') (k : Candidate) (colon : Mark) :
    σ.Agree (Retold σ) (t.startPair k colon) (t'.startPair (σ.candidate k) (σ.mark colon)) := by
  have hline : (σ.candidate k).mark.line < (σ.mark colon).line ↔ k.mark.line < colon.line :=
    Nat.add_lt_add_iff_right
  simp only [startPair, h.inPair_eq, hline]
  split
  · split
    · exact agree_refuse rfl _
    · rw [h.mark_eq]
      exact .ok (h.pushBefore _ _ _)
  · exact .ok h

theorem agree_valueOf (h : Retold σ t t') (k : Candidate) (colon : Mark) :
    σ.Agree (Retold σ) (t.valueOf k colon) (t'.valueOf (σ.candidate k) (σ.mark colon)) := by
  refine agree_bind (agree_startPair (h.pushBefore _ _ _) k colon) fun t₁ t₁' h₁ => ?_
  have h₂ := (h₁.indent k.mark.column (some k.number) .blockMappingStart colon).addProvisional
  exact .ok ((h₂.withoutCandidate.allowKey false).push _ _)

theorem Retold.startKeylessPair (h : Retold σ t t') :
    Retold σ t.startKeylessPair t'.startKeylessPair := by
  simp only [Tokenizer.startKeylessPair, h.inPair_eq]
  split
  · rw [h.mark_eq]
    exact h.push _ _
  · exact h

theorem agree_valueAlone (h : Retold σ t t') (colon : Mark) :
    σ.Agree (Retold σ) (t.valueAlone colon) (t'.valueAlone (σ.mark colon)) := by
  simp only [valueAlone, h.inFlow_eq, h.keyAllowed_eq, column_mark]
  split
  · exact agree_refuse rfl _
  · have h₁ := h.startKeylessPair.indent colon.column none .blockMappingStart colon
    exact .ok ((h₁.addProvisional.allowKey (!t.inFlow)).push _ _)

theorem agree_value (h : Retold σ t t') (hbreak : isBreak t.cursor.peek = false) :
    σ.Agree (Retold σ) t.value t'.value := by
  refine agree_bind (agree_passColon h.cursor hbreak) fun c c' hc => ?_
  have h₁ : Retold σ { t with cursor := c, inPair := t.inFlow && !t.inMapping }
      { t' with cursor := c', inPair := t'.inFlow && !t'.inMapping } :=
    { h with cursor := hc, inPair_eq := by rw [h.inFlow_eq, h.inMapping_eq] }
  revert h₁
  generalize { t with cursor := c, inPair := t.inFlow && !t.inMapping } = t₁
  generalize { t' with cursor := c', inPair := t'.inFlow && !t'.inMapping } = t₁'
  intro h₁
  rw [h.mark_eq, h.candidate_eq]
  cases t.candidate with
  | none => exact agree_valueAlone h₁ _
  | some k => exact agree_valueOf h₁ k _

/-! ### Nodes -/

theorem agree_named (h : Retold σ t t') (token : String → Token)
    (hbreak : isBreak t.cursor.peek = false) :
    σ.Agree (Retold σ) (t.named token) (t'.named token) := by
  refine agree_bind (Property.agree_readName h.cursor hbreak) ?_
  rintro ⟨_, c⟩ ⟨name, c'⟩ ⟨rfl, hc⟩
  rw [h.mark_eq]
  exact .ok (((h.saveCandidate.allowKey false).moveTo hc).push _ _)

theorem agree_tag (h : Retold σ t t') (hpeek : t.cursor.peek = '!') :
    σ.Agree (Retold σ) t.tag t'.tag := by
  simp only [tag, h.inFlow_eq]
  refine agree_bind (Property.agree_readTag t.inFlow h.cursor hpeek) ?_
  rintro ⟨_, c⟩ ⟨tag, c'⟩ ⟨rfl, hc⟩
  rw [h.mark_eq]
  exact .ok (((h.saveCandidate.allowKey false).moveTo hc).push _ _)

theorem agree_blockScalar (h : Retold σ t t') (style : ScalarStyle)
    (hstyle : style = .literal ∨ style = .folded) (hbreak : isBreak t.cursor.peek = false)
    (hnarrow : σ.doubled = true → ∀ u, t.blockScalar style = .ok u → u.IsNarrow) :
    σ.Agree (Retold σ) (t.blockScalar style) (t'.blockScalar style) := by
  have h₁ := (h.saveCandidate.allowKey true).dropProvisional
  simp only [blockScalar, h₁.margin_eq] at hnarrow ⊢
  refine agree_bind (Block.agree_readBlock h.cursor hbreak _ _ fun hdoubled r hr => ?_)
    fun r r' hr => ?_
  · -- The scalar is the last token of the queue.
    simp only [hr, bind, Except.bind, pure, Except.pure, Except.ok.injEq, forall_eq'] at hnarrow
    have hlast := hnarrow hdoubled ⟨.scalar style (String.ofList r.text), r.mark⟩ (by simp [push])
    rcases hstyle with rfl | rfl <;> simpa [Token.isNarrow, Text.IsNarrow] using hlast
  · rw [hr.text_eq, hr.mark_eq]
    exact .ok ((h₁.moveTo hr.behind).push _ _)

theorem endsQuoted_eq (hc : Cursor.Retold σ c c') (inFlow : Bool) (line : Nat) :
    endsQuoted inFlow (line + σ.lines) c' = endsQuoted inFlow line c := by
  have hline : line + σ.lines = c.mark.line + σ.lines ↔ line = c.mark.line :=
    Nat.add_right_cancel_iff
  simp only [endsQuoted, hc.isLineEnd_peek, hc.peek_eq_iff ':' (by decide),
    hc.peek_eq_iff ',' (by decide), hc.peek_eq_iff '}' (by decide), hc.peek_eq_iff ']' (by decide),
    hc.mark_eq, line_mark, hline]

theorem agree_quotedScalar (h : Retold σ t t') (quotes : Quoted.Quotes) (style : ScalarStyle)
    (hbreak : isBreak t.cursor.peek = false) :
    σ.Agree (Retold σ) (t.quotedScalar quotes style) (t'.quotedScalar quotes style) := by
  simp only [quotedScalar, h.margin_eq, h.inFlow_eq]
  refine agree_bind (Quoted.agree_readQuoted h.mark_eq quotes t.margin [] .none
    (h.cursor.advance_one hbreak)) ?_
  rintro ⟨_, c⟩ ⟨text, c'⟩ ⟨rfl, hc⟩
  refine agree_bind hc.lineRest fun c₁ c₁' h₁ => ?_
  rw [h.mark_eq, line_mark, endsQuoted_eq h₁]
  split
  · refine agree_bind (agree_separate ((h.saveCandidate.allowKey false).moveTo h₁))
      fun t₂ t₂' h₂ => ?_
    exact .ok ((h₂.withAdjacent (.inl (by rw [h₂.mark_eq]; rfl))).push _ _)
  · exact agree_refuse h₁.mark_eq _

theorem agree_plainScalar (h : Retold σ t t') (hbreak : isBreak t.cursor.peek = false) :
    σ.Agree (Retold σ) t.plainScalar t'.plainScalar := by
  have h₁ := (h.saveCandidate.allowKey false).dropProvisional
  simp only [plainScalar, h.inFlow_eq, h.column_eq, h₁.margin_eq, Plain.atFlowDash_eq h.cursor,
    h.cursor.peek_eq hbreak]
  split
  · exact agree_refuse h.mark_eq _
  · split
    · exact agree_refuse h.mark_eq _
    · refine agree_bind (Plain.agree_readPlain h.mark_eq _ _ _ _ (h.cursor.advance_one hbreak)) ?_
      rintro ⟨_, c⟩ ⟨text, c'⟩ ⟨rfl, hc⟩
      rw [h.mark_eq, hc.indenting_eq]
      exact .ok (((h₁.moveTo hc).allowKey c.indenting).push _ _)

end Tokenizer

end Yaml

end YamlLocator
