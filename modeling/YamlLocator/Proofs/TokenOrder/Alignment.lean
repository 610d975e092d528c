import Mathlib.Data.List.TakeWhile
import YamlLocator.Proofs.Journey
import YamlLocator.Proofs.TokenQueue

/-!
# Candidates and the Open Block Collections

While a key without a sign is read, no block collection ends. A collection ends in front of a
token that stands to the left of it, and whatever is read behind the beginning of a key
on the same line stands to the right of that beginning, which in turn is not to the left of any
open collection. On a later line the candidate is stale, and gone before collections end.

This concerns the candidate outside all flow collections, since inside of them block
collections neither begin nor end.

## Main definitions

* `Layout.IsNested`: The columns of the levels grow from the outside in.
* `Tokenizer.ground`: The candidate outside all flow collections.
* `Tokenizer.IsAligned`: It stands at or to the right of every open block collection.
* `Tokenizer.Keeps`: What can only leave it so.

## Theorems

* `keeps_token`: What reading a token keeps.
* `isAligned_token`: Reading a token leaves everything aligned.
* `queue_closeTo_of_candidate`: No collection ends behind a candidate that is not stale.
-/

namespace YamlLocator

namespace Yaml

namespace Layout

/-- The columns of the levels grow from the outside in. -/
def IsNested (levels : List Level) : Prop :=
  levels.Pairwise fun inner outer => outer.column < inner.column

theorem isNested_closeTo (column : Nat) {levels : List Level} (h : IsNested levels) :
    IsNested (closeTo column levels) :=
  h.sublist (List.dropWhile_sublist _)

theorem isNested_dropProvisional {levels : List Level} (h : IsNested levels) :
    IsNested (dropProvisional levels) :=
  h.sublist (List.dropWhile_sublist _)

theorem column_le_of_margin {levels : List Level} (h : IsNested levels) {column : Nat}
    (hmargin : margin levels ≤ column + 1) : ∀ level ∈ levels, level.column ≤ column := by
  intro level hmem
  cases levels with
  | nil => simp at hmem
  | cons first outer =>
    simp only [margin, Nat.add_le_add_iff_right] at hmargin
    rcases List.mem_cons.mp hmem with rfl | hmem
    · exact hmargin
    · have := (List.pairwise_cons.mp h).1 level hmem
      omega

/-- A level on top of others that leave room for it. -/
theorem isNested_cons {levels : List Level} (h : IsNested levels) {level : Level}
    (hmargin : margin levels ≤ level.column) : IsNested (level :: levels) := by
  refine List.pairwise_cons.mpr ⟨fun outer hmem => ?_, h⟩
  cases levels with
  | nil => simp at hmem
  | cons first rest =>
    simp only [margin] at hmargin
    have := column_le_of_margin h (Nat.le_refl _) outer hmem
    omega

theorem isNested_indent (column : Nat) {levels : List Level} (h : IsNested levels) :
    IsNested (indent column levels).1 := by
  have hsettle : IsNested (settle column levels) := by
    unfold settle
    split
    · split
      · exact (List.pairwise_cons.mp h).2
      · exact h
    · exact h
  simp only [indent]
  split
  · exact isNested_cons hsettle ‹_›
  · exact hsettle

theorem isNested_addProvisional {levels : List Level} (h : IsNested levels) :
    IsNested (addProvisional levels) := by
  unfold addProvisional
  split
  · split
    · exact isNested_cons h (Nat.le_refl _)
    · exact h
  · exact h

/-- A provisional level is no block collection. -/
theorem mem_of_addProvisional {levels : List Level} {level : Level}
    (h : level ∈ addProvisional levels) (hblock : level.block = true) : level ∈ levels := by
  unfold addProvisional at h
  split at h
  · split at h
    · rcases List.mem_cons.mp h with rfl | h
      · simp at hblock
      · exact h
    · exact h
  · exact h

/-- Block collections to the left of a column are not closed. -/
theorem closedTo_eq_zero {levels : List Level} {column : Nat}
    (h : ∀ level ∈ levels, level.block = true → level.column < column) :
    closedTo column levels = 0 := by
  refine List.countP_eq_zero.mpr fun level hmem hblock => ?_
  have hle := List.mem_takeWhile_imp hmem
  have hlt := h level ((List.takeWhile_sublist _).subset hmem) hblock
  simp only [decide_eq_true_eq] at hle
  omega

end Layout

namespace Tokenizer

open Cursor Layout

/-- The candidate outside all flow collections. -/
def ground (t : Tokenizer) : Option Candidate := t.outer.getLast?.getD t.candidate

/-- The open collections are nested, and none of the block collections stands to the right of
    the candidate outside flow collections, which stands in front of what is read next. -/
structure IsAligned (t : Tokenizer) : Prop where
  nested : IsNested t.levels
  column_le : ∀ k, t.ground = some k →
    ∀ level ∈ t.levels, level.block = true → level.column ≤ k.mark.column
  place : ∀ k, t.ground = some k → k.mark.line < t.mark.line ∨
    (k.mark.line = t.mark.line ∧ k.mark.column ≤ t.mark.column)

/-- The text is read on, nested levels stay nested, and while there is a candidate outside flow
    collections it is the same, and no block collection opens. -/
structure Keeps (t t' : Tokenizer) : Prop where
  leads : Leads t.cursor t'.cursor
  nested : IsNested t.levels → IsNested t'.levels
  ground : ∀ k, t'.ground = some k → t.ground = some k ∧
    ∀ level ∈ t'.levels, level.block = true → level ∈ t.levels

theorem Keeps.trans {t t' t'' : Tokenizer} (h : Keeps t t') (h' : Keeps t' t'') : Keeps t t'' where
  leads := h.leads.trans h'.leads
  nested := fun hnested => h'.nested (h.nested hnested)
  ground := by
    intro k hk
    rcases h'.ground k hk with ⟨hk, hlevels'⟩
    rcases h.ground k hk with ⟨hk, hlevels⟩
    exact ⟨hk, fun level hmem hblock => hlevels level (hlevels' level hmem hblock) hblock⟩

theorem isAligned_of_keeps {t t' : Tokenizer} (h : Keeps t t') (ht : t.IsAligned) :
    t'.IsAligned where
  nested := h.nested ht.nested
  column_le := by
    intro k hk level hmem hblock
    rcases h.ground k hk with ⟨hk, hlevels⟩
    exact ht.column_le k hk level (hlevels level hmem hblock) hblock
  place := by
    intro k hk
    have hplace := ht.place k (h.ground k hk).1
    have hmoved := h.leads.place
    unfold mark at hplace ⊢
    omega

/-! ### Moves -/

/-- What changes neither the candidates nor the levels, and goes on in the text. -/
theorem keeps_of_same {t t' : Tokenizer} (hleads : Leads t.cursor t'.cursor)
    (hcandidate : t'.candidate = t.candidate) (houter : t'.outer = t.outer)
    (hlevels : t'.levels = t.levels) : Keeps t t' where
  leads := hleads
  nested := by rw [hlevels]; exact id
  ground := by
    intro k hk
    rw [Tokenizer.ground, hcandidate, houter] at hk
    exact ⟨hk, fun level hmem _ => hlevels ▸ hmem⟩

theorem Keeps.refl (t : Tokenizer) : Keeps t t := keeps_of_same (.refl _) rfl rfl rfl

theorem keeps_push (t : Tokenizer) (token : Token) (mark : Mark) : Keeps t (t.push token mark) :=
  keeps_of_same (.refl _) rfl rfl rfl

theorem keeps_pushBefore (t : Tokenizer) (number : Nat) (token : Token) (mark : Mark) :
    Keeps t (t.pushBefore number token mark) :=
  keeps_of_same (.refl _) rfl rfl rfl

theorem keeps_allowKey (t : Tokenizer) (allowed : Bool) : Keeps t (t.allowKey allowed) :=
  keeps_of_same (.refl _) rfl rfl rfl

theorem keeps_moveTo {t : Tokenizer} {c : Cursor} (h : Leads t.cursor c) : Keeps t (t.moveTo c) :=
  keeps_of_same h rfl rfl rfl

/-- Fewer levels and no other candidate. -/
theorem keeps_levels {t : Tokenizer} {levels : List Level}
    (hnested : IsNested t.levels → IsNested levels)
    (hmem : ∀ level ∈ levels, level.block = true → level ∈ t.levels) :
    Keeps t { t with levels } where
  leads := .refl _
  nested := hnested
  ground := fun _ hk => ⟨hk, hmem⟩

theorem keeps_closeTo (t : Tokenizer) (column : Nat) : Keeps t (t.closeTo column) := by
  have hlevels : Keeps t { t with levels := Layout.closeTo column t.levels } :=
    keeps_levels (isNested_closeTo column) fun level hmem _ =>
      (List.dropWhile_sublist _).subset hmem
  unfold Tokenizer.closeTo
  split
  · exact .refl t
  · exact hlevels.trans (keeps_of_same (.refl _) rfl rfl rfl)

theorem keeps_addProvisional (t : Tokenizer) : Keeps t t.addProvisional := by
  unfold Tokenizer.addProvisional
  split
  · exact .refl t
  · exact keeps_levels isNested_addProvisional fun _ hmem hblock =>
      mem_of_addProvisional hmem hblock

theorem keeps_dropProvisional (t : Tokenizer) : Keeps t t.dropProvisional :=
  keeps_levels isNested_dropProvisional fun _ hmem _ => (List.dropWhile_sublist _).subset hmem

/-- A block collection opens only where no candidate is left outside flow collections. -/
theorem keeps_indent {t : Tokenizer} (hcandidate : t.candidate = none) (column : Nat)
    (number : Option Nat) (token : Token) (mark : Mark) :
    Keeps t (t.indent column number token mark) := by
  simp only [Tokenizer.indent]
  split
  · exact .refl t
  · rename_i hflow
    have houter : t.outer = [] := by simpa [inFlow] using hflow
    have hlevels : Keeps t { t with levels := (Layout.indent column t.levels).1 } :=
      ⟨.refl _, isNested_indent column, fun k hk => by
        simp [Tokenizer.ground, hcandidate, houter] at hk⟩
    split
    · split
      · exact hlevels.trans (keeps_of_same (.refl _) rfl rfl rfl)
      · exact hlevels.trans (keeps_push _ _ _)
    · exact hlevels

theorem keeps_withoutCandidate (t : Tokenizer) : Keeps t { t with candidate := none } where
  leads := .refl _
  nested := id
  ground := by
    intro k hk
    refine ⟨?_, fun level hmem _ => hmem⟩
    -- What is dropped is the candidate outside flow collections, or it is not.
    cases hlast : t.outer.getLast? with
    | none => simp [Tokenizer.ground, hlast] at hk
    | some last => simpa [Tokenizer.ground, hlast] using hk

/-- A candidate that may be dropped is gone, and that is all. -/
theorem eq_of_dropCandidate {t t' : Tokenizer} (h : t.dropCandidate = .ok t') :
    t' = { t with candidate := none } := by
  unfold dropCandidate at h
  split at h
  · simp at h
  · simp only [Except.ok.injEq] at h
    exact h.symm

theorem keeps_dropCandidate {t t' : Tokenizer} (h : t.dropCandidate = .ok t') : Keeps t t' :=
  eq_of_dropCandidate h ▸ keeps_withoutCandidate t

/-- It makes no difference whether a candidate is dropped before a collection opens or behind. -/
theorem withoutCandidate_indent (t : Tokenizer) (column : Nat) (number : Option Nat)
    (token : Token) (mark : Mark) :
    { t.indent column number token mark with candidate := none } =
      Tokenizer.indent { t with candidate := none } column number token mark := by
  cases hflow : t.outer.isEmpty with
  | false => simp [Tokenizer.indent, inFlow, hflow]
  | true =>
    cases hopen : (Layout.indent column t.levels).2 <;> cases number <;>
      simp [Tokenizer.indent, inFlow, hflow, hopen, push, pushBefore]

theorem withoutCandidate_addProvisional (t : Tokenizer) :
    { t.addProvisional with candidate := none } =
      Tokenizer.addProvisional { t with candidate := none } := by
  cases hflow : t.outer.isEmpty <;> simp [Tokenizer.addProvisional, inFlow, hflow]

theorem keeps_dropStale {t t' : Tokenizer} (h : t.dropStale = .ok t') : Keeps t t' := by
  unfold dropStale at h
  split at h
  · simp only [Except.ok.injEq] at h
    exact h ▸ .refl t
  · split at h
    · split at h
      · simp at h
      · simp only [Except.ok.injEq] at h
        exact h ▸ keeps_withoutCandidate t
    · simp only [Except.ok.injEq] at h
      exact h ▸ .refl t

theorem keeps_enterFlow (t : Tokenizer) (keyAllowed inMapping : Bool) :
    Keeps t { t with
      candidate := none, outer := t.candidate :: t.outer, keyAllowed, inMapping } where
  leads := .refl _
  nested := id
  ground := by
    intro k hk
    refine ⟨?_, fun level hmem _ => hmem⟩
    simpa [Tokenizer.ground, List.getLast?_cons] using hk

theorem keeps_leaveFlow (t : Tokenizer) : Keeps t t.leaveFlow := by
  unfold leaveFlow
  split
  · exact .refl t
  · rename_i candidate outer houter
    refine ⟨.refl _, id, fun k hk => ⟨?_, fun level hmem _ => hmem⟩⟩
    simpa [Tokenizer.ground, houter, List.getLast?_cons] using hk

theorem keeps_separate {t t' : Tokenizer} (h : t.separate = .ok t') : Keeps t t' := by
  simp only [separate, bind_eq_ok, pure_eq_ok, Except.ok.injEq] at h
  rcases h with ⟨⟨c, broken⟩, hc, rfl⟩
  exact keeps_of_same (leads_separation hc) rfl rfl rfl

theorem keeps_passSign {t t' : Tokenizer} (h : t.passSign = .ok t') : Keeps t t' := by
  simp only [passSign, bind_eq_ok, pure_eq_ok, Except.ok.injEq] at h
  rcases h with ⟨c, hc, rfl⟩
  exact keeps_moveTo ((leads_advance _ 1).trans (leads_lineRest hc))

theorem keeps_endPair (t : Tokenizer) : Keeps t t.endPair := by
  unfold endPair
  split
  · exact keeps_of_same (.refl _) rfl rfl rfl
  · exact .refl t

theorem keeps_endDocument {t t' : Tokenizer} (h : t.endDocument = .ok t') : Keeps t t' := by
  simp only [endDocument, bind_eq_ok, pure_eq_ok, Except.ok.injEq] at h
  rcases h with ⟨t₁, h₁, rfl⟩
  exact ((keeps_closeTo t 0).trans (keeps_dropCandidate h₁)).trans
    (keeps_allowKey t₁ false)

/-! ### Tokens -/

/-- Behind the last line nothing is read. -/
theorem leads_afterLastLine (c : Cursor) : Leads c (afterLastLine c) := by
  unfold afterLastLine
  split
  · exact .refl c
  · exact ⟨Nat.le_refl _, by simp [Cursor.left], .inl (by simp)⟩

theorem keeps_streamEnd {t t' : Tokenizer} (h : t.streamEnd = .ok t') : Keeps t t' := by
  simp only [streamEnd] at h
  split at h
  · simp at h
  · simp only [bind_eq_ok, pure_eq_ok, Except.ok.injEq] at h
    rcases h with ⟨t₁, h₁, rfl⟩
    refine (keeps_moveTo (leads_afterLastLine t.cursor)).trans (Keeps.trans ?_
      ((keeps_endDocument h₁).trans (keeps_of_same (.refl _) rfl rfl rfl)))
    -- Every candidate is dropped, the one outside flow collections among them.
    refine ⟨.refl _, id, fun k hk => ?_⟩
    simp only [Tokenizer.ground, moveTo, List.getLast?_map] at hk
    cases hlast : t.outer.getLast? <;> simp [hlast] at hk

theorem keeps_directive {t t' : Tokenizer} (h : t.directive = .ok t') : Keeps t t' := by
  simp only [directive, bind_eq_ok, pure_eq_ok, Except.ok.injEq] at h
  rcases h with ⟨t₁, h₁, ⟨d, c⟩, hc, rfl⟩
  exact (keeps_endDocument h₁).trans
    ((keeps_moveTo (Directive.leads_readDirective hc)).trans (keeps_push _ _ _))

theorem keeps_documentMark {t t' : Tokenizer} {token : Token}
    (h : t.documentMark token = .ok t') : Keeps t t' := by
  simp only [documentMark, bind_eq_ok, pure_eq_ok, Except.ok.injEq] at h
  rcases h with ⟨t₁, h₁, rfl⟩
  exact (keeps_endDocument h₁).trans ((keeps_moveTo (leads_advance _ 3)).trans (keeps_push _ _ _))

theorem keeps_documentEnd {t t' : Tokenizer} (h : t.documentEnd = .ok t') : Keeps t t' := by
  simp only [documentEnd, bind_eq_ok] at h
  rcases h with ⟨t₁, h₁, c, hc, h⟩
  split at h
  · simp only [pure_eq_ok, Except.ok.injEq] at h
    exact h ▸ (keeps_documentMark h₁).trans (keeps_moveTo (leads_lineRest hc))
  · simp at h

theorem keeps_flowStart {t t' : Tokenizer} {token : Token} (h : t.flowStart token = .ok t') :
    Keeps t.saveCandidate t' := by
  simp only [flowStart] at h
  split at h
  · simp at h
  · simp only [bind_eq_ok, pure_eq_ok, Except.ok.injEq] at h
    rcases h with ⟨t₁, h₁, rfl⟩
    exact (keeps_addProvisional _).trans ((keeps_enterFlow _ true _).trans
      ((keeps_passSign h₁).trans (keeps_push _ _ _)))

theorem keeps_flowEnd {t t' : Tokenizer} {token : Token} (h : t.flowEnd token = .ok t') :
    Keeps t t' := by
  simp only [flowEnd, bind_eq_ok, pure_eq_ok, Except.ok.injEq] at h
  rcases h with ⟨t₁, h₁, t₂, h₂, rfl⟩
  refine ((keeps_dropCandidate h₁).trans (keeps_leaveFlow t₁)).trans
    ((keeps_allowKey _ false).trans ((keeps_endPair _).trans ((keeps_passSign h₂).trans ?_)))
  exact keeps_of_same (.refl _) rfl rfl rfl

theorem keeps_flowEntry {t t' : Tokenizer} (h : t.flowEntry = .ok t') : Keeps t t' := by
  simp only [flowEntry, bind_eq_ok, pure_eq_ok, Except.ok.injEq] at h
  rcases h with ⟨t₁, h₁, t₂, h₂, rfl⟩
  exact (keeps_dropCandidate h₁).trans ((keeps_allowKey t₁ true).trans
    ((keeps_endPair _).trans ((keeps_passSign h₂).trans (keeps_push _ _ _))))

theorem keeps_blockEntryAt {t t' : Tokenizer} {c : Cursor} (hc : Leads t.cursor c)
    (h : t.blockEntryAt c = .ok t') : Keeps t t' := by
  simp only [blockEntryAt, bind_eq_ok, pure_eq_ok, Except.ok.injEq] at h
  rcases h with ⟨t₁, h₁, rfl⟩
  -- The candidate is dropped after the collection opens; it might as well be dropped first.
  have hopen : Keeps t ((Tokenizer.indent { t with candidate := none } t.mark.column none
      .blockSequenceStart t.mark).moveTo c) :=
    ((keeps_withoutCandidate t).trans (keeps_indent rfl _ _ _ _)).trans
      (keeps_moveTo (by simpa using hc))
  rw [← withoutCandidate_indent] at hopen
  have hdrop : Keeps t t₁ := by
    rw [eq_of_dropCandidate h₁]
    split
    · rw [withoutCandidate_addProvisional]
      exact hopen.trans (keeps_addProvisional _)
    · exact hopen
  exact hdrop.trans ((keeps_allowKey t₁ true).trans (keeps_push _ _ _))

theorem keeps_blockEntry {t t' : Tokenizer} (h : t.blockEntry = .ok t') : Keeps t t' := by
  unfold blockEntry at h
  split at h
  · simp at h
  · split at h
    · simp at h
    · simp only [bind_eq_ok] at h
      rcases h with ⟨_, _, c, hc, h⟩
      split at h
      · simp at h
      · exact keeps_blockEntryAt ((leads_advance _ 1).trans (leads_lineRest hc)) h

theorem keeps_explicitKey {t t' : Tokenizer} (h : t.explicitKey = .ok t') : Keeps t t' := by
  simp only [explicitKey] at h
  split at h
  · simp at h
  · simp only [bind_eq_ok, pure_eq_ok, Except.ok.injEq] at h
    rcases h with ⟨t₁, h₁, c, hc, rfl⟩
    have hopen : Keeps t (Tokenizer.indent { t with candidate := none } t.mark.column none
        .blockMappingStart t.mark) :=
      (keeps_withoutCandidate t).trans (keeps_indent rfl _ _ _ _)
    rw [← withoutCandidate_indent] at hopen
    have ht₁ := eq_of_dropCandidate h₁
    have hcursor : Leads t₁.cursor c := (leads_advance _ 1).trans (leads_keySeparation hc)
    refine hopen.trans (keeps_of_same ?_ ?_ ?_ ?_)
    · exact (ht₁ ▸ hcursor : Leads _ c)
    all_goals rw [ht₁]; rfl

theorem leads_passColon {c c' : Cursor} (h : passColon c = .ok c') : Leads c c' := by
  simp only [passColon] at h
  split at h
  · simp only [bind_eq_ok] at h
    rcases h with ⟨c₁, h₁, h⟩
    split at h
    · simp at h
    · simp only [pure_eq_ok, Except.ok.injEq] at h
      exact h ▸ (leads_advance c 1).trans (leads_lineRest h₁)
  · simp only [Except.ok.injEq] at h
    exact h ▸ leads_advance c 1

theorem keeps_startPair {t t' : Tokenizer} {k : Candidate} {colon : Mark}
    (h : t.startPair k colon = .ok t') : Keeps t t' := by
  unfold startPair at h
  split at h
  · split at h
    · simp at h
    · simp only [Except.ok.injEq] at h
      exact h ▸ keeps_of_same (.refl _) rfl rfl rfl
  · simp only [Except.ok.injEq] at h
    exact h ▸ .refl t

theorem keeps_valueOf {t t' : Tokenizer} {k : Candidate} {colon : Mark}
    (h : t.valueOf k colon = .ok t') : Keeps t t' := by
  simp only [valueOf, bind_eq_ok, pure_eq_ok, Except.ok.injEq] at h
  rcases h with ⟨t₁, h₁, rfl⟩
  have hkey : Keeps t { t₁ with candidate := none } :=
    (keeps_pushBefore t k.number .key k.mark).trans
      ((keeps_startPair h₁).trans (keeps_withoutCandidate t₁))
  have hopen : Keeps t (Tokenizer.indent { t₁ with candidate := none } k.mark.column
      (some k.number) .blockMappingStart colon).addProvisional :=
    hkey.trans ((keeps_indent rfl _ _ _ _).trans (keeps_addProvisional _))
  rw [← withoutCandidate_indent, ← withoutCandidate_addProvisional] at hopen
  exact hopen.trans ((keeps_allowKey _ false).trans (keeps_push _ _ _))

theorem keeps_valueAlone {t t' : Tokenizer} {colon : Mark} (hcandidate : t.candidate = none)
    (h : t.valueAlone colon = .ok t') : Keeps t t' := by
  unfold valueAlone at h
  split at h
  · simp at h
  · simp only [Except.ok.injEq] at h
    have hpair : Keeps t t.startKeylessPair ∧ t.startKeylessPair.candidate = none := by
      unfold startKeylessPair
      split
      · exact ⟨keeps_push _ _ _, hcandidate⟩
      · exact ⟨.refl t, hcandidate⟩
    rw [← h]
    exact (hpair.1.trans (keeps_indent hpair.2 _ _ _ _)).trans
      ((keeps_addProvisional _).trans ((keeps_allowKey _ _).trans (keeps_push _ _ _)))

theorem keeps_value {t t' : Tokenizer} (h : t.value = .ok t') : Keeps t t' := by
  simp only [value, bind_eq_ok] at h
  rcases h with ⟨c, hc, h⟩
  have hmove : Keeps t { t with cursor := c, inPair := t.inFlow && !t.inMapping } :=
    keeps_of_same (leads_passColon hc) rfl rfl rfl
  split at h
  · exact hmove.trans (keeps_valueOf h)
  · exact hmove.trans (keeps_valueAlone ‹_› h)

theorem keeps_named {t t' : Tokenizer} {token : String → Token} (h : t.named token = .ok t') :
    Keeps t.saveCandidate t' := by
  simp only [named, bind_eq_ok, pure_eq_ok, Except.ok.injEq] at h
  rcases h with ⟨⟨name, c⟩, hc, rfl⟩
  exact keeps_of_same (by simpa using Property.leads_readName hc) rfl rfl rfl

theorem keeps_tag {t t' : Tokenizer} (h : t.tag = .ok t') : Keeps t.saveCandidate t' := by
  simp only [tag, bind_eq_ok, pure_eq_ok, Except.ok.injEq] at h
  rcases h with ⟨⟨tag, c⟩, hc, rfl⟩
  exact keeps_of_same (by simpa using Property.leads_readTag hc) rfl rfl rfl

theorem keeps_blockScalar {t t' : Tokenizer} {style : ScalarStyle}
    (h : t.blockScalar style = .ok t') : Keeps t.saveCandidate t' := by
  simp only [blockScalar, bind_eq_ok, pure_eq_ok, Except.ok.injEq] at h
  rcases h with ⟨scalar, hscalar, rfl⟩
  refine (keeps_dropProvisional _).trans (keeps_of_same ?_ rfl rfl rfl)
  simpa using (Block.leads_readBlock hscalar).leads

theorem keeps_quotedScalar {t t' : Tokenizer} {quotes : Quoted.Quotes} {style : ScalarStyle}
    (h : t.quotedScalar quotes style = .ok t') : Keeps t.saveCandidate t' := by
  simp only [quotedScalar, bind_eq_ok] at h
  rcases h with ⟨⟨text, closed⟩, hclosed, behind, hbehind, h⟩
  have hlead : Leads t.cursor behind :=
    (leads_advance _ 1).trans ((Quoted.leads_readQuoted hclosed).trans (leads_lineRest hbehind))
  split at h
  · simp only [bind_eq_ok, pure_eq_ok, Except.ok.injEq] at h
    rcases h with ⟨t₁, h₁, rfl⟩
    have hmove : Keeps t.saveCandidate ((t.saveCandidate.allowKey false).moveTo behind) :=
      keeps_of_same (by simpa using hlead) rfl rfl rfl
    exact hmove.trans ((keeps_separate h₁).trans (keeps_of_same (.refl _) rfl rfl rfl))
  · simp at h

theorem keeps_plainScalar {t t' : Tokenizer} (h : t.plainScalar = .ok t') :
    Keeps t.saveCandidate t' := by
  simp only [plainScalar] at h
  split at h
  · simp at h
  · split at h
    · simp at h
    · simp only [bind_eq_ok, pure_eq_ok, Except.ok.injEq] at h
      rcases h with ⟨⟨text, c⟩, hc, rfl⟩
      refine (keeps_dropProvisional _).trans (keeps_of_same ?_ rfl rfl rfl)
      simpa using (leads_advance t.cursor 1).trans (Plain.leads_readPlain hc)

/-- Reading a token keeps what is there, or what is there with a candidate more. -/
theorem keeps_token {t t' : Tokenizer} (h : t.token = .ok t') :
    Keeps t t' ∨ Keeps t.saveCandidate t' := by
  unfold token at h
  split at h
  · exact .inl (keeps_streamEnd h)
  · exact .inl (keeps_directive h)
  · exact .inl (keeps_documentMark h)
  · exact .inl (keeps_documentEnd h)
  · exact .inr (keeps_flowStart h)
  · exact .inl (keeps_flowEnd h)
  · exact .inl (keeps_flowEntry h)
  · exact .inl (keeps_blockEntry h)
  · exact .inl (keeps_explicitKey h)
  · exact .inl (keeps_value h)
  · exact .inr (keeps_named h)
  · exact .inr (keeps_named h)
  · exact .inr (keeps_tag h)
  · exact .inr (keeps_blockScalar h)
  · exact .inr (keeps_quotedScalar h)
  · exact .inr (keeps_plainScalar h)
  · simp at h

/-! ### Rounds -/

/-- A candidate that is remembered outside flow collections stands where it is, and the open
    collections end to the left of it or there. -/
theorem isAligned_saveCandidate {t : Tokenizer} (ht : t.IsAligned)
    (hmargin : t.inFlow = false → t.margin ≤ t.mark.column + 1) : t.saveCandidate.IsAligned := by
  unfold saveCandidate
  split
  · cases hlast : t.outer.getLast? with
    | none =>
      have houter : t.outer = [] := List.getLast?_eq_none_iff.mp hlast
      have hlevels := column_le_of_margin ht.nested (hmargin (by simp [inFlow, houter]))
      refine ⟨ht.nested, fun k hk level hmem _ => ?_, fun k hk => .inr ?_⟩
      · simp only [Tokenizer.ground, hlast, Option.getD_none, Option.some.injEq] at hk
        rw [← hk]
        exact hlevels level hmem
      · simp only [Tokenizer.ground, hlast, Option.getD_none, Option.some.injEq] at hk
        rw [← hk]
        exact ⟨rfl, Nat.le_refl _⟩
    | some last =>
      -- Inside a flow collection the candidate outside is another one.
      refine isAligned_of_keeps (t := t) ⟨.refl _, id, fun k hk => ⟨?_, fun _ hmem _ => hmem⟩⟩ ht
      simpa [Tokenizer.ground, hlast] using hk
  · exact ht

theorem isAligned_token {t t' : Tokenizer} (h : t.token = .ok t') (ht : t.IsAligned)
    (hmargin : t.inFlow = false → t.margin ≤ t.mark.column + 1) : t'.IsAligned := by
  rcases keeps_token h with hkeeps | hkeeps
  · exact isAligned_of_keeps hkeeps ht
  · exact isAligned_of_keeps hkeeps (isAligned_saveCandidate ht hmargin)

/-- In front of a token, as many collections have ended as have to. -/
theorem margin_closeTo {t : Tokenizer} (hflow : t.inFlow = false) (column : Nat) :
    (t.closeTo column).margin ≤ column := by
  rw [margin, Tokenizer.closeTo, hflow]
  exact margin_closeTo_le column t.levels

/-- No block collection ends behind a candidate that is not stale. -/
theorem queue_closeTo_of_candidate {t : Tokenizer} (ht : t.IsAligned) {k : Candidate}
    (hk : t.candidate = some k) (hstale : k.isStale t.mark = false) :
    (t.closeTo (t.mark.column + 1)).queue = t.queue := by
  unfold Tokenizer.closeTo
  split
  · rfl
  · rename_i hflow
    have houter : t.outer = [] := by simpa [inFlow] using hflow
    have hground : t.ground = some k := by simp [Tokenizer.ground, houter, hk]
    have hplace := ht.place k hground
    simp only [Candidate.isStale, Bool.or_eq_false_iff, decide_eq_false_iff_not] at hstale
    have hnone : closedTo (t.mark.column + 1) t.levels = 0 := by
      refine closedTo_eq_zero fun level hmem hblock => ?_
      have := ht.column_le k hground level hmem hblock
      omega
    simp [hnone]

end Tokenizer

end Yaml

end YamlLocator
