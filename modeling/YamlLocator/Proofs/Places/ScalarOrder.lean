import YamlLocator.Proofs.Offsets
import YamlLocator.Proofs.Places.Events
import YamlLocator.Proofs.TokenOrder.Alignment

/-!
# Scalars in the Order of Reading

Whatever has become of its marks, the reader goes on, and its marks go on with it. A scalar is
marked with the place that the reader is at when it comes to that scalar, or with one behind it. All
other tokens that are put into the queue, be it at the back or in front of a key, are no scalars. So
the scalars that are read from some state on are marked in front of nothing that has been read
before.

That is all that can be said behind a block scalar with characters of several bytes, and it is
enough to say that it does no harm to what is in front of it.

## Main definitions

* `Tokenizer.scalars`: The scalars in the queue.
* `Tokenizer.Follow`: More scalars than before, none of them marked in front of a place.
* `Tokenizer.Proceeds`: Scalars are read and marks grow.
* `Text.IsBehindWide`: A mark behind a block scalar with characters of several bytes.
* `Text.IsNarrowBefore`: There is no such scalar in front of an offset.

## Theorems

* `Tokenizer.follow_token`: A scalar that is read is not marked in front of the reader.
* `Tokenizer.proceeds_of_runs`: What is handed out by some steps, and what is in the queue then.
* `Document.begins_of_events`: A scalar begins at its mark, or behind a wide block scalar.
-/

namespace YamlLocator

namespace Yaml

namespace Tokenizer

variable {t t' : Tokenizer}

/-- The scalars in the queue. -/
def scalars (t : Tokenizer) : List (Placed Token) := t.queue.filter (·.item.isScalar)

/-! ### What adds no scalar -/

theorem scalars_push {token : Token} (hscalar : token.isScalar = false) (m : Mark) :
    (t.push token m).scalars = t.scalars := by
  simp [scalars, push, hscalar]

theorem scalars_push_scalar (t : Tokenizer) (style : ScalarStyle) (value : String) (m : Mark) :
    (t.push (.scalar style value) m).scalars = t.scalars ++ [⟨.scalar style value, m⟩] := by
  simp [scalars, push, Token.isScalar]

/-- What is put into a list does not show among the elements of another kind. -/
theorem filter_insertIdx {α : Type} {p : α → Bool} {a : α} (ha : p a = false) (i : Nat)
    (l : List α) : (l.insertIdx i a).filter p = l.filter p := by
  induction i generalizing l with
  | zero => exact List.filter_cons_of_neg (by simp [ha])
  | succ i ih =>
    cases l with
    | nil => rfl
    | cons first rest => simp only [List.insertIdx_succ_cons, List.filter_cons, ih]

theorem scalars_pushBefore (number : Nat) {token : Token} (hscalar : token.isScalar = false)
    (m : Mark) : (t.pushBefore number token m).scalars = t.scalars :=
  filter_insertIdx (p := fun p : Placed Token => p.item.isScalar) hscalar _ _

@[simp]
theorem scalars_moveTo (t : Tokenizer) (c : Cursor) : (t.moveTo c).scalars = t.scalars := rfl

@[simp]
theorem scalars_allowKey (t : Tokenizer) (allowed : Bool) :
    (t.allowKey allowed).scalars = t.scalars := rfl

@[simp]
theorem scalars_dropProvisional (t : Tokenizer) : t.dropProvisional.scalars = t.scalars := rfl

@[simp]
theorem scalars_withoutCandidate (t : Tokenizer) :
    { t with candidate := none }.scalars = t.scalars := rfl

@[simp]
theorem scalars_saveCandidate (t : Tokenizer) : t.saveCandidate.scalars = t.scalars := by
  unfold saveCandidate
  split <;> rfl

@[simp]
theorem scalars_addProvisional (t : Tokenizer) : t.addProvisional.scalars = t.scalars := by
  unfold addProvisional
  split <;> rfl

@[simp]
theorem scalars_leaveFlow (t : Tokenizer) : t.leaveFlow.scalars = t.scalars := by
  unfold leaveFlow
  split <;> rfl

@[simp]
theorem scalars_closeTo (t : Tokenizer) (column : Nat) :
    (t.closeTo column).scalars = t.scalars := by
  unfold closeTo
  split
  · rfl
  · simp [scalars, Token.isScalar]

@[simp]
theorem scalars_endPair (t : Tokenizer) : t.endPair.scalars = t.scalars := by
  unfold endPair
  split
  · exact scalars_push rfl _
  · rfl

@[simp]
theorem scalars_startKeylessPair (t : Tokenizer) : t.startKeylessPair.scalars = t.scalars := by
  unfold startKeylessPair
  split
  · exact scalars_push rfl _
  · rfl

theorem scalars_indent (column : Nat) (number : Option Nat) {token : Token}
    (hscalar : token.isScalar = false) (m : Mark) :
    (t.indent column number token m).scalars = t.scalars := by
  simp only [indent]
  split
  · rfl
  · split
    · cases number with
      | some number => exact scalars_pushBefore number hscalar m
      | none => exact scalars_push hscalar m
    · rfl

theorem scalars_dropStale (h : t.dropStale = .ok t') : t'.scalars = t.scalars := by
  rw [eq_of_dropStale h, scalars, scalars]

theorem scalars_dropCandidate (h : t.dropCandidate = .ok t') : t'.scalars = t.scalars := by
  unfold dropCandidate at h
  split at h
  · simp at h
  · simp only [Except.ok.injEq] at h
    rw [← h, scalars_withoutCandidate]

theorem scalars_separate (h : t.separate = .ok t') : t'.scalars = t.scalars := by
  simp only [separate, bind_eq_ok, pure_eq_ok, Except.ok.injEq] at h
  rcases h with ⟨⟨c, broken⟩, -, rfl⟩
  rfl

theorem scalars_passSign (h : t.passSign = .ok t') : t'.scalars = t.scalars := by
  simp only [passSign, bind_eq_ok, pure_eq_ok, Except.ok.injEq] at h
  rcases h with ⟨c, -, rfl⟩
  rfl

theorem scalars_endDocument (h : t.endDocument = .ok t') : t'.scalars = t.scalars := by
  simp only [endDocument, bind_eq_ok, pure_eq_ok, Except.ok.injEq] at h
  rcases h with ⟨t₁, h₁, rfl⟩
  rw [scalars_allowKey, scalars_dropCandidate h₁, scalars_closeTo]

theorem scalars_streamEnd (h : t.streamEnd = .ok t') : t'.scalars = t.scalars := by
  rw [streamEnd_eq] at h
  split at h
  · simp at h
  · simp only [Except.ok.injEq] at h
    rw [← h]
    have hpush : (((t.atLast.closeTo 0).allowKey false).push .streamEnd
        (t.atLast.closeTo 0).mark).scalars = t.scalars := by
      rw [scalars_push rfl, scalars_allowKey, scalars_closeTo]
      rfl
    exact hpush

theorem scalars_directive (h : t.directive = .ok t') : t'.scalars = t.scalars := by
  simp only [directive, bind_eq_ok, pure_eq_ok, Except.ok.injEq] at h
  rcases h with ⟨t₁, h₁, ⟨directive, c⟩, -, rfl⟩
  rw [scalars_push rfl, scalars_moveTo, scalars_endDocument h₁]

theorem scalars_documentMark {token : Token} (hscalar : token.isScalar = false)
    (h : t.documentMark token = .ok t') : t'.scalars = t.scalars := by
  simp only [documentMark, bind_eq_ok, pure_eq_ok, Except.ok.injEq] at h
  rcases h with ⟨t₁, h₁, rfl⟩
  rw [scalars_push hscalar, scalars_moveTo, scalars_endDocument h₁]

theorem scalars_documentEnd (h : t.documentEnd = .ok t') : t'.scalars = t.scalars := by
  simp only [documentEnd, bind_eq_ok] at h
  rcases h with ⟨t₁, h₁, c, -, h⟩
  split at h
  · simp only [pure_eq_ok, Except.ok.injEq] at h
    rw [← h, scalars_moveTo, scalars_documentMark rfl h₁]
  · simp at h

theorem scalars_flowStart {token : Token} (hscalar : token.isScalar = false)
    (h : t.flowStart token = .ok t') : t'.scalars = t.scalars := by
  simp only [flowStart] at h
  split at h
  · simp at h
  · simp only [bind_eq_ok, pure_eq_ok, Except.ok.injEq] at h
    rcases h with ⟨t₁, h₁, rfl⟩
    rw [scalars_push hscalar, scalars_passSign h₁]
    exact (scalars_addProvisional _).trans (scalars_saveCandidate t)

theorem scalars_flowEnd {token : Token} (hscalar : token.isScalar = false)
    (h : t.flowEnd token = .ok t') : t'.scalars = t.scalars := by
  simp only [flowEnd, bind_eq_ok, pure_eq_ok, Except.ok.injEq] at h
  rcases h with ⟨t₁, h₁, t₂, h₂, rfl⟩
  have hended : t₂.scalars = t.scalars := by
    rw [scalars_passSign h₂, scalars_endPair, scalars_allowKey, scalars_leaveFlow,
      scalars_dropCandidate h₁]
  rw [scalars_push hscalar]
  exact hended

theorem scalars_flowEntry (h : t.flowEntry = .ok t') : t'.scalars = t.scalars := by
  simp only [flowEntry, bind_eq_ok, pure_eq_ok, Except.ok.injEq] at h
  rcases h with ⟨t₁, h₁, t₂, h₂, rfl⟩
  rw [scalars_push rfl, scalars_passSign h₂, scalars_endPair, scalars_allowKey,
    scalars_dropCandidate h₁]

theorem scalars_blockEntryAt {c : Cursor} (h : t.blockEntryAt c = .ok t') :
    t'.scalars = t.scalars := by
  simp only [blockEntryAt, bind_eq_ok, pure_eq_ok, Except.ok.injEq] at h
  rcases h with ⟨t₁, h₁, rfl⟩
  rw [scalars_push rfl, scalars_allowKey, scalars_dropCandidate h₁]
  split
  · rw [scalars_addProvisional, scalars_moveTo, scalars_indent _ _ rfl]
  · rw [scalars_moveTo, scalars_indent _ _ rfl]

theorem scalars_blockEntry (h : t.blockEntry = .ok t') : t'.scalars = t.scalars := by
  unfold blockEntry at h
  split at h
  · simp at h
  · split at h
    · simp at h
    · simp only [bind_eq_ok] at h
      rcases h with ⟨-, -, c, -, h⟩
      split at h
      · simp at h
      · exact scalars_blockEntryAt h

theorem scalars_explicitKey (h : t.explicitKey = .ok t') : t'.scalars = t.scalars := by
  simp only [explicitKey] at h
  split at h
  · simp at h
  · simp only [bind_eq_ok, pure_eq_ok, Except.ok.injEq] at h
    rcases h with ⟨t₁, h₁, c, -, rfl⟩
    rw [scalars_push rfl, scalars_moveTo, scalars_allowKey, scalars_dropCandidate h₁]
    exact scalars_indent _ _ rfl _

theorem scalars_startPair {k : Candidate} {colon : Mark} (h : t.startPair k colon = .ok t') :
    t'.scalars = t.scalars := by
  unfold startPair at h
  split at h
  · split at h
    · simp at h
    · simp only [Except.ok.injEq] at h
      rw [← h, scalars_pushBefore _ rfl]
  · simp only [Except.ok.injEq] at h
    rw [h]

theorem scalars_valueOf {k : Candidate} {colon : Mark} (h : t.valueOf k colon = .ok t') :
    t'.scalars = t.scalars := by
  simp only [valueOf, bind_eq_ok, pure_eq_ok, Except.ok.injEq] at h
  rcases h with ⟨t₁, h₁, rfl⟩
  rw [scalars_push rfl, scalars_allowKey, scalars_withoutCandidate, scalars_addProvisional,
    scalars_indent _ _ rfl, scalars_startPair h₁, scalars_pushBefore _ rfl]

theorem scalars_valueAlone {colon : Mark} (h : t.valueAlone colon = .ok t') :
    t'.scalars = t.scalars := by
  simp only [valueAlone] at h
  split at h
  · simp at h
  · simp only [Except.ok.injEq] at h
    rw [← h, scalars_push rfl, scalars_allowKey, scalars_addProvisional, scalars_indent _ _ rfl,
      scalars_startKeylessPair]

theorem scalars_value (h : t.value = .ok t') : t'.scalars = t.scalars := by
  simp only [value, bind_eq_ok] at h
  rcases h with ⟨c, -, h⟩
  split at h
  · rw [scalars_valueOf h]
    rfl
  · rw [scalars_valueAlone h]
    rfl

theorem scalars_named {token : String → Token} (hscalar : ∀ name, (token name).isScalar = false)
    (h : t.named token = .ok t') : t'.scalars = t.scalars := by
  simp only [named, bind_eq_ok, pure_eq_ok, Except.ok.injEq] at h
  rcases h with ⟨⟨name, c⟩, -, rfl⟩
  rw [scalars_push (hscalar name), scalars_moveTo, scalars_allowKey, scalars_saveCandidate]

theorem scalars_tag (h : t.tag = .ok t') : t'.scalars = t.scalars := by
  simp only [tag, bind_eq_ok, pure_eq_ok, Except.ok.injEq] at h
  rcases h with ⟨⟨tag, c⟩, -, rfl⟩
  rw [scalars_push rfl, scalars_moveTo, scalars_allowKey, scalars_saveCandidate]

/-! ### What is read -/

/-- More scalars than before, and none of those that are new is marked in front of a place. -/
def Follow (start : Nat) (scalars scalars' : List (Placed Token)) : Prop :=
  ∃ more, scalars' = scalars ++ more ∧ ∀ p ∈ more, start ≤ p.mark.index

theorem follow_of_eq {start : Nat} {scalars scalars' : List (Placed Token)}
    (h : scalars' = scalars) : Follow start scalars scalars' :=
  ⟨[], by simp [h], by simp⟩

theorem follow_blockScalar {style : ScalarStyle} (h : t.blockScalar style = .ok t') :
    Follow t.mark.index t.scalars t'.scalars := by
  simp only [blockScalar, bind_eq_ok, pure_eq_ok, Except.ok.injEq] at h
  rcases h with ⟨scalar, hscalar, rfl⟩
  refine ⟨[⟨.scalar style (String.ofList scalar.text), scalar.mark⟩], ?_, fun p hp => ?_⟩
  · rw [scalars_push_scalar, scalars_moveTo, scalars_dropProvisional, scalars_allowKey,
      scalars_saveCandidate]
  · rw [List.mem_singleton.mp hp]
    exact (Block.leads_readBlock hscalar).start_le

theorem follow_quotedScalar {quotes : Quoted.Quotes} {style : ScalarStyle}
    (h : t.quotedScalar quotes style = .ok t') : Follow t.mark.index t.scalars t'.scalars := by
  simp only [quotedScalar, bind_eq_ok] at h
  rcases h with ⟨⟨value, closed⟩, -, behind, -, h⟩
  split at h
  · simp only [bind_eq_ok, pure_eq_ok, Except.ok.injEq] at h
    rcases h with ⟨t₁, h₁, rfl⟩
    refine ⟨[⟨.scalar style (String.ofList value.reverse), t.mark⟩], ?_, by simp⟩
    have hbehind : t₁.scalars = t.scalars := by
      rw [scalars_separate h₁, scalars_moveTo, scalars_allowKey, scalars_saveCandidate]
    rw [scalars_push_scalar, ← hbehind]
    rfl
  · simp at h

theorem follow_plainScalar (h : t.plainScalar = .ok t') :
    Follow t.mark.index t.scalars t'.scalars := by
  simp only [plainScalar] at h
  split at h
  · simp at h
  · split at h
    · simp at h
    · simp only [bind_eq_ok, pure_eq_ok, Except.ok.injEq] at h
      rcases h with ⟨⟨value, c⟩, -, rfl⟩
      refine ⟨[⟨.scalar .plain (String.ofList value.reverse), t.mark⟩], ?_, by simp⟩
      rw [scalars_push_scalar, scalars_allowKey, scalars_moveTo, scalars_dropProvisional,
        scalars_allowKey, scalars_saveCandidate]

/-- A token is at most one scalar more, and that is marked where the reader is or further on. -/
theorem follow_token (h : t.token = .ok t') : Follow t.mark.index t.scalars t'.scalars := by
  unfold token at h
  split at h
  · exact follow_of_eq (scalars_streamEnd h)
  · exact follow_of_eq (scalars_directive h)
  · exact follow_of_eq (scalars_documentMark rfl h)
  · exact follow_of_eq (scalars_documentEnd h)
  · rename_i hnext
    exact follow_of_eq (scalars_flowStart (isScalar_of_upcoming (.inl hnext)) h)
  · rename_i hnext
    exact follow_of_eq (scalars_flowEnd (isScalar_of_upcoming (.inr hnext)) h)
  · exact follow_of_eq (scalars_flowEntry h)
  · exact follow_of_eq (scalars_blockEntry h)
  · exact follow_of_eq (scalars_explicitKey h)
  · exact follow_of_eq (scalars_value h)
  · exact follow_of_eq (scalars_named (fun _ => rfl) h)
  · exact follow_of_eq (scalars_named (fun _ => rfl) h)
  · exact follow_of_eq (scalars_tag h)
  · exact follow_blockScalar h
  · exact follow_quotedScalar h
  · exact follow_plainScalar h
  · simp at h

/-- What is kept up while the reader goes on: its mark grows, and so do those of the scalars. -/
structure Proceeds (t : Tokenizer) (handed : List Delivered) (t' : Tokenizer) : Prop where
  mark_le : t.mark.index ≤ t'.mark.index
  follow : Follow t.mark.index t.scalars
    ((handed.map (·.toPlaced)).filter (·.item.isScalar) ++ t'.scalars)

theorem proceeds_round (h : t.round = .ok t') : Proceeds t [] t' := by
  simp only [round, bind_eq_ok] at h
  rcases h with ⟨t₁, h₁, t₂, h₂, h⟩
  have hscalars : (t₂.closeTo (t₂.mark.column + 1)).scalars = t.scalars := by
    rw [scalars_closeTo, scalars_dropStale h₂, scalars_separate h₁]
  have hle : t.mark.index ≤ (t₂.closeTo (t₂.mark.column + 1)).mark.index := by
    rw [mark_closeTo]
    exact ((keeps_separate h₁).trans (keeps_dropStale h₂)).leads.index_le
  rcases follow_token h with ⟨more, hmore, hplace⟩
  refine ⟨?_, more, by rw [hmore, hscalars]; rfl, fun p hp => Nat.le_trans hle (hplace p hp)⟩
  rcases keeps_token h with hkeeps | hkeeps
  · exact Nat.le_trans hle hkeeps.leads.index_le
  · exact Nat.le_trans hle (by simpa [mark] using hkeeps.leads.index_le)

theorem proceeds_step {r : Option Delivered × Tokenizer} (h : t.step = .ok r) :
    Proceeds t r.1.toList r.2 := by
  unfold step at h
  split at h
  · split at h
    · simp at h
    · simp only [bind_eq_ok, pure_eq_ok, Except.ok.injEq] at h
      rcases h with ⟨t₁, h₁, rfl⟩
      exact proceeds_round h₁
  · rename_i first rest hqueue
    simp only [bind_eq_ok] at h
    rcases h with ⟨t₁, h₁, h⟩
    have hle := (keeps_dropStale h₁).leads.index_le
    split at h
    · simp only [bind_eq_ok, pure_eq_ok, Except.ok.injEq] at h
      rcases h with ⟨t₂, h₂, rfl⟩
      rcases proceeds_round h₂ with ⟨hmark, more, hmore, hplace⟩
      rw [scalars_dropStale h₁] at hmore
      exact ⟨Nat.le_trans hle hmark, more, hmore, fun p hp => Nat.le_trans hle (hplace p hp)⟩
    · simp only [pure_eq_ok, Except.ok.injEq] at h
      rw [← h]
      refine ⟨hle, follow_of_eq ?_⟩
      have hfirst : t₁.queue = first :: rest := by rw [(measure_dropStale h₁).1, hqueue]
      rw [← scalars_dropStale h₁]
      simp only [scalars, withoutFirst, hfirst, List.tail_cons, Option.toList_some, List.map_cons,
        List.map_nil, ← List.filter_append, List.singleton_append]

/-- What some steps hand out and what is in the queue then are the scalars that were in the queue
    before, and behind them others that are not marked in front of the place where the reader
    was. -/
theorem proceeds_of_runs {tokens : List Delivered} (h : Runs t tokens t') :
    Proceeds t tokens t' := by
  induction h with
  | none t => exact ⟨Nat.le_refl _, follow_of_eq rfl⟩
  | more t t₁ t₂ found tokens hstep _ ih =>
    rcases proceeds_step hstep with ⟨hle, more, hmore, hplace⟩
    rcases ih with ⟨hle', more', hmore', hplace'⟩
    refine ⟨Nat.le_trans hle hle', more ++ more', ?_, fun p hp => ?_⟩
    · rw [List.map_append, List.filter_append, List.append_assoc, hmore', ← List.append_assoc,
        hmore, List.append_assoc]
    · exact (List.mem_append.mp hp).elim (hplace p) fun hp => Nat.le_trans hle (hplace' p hp)

/-- A scalar that some steps hand out was in the queue before, or is not marked in front of the
    place where the reader was. -/
theorem mem_queue_of_runs {tokens : List Delivered} (h : Runs t tokens t') {d : Delivered}
    (hd : d ∈ tokens) (hscalar : d.item.isScalar = true) :
    d.toPlaced ∈ t.queue ∨ t.mark.index ≤ d.mark.index := by
  rcases (proceeds_of_runs h).follow with ⟨more, hmore, hplace⟩
  have hmem : d.toPlaced ∈ t.scalars ++ more := by
    rw [← hmore]
    exact List.mem_append_left _ (List.mem_filter.mpr ⟨List.mem_map_of_mem hd, hscalar⟩)
  exact (List.mem_append.mp hmem).imp (fun h => (List.mem_filter.mp h).1) (hplace _)

end Tokenizer

end Yaml

/-! ### Behind a wide block scalar -/

open Yaml

/-- A mark lies behind the beginning of a block scalar with a character of several bytes. -/
def Text.IsBehindWide (text : List Char) (m : Mark) : Prop :=
  ∃ tokens t p, Tokenizer.Runs (Tokenizer.ofText text) tokens t ∧ p ∈ t.queue ∧
    p.item.isNarrow = false ∧ p.mark.index < text.length ∧ p.mark.index < m.index

/-- No block scalar that begins in front of an offset holds a character of several bytes. -/
def Text.IsNarrowBefore (text : List Char) (offset : Nat) : Prop :=
  ∀ tokens t, Tokenizer.Runs (Tokenizer.ofText text) tokens t → ∀ p ∈ t.queue,
    (OffsetTable.ofText text).byteAt p.mark.index < offset → p.item.isNarrow = true

/-- That no such scalar is read can be found out by reading on to the end. -/
theorem Text.isNarrowBefore_of_holdsWithin (steps : Nat) {text : List Char} {offset : Nat}
    (h : (Tokenizer.ofText text).holdsWithin
      (fun t => t.queue.all fun p =>
        decide ((OffsetTable.ofText text).byteAt p.mark.index < offset → p.item.isNarrow = true))
      (fun _ => false) steps [] = true) : IsNarrowBefore text offset := by
  intro tokens t hruns p hmem
  rcases Tokenizer.holdsWithin_of_runs h hruns fun _ _ => rfl with ⟨_, ht⟩
  exact of_decide_eq_true (List.all_eq_true.mp (Tokenizer.holds_of_holdsWithin ht) p hmem)

/-- The offset of a mark behind such a scalar lies behind the one of the scalar. -/
theorem Text.not_isBehindWide {text : List Char} {m : Mark}
    (h : IsNarrowBefore text ((OffsetTable.ofText text).byteAt m.index)) :
    ¬IsBehindWide text m := by
  rintro ⟨tokens, t, p, hruns, hmem, hwide, hin, hlt⟩
  have hless : (OffsetTable.ofText text).byteAt p.mark.index <
      (OffsetTable.ofText text).byteAt m.index := by
    rw [OffsetTable.byteAt_ofText, OffsetTable.byteAt_ofText]
    have hcut : text.take m.index = text.take (min m.index text.length) := by
      rw [← List.take_take, List.take_length]
    rw [hcut]
    exact byteLength_take_lt (Nat.lt_min.mpr ⟨hlt, hin⟩) (Nat.min_le_right _ _)
  rw [h tokens t hruns p hmem hless] at hwide
  exact absurd hwide (by decide)

namespace Yaml

/-- A scalar begins in front of the end of the text. -/
theorem index_lt_of_beginsAt {text : List Char} {m : Mark} {style : ScalarStyle} {value : String}
    (h : Text.BeginsAt text m style value) : m.index < text.length := by
  rcases h with ⟨c, ⟨front, rfl, -, hmark⟩, rfl, hbegins⟩
  have hend := (Bool.or_eq_false_iff.mp (Cursor.isLineEnd_of_begins hbegins)).2
  rw [hmark, Mark.index_past, Mark.start, Nat.zero_add, List.length_append]
  cases hrest : c.rest with
  | nil => simp [Cursor.peek, hrest, isEnd] at hend
  | cons next rest => simp

namespace Tokenizer

/-- Only a block scalar has to be narrow. -/
theorem exists_scalar_of_isNarrow {token : Token} (h : token.isNarrow = false) :
    ∃ style value, token = .scalar style value := by
  cases token with
  | scalar style value => exact ⟨style, value, rfl⟩
  | _ => simp [Token.isNarrow] at h

variable {text : List Char} {t t' : Tokenizer}

/-- Every scalar that is handed out begins at its mark, or is marked behind a wide block scalar. -/
theorem begins_of_runs {given tokens : List Delivered} (hgiven : Runs (ofText text) given t)
    (h : t.IsPlaced text ∨ t.IsPlacedAtEnd text) (hruns : Runs t tokens t') :
    ∀ d ∈ tokens, ∀ style value, d.item = .scalar style value →
      Text.BeginsAt text d.mark style value ∨ Text.IsBehindWide text d.mark := by
  -- The induction goes on for as long as the reader is placed. It stops at the first wide scalar,
  -- and from there on only the order of the marks is known.
  induction hruns generalizing given with
  | none t => simp
  | more t t₁ t₂ found tokens hstep hrest ih =>
    rcases of_yields_ok (yields_step h) hstep with ⟨hfound, harrives⟩
    have hgiven₁ := runs_append hgiven (runs_of_step hstep)
    intro d hd style value hitem
    rcases List.mem_append.mp hd with hd | hd
    · exact .inl ((hfound d (by simpa using hd)).bears.begins style value hitem)
    · cases harrives with
      | placed h₁ => exact ih hgiven₁ (.inl h₁) d hd style value hitem
      | atEnd h₁ => exact ih hgiven₁ (.inr h₁) d hd style value hitem
      | astray h₁ =>
        rcases mem_queue_of_runs hrest hd (by simp [hitem, Token.isScalar]) with hmem | hle
        · -- It was read in front of the wide scalar, and waited for a key to be found out.
          exact .inl ((h₁.queue _ hmem).begins style value hitem)
        · rcases h₁.wide with ⟨p, hmem, hwide, hlt⟩
          rcases exists_scalar_of_isNarrow hwide with ⟨style', value', hitem'⟩
          have hin := index_lt_of_beginsAt ((h₁.queue p hmem).begins style' value' hitem')
          exact .inr ⟨_, t₁, p, hgiven₁, hmem, hwide, hin, Nat.lt_of_lt_of_le hlt hle⟩

end Tokenizer

/-- A scalar among the events of a text is left out, begins at its mark, or is marked behind a
    wide block scalar. -/
theorem Document.begins_of_events {text : List Char} {found : List (Placed Event)}
    (h : events text = .ok found) {event : Placed Event} (hmem : event ∈ found)
    {style : ScalarStyle} {value : String} (hitem : event.item = .scalar style value) :
    event.item = .emptyScalar ∨ Text.BeginsAt text event.mark style value ∨
      Text.IsBehindWide text event.mark := by
  rcases Tokenizer.exists_runs_of_stream (Tokenizer.ofText text) [] with
    ⟨tokens, t, hruns, htokens⟩
  have hbegins := Tokenizer.begins_of_runs (.none _) (.inl (Tokenizer.isPlaced_ofText text)) hruns
  have hbears : ∀ token ∈ (TokenStream.ofText text).tokens, token.Bears (fun _ => True)
      fun m style value => Text.BeginsAt text m style value ∨ Text.IsBehindWide text m := by
    intro token hin
    rw [TokenStream.ofText, htokens] at hin
    exact ⟨trivial, hbegins token hin, trivial⟩
  have htold := Event.yields_ofTokens hbears trivial trivial
  exact (of_yields_ok htold h event hmem).begins style value hitem

end Yaml

end YamlLocator
