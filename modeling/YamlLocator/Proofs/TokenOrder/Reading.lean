import YamlLocator.Proofs.TokenOrder.Ledger

/-!
# What a Token Does to the Ledger

Reading a token is a few moves of the kinds that `Ledger` deals with. Their order in a reader is
not always the one in which the ledger is kept: a cursor that goes on and a token that is
put behind the others may change places, since the mark of the token was taken before, and a
candidate may be dropped earlier than it is. So the lemmas here name the moves first and then
read the state off at the end.

## Theorems

* `exists_of_valueOf`, `exists_of_valueAlone`: What a colon adds to the queue.
* `ledger_flowStart`, `ledger_flowEnd`, `ledger_value`: The tokens that change the count.
* `ledger_token`: Reading a token keeps the ledger.
-/

namespace YamlLocator

namespace Yaml

namespace Tokenizer

variable {done : List (Placed Token)} {t t' : Tokenizer}

/-! ### What moves leave alone -/

theorem mark_saveCandidate (t : Tokenizer) : t.saveCandidate.mark = t.mark := by
  rw [mark, cursor_saveCandidate, mark]

/-- A provisional level changes nothing but the levels. -/
theorem addProvisional_eq (t : Tokenizer) : ∃ levels, t.addProvisional = { t with levels } := by
  unfold addProvisional
  split
  · exact ⟨t.levels, rfl⟩
  · exact ⟨_, rfl⟩

theorem withoutCandidate_closeTo (t : Tokenizer) (column : Nat) :
    { t.closeTo column with candidate := none } =
      Tokenizer.closeTo { t with candidate := none } column := by
  cases hflow : t.outer.isEmpty <;> simp [closeTo, inFlow, hflow, mark]

/-- A collection that begins puts a token behind the others at most. -/
theorem indent_eq (t : Tokenizer) (column : Nat) (token : Token) (mark : Mark) :
    ∃ levels tokens, t.indent column none token mark =
      { t with levels, queue := t.queue ++ tokens } := by
  simp only [indent]
  split
  · exact ⟨t.levels, [], by simp⟩
  · split
    · exact ⟨_, [⟨token, mark⟩], rfl⟩
    · exact ⟨(Layout.indent column t.levels).1, [], by simp⟩

/-- The end of a pair puts a token behind the others at most. -/
theorem endPair_eq (t : Tokenizer) : ∃ tokens inMapping,
    t.endPair = { t with queue := t.queue ++ tokens, inPair := false, inMapping } := by
  unfold endPair
  split
  · exact ⟨[⟨.flowMappingEnd, t.mark⟩], false, rfl⟩
  · rename_i hpair
    have hpair : t.inPair = false := by simpa using hpair
    exact ⟨[], t.inMapping, by rw [List.append_nil, ← hpair]⟩

theorem endPair_allowKey (t : Tokenizer) (allowed : Bool) :
    (t.allowKey allowed).endPair = (t.endPair).allowKey allowed := by
  cases hpair : t.inPair <;> simp [endPair, allowKey, push, mark, hpair]

/-! ### Moves -/

theorem ledger_allowKey_false {extra : Nat} (h : Ledger done extra t) :
    Ledger done extra (t.allowKey false) :=
  ledger_of_same h rfl rfl rfl rfl rfl (Nat.le_refl _) (by simp [allowKey])

theorem ledger_separate (h : Ledger done 0 t) (hread : t.separate = .ok t') :
    Ledger done 0 t' := by
  have hle := (keeps_separate hread).leads.index_le
  simp only [separate, bind_eq_ok, pure_eq_ok, Except.ok.injEq] at hread
  rcases hread with ⟨⟨c, broken⟩, _, rfl⟩
  refine ledger_of_same h rfl rfl rfl rfl rfl hle fun hflow hallowed => ?_
  -- Inside flow collections a line break lets no key begin.
  have hinside : t.inFlow = true := hflow
  simpa [hinside] using hallowed

theorem ledger_dropStale (h : Ledger done 0 t) (hread : t.dropStale = .ok t') :
    Ledger done 0 t' := by
  unfold dropStale at hread
  split at hread
  · simp only [Except.ok.injEq] at hread
    exact hread ▸ h
  · split at hread
    · split at hread
      · simp at hread
      · simp only [Except.ok.injEq] at hread
        exact hread ▸ ledger_withoutCandidate h
    · simp only [Except.ok.injEq] at hread
      exact hread ▸ h

theorem ledger_dropCandidate (h : Ledger done 0 t) (hread : t.dropCandidate = .ok t') :
    Ledger done 0 t' :=
  eq_of_dropCandidate hread ▸ ledger_withoutCandidate h

theorem ledger_endDocument (h : Ledger done 0 t) (hread : t.endDocument = .ok t') :
    Ledger done 0 t' ∧ t'.keyAllowed = false := by
  simp only [endDocument, bind_eq_ok, pure_eq_ok, Except.ok.injEq] at hread
  rcases hread with ⟨t₁, h₁, rfl⟩
  refine ⟨ledger_allowKey_false ?_, rfl⟩
  -- The candidate might as well be dropped before the collections end.
  rw [eq_of_dropCandidate h₁, withoutCandidate_closeTo]
  exact ledger_closeTo (ledger_withoutCandidate h) rfl 0

/-- The end of a pair takes away what the pair is ahead by. -/
theorem ledger_endPair {extra : Nat} (h : Ledger done extra t) (hallowed : t.keyAllowed = false) :
    Ledger done extra t.endPair := by
  unfold endPair
  split
  · rename_i hpair
    refine ledger_push h _ rfl rfl rfl rfl (Nat.le_refl _) (Nat.le_refl _) (by simp) ?_ ?_ ?_
    · exact fun _ => .inr (by rw [hpair]; simp)
    · rw [hpair]
      simp only [Token.opening, Bool.toNat_true, Bool.toNat_false]
      omega
    · intro _ hkey
      simp [push, hallowed] at hkey
  · exact h

/-! ### Documents and directives -/

theorem ledger_streamEnd (h : Ledger done 0 t) (hread : t.streamEnd = .ok t') :
    Ledger done 0 t' := by
  simp only [streamEnd] at hread
  split at hread
  · simp at hread
  · simp only [bind_eq_ok, pure_eq_ok, Except.ok.injEq] at hread
    rcases hread with ⟨t₁, h₁, rfl⟩
    have hnone (candidate : Option Candidate)
        (hmem : candidate ∈ none :: t.outer.map fun _ => none) : candidate = none := by
      rcases List.mem_cons.mp hmem with rfl | hmem
      · rfl
      · exact (List.mem_map.mp hmem).choose_spec.2.symm
    have hle : t.mark.index ≤ (t.moveTo (afterLastLine t.cursor)).mark.index :=
      (leads_afterLastLine t.cursor).index_le
    have hempty : Ledger done 0 { t.moveTo (afterLastLine t.cursor) with
        candidate := none, outer := t.outer.map fun _ => none } := by
      refine ⟨h.delivered, h.sound, fun token hmem => ?_, fun i k hk => ?_, ?_, fun hflow => ?_⟩
      · exact Nat.le_trans (h.bounded token hmem) hle
      · exact absurd (hnone _ (List.mem_of_getElem? hk)) (by simp)
      · exact List.pairwise_of_forall_mem_list fun inner hmem _ _ k hk => by
          simp [hnone inner hmem] at hk
      · exact h.last (by simpa [inFlow] using hflow)
    have hend := ledger_endDocument hempty h₁
    exact ledger_push_plain hend.1 ⟨.streamEnd, t₁.mark⟩
      ⟨by simp, rfl, rfl⟩ rfl rfl rfl rfl rfl (Nat.le_refl _) (Nat.le_refl _)
      (by simp [push, hend.2])

theorem ledger_directive (h : Ledger done 0 t) (hread : t.directive = .ok t') :
    Ledger done 0 t' := by
  simp only [directive, bind_eq_ok, pure_eq_ok, Except.ok.injEq] at hread
  rcases hread with ⟨t₁, h₁, ⟨d, c⟩, hc, rfl⟩
  have hend := ledger_endDocument h h₁
  have hle := (Directive.leads_readDirective hc).index_le
  have hmark : t₁.mark = t.mark := by rw [mark, cursor_endDocument h₁, mark]
  refine ledger_push_plain hend.1 ⟨.directive d, t.mark⟩ ⟨by simp, rfl, rfl⟩ rfl rfl rfl
    rfl rfl (Nat.le_of_eq (by rw [hmark])) ?_ (by simp [push, moveTo, hend.2])
  rw [← hmark]
  exact hle

theorem ledger_documentMark {token : Token} (htoken : token.IsPlain) (h : Ledger done 0 t)
    (hread : t.documentMark token = .ok t') : Ledger done 0 t' ∧ t'.keyAllowed = false := by
  simp only [documentMark, bind_eq_ok, pure_eq_ok, Except.ok.injEq] at hread
  rcases hread with ⟨t₁, h₁, rfl⟩
  have hend := ledger_endDocument h h₁
  have hmark : t₁.mark = t.mark := by rw [mark, cursor_endDocument h₁, mark]
  refine ⟨ledger_push_plain hend.1 ⟨token, t.mark⟩ htoken rfl rfl rfl rfl rfl
    (Nat.le_of_eq (by rw [hmark])) ?_ (by simp [push, moveTo, hend.2]), hend.2⟩
  rw [← hmark]
  exact (Cursor.leads_advance t₁.cursor 3).index_le

theorem ledger_documentEnd (h : Ledger done 0 t) (hread : t.documentEnd = .ok t') :
    Ledger done 0 t' := by
  simp only [documentEnd, bind_eq_ok] at hread
  rcases hread with ⟨t₁, h₁, c, hc, hread⟩
  split at hread
  · simp only [pure_eq_ok, Except.ok.injEq] at hread
    rw [← hread]
    exact ledger_of_same (ledger_documentMark ⟨by simp, rfl, rfl⟩ h h₁).1 rfl rfl rfl rfl rfl
      (Cursor.leads_lineRest hc).index_le fun _ => id
  · simp at hread

/-! ### Flow collections -/

theorem ledger_flowStart {token : Token} (hopening : token.opening = 1)
    (hlets : token.letsKeyBegin = true) (hplain : token ≠ .blockEnd ∧ token.isFlowStop = false)
    (h : Ledger done 0 t) (hread : t.flowStart token = .ok t') : Ledger done 0 t' := by
  simp only [flowStart] at hread
  split at hread
  · simp at hread
  · simp only [passSign, bind_eq_ok, pure_eq_ok, Except.ok.injEq] at hread
    rcases hread with ⟨t₁, ⟨c, hc, rfl⟩, rfl⟩
    have hsaved := ledger_addProvisional (ledger_saveCandidate h)
    have hcursor : t.saveCandidate.addProvisional.cursor = t.cursor := by simp
    have hmark : t.saveCandidate.addProvisional.mark = t.mark := by rw [mark, hcursor, mark]
    -- The token is put behind the others before the level is entered.
    have hpush : Ledger done 1 (t.saveCandidate.addProvisional.push token t.mark) := by
      refine ledger_push hsaved _ rfl rfl rfl rfl (Nat.le_of_eq (by rw [hmark])) ?_ hplain.1 ?_ ?_
        fun _ _ => hlets
      · exact Nat.le_of_eq (by rw [← hmark]; rfl)
      · simp [hplain.2]
      · simp only [push, hopening]
        omega
    refine ledger_enter hpush rfl rfl rfl rfl rfl ?_ ?_
    · have hle := ((Cursor.leads_advance _ 1).trans (Cursor.leads_lineRest hc)).index_le
      exact hle
    · simp [push, ← List.append_assoc, hlets]

theorem ledger_flowEnd {token : Token} (hopening : token.opening = -1)
    (hend : token ≠ .blockEnd) (h : Ledger done 0 t) (hread : t.flowEnd token = .ok t') :
    Ledger done 0 t' := by
  simp only [flowEnd, passSign, bind_eq_ok, pure_eq_ok, Except.ok.injEq] at hread
  rcases hread with ⟨t₁, h₁, t₂, ⟨c, hc, rfl⟩, rfl⟩
  have hnone : t₁.candidate = none := by rw [eq_of_dropCandidate h₁]
  have hleft : Ledger done 1 (t₁.leaveFlow.allowKey false).endPair :=
    ledger_endPair (ledger_allowKey_false (ledger_leaveFlow (ledger_dropCandidate h h₁) hnone)) rfl
  have hcursor : (t₁.leaveFlow.allowKey false).endPair.cursor = t.cursor := by
    simp [cursor_dropCandidate h₁]
  have hpair : (t₁.leaveFlow.allowKey false).endPair.inPair = false ∧
      (t₁.leaveFlow.allowKey false).endPair.keyAllowed = false := by
    rcases endPair_eq (t₁.leaveFlow.allowKey false) with ⟨_, _, heq⟩
    rw [heq]
    exact ⟨rfl, rfl⟩
  have hmark : (t₁.leaveFlow.allowKey false).endPair.mark = t.mark := by rw [mark, hcursor, mark]
  have hle := ((Cursor.leads_advance _ 1).trans (Cursor.leads_lineRest hc)).index_le
  refine ledger_push hleft ⟨token, t.mark⟩ rfl rfl rfl rfl
    (Nat.le_of_eq (by rw [hmark])) ?_ hend (fun _ => .inr (by omega)) ?_ ?_
  · rw [← hmark]
    exact hle
  · simp only [push, moveTo, hpair.1, hopening]
    decide
  · simp [push, moveTo, hpair.2]

theorem ledger_flowEntry (h : Ledger done 0 t) (hread : t.flowEntry = .ok t') :
    Ledger done 0 t' := by
  simp only [flowEntry, passSign, bind_eq_ok, pure_eq_ok, Except.ok.injEq] at hread
  rcases hread with ⟨t₁, h₁, t₂, ⟨c, hc, rfl⟩, rfl⟩
  have hnone : t₁.candidate = none := by rw [eq_of_dropCandidate h₁]
  have hleft : Ledger done 0 (t₁.endPair.allowKey false) := by
    rw [← endPair_allowKey]
    exact ledger_endPair (ledger_allowKey_false (ledger_dropCandidate h h₁)) rfl
  rw [endPair_allowKey] at hc ⊢
  have hmark : t₁.endPair.mark = t.mark := by
    rw [mark, cursor_endPair, cursor_dropCandidate h₁, mark]
  have hpair : t₁.endPair.inPair = false ∧ t₁.endPair.candidate = none := by
    rcases endPair_eq t₁ with ⟨_, _, heq⟩
    rw [heq]
    exact ⟨rfl, hnone⟩
  have hle := ((Cursor.leads_advance _ 1).trans (Cursor.leads_lineRest hc)).index_le
  refine ledger_push hleft ⟨.flowEntry, t.mark⟩ rfl rfl rfl rfl
    (Nat.le_of_eq (by rw [← hmark]; rfl)) ?_ (by simp) (fun _ => .inl hpair.2) ?_ fun _ _ => rfl
  · rw [← hmark]
    exact hle
  · simp [push, moveTo, allowKey, hpair.1, Token.opening]

/-! ### Entries, keys and values -/

theorem ledger_blockEntryAt {c : Cursor} (hflow : t.inFlow = false)
    (hc : t.mark.index ≤ c.mark.index) (h : Ledger done 0 t) (hread : t.blockEntryAt c = .ok t') :
    Ledger done 0 t' := by
  simp only [blockEntryAt, bind_eq_ok, pure_eq_ok, Except.ok.injEq] at hread
  rcases hread with ⟨t₁, h₁, rfl⟩
  have hopen := ledger_withoutCandidate (ledger_indent h t.mark.column
    .blockSequenceStart ⟨by simp, rfl, rfl⟩)
  rcases indent_eq t t.mark.column .blockSequenceStart t.mark with ⟨levels, tokens, hindent⟩
  -- Only the levels depend on what follows the sign.
  have ht₁ : ∃ levels, t₁ = { t.indent t.mark.column none .blockSequenceStart t.mark with
      cursor := c, candidate := none, levels } := by
    rw [eq_of_dropCandidate h₁]
    split
    · rcases addProvisional_eq ((t.indent t.mark.column none .blockSequenceStart t.mark).moveTo c)
        with ⟨levels, heq⟩
      exact ⟨levels, by rw [heq]; rfl⟩
    · exact ⟨_, rfl⟩
  rcases ht₁ with ⟨levels', rfl⟩
  rw [hindent] at hopen ⊢
  exact ledger_push_plain hopen ⟨.blockEntry, c.mark⟩ ⟨by simp, rfl, rfl⟩ rfl rfl rfl rfl
    rfl hc (Nat.le_refl _) fun hinside =>
      absurd hinside (by simpa [inFlow, push, allowKey] using hflow)

theorem ledger_blockEntry (h : Ledger done 0 t) (hread : t.blockEntry = .ok t') :
    Ledger done 0 t' := by
  unfold blockEntry at hread
  split at hread
  · simp at hread
  · rename_i hflow
    split at hread
    · simp at hread
    · simp only [bind_eq_ok] at hread
      rcases hread with ⟨_, _, c, hc, hread⟩
      split at hread
      · simp at hread
      · exact ledger_blockEntryAt (by simpa using hflow)
          ((Cursor.leads_advance _ 1).trans (Cursor.leads_lineRest hc)).index_le h hread

theorem ledger_explicitKey (h : Ledger done 0 t) (hread : t.explicitKey = .ok t') :
    Ledger done 0 t' := by
  simp only [explicitKey] at hread
  split at hread
  · simp at hread
  · simp only [bind_eq_ok, pure_eq_ok, Except.ok.injEq] at hread
    rcases hread with ⟨t₁, h₁, c, hc, rfl⟩
    have hopen := ledger_withoutCandidate (ledger_indent h t.mark.column
      .blockMappingStart ⟨by simp, rfl, rfl⟩)
    have hle := ((Cursor.leads_advance _ 1).trans (Cursor.leads_keySeparation hc)).index_le
    rw [eq_of_dropCandidate h₁] at hle ⊢
    rcases indent_eq t t.mark.column .blockMappingStart t.mark with ⟨levels, tokens, hindent⟩
    rw [hindent] at hopen hle ⊢
    refine ledger_push_plain hopen ⟨.key, t.mark⟩ ⟨by simp, rfl, rfl⟩ rfl rfl rfl rfl rfl
      (Nat.le_refl _) hle fun hinside hallowed => ?_
    -- Inside flow collections no key may begin behind the sign of one.
    have hflow : t.inFlow = true := hinside
    simp [push, moveTo, allowKey, hflow] at hallowed

/-- A token is put in where the queue falls in two. -/
theorem pushBefore_of_split {number : Nat} {ahead inner : List (Placed Token)}
    (hsplit : t.queue = ahead ++ inner) (hnumber : number = t.delivered + ahead.length)
    (token : Token) (mark : Mark) :
    t.pushBefore number token mark = { t with queue := ahead ++ ⟨token, mark⟩ :: inner } := by
  have hinsert (ahead inner : List (Placed Token)) (token : Placed Token) :
      (ahead ++ inner).insertIdx ahead.length token = ahead ++ token :: inner := by
    induction ahead with
    | nil => simp
    | cons first rest ih => simp [ih]
  rw [pushBefore, hsplit, hnumber, Nat.add_sub_cancel_left, hinsert]

/-- What is put in and behind when a candidate turns out to be a key. -/
theorem exists_of_valueOf {k : Candidate} {colon : Mark} {ahead inner : List (Placed Token)}
    (hsplit : t.queue = ahead ++ inner) (hnumber : k.number = t.delivered + ahead.length)
    (hpair : t.inPair = true → t.inFlow = true) (hread : t.valueOf k colon = .ok t') :
    ∃ heads levels,
      t' = { t with
        queue := ahead ++ (heads ++ ⟨.key, k.mark⟩ :: (inner ++ [⟨.value, colon⟩]))
        levels, candidate := none, keyAllowed := false } ∧
      (t.inPair.toNat : Int) ≤ balance heads ∧
      (heads = [] ∨ (heads = [⟨.flowMappingStart, t.mark⟩] ∧ t.inFlow = true) ∨
        heads = [⟨.blockMappingStart, colon⟩]) := by
  simp only [valueOf, bind_eq_ok, pure_eq_ok, Except.ok.injEq] at hread
  rcases hread with ⟨t₁, h₁, rfl⟩
  rw [pushBefore_of_split hsplit hnumber] at h₁
  rcases addProvisional_eq (t₁.indent k.mark.column (some k.number) .blockMappingStart colon)
    with ⟨levels, hprovisional⟩
  rw [hprovisional]
  unfold startPair at h₁
  split at h₁
  · -- A pair without braces, which stands inside a flow collection.
    rename_i hopen
    have hflow := hpair hopen
    split at h₁
    · simp at h₁
    · simp only [Except.ok.injEq] at h₁
      rw [pushBefore_of_split (t := { t with queue := _ }) rfl hnumber] at h₁
      have hindent : t₁.indent k.mark.column (some k.number) .blockMappingStart colon = t₁ := by
        rw [indent, if_pos (by rw [← h₁]; exact hflow)]
      rw [hindent, ← h₁]
      refine ⟨[⟨.flowMappingStart, t.mark⟩], levels, ?_, ?_, .inr (.inl ⟨rfl, hflow⟩)⟩
      · simp [push, allowKey, mark]
      · have hopen : t.inPair = true := hopen
        simp [hopen, Token.opening]
  · rename_i hclosed
    have hclosed : t.inPair = false := by simpa using hclosed
    simp only [Except.ok.injEq] at h₁
    rw [← h₁]
    simp only [indent]
    split
    · exact ⟨[], levels, by simp [push, allowKey], by simp [hclosed], .inl rfl⟩
    · split
      · rw [pushBefore_of_split (t := { t with queue := _, levels := _ }) rfl hnumber]
        refine ⟨[⟨.blockMappingStart, colon⟩], levels, by simp [push, allowKey], ?_,
          .inr (.inr rfl)⟩
        simp [hclosed, Token.opening]
      · exact ⟨[], levels, by simp [push, allowKey], by simp [hclosed], .inl rfl⟩

theorem ledger_valueOf {k : Candidate} {c : Cursor} {inPair : Bool}
    (hpair : inPair = true → t.inFlow = true) (hc : t.mark.index ≤ c.mark.index)
    (hk : t.candidate = some k) (hroom : t.delivered ≤ k.number) (h : Ledger done 0 t)
    (hread : valueOf { t with cursor := c, inPair } k t.mark = .ok t') : Ledger done 0 t' := by
  rcases h.candidates 0 k (by simp [hk]) with ⟨_, front, inner, heq, hcut, _⟩
  rcases exists_split_of_isCut hcut h.delivered heq hroom with ⟨ahead, _, hsplit, hnumber⟩
  rcases exists_of_valueOf (t := { t with cursor := c, inPair }) hsplit hnumber hpair hread with
    ⟨heads, levels, rfl, hbalance, hheads⟩
  refine ledger_insert h hk heads hnumber hsplit rfl rfl rfl rfl rfl rfl hc ?_ hbalance
    rfl
  rcases hheads with rfl | ⟨rfl, hflow⟩ | rfl
  · exact .inl rfl
  · exact .inr ⟨_, rfl, .inr ⟨rfl, hflow⟩, hc, Nat.le_refl _⟩
  · exact .inr ⟨_, rfl, .inl rfl, Nat.le_refl _, hc⟩

/-- What is put behind the other tokens at a colon without a key. -/
theorem exists_of_valueAlone {colon : Mark} (hpair : t.inPair = true → t.inFlow = true)
    (hread : t.valueAlone colon = .ok t') :
    ∃ heads levels,
      t' = { t with
        queue := t.queue ++ (heads ++ [⟨.value, colon⟩]), levels, keyAllowed := !t.inFlow } ∧
      (t.inPair.toNat : Int) ≤ balance heads ∧
      (heads = [] ∨ (heads = [⟨.flowMappingStart, t.mark⟩] ∧ t.inFlow = true) ∨
        heads = [⟨.blockMappingStart, colon⟩]) := by
  unfold valueAlone at hread
  split at hread
  · simp at hread
  · simp only [Except.ok.injEq] at hread
    rcases addProvisional_eq (t.startKeylessPair.indent colon.column none .blockMappingStart colon)
      with ⟨levels, hprovisional⟩
    rw [hprovisional] at hread
    rw [← hread]
    unfold startKeylessPair
    split
    · -- A pair without braces, which stands inside a flow collection.
      rename_i hopen
      have hflow := hpair hopen
      have hindent : (t.push .flowMappingStart t.mark).indent colon.column none .blockMappingStart
          colon = t.push .flowMappingStart t.mark := if_pos hflow
      rw [hindent]
      refine ⟨[⟨.flowMappingStart, t.mark⟩], levels, by simp [push, allowKey], ?_,
        .inr (.inl ⟨rfl, hflow⟩)⟩
      simp [hopen, Token.opening]
    · rename_i hclosed
      have hclosed : t.inPair = false := by simpa using hclosed
      simp only [indent]
      split
      · exact ⟨[], levels, by simp [push, allowKey], by simp [hclosed], .inl rfl⟩
      · split
        · refine ⟨[⟨.blockMappingStart, colon⟩], levels, by simp [push, allowKey], ?_,
            .inr (.inr rfl)⟩
          simp [hclosed, Token.opening]
        · exact ⟨[], levels, by simp [push, allowKey], by simp [hclosed], .inl rfl⟩

theorem ledger_valueAlone {c : Cursor} {inPair : Bool} (hpair : inPair = true → t.inFlow = true)
    (hc : t.mark.index ≤ c.mark.index) (h : Ledger done 0 t)
    (hread : valueAlone { t with cursor := c, inPair } t.mark = .ok t') : Ledger done 0 t' := by
  rcases exists_of_valueAlone (t := { t with cursor := c, inPair }) hpair hread with
    ⟨heads, levels, rfl, hbalance, hheads⟩
  have hallowed (hflow : t.inFlow = true) (hkey : (!t.inFlow) = true) : False := by
    simp [hflow] at hkey
  rcases hheads with rfl | ⟨rfl, hflow⟩ | rfl
  · refine ledger_push h ⟨.value, t.mark⟩ rfl rfl rfl rfl (Nat.le_refl _) hc (by simp)
      (by simp [Token.isFlowStop]) ?_ fun hflow hkey => absurd hkey (hallowed hflow)
    simp only [balance_nil] at hbalance
    simp only [Token.opening]
    omega
  · -- The start of the mapping is marked behind its colon.
    have hstart : Ledger done 0 { t with
        cursor := c, inPair, keyAllowed := !t.inFlow
        queue := t.queue ++ [⟨.flowMappingStart, c.mark⟩] } := by
      refine ledger_push h ⟨.flowMappingStart, c.mark⟩ rfl rfl rfl rfl hc (Nat.le_refl _)
        (by simp) (by simp [Token.isFlowStop]) ?_ fun _ _ => rfl
      simp only [balance_cons, balance_nil, mark, Token.opening] at hbalance ⊢
      omega
    refine ledger_push_of_precedes hstart ⟨.value, t.mark⟩ (by simp [mark]) rfl rfl rfl
      (fun other hmem => ?_) (fun k hk => ?_) (Nat.le_refl _) hc (by simp)
      (by simp [Token.isFlowStop]) (by simp [Token.opening])
      fun hflow hkey => absurd hkey (hallowed hflow)
    · rw [← List.append_assoc] at hmem
      rcases List.mem_append.mp hmem with hmem | hmem
      · exact .inr (h.bounded other hmem)
      · rw [List.mem_singleton.mp hmem]
        exact .inl ⟨rfl, rfl⟩
    · rcases List.getElem?_of_mem hk with ⟨i, hi⟩
      exact (h.candidates i k hi).1
  · have hstart : Ledger done 0
        { t with queue := t.queue ++ [⟨.blockMappingStart, t.mark⟩], keyAllowed := false } :=
      ledger_push_plain h ⟨.blockMappingStart, t.mark⟩ ⟨by simp, rfl, rfl⟩ rfl rfl rfl rfl
        rfl (Nat.le_refl _) (Nat.le_refl _) (by simp)
    refine ledger_push hstart ⟨.value, t.mark⟩ (by simp) rfl rfl rfl (Nat.le_refl _) hc
      (by simp) (by simp [Token.isFlowStop]) ?_ fun hflow hkey => absurd hkey (hallowed hflow)
    simp only [balance_cons, balance_nil, Token.opening] at hbalance ⊢
    omega

theorem ledger_value (hroom : t.HasRoom) (h : Ledger done 0 t) (hread : t.value = .ok t') :
    Ledger done 0 t' := by
  simp only [value, bind_eq_ok] at hread
  rcases hread with ⟨c, hc, hread⟩
  have hle := (leads_passColon hc).index_le
  have hpair : (t.inFlow && !t.inMapping) = true → t.inFlow = true := by
    simpa using fun hflow _ => hflow
  split at hread
  · rename_i k hk
    have hk : t.candidate = some k := hk
    exact ledger_valueOf hpair hle hk (hroom k (by simp [hk])).1 h hread
  · exact ledger_valueAlone hpair hle h hread

/-! ### Nodes -/

/-- A token that a key may begin with. -/
theorem ledger_candidate_push (h : Ledger done 0 t) (token : Placed Token)
    (htoken : token.item.IsPlain) (hqueue : t'.queue = t.saveCandidate.queue ++ [token])
    (hdelivered : t'.delivered = t.saveCandidate.delivered)
    (hcandidate : t'.candidate = t.saveCandidate.candidate)
    (houter : t'.outer = t.saveCandidate.outer) (hpair : t'.inPair = t.saveCandidate.inPair)
    (hmark : t.mark.index ≤ token.mark.index) (hmark' : token.mark.index ≤ t'.mark.index)
    (hlast : t'.inFlow = true → t'.keyAllowed = true → token.item.letsKeyBegin = true) :
    Ledger done 0 t' :=
  ledger_push_plain (ledger_saveCandidate h) token htoken hqueue hdelivered hcandidate houter hpair
    (by rwa [mark_saveCandidate]) hmark' hlast

theorem ledger_named {token : String → Token} (htoken : ∀ name, (token name).IsPlain)
    (h : Ledger done 0 t) (hread : t.named token = .ok t') : Ledger done 0 t' := by
  simp only [named, bind_eq_ok, pure_eq_ok, Except.ok.injEq] at hread
  rcases hread with ⟨⟨name, c⟩, hc, rfl⟩
  exact ledger_candidate_push h ⟨token name, t.mark⟩ (htoken name) rfl rfl rfl rfl rfl
    (Nat.le_refl _) (Property.leads_readName hc).index_le (by simp [push, moveTo, allowKey])

theorem ledger_tag (h : Ledger done 0 t) (hread : t.tag = .ok t') : Ledger done 0 t' := by
  simp only [tag, bind_eq_ok, pure_eq_ok, Except.ok.injEq] at hread
  rcases hread with ⟨⟨tag, c⟩, hc, rfl⟩
  exact ledger_candidate_push h ⟨.tag tag, t.mark⟩ ⟨by simp, rfl, rfl⟩ rfl rfl rfl rfl rfl
    (Nat.le_refl _) (Property.leads_readTag hc).index_le (by simp [push, moveTo, allowKey])

theorem ledger_blockScalar {style : ScalarStyle} (h : Ledger done 0 t)
    (hread : t.blockScalar style = .ok t') : Ledger done 0 t' := by
  simp only [blockScalar, bind_eq_ok, pure_eq_ok, Except.ok.injEq] at hread
  rcases hread with ⟨scalar, hscalar, rfl⟩
  have hbetween := Block.leads_readBlock hscalar
  exact ledger_candidate_push h ⟨.scalar style _, scalar.mark⟩ ⟨by simp, rfl, rfl⟩ rfl rfl
    rfl rfl rfl hbetween.start_le hbetween.le_behind fun _ _ => rfl

theorem ledger_quotedScalar {quotes : Quoted.Quotes} {style : ScalarStyle} (h : Ledger done 0 t)
    (hread : t.quotedScalar quotes style = .ok t') : Ledger done 0 t' := by
  simp only [quotedScalar, bind_eq_ok] at hread
  rcases hread with ⟨⟨text, closed⟩, hclosed, behind, hbehind, hread⟩
  have hlead : Cursor.Leads t.cursor behind := (Cursor.leads_advance _ 1).trans
    ((Quoted.leads_readQuoted hclosed).trans (Cursor.leads_lineRest hbehind))
  split at hread
  · simp only [separate, bind_eq_ok, pure_eq_ok, Except.ok.injEq] at hread
    rcases hread with ⟨t₁, ⟨⟨c, broken⟩, hc, rfl⟩, rfl⟩
    exact ledger_candidate_push h ⟨.scalar style _, t.mark⟩ ⟨by simp, rfl, rfl⟩ rfl rfl rfl
      rfl rfl (Nat.le_refl _) (hlead.trans (Cursor.leads_separation hc)).index_le fun _ _ => rfl
  · simp at hread

theorem ledger_plainScalar (h : Ledger done 0 t) (hread : t.plainScalar = .ok t') :
    Ledger done 0 t' := by
  simp only [plainScalar] at hread
  split at hread
  · simp at hread
  · split at hread
    · simp at hread
    · simp only [bind_eq_ok, pure_eq_ok, Except.ok.injEq] at hread
      rcases hread with ⟨⟨text, c⟩, hc, rfl⟩
      have hlead := (Cursor.leads_advance t.cursor 1).trans (Plain.leads_readPlain hc)
      exact ledger_candidate_push h ⟨.scalar .plain _, t.mark⟩ ⟨by simp, rfl, rfl⟩ rfl rfl
        rfl rfl rfl (Nat.le_refl _) hlead.index_le fun _ _ => rfl

/-! ### All tokens -/

/-- What an indicator means for the row of tokens. -/
def Upcoming.IsKnown : Upcoming → Prop
  | .flowStart token => token.opening = 1 ∧ token.letsKeyBegin = true ∧ token ≠ .blockEnd ∧
      token.isFlowStop = false
  | .flowEnd token => token.opening = -1 ∧ token ≠ .blockEnd
  | _ => True

theorem isKnown_upcoming (t : Tokenizer) : t.upcoming.IsKnown := by
  unfold upcoming
  repeat' split
  all_goals try trivial
  unfold indicated
  split
  all_goals first | trivial | (split <;> trivial)

/-- Reading a token keeps the ledger. -/
theorem ledger_token (hroom : t.HasRoom) (h : Ledger done 0 t) (hread : t.token = .ok t') :
    Ledger done 0 t' := by
  have hknown := isKnown_upcoming t
  unfold token at hread
  split at hread
  · exact ledger_streamEnd h hread
  · exact ledger_directive h hread
  · exact (ledger_documentMark ⟨by simp, rfl, rfl⟩ h hread).1
  · exact ledger_documentEnd h hread
  · rename_i hnext
    rw [hnext] at hknown
    exact ledger_flowStart hknown.1 hknown.2.1 hknown.2.2 h hread
  · rename_i hnext
    rw [hnext] at hknown
    exact ledger_flowEnd hknown.1 hknown.2 h hread
  · exact ledger_flowEntry h hread
  · exact ledger_blockEntry h hread
  · exact ledger_explicitKey h hread
  · exact ledger_value hroom h hread
  · exact ledger_named (fun _ => ⟨by simp, rfl, rfl⟩) h hread
  · exact ledger_named (fun _ => ⟨by simp, rfl, rfl⟩) h hread
  · exact ledger_tag h hread
  · exact ledger_blockScalar h hread
  · exact ledger_quotedScalar h hread
  · exact ledger_plainScalar h hread
  · simp at hread

end Tokenizer

end Yaml

end YamlLocator
