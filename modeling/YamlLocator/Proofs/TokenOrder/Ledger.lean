import YamlLocator.Proofs.TokenOrder.Alignment
import YamlLocator.Proofs.TokenOrder.History

/-!
# The Tokens That Have Been Read

All tokens that were read of a text, those handed out and those in the queue, form a sound row.
Reading on puts tokens behind that row, which cannot do harm as long as their marks grow. But
when a candidate turns out to be a key, tokens are put into the row, in front of what has been
read of the key since. So for every candidate it is kept up that the row falls in two at the place
where the candidate begins, that both parts are sound by themselves, that the marks of one are
not behind those of the other, and that the second part can be the inside of a key.

The last of these rests on counting. For every level of flow nesting around the reader that was
opened behind the candidate, a flow collection is open in the second part, with the possible
exception of one: the end of a mapping of one pair may have been put there although the
mapping started in front of the candidate. While a level is entered or left, the count is ahead by
one.

## Main definitions

* `IsCut`: A candidate cuts a row in two.
* `IsRow`: What may take the place of the second part.
* `Ledger`: What is kept up about the tokens that have been read.

## Theorems

* `ledger_push`: A token is put behind the others.
* `ledger_saveCandidate`: A candidate begins behind the others.
* `ledger_enter`, `ledger_leaveFlow`: A level of flow nesting is entered and left.
* `ledger_insert`: A candidate turns out to be a key.
-/

namespace YamlLocator

namespace Yaml

namespace Token

/-- A token that opens, separates and ends nothing. -/
structure IsPlain (token : Token) : Prop where
  ne_blockEnd : token ≠ .blockEnd
  isFlowStop : token.isFlowStop = false
  opening : token.opening = 0

end Token

namespace Tokenizer

/-- A candidate cuts a row in two. Behind it, so many levels of flow nesting are still open, and
    the mapping of one pair if one is open. -/
structure IsCut (depth : Nat) (inPair : Bool) (front inner : List (Placed Token))
    (k : Candidate) : Prop where
  number : front.length = k.number
  sound_front : IsSound false front
  sound_inner : IsSound false inner
  front_le : ∀ token ∈ front, token.mark.index ≤ k.mark.index
  le_inner : ∀ token ∈ inner, k.mark.index ≤ token.mark.index
  isInner : IsInner 0 inner
  le_balance : (depth + inPair.toNat : Int) ≤ balance inner + 1
  ne_nil : 0 < depth → inner ≠ []

/-- What is kept up about the tokens that have been read, with those that were handed out. The
    count of the levels of flow nesting is behind by `extra`. -/
structure Ledger (done : List (Placed Token)) (extra : Nat) (t : Tokenizer) : Prop where
  delivered : done.length = t.delivered
  sound : IsSound false (done ++ t.queue)
  bounded : ∀ token ∈ done ++ t.queue, token.mark.index ≤ t.mark.index
  candidates : ∀ i k, (t.candidate :: t.outer)[i]? = some (some k) →
    k.mark.index ≤ t.mark.index ∧ ∃ front inner, done ++ t.queue = front ++ inner ∧
      IsCut (i + extra) t.inPair front inner k ∧
        (i < t.outer.length → letsBehind false front = true)
  order : (t.candidate :: t.outer).Pairwise fun inner outer =>
    ∀ k, inner = some k → ∀ k', outer = some k' → k'.number < k.number
  last : t.inFlow = true → t.keyAllowed = true → letsBehind false (done ++ t.queue) = true

variable {done : List (Placed Token)} {extra extra' : Nat} {t t' : Tokenizer}

/-! ### Cuts -/

/-- A token more behind the second part. -/
theorem isCut_push {depth depth' : Nat} {inPair inPair' : Bool} {front inner : List (Placed Token)}
    {k : Candidate} (h : IsCut depth inPair front inner k) {token : Placed Token}
    (hle : k.mark.index ≤ token.mark.index) (hprecedes : ∀ other ∈ inner, Precedes other token)
    (hend : token.item ≠ .blockEnd)
    (hstop : token.item.isFlowStop = true → 1 ≤ depth + inPair.toNat)
    (hcount : (depth' + inPair'.toNat : Int) ≤ depth + inPair.toNat + token.item.opening) :
    IsCut depth' inPair' front (inner ++ [token]) k where
  number := h.number
  sound_front := h.sound_front
  sound_inner := isSound_push h.sound_inner hprecedes
  front_le := h.front_le
  le_inner := by
    intro other hmem
    rcases List.mem_append.mp hmem with hmem | hmem
    · exact h.le_inner other hmem
    · rw [List.mem_singleton.mp hmem]
      exact hle
  isInner := by
    refine isInner_push h.isInner hend fun hflow => ?_
    have := hstop hflow
    have := h.le_balance
    omega
  le_balance := by
    have := h.le_balance
    simp only [balance_append, balance_cons, balance_nil]
    omega
  ne_nil := by simp

/-- A row that may take the place of another one inside a key, with marks in some bounds. -/
structure IsRow (lets inPair : Bool) (lower upper : Nat) (inner row : List (Placed Token)) :
    Prop where
  sound : IsSound lets row
  lower_le : ∀ token ∈ row, lower ≤ token.mark.index
  le_upper : ∀ token ∈ row, token.mark.index ≤ upper
  isInner : ∀ above, IsInner above inner → IsInner above row
  le_balance : (inPair.toNat : Int) + balance inner ≤ balance row

/-- A row takes the place of what has been read of a later candidate. -/
theorem isCut_insert {depth lower upper : Nat} {inPair inPair' : Bool}
    {front mid inner row : List (Placed Token)} {k : Candidate}
    (h : IsCut depth inPair front (mid ++ inner) k) (hmid : mid ≠ [])
    (hsound : IsSound (letsBehind false front) mid)
    (hmark : ∀ token ∈ mid, token.mark.index ≤ lower)
    (hrow : IsRow (letsBehind false mid) inPair' lower upper inner row) :
    IsCut depth inPair' front (mid ++ row) k where
  number := h.number
  sound_front := h.sound_front
  sound_inner := by
    refine isSound_append (isSound_false_left h.sound_inner hsound) hrow.sound ?_
    exact fun token hmem other hmem' =>
      .inr (Nat.le_trans (hmark token hmem) (hrow.lower_le other hmem'))
  front_le := h.front_le
  le_inner := by
    -- Something lies between the two candidates, so the row is behind the first one.
    rcases List.exists_mem_of_ne_nil mid hmid with ⟨between, hbetween⟩
    have hle := Nat.le_trans (h.le_inner between (List.mem_append_left _ hbetween))
      (hmark between hbetween)
    intro token hmem
    rcases List.mem_append.mp hmem with hmem | hmem
    · exact h.le_inner token (List.mem_append_left _ hmem)
    · exact Nat.le_trans hle (hrow.lower_le token hmem)
  isInner := by
    rcases isInner_append.mp h.isInner with ⟨hinner, hrest⟩
    exact isInner_append.mpr ⟨hinner, hrow.isInner _ hrest⟩
  le_balance := by
    have := h.le_balance
    have := hrow.le_balance
    simp only [balance_append] at *
    omega
  ne_nil := by simp [hmid]

/-- What a candidate that turns out to be a key puts in the place of what has been read of it:
    the start of a mapping perhaps, then the key, and behind it the colon. -/
theorem isRow_key {depth upper : Nat} {lets inPair inPair' : Bool}
    {front inner heads : List (Placed Token)} {k : Candidate} {colon : Placed Token}
    (h : IsCut depth inPair front inner k) (hcolon : colon.item = .value)
    (hle : k.mark.index ≤ colon.mark.index) (hle' : colon.mark.index ≤ upper)
    (hinner : ∀ token ∈ inner, token.mark.index ≤ colon.mark.index)
    (hheads : heads = [] ∨ ∃ token, heads = [token] ∧ IsHead lets token ∧
      colon.mark.index ≤ token.mark.index ∧ token.mark.index ≤ upper)
    (hpair : (inPair'.toNat : Int) ≤ balance heads) :
    IsRow lets inPair' k.mark.index upper inner
      (heads ++ ⟨.key, k.mark⟩ :: (inner ++ [colon])) where
  sound := by
    refine isSound_insert ?_ rfl hcolon h.sound_inner h.isInner
      (fun other hmem => ⟨h.le_inner other hmem, .inr (hinner other hmem)⟩) hle
    rcases hheads with hnil | ⟨head, hsingle, hhead, _⟩
    · exact .inl hnil
    · exact .inr ⟨head, hsingle, hhead⟩
  lower_le := by
    intro token hmem
    rcases List.mem_append.mp hmem with hmem | hmem
    · rcases hheads with rfl | ⟨head, rfl, _, hge, _⟩
      · simp at hmem
      · rw [List.mem_singleton.mp hmem]
        exact Nat.le_trans hle hge
    · simp only [List.mem_cons, List.mem_append, List.not_mem_nil, or_false] at hmem
      rcases hmem with rfl | hmem | rfl
      · exact Nat.le_refl _
      · exact h.le_inner token hmem
      · exact hle
  le_upper := by
    intro token hmem
    rcases List.mem_append.mp hmem with hmem | hmem
    · rcases hheads with rfl | ⟨head, rfl, _, _, hupper⟩
      · simp at hmem
      · rw [List.mem_singleton.mp hmem]
        exact hupper
    · simp only [List.mem_cons, List.mem_append, List.not_mem_nil, or_false] at hmem
      rcases hmem with rfl | hmem | rfl
      · exact Nat.le_trans hle hle'
      · exact Nat.le_trans (hinner token hmem) hle'
      · exact hle'
  isInner := by
    intro above hinside
    have hend : IsInner (above + balance inner) [colon] := by
      simp [IsInner, hcolon, Token.isFlowStop]
    have hkey : IsInner above (⟨.key, k.mark⟩ :: (inner ++ [colon])) := by
      refine ⟨by simp, by simp [Token.isFlowStop], ?_⟩
      rw [show Token.opening .key = 0 from rfl, Int.add_zero]
      exact isInner_append.mpr ⟨hinside, hend⟩
    rcases hheads with rfl | ⟨head, rfl, hhead, _⟩
    · exact hkey
    · have hopens : head.item ≠ .blockEnd ∧ head.item.isFlowStop = false ∧
          0 ≤ head.item.opening := by
        rcases hhead with hitem | ⟨hitem, _⟩ <;> rw [hitem] <;> decide
      exact ⟨hopens.1, by simp [hopens.2.1], isInner_mono hkey (by omega)⟩
  le_balance := by
    have hkey : Token.opening .key = 0 := rfl
    have hvalue : colon.item.opening = 0 := by rw [hcolon]; rfl
    simp only [balance_append, balance_cons, balance_nil, hkey, hvalue]
    omega

/-! ### Moves -/

/-- What touches neither the tokens nor the candidates, and does not go back. -/
theorem ledger_of_same (h : Ledger done extra t) (hqueue : t'.queue = t.queue)
    (hdelivered : t'.delivered = t.delivered) (hcandidate : t'.candidate = t.candidate)
    (houter : t'.outer = t.outer) (hpair : t'.inPair = t.inPair)
    (hmark : t.mark.index ≤ t'.mark.index)
    (hkey : t'.inFlow = true → t'.keyAllowed = true → t.keyAllowed = true) :
    Ledger done extra t' where
  delivered := by rw [hdelivered, h.delivered]
  sound := by rw [hqueue]; exact h.sound
  bounded := by
    rw [hqueue]
    exact fun token hmem => Nat.le_trans (h.bounded token hmem) hmark
  candidates := by
    rw [hcandidate, houter, hqueue, hpair]
    intro i k hk
    rcases h.candidates i k hk with ⟨hle, hcut⟩
    exact ⟨Nat.le_trans hle hmark, hcut⟩
  order := by rw [hcandidate, houter]; exact h.order
  last := by
    intro hflow hallowed
    rw [hqueue]
    exact h.last (by rwa [inFlow, ← houter]) (hkey hflow hallowed)

/-- A token is put behind all others. Where it ends or separates something, a flow collection has
    to be open in every candidate. -/
theorem ledger_push_of_precedes (h : Ledger done extra t) (token : Placed Token)
    (hqueue : t'.queue = t.queue ++ [token]) (hdelivered : t'.delivered = t.delivered)
    (hcandidate : t'.candidate = t.candidate) (houter : t'.outer = t.outer)
    (hprecedes : ∀ other ∈ done ++ t.queue, Precedes other token)
    (hcandidates : ∀ k, some k ∈ t.candidate :: t.outer → k.mark.index ≤ token.mark.index)
    (hmark : t.mark.index ≤ t'.mark.index) (hmark' : token.mark.index ≤ t'.mark.index)
    (hend : token.item ≠ .blockEnd)
    (hstop : token.item.isFlowStop = true → t.candidate = none ∨ 1 ≤ extra + t.inPair.toNat)
    (hcount : (extra' + t'.inPair.toNat : Int) ≤ extra + t.inPair.toNat + token.item.opening)
    (hlast : t'.inFlow = true → t'.keyAllowed = true → token.item.letsKeyBegin = true) :
    Ledger done extra' t' where
  delivered := by rw [hdelivered, h.delivered]
  sound := by
    rw [hqueue, ← List.append_assoc]
    exact isSound_push h.sound hprecedes
  bounded := by
    rw [hqueue, ← List.append_assoc]
    intro other hmem
    rcases List.mem_append.mp hmem with hmem | hmem
    · exact Nat.le_trans (h.bounded other hmem) hmark
    · rw [List.mem_singleton.mp hmem]
      exact hmark'
  candidates := by
    rw [hcandidate, houter, hqueue]
    intro i k hk
    rcases h.candidates i k hk with ⟨hle, front, inner, heq, hcut, hlets⟩
    refine ⟨Nat.le_trans hle hmark, front, inner ++ [token], ?_, ?_, hlets⟩
    · rw [← List.append_assoc, heq, List.append_assoc]
    · refine isCut_push hcut (hcandidates k (List.mem_of_getElem? hk)) (fun other hmem => ?_) hend
        (fun hflow => ?_) (by omega)
      · exact hprecedes other (by rw [heq]; exact List.mem_append_right _ hmem)
      · -- Without a candidate on the innermost level, this one is further out.
        rcases hstop hflow with hnone | hpos
        · cases i with
          | zero => simp [hnone] at hk
          | succ i => omega
        · omega
  order := by rw [hcandidate, houter]; exact h.order
  last := by
    intro hflow hallowed
    rw [hqueue, ← List.append_assoc, letsBehind_append]
    exact hlast hflow hallowed

/-- A token is put behind all others and marked where the reader is or further on. -/
theorem ledger_push (h : Ledger done extra t) (token : Placed Token)
    (hqueue : t'.queue = t.queue ++ [token]) (hdelivered : t'.delivered = t.delivered)
    (hcandidate : t'.candidate = t.candidate) (houter : t'.outer = t.outer)
    (hmark : t.mark.index ≤ token.mark.index) (hmark' : token.mark.index ≤ t'.mark.index)
    (hend : token.item ≠ .blockEnd)
    (hstop : token.item.isFlowStop = true → t.candidate = none ∨ 1 ≤ extra + t.inPair.toNat)
    (hcount : (extra' + t'.inPair.toNat : Int) ≤ extra + t.inPair.toNat + token.item.opening)
    (hlast : t'.inFlow = true → t'.keyAllowed = true → token.item.letsKeyBegin = true) :
    Ledger done extra' t' := by
  refine ledger_push_of_precedes h token hqueue hdelivered hcandidate houter ?_ ?_
    (Nat.le_trans hmark hmark') hmark' hend hstop hcount hlast
  · exact fun other hmem => .inr (Nat.le_trans (h.bounded other hmem) hmark)
  · intro k hk
    rcases List.getElem?_of_mem hk with ⟨i, hi⟩
    exact Nat.le_trans (h.candidates i k hi).1 hmark

/-- A token that opens, separates and ends nothing. -/
theorem ledger_push_plain (h : Ledger done extra t) (token : Placed Token)
    (hplain : token.item.IsPlain) (hqueue : t'.queue = t.queue ++ [token])
    (hdelivered : t'.delivered = t.delivered) (hcandidate : t'.candidate = t.candidate)
    (houter : t'.outer = t.outer) (hpair : t'.inPair = t.inPair)
    (hmark : t.mark.index ≤ token.mark.index) (hmark' : token.mark.index ≤ t'.mark.index)
    (hlast : t'.inFlow = true → t'.keyAllowed = true → token.item.letsKeyBegin = true) :
    Ledger done extra t' := by
  refine ledger_push h token hqueue hdelivered hcandidate houter hmark hmark' hplain.ne_blockEnd
    ?_ ?_ hlast
  · simp [hplain.isFlowStop]
  · rw [hpair, hplain.opening]
    omega

theorem ledger_withoutCandidate (h : Ledger done extra t) :
    Ledger done extra { t with candidate := none } where
  delivered := h.delivered
  sound := h.sound
  bounded := h.bounded
  candidates := by
    intro i k hk
    cases i with
    | zero => simp at hk
    | succ i => exact h.candidates (i + 1) k hk
  order := by
    refine List.pairwise_cons.mpr ⟨by simp, (List.pairwise_cons.mp h.order).2⟩
  last := h.last

/-- A candidate begins behind everything that has been read. -/
theorem ledger_saveCandidate (h : Ledger done 0 t) : Ledger done 0 t.saveCandidate := by
  unfold saveCandidate
  split
  · rename_i hallowed
    have hlength : (done ++ t.queue).length = t.delivered + t.queue.length := by
      rw [List.length_append, h.delivered]
    refine ⟨h.delivered, h.sound, h.bounded, fun i k hk => ?_, ?_, h.last⟩
    · cases i with
      | zero =>
        simp only [List.getElem?_cons_zero, Option.some.injEq] at hk
        rw [← hk]
        refine ⟨Nat.le_refl _, done ++ t.queue, [], by simp, ?_, fun hflow => ?_⟩
        · refine ⟨hlength, h.sound, trivial, h.bounded, by simp, trivial, ?_, by simp⟩
          cases t.inPair <;> simp
        · refine h.last ?_ hallowed
          rw [inFlow]
          simpa [← List.length_pos_iff] using hflow
      | succ i => exact h.candidates (i + 1) k hk
    · -- Behind each of the others at least one token has been read.
      refine List.pairwise_cons.mpr ⟨fun outer hmem k hk k' hk' => ?_,
        (List.pairwise_cons.mp h.order).2⟩
      rw [Option.some.injEq] at hk
      rcases List.getElem?_of_mem hmem with ⟨i, hi⟩
      rcases h.candidates (i + 1) k' (by simpa [hk'] using hi) with
        ⟨_, front, inner, heq, hcut, _⟩
      have hne := List.length_pos_iff.mpr (hcut.ne_nil (by omega))
      rw [heq, List.length_append, hcut.number] at hlength
      rw [← hk]
      simp only
      omega
  · exact h

/-- A level of flow nesting is entered behind its token. -/
theorem ledger_enter (h : Ledger done 1 t) (hqueue : t'.queue = t.queue)
    (hdelivered : t'.delivered = t.delivered) (hcandidate : t'.candidate = none)
    (houter : t'.outer = t.candidate :: t.outer) (hpair : t'.inPair = t.inPair)
    (hmark : t.mark.index ≤ t'.mark.index)
    (hlast : letsBehind false (done ++ t.queue) = true) : Ledger done 0 t' where
  delivered := by rw [hdelivered, h.delivered]
  sound := by rw [hqueue]; exact h.sound
  bounded := by
    rw [hqueue]
    exact fun token hmem => Nat.le_trans (h.bounded token hmem) hmark
  candidates := by
    rw [hcandidate, houter, hqueue, hpair]
    intro i k hk
    cases i with
    | zero => simp at hk
    | succ i =>
      rcases h.candidates i k hk with ⟨hle, front, inner, heq, hcut, hlets⟩
      refine ⟨Nat.le_trans hle hmark, front, inner, heq, hcut, fun hi => hlets ?_⟩
      simpa using hi
  order := by
    rw [hcandidate, houter]
    exact List.pairwise_cons.mpr ⟨by simp, h.order⟩
  last := by
    intro _ _
    rwa [hqueue]

/-- A level of flow nesting is left in front of its token. -/
theorem ledger_leaveFlow (h : Ledger done 0 t) (hcandidate : t.candidate = none) :
    Ledger done 1 t.leaveFlow := by
  unfold leaveFlow
  split
  · rename_i houter
    -- Outside flow collections there is no other candidate.
    refine ⟨h.delivered, h.sound, h.bounded, fun i k hk => ?_, h.order, h.last⟩
    rw [hcandidate, houter] at hk
    cases i <;> simp at hk
  · rename_i candidate outer houter
    refine ⟨h.delivered, h.sound, h.bounded, fun i k hk => ?_, ?_, fun _ hallowed => ?_⟩
    · rcases h.candidates (i + 1) k (by simpa [houter] using hk) with
        ⟨hle, front, inner, heq, hcut, hlets⟩
      refine ⟨hle, front, inner, heq, hcut, fun hi => hlets ?_⟩
      simpa [houter] using hi
    · have := h.order
      rw [houter] at this
      exact (List.pairwise_cons.mp this).2
    · exact h.last (by simp [inFlow, houter]) hallowed

/-! ### Block collections -/

/-- Tokens of one kind with one mark are in order. -/
theorem isSound_replicate (lets : Bool) (count : Nat) (token : Placed Token) :
    IsSound lets (List.replicate count token) := by
  induction count generalizing lets with
  | zero => trivial
  | succ count ih =>
    refine ⟨.inl fun other hmem => .inr ?_, ih _⟩
    rw [(List.mem_replicate.mp hmem).2]

/-- Block collections end where no candidate is left outside flow collections. -/
theorem ledger_closeTo (h : Ledger done extra t) (hcandidate : t.candidate = none)
    (column : Nat) : Ledger done extra (t.closeTo column) := by
  unfold closeTo
  split
  · exact h
  · rename_i hflow
    have houter : t.outer = [] := by simpa [inFlow] using hflow
    have hnone (i : Nat) (k : Candidate) : (t.candidate :: t.outer)[i]? ≠ some (some k) := by
      rw [hcandidate, houter]
      cases i <;> simp
    refine ⟨h.delivered, ?_, ?_, fun i k hk => absurd hk (hnone i k), h.order,
      fun hflow' => absurd hflow' hflow⟩
    · rw [← List.append_assoc]
      refine isSound_append h.sound (isSound_replicate _ _ _) fun token hmem other hmem' => .inr ?_
      rw [(List.mem_replicate.mp hmem').2]
      exact h.bounded token hmem
    · rw [← List.append_assoc]
      intro token hmem
      rcases List.mem_append.mp hmem with hmem | hmem
      · exact h.bounded token hmem
      · rw [(List.mem_replicate.mp hmem).2]
        exact Nat.le_refl _

/-- A block collection begins. -/
theorem ledger_indent (h : Ledger done extra t) (column : Nat) (token : Token)
    (htoken : token.IsPlain) : Ledger done extra (t.indent column none token t.mark) := by
  simp only [indent]
  split
  · exact h
  · rename_i hflow
    split
    · exact ledger_push_plain h _ htoken rfl rfl rfl rfl rfl (Nat.le_refl _) (Nat.le_refl _)
        fun hflow' => absurd hflow' hflow
    · exact ledger_of_same h rfl rfl rfl rfl rfl (Nat.le_refl _) fun _ => id

theorem ledger_addProvisional (h : Ledger done extra t) : Ledger done extra t.addProvisional := by
  unfold addProvisional
  split
  · exact h
  · exact ledger_of_same h rfl rfl rfl rfl rfl (Nat.le_refl _) fun _ => id

/-! ### Keys -/

/-- Where a candidate begins the queue falls in two as well. -/
theorem exists_split_of_isCut {depth : Nat} {inPair : Bool} {front inner : List (Placed Token)}
    {k : Candidate} (h : IsCut depth inPair front inner k) (hdelivered : done.length = t.delivered)
    (heq : done ++ t.queue = front ++ inner) (hle : t.delivered ≤ k.number) :
    ∃ ahead, front = done ++ ahead ∧ t.queue = ahead ++ inner ∧
      k.number = t.delivered + ahead.length := by
  rcases List.append_eq_append_iff.mp heq with ⟨ahead, hfront, hqueue⟩ | ⟨ahead, hdone, hinner⟩
  · refine ⟨ahead, hfront, hqueue, ?_⟩
    rw [← h.number, hfront, List.length_append, hdelivered]
  · -- Otherwise the candidate would begin with a token that has been handed out.
    have hlength : done.length = front.length + ahead.length := by
      rw [hdone, List.length_append]
    have hnil : ahead = [] := by
      rw [← List.length_eq_zero_iff]
      have := h.number
      omega
    subst hnil
    refine ⟨[], by simpa using hdone.symm, by simpa using hinner.symm, ?_⟩
    rw [← h.number, ← hdelivered, hlength]
    simp

/-- Between two candidates something has been read. -/
theorem exists_mid_of_isCut {depth depth' : Nat} {inPair inPair' : Bool}
    {front inner front' inner' : List (Placed Token)} {k k' : Candidate}
    (h : IsCut depth inPair front inner k) (h' : IsCut depth' inPair' front' inner' k')
    (heq : front ++ inner = front' ++ inner') (hlt : k'.number < k.number) :
    ∃ mid, mid ≠ [] ∧ front = front' ++ mid ∧ inner' = mid ++ inner := by
  rw [← h.number, ← h'.number] at hlt
  rcases List.append_eq_append_iff.mp heq with ⟨mid, hmid, _⟩ | ⟨mid, hmid, hinner⟩
  · rw [hmid, List.length_append] at hlt
    omega
  · refine ⟨mid, ?_, hmid, hinner⟩
    rintro rfl
    simp [hmid] at hlt

/-- A candidate turns out to be a key: a key token is put in front of it, perhaps with the start
    of a mapping, and its colon behind all others. -/
theorem ledger_insert (h : Ledger done 0 t) {k : Candidate} (hk : t.candidate = some k)
    (heads : List (Placed Token)) {ahead inner : List (Placed Token)} {colon : Placed Token}
    (hnumber : k.number = t.delivered + ahead.length) (hsplit : t.queue = ahead ++ inner)
    (hqueue : t'.queue = ahead ++ (heads ++ ⟨.key, k.mark⟩ :: (inner ++ [colon])))
    (hdelivered : t'.delivered = t.delivered) (hcandidate : t'.candidate = none)
    (houter : t'.outer = t.outer) (hcolon : colon.item = .value)
    (hmark : colon.mark = t.mark) (hmark' : t.mark.index ≤ t'.mark.index)
    (hheads : heads = [] ∨ ∃ token, heads = [token] ∧ IsHead t.inFlow token ∧
      t.mark.index ≤ token.mark.index ∧ token.mark.index ≤ t'.mark.index)
    (hpair : (t'.inPair.toNat : Int) ≤ balance heads) (hallowed : t'.keyAllowed = false) :
    Ledger done 0 t' := by
  rcases h.candidates 0 k (by simp [hk]) with ⟨hle, front, inner', heq, hcut, hlets⟩
  -- The candidate cuts the tokens where the queue falls in two.
  have hparts : front = done ++ ahead ∧ inner' = inner := by
    refine List.append_inj (by rw [← heq, hsplit, List.append_assoc]) ?_
    rw [hcut.number, hnumber, List.length_append, h.delivered]
  rcases hparts with ⟨hfront, rfl⟩
  generalize hrow_eq : heads ++ ⟨.key, k.mark⟩ :: (inner' ++ [colon]) = row at hqueue
  have hrow : IsRow (letsBehind false front) t'.inPair k.mark.index t'.mark.index inner' row := by
    rw [← hrow_eq]
    refine isRow_key hcut hcolon (by rwa [hmark]) (by rwa [hmark]) (fun token hmem => ?_) ?_ hpair
    · rw [hmark]
      exact h.bounded token (by rw [heq]; exact List.mem_append_right _ hmem)
    · rcases hheads with hnil | ⟨head, hsingle, hhead, hbounds⟩
      · exact .inl hnil
      · refine .inr ⟨head, hsingle, ?_, by rwa [hmark]⟩
        -- Inside a flow collection a key may begin where the candidate does.
        rcases hhead with hblock | ⟨hflow, hinside⟩
        · exact .inl hblock
        · refine .inr ⟨hflow, hlets ?_⟩
          simpa [inFlow, List.length_pos_iff] using hinside
  have hhistory : done ++ t'.queue = front ++ row := by
    rw [hqueue, hfront, List.append_assoc]
  refine ⟨by rw [hdelivered, h.delivered], ?_, ?_, fun i k' hk' => ?_, ?_, by simp [hallowed]⟩
  · rw [hhistory]
    exact isSound_append hcut.sound_front hrow.sound fun token hmem other hmem' =>
      .inr (Nat.le_trans (hcut.front_le token hmem) (hrow.lower_le other hmem'))
  · rw [hhistory]
    intro token hmem
    rcases List.mem_append.mp hmem with hmem | hmem
    · exact Nat.le_trans (hcut.front_le token hmem) (Nat.le_trans hle hmark')
    · exact hrow.le_upper token hmem
  · -- The candidates further out begin in front of this one.
    rw [hcandidate, houter] at hk'
    rw [hhistory, houter]
    cases i with
    | zero => simp at hk'
    | succ i =>
      rw [List.getElem?_cons_succ] at hk'
      rcases h.candidates (i + 1) k' hk' with ⟨hle', front', inner₁, heq', hcut', hlets'⟩
      have hlt : k'.number < k.number :=
        (List.pairwise_cons.mp h.order).1 _ (List.mem_of_getElem? hk') k hk k' rfl
      rcases exists_mid_of_isCut hcut hcut' (heq ▸ heq') hlt with ⟨mid, hne, rfl, rfl⟩
      rw [letsBehind_append, letsBehind_of_ne_nil hne _ false] at hrow
      refine ⟨Nat.le_trans hle' hmark', front', mid ++ row, by rw [List.append_assoc],
        isCut_insert hcut' hne (isSound_right hcut.sound_front) (fun token hmem => ?_) hrow, hlets'⟩
      exact hcut.front_le token (List.mem_append_right _ hmem)
  · rw [hcandidate, houter]
    exact List.pairwise_cons.mpr ⟨by simp, (List.pairwise_cons.mp h.order).2⟩

end Tokenizer

end Yaml

end YamlLocator
