import YamlLocator.Proofs.BlockStyle.Lines
import YamlLocator.Proofs.TokenQueue

/-!
# Rounds in Block Style

What single rounds of the tokenizer do while it reads a document in block style. Outside
flow collections most of the state does not matter; `inBlock` is a state with the rest of it
named, and a round leads from one such state to another.

Three kinds of rounds occur: one finds a quoted scalar, one finds the colon behind a key,
and the last one finds the end of the text. Which tokens of the layout come with them is left
to `Layout` here, and is worked out where the depths of the rows are known.

Between the rounds tokens are handed out. They leave the queue one after the other as long as
no candidate begins with the next one.

## Main definitions

* `Tokenizer.inBlock`: The reader outside flow collections.

## Theorems

* `runs_deliver`: Tokens in front of the candidate are handed out.
* `round_inBlock`: A round goes to the next token and closes what ends in front of it.
* `quotedScalar_inBlock`: A quoted scalar is read.
* `value_inBlock`: A colon turns the candidate into a key.
* `streamEnd_inBlock`: The end of the text closes everything.
-/

namespace YamlLocator

namespace Yaml

namespace Tokenizer

open BlockStyle

/-- The reader outside flow collections. -/
def inBlock (cursor : Cursor) (queue : List (Placed Token)) (delivered : Nat) (keyAllowed : Bool)
    (candidate : Option Candidate) (levels : List Level) (adjacent : Nat) : Tokenizer :=
  { cursor, queue, delivered, keyAllowed, candidate, outer := [], levels, adjacent
    inMapping := false
    inPair := false
    ended := false }

/-! ### Steps -/

/-- An empty queue is filled by a round. -/
theorem runs_of_round {t t' : Tokenizer} (hqueue : t.queue = []) (hended : t.ended = false)
    (h : t.round = .ok t') : Runs t [] t' := by
  have hstep : t.step = .ok (none, t') := by
    rw [step, hqueue, hended]
    simp only [Bool.false_eq_true, if_false, h]
    rfl
  exact runs_of_step hstep

/-- A candidate that the queue begins with is looked at by a round. -/
theorem runs_of_round_waiting {t t' : Tokenizer} {k : Candidate} {first : Placed Token}
    {rest : List (Placed Token)} (hqueue : t.queue = first :: rest) (hended : t.ended = false)
    (hcandidate : t.candidate = some k) (hnumber : k.number = t.delivered)
    (hfresh : k.isStale t.mark = false) (h : t.round = .ok t') : Runs t [] t' := by
  have hstale : t.dropStale = .ok t := by
    simp [dropStale, hcandidate, hfresh]
  have hwaiting : t.isWaiting = true := by
    simp [isWaiting, hcandidate, hnumber]
  have hstep : t.step = .ok (none, t') := by
    rw [step, hqueue, hstale]
    simp only [bind, Except.bind, hwaiting, hended, Bool.not_false, Bool.and_self, if_true, h]
    rfl
  exact runs_of_step hstep

/-- Tokens are handed out as long as the candidate begins behind them. -/
theorem runs_deliver (front back : List (Placed Token)) (t : Tokenizer)
    (hqueue : t.queue = front ++ back) (houter : t.outer = [])
    (hcandidate : ∀ k ∈ t.candidate,
      k.isStale t.mark = false ∧ t.delivered + front.length ≤ k.number) :
    ∃ out, Runs t out { t with queue := back, delivered := t.delivered + front.length } ∧
      out.map Delivered.toPlaced = front := by
  induction front generalizing t with
  | nil =>
    refine ⟨[], ?_, rfl⟩
    rw [List.nil_append] at hqueue
    rw [← hqueue]
    exact .none t
  | cons first front ih =>
    have hstale : t.dropStale = .ok t := by
      unfold dropStale
      split
      · rfl
      · rename_i k hk
        simp [(hcandidate k hk).1]
    -- No candidate begins with the first token, so it need not wait.
    have hwaiting : t.isWaiting = false := by
      rw [isWaiting, houter, List.any_cons, List.any_nil, Bool.or_false, Option.any_eq_false]
      intro k hk
      have := (hcandidate k hk).2
      rw [List.length_cons] at this
      rw [decide_eq_false_iff_not]
      omega
    have hstep : t.step = .ok (some { toPlaced := first, reached := t.mark }, t.withoutFirst) := by
      rw [step, hqueue, List.cons_append, hstale]
      simp only [bind, Except.bind, hwaiting, Bool.false_and, Bool.false_eq_true, if_false]
      rfl
    rcases ih t.withoutFirst (by simp [withoutFirst, hqueue]) houter (fun k hk => by
      have := hcandidate k hk
      simp only [List.length_cons] at this
      exact ⟨this.1, by simp only [withoutFirst]; omega⟩) with ⟨out, hruns, hout⟩
    refine ⟨{ toPlaced := first, reached := t.mark } :: out, ?_, ?_⟩
    · have := runs_append (runs_of_step hstep) hruns
      simp only [withoutFirst, Option.toList_some, List.singleton_append] at this
      rwa [List.length_cons, Nat.add_comm front.length, ← Nat.add_assoc]
    · rw [List.map_cons, hout]

/-- Nothing is left to be had behind the end of the stream. -/
theorem step_of_ended {t : Tokenizer} (hqueue : t.queue = []) (hended : t.ended = true) :
    t.step = .error { fault := .unexpectedEnd, mark := t.mark } := by
  rw [step, hqueue, hended]
  rfl

theorem runs_deliver_inBlock (c : Cursor) (front back : List (Placed Token)) (delivered : Nat)
    (keyAllowed : Bool) (candidate : Option Candidate) (levels : List Level) (adjacent : Nat)
    (hcandidate : ∀ k ∈ candidate, k.isStale c.mark = false ∧ delivered + front.length ≤ k.number) :
    ∃ out, Runs (inBlock c (front ++ back) delivered keyAllowed candidate levels adjacent) out
        (inBlock c back (delivered + front.length) keyAllowed candidate levels adjacent) ∧
      out.map Delivered.toPlaced = front :=
  runs_deliver front back _ rfl rfl hcandidate

/-! ### Rounds -/

/-- A round goes to the next token and closes the block collections that end there. -/
theorem round_inBlock {c c' : Cursor} {broken : Bool} (queue : List (Placed Token))
    (delivered : Nat) (keyAllowed : Bool) (candidate : Option Candidate) {levels : List Level}
    (adjacent : Nat)
    (hseparation : c.separation (Layout.margin levels) false = .ok (c', broken))
    (hfresh : ∀ k ∈ candidate, k.isStale c'.mark = false) :
    (inBlock c queue delivered keyAllowed candidate levels adjacent).round =
      (inBlock c' (queue ++ List.replicate (Layout.closedTo (c'.mark.column + 1) levels)
          { item := .blockEnd, mark := c'.mark })
        delivered (keyAllowed || broken) candidate (Layout.closeTo (c'.mark.column + 1) levels)
        adjacent).token := by
  have hseparate : (inBlock c queue delivered keyAllowed candidate levels adjacent).separate =
      .ok (inBlock c' queue delivered (keyAllowed || broken) candidate levels adjacent) := by
    simp only [separate, margin, inBlock, hseparation]
    simp [inFlow, bind, Except.bind, pure, Except.pure]
  have hstale :
      (inBlock c' queue delivered (keyAllowed || broken) candidate levels adjacent).dropStale =
        .ok (inBlock c' queue delivered (keyAllowed || broken) candidate levels adjacent) := by
    cases candidate with
    | none => rfl
    | some k =>
      have hk : k.isStale c'.mark = false := hfresh k rfl
      simp [dropStale, inBlock, mark, hk]
  rw [round, hseparate]
  simp only [bind, Except.bind, hstale]
  rfl

theorem upcoming_of_quote (t : Tokenizer) {rest : List Char} (hrest : t.cursor.rest = '\'' :: rest)
    (hmargin : t.margin ≤ t.mark.column + 1) :
    t.upcoming = .quotedScalar .single .singleQuoted := by
  have hpeek : t.cursor.peek = '\'' := Cursor.peek_cons hrest
  rw [upcoming, Cursor.atSign, Cursor.atSign, hpeek, if_neg (by decide), if_neg (by simp),
    if_neg (by simp), if_neg (by simp), if_neg (Nat.not_lt_of_le hmargin), indicated]

theorem upcoming_of_colon (t : Tokenizer) {rest : List Char} (hrest : t.cursor.rest = ':' :: rest)
    (hgap : isGap (rest.headD endMark) = true) (hmargin : t.margin ≤ t.mark.column + 1) :
    t.upcoming = .value := by
  have hpeek : t.cursor.peek = ':' := Cursor.peek_cons hrest
  have hvalue : t.atValue = true := by
    rw [atValue, Cursor.peekAt, hrest, List.drop_succ_cons, List.drop_zero, hgap, Bool.true_or]
  rw [upcoming, Cursor.atSign, Cursor.atSign, hpeek, if_neg (by decide), if_neg (by simp),
    if_neg (by simp), if_neg (by simp), if_neg (Nat.not_lt_of_le hmargin), indicated, if_pos hvalue]

section Token

variable {c : Cursor} {rest : List Char} {queue : List (Placed Token)} {delivered : Nat}
  {keyAllowed : Bool} {candidate : Option Candidate} {levels : List Level} {adjacent : Nat}

/-- At a quote, a quoted scalar is read. -/
theorem token_of_quote (hrest : c.rest = '\'' :: rest)
    (hmargin : Layout.margin levels ≤ c.mark.column + 1) :
    (inBlock c queue delivered keyAllowed candidate levels adjacent).token =
      (inBlock c queue delivered keyAllowed candidate levels adjacent).quotedScalar .single
        .singleQuoted := by
  rw [token, upcoming_of_quote (inBlock c queue delivered keyAllowed candidate levels adjacent)
    hrest hmargin]

/-- At a colon with a gap behind it, a value begins. -/
theorem token_of_colon (hrest : c.rest = ':' :: rest) (hgap : isGap (rest.headD endMark) = true)
    (hmargin : Layout.margin levels ≤ c.mark.column + 1) :
    (inBlock c queue delivered keyAllowed candidate levels adjacent).token =
      (inBlock c queue delivered keyAllowed candidate levels adjacent).value := by
  rw [token, upcoming_of_colon (inBlock c queue delivered keyAllowed candidate levels adjacent)
    hrest hgap hmargin]

/-- At the end of the text, the stream ends. -/
theorem token_of_end (hrest : c.rest = []) :
    (inBlock c queue delivered keyAllowed candidate levels adjacent).token =
      (inBlock c queue delivered keyAllowed candidate levels adjacent).streamEnd := by
  have hpeek : (inBlock c queue delivered keyAllowed candidate levels adjacent).cursor.peek =
      endMark := Cursor.peek_nil hrest
  rw [token, upcoming, hpeek, if_pos (by decide)]

end Token

/-! ### Tokens -/

/-- Where a key may begin, a candidate is saved that begins behind the queue. -/
theorem exists_saveCandidate (c : Cursor) (queue : List (Placed Token)) (delivered : Nat)
    (candidate : Option Candidate) (levels : List Level) (adjacent : Nat) :
    ∃ k, (inBlock c queue delivered true candidate levels adjacent).saveCandidate =
        inBlock c queue delivered true (some k) levels adjacent ∧
      k.number = delivered + queue.length ∧ k.mark = c.mark := ⟨_, rfl, rfl, rfl⟩

/-- A quoted scalar is read, and what separates it from the next token is gone over. -/
theorem quotedScalar_inBlock {c : Cursor} (text : LineText) (suffix : List Char)
    {queue : List (Placed Token)} {delivered : Nat} {keyAllowed : Bool}
    {candidate candidate' : Option Candidate} {levels : List Level} {adjacent : Nat}
    (hsave : (inBlock c queue delivered keyAllowed candidate levels adjacent).saveCandidate =
      inBlock c queue delivered keyAllowed candidate' levels adjacent)
    (hrest : c.rest = quoted text.text.toList ++ suffix)
    (hsuffix : suffix.headD endMark = ':' ∨ isLineEnd (suffix.headD endMark) = true)
    (hmargin : Layout.margin levels ≤ c.mark.column + 2) :
    ∃ closed : Cursor, closed.rest = suffix ∧
      closed.mark = c.mark.right (quoted text.text.toList).length ∧
      ∀ c' broken, closed.separation (Layout.margin levels) false = .ok (c', broken) →
        (inBlock c queue delivered keyAllowed candidate levels adjacent).quotedScalar .single
            .singleQuoted =
          .ok (inBlock c' (queue ++ [{ item := .scalar .singleQuoted text.text, mark := c.mark }])
            delivered broken candidate' levels c'.mark.index) := by
  -- What may follow a quoted scalar is neither a part of it nor a comment.
  have hnext : suffix.headD endMark ≠ '\'' ∧ suffix.headD endMark ≠ '#' ∧
      isBlank (suffix.headD endMark) = false := by
    rcases hsuffix with h | h
    · rw [h]
      decide
    · simp only [isLineEnd, isBreak, isEnd, Bool.or_eq_true, decide_eq_true_eq] at h
      rcases h with (h | h) | h <;> rw [h] <;> decide
  rcases readQuoted_quoted c.mark text suffix hrest hnext.1 hmargin with
    ⟨closed, hread, hclosed, hmark⟩
  refine ⟨closed, hclosed, hmark, ?_⟩
  intro c' broken hseparation
  have hpeek : closed.peek = suffix.headD endMark := by
    rw [Cursor.peek, hclosed]
  have hlineRest : closed.lineRest = .ok closed :=
    Cursor.lineRest_of_ne (by rw [hpeek]; exact hnext.2.2) (by rw [hpeek]; exact hnext.2.1)
  have hends : endsQuoted false c.mark.line closed = true := by
    rw [endsQuoted, hpeek]
    rcases hsuffix with h | h
    · rw [h, hmark]
      simp [Mark.right]
    · rw [h]
      rfl
  rw [quotedScalar, hsave]
  simp only [bind, Except.bind, margin, mark, inBlock, hread, hlineRest]
  simp only [inFlow, List.isEmpty_nil, Bool.not_true, hends, if_true]
  simp only [allowKey, moveTo, separate, bind, Except.bind, margin, hseparation]
  simp [push, inFlow, pure, Except.pure, String.ofList_toList]

/-- A colon turns the candidate that the queue begins with into a key, in front of which a
    mapping may begin. -/
theorem value_inBlock {c : Cursor} {rest : List Char} (queue : List (Placed Token))
    (keyAllowed : Bool) (k : Candidate) (levels : List Level) (adjacent : Nat)
    (hrest : c.rest = ':' :: rest) (htab : rest.headD endMark ≠ '\t') :
    (inBlock c queue k.number keyAllowed (some k) levels adjacent).value =
      .ok (inBlock (c.advance 1)
        ((if (Layout.indent k.mark.column levels).2 then
            [{ item := .blockMappingStart, mark := c.mark }]
          else []) ++ { item := .key, mark := k.mark } ::
            (queue ++ [{ item := .value, mark := c.mark }]))
        k.number false none (Layout.addProvisional (Layout.indent k.mark.column levels).1)
        adjacent) := by
  have hcolon : passColon c = .ok (c.advance 1) := by
    have hpeek : (c.advance 1).peek = rest.headD endMark := by
      rw [Cursor.peek, Cursor.rest_advance, hrest, List.drop_succ_cons, List.drop_zero]
    simp only [passColon, hpeek, htab, if_false]
  simp only [value, bind, Except.bind, inBlock, hcolon, mark]
  -- The place of the candidate in the queue is the first one.
  simp only [valueOf, startPair, pushBefore, indent, inFlow, bind, Except.bind, List.isEmpty_nil,
    Bool.not_true, Bool.false_and, Bool.false_eq_true, if_false, Nat.sub_self]
  split <;> simp [addProvisional, inFlow, allowKey, push, pure, Except.pure]

/-- The end of the text closes the block collections that are open, behind those that were
    closed by the round already, and leaves no candidate. -/
theorem streamEnd_inBlock (c : Cursor) (queue : List (Placed Token)) (delivered : Nat)
    (keyAllowed : Bool) (levels : List Level) (adjacent : Nat) :
    ∃ t, (inBlock c queue delivered keyAllowed none levels adjacent).streamEnd = .ok t ∧
      t.queue = queue ++ List.replicate (Layout.closedTo 0 levels)
          { item := .blockEnd, mark := (afterLastLine c).mark } ++
        [{ item := .streamEnd, mark := (afterLastLine c).mark }] ∧
      t.candidate = none ∧ t.outer = [] ∧ t.ended = true := by
  refine ⟨{ inBlock (afterLastLine c)
      (queue ++ List.replicate (Layout.closedTo 0 levels)
          { item := .blockEnd, mark := (afterLastLine c).mark } ++
        [{ item := .streamEnd, mark := (afterLastLine c).mark }])
      delivered false none (Layout.closeTo 0 levels) adjacent with ended := true },
    ?_, rfl, rfl, rfl, rfl⟩
  simp [streamEnd, endDocument, dropCandidate, closeTo, moveTo, allowKey, push, inFlow, mark,
    inBlock, bind, Except.bind, pure, Except.pure]

end Tokenizer

end Yaml

end YamlLocator
