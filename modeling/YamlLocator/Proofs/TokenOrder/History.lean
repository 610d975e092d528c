import Mathlib.Algebra.Ring.Int.Defs
import Mathlib.Data.List.Basic
import YamlLocator.Yaml.Token.Basic

/-!
# The Order of Marks in a Row of Tokens

The tokens of a text come in the order of their marks, with two exceptions. A mapping whose
key has no sign is found out only at the colon: its start is put in front of the key then but
keeps the mark of the colon, so it is marked behind all tokens of its key. And the start of a
mapping of one pair is marked behind its own colon.

Such a start does no harm as long as its mapping does not end in front of the colon, and that is
what has to be known about the tokens of a key. No block collection ends in it. A flow
collection may end in it in front of which more were opened than ended; as soon as there is
none of these left, no token comes that separates or ends anything in a flow collection. So
the balance of a row of tokens is kept, which counts the flow collections that it opens and
takes away those that it ends.

## Main definitions

* `Token.opening`, `balance`: How many flow collections tokens open.
* `IsInner`: What lies between a key without a sign and its colon.
* `Precedes`: Two tokens stand in the order of their marks, or at a colon.
* `IsPending`: A colon is still to come, behind which everything comes later than a mark.
* `IsSound`: Every token is in order with the ones behind it, or starts a mapping in front of
  its key.

## Theorems

* `isInner_append`: What is true of two rows in turn.
* `isSound_append`: Rows are put behind each other.
* `isSound_insert`: The start of a mapping is put in front of its key.
-/

namespace YamlLocator

namespace Yaml

namespace Token

/-- How many more flow collections are open behind a token. -/
def opening : Token → Int
  | .flowSequenceStart => 1
  | .flowMappingStart => 1
  | .flowSequenceEnd => -1
  | .flowMappingEnd => -1
  | _ => 0

/-- Whether a token separates or ends something in a flow collection. -/
def isFlowStop : Token → Bool
  | .flowEntry => true
  | .flowSequenceEnd => true
  | .flowMappingEnd => true
  | _ => false

/-- Whether a key without a sign may begin behind a token in a flow collection. -/
def letsKeyBegin : Token → Bool
  | .flowSequenceStart => true
  | .flowMappingStart => true
  | .flowEntry => true
  | .scalar .. => true
  | _ => false

end Token

/-- How many more flow collections are open behind some tokens. -/
def balance (tokens : List (Placed Token)) : Int := (tokens.map (·.item.opening)).sum

@[simp]
theorem balance_nil : balance [] = 0 := rfl

@[simp]
theorem balance_cons (token : Placed Token) (rest : List (Placed Token)) :
    balance (token :: rest) = token.item.opening + balance rest := by
  simp [balance]

@[simp]
theorem balance_append (front back : List (Placed Token)) :
    balance (front ++ back) = balance front + balance back := by
  simp [balance]

/-- Whether a key without a sign may begin behind some tokens, with what holds in front of
    them. -/
def letsBehind (lets : Bool) (tokens : List (Placed Token)) : Bool :=
  tokens.foldl (fun _ token => token.item.letsKeyBegin) lets

@[simp]
theorem letsBehind_nil (lets : Bool) : letsBehind lets [] = lets := rfl

@[simp]
theorem letsBehind_cons (lets : Bool) (token : Placed Token) (rest : List (Placed Token)) :
    letsBehind lets (token :: rest) = letsBehind token.item.letsKeyBegin rest := rfl

@[simp]
theorem letsBehind_append (lets : Bool) (front back : List (Placed Token)) :
    letsBehind lets (front ++ back) = letsBehind (letsBehind lets front) back := by
  simp [letsBehind]

/-- What holds in front of some tokens does not matter. -/
theorem letsBehind_of_ne_nil {tokens : List (Placed Token)} (h : tokens ≠ []) (lets lets' : Bool) :
    letsBehind lets tokens = letsBehind lets' tokens := by
  cases tokens with
  | nil => exact absurd rfl h
  | cons token rest => rfl

/-! ### The tokens of a key -/

/-- Tokens inside so many flow collections as can be told: no block collection ends in them, and
    nothing is separated or ended in a flow collection where none is left. -/
def IsInner : Int → List (Placed Token) → Prop
  | _, [] => True
  | above, token :: rest =>
    token.item ≠ .blockEnd ∧ (token.item.isFlowStop = true → 0 ≤ above) ∧
      IsInner (above + token.item.opening) rest

theorem isInner_append {above : Int} {front back : List (Placed Token)} :
    IsInner above (front ++ back) ↔ IsInner above front ∧ IsInner (above + balance front) back := by
  induction front generalizing above with
  | nil => simp [IsInner]
  | cons token rest ih =>
    simp only [List.cons_append, IsInner, ih, balance_cons, and_assoc, Int.add_assoc]

theorem isInner_mono {above above' : Int} {tokens : List (Placed Token)} (h : IsInner above tokens)
    (hle : above ≤ above') : IsInner above' tokens := by
  induction tokens generalizing above above' with
  | nil => trivial
  | cons token rest ih =>
    rcases h with ⟨hend, hstop, hrest⟩
    exact ⟨hend, fun hflow => Int.le_trans (hstop hflow) hle, ih hrest (by omega)⟩

/-- A token more behind the others. -/
theorem isInner_push {above : Int} {tokens : List (Placed Token)} (h : IsInner above tokens)
    {token : Placed Token} (hend : token.item ≠ .blockEnd)
    (hstop : token.item.isFlowStop = true → 0 ≤ above + balance tokens) :
    IsInner above (tokens ++ [token]) :=
  isInner_append.mpr ⟨h, hend, hstop, trivial⟩

/-! ### Order -/

/-- The first token is marked in front of the second one, or it starts a mapping and the second
    one is a colon. -/
def Precedes (a b : Placed Token) : Prop :=
  (a.item = .flowMappingStart ∧ b.item = .value) ∨ a.mark.index ≤ b.mark.index

/-- Nothing but colons is marked in front of a mark. -/
def IsBehind (start : Mark) (tokens : List (Placed Token)) : Prop :=
  ∀ token ∈ tokens, token.item ≠ .value → start.index ≤ token.mark.index

/-- A colon is still to come inside some flow collections, and behind it nothing is marked in
    front of a mark. -/
def IsPending (above : Int) (start : Mark) (tokens : List (Placed Token)) : Prop :=
  ∃ inner colon behind, tokens = inner ++ colon :: behind ∧ colon.item = .value ∧
    IsInner above inner ∧ IsBehind start behind

theorem isBehind_of_precedes {token : Placed Token} {tokens : List (Placed Token)}
    (h : ∀ other ∈ tokens, Precedes token other) : IsBehind token.mark tokens := by
  intro other hmem hvalue
  rcases h other hmem with ⟨_, hcolon⟩ | hle
  · exact absurd hcolon hvalue
  · exact hle

theorem isBehind_append {start : Mark} {front back : List (Placed Token)}
    (hfront : IsBehind start front) (hback : IsBehind start back) :
    IsBehind start (front ++ back) := by
  intro token hmem
  rcases List.mem_append.mp hmem with hmem | hmem
  · exact hfront token hmem
  · exact hback token hmem

theorem isPending_append {above : Int} {start : Mark} {front back : List (Placed Token)}
    (hfront : IsPending above start front) (hback : IsBehind start back) :
    IsPending above start (front ++ back) := by
  rcases hfront with ⟨inner, colon, behind, rfl, hcolon, hinner, hbehind⟩
  exact ⟨inner, colon, behind ++ back, by simp, hcolon, hinner, isBehind_append hbehind hback⟩

/-- The start of a mapping that may be put in front of a key without a sign. In a flow
    collection it stands only where a key may begin. -/
def IsHead (lets : Bool) (token : Placed Token) : Prop :=
  token.item = .blockMappingStart ∨ (token.item = .flowMappingStart ∧ lets = true)

/-- A token is in order with those behind it, or it is the start of a mapping in front of a
    key without a sign. -/
def IsSettled (lets : Bool) (token : Placed Token) (after : List (Placed Token)) : Prop :=
  (∀ other ∈ after, Precedes token other) ∨
    (IsHead lets token ∧
      ∃ key rest, after = key :: rest ∧ key.item = .key ∧ IsPending 0 token.mark rest)

/-- Every token is settled, where `lets` says whether a key may begin in front of them. -/
def IsSound : Bool → List (Placed Token) → Prop
  | _, [] => True
  | lets, token :: rest => IsSettled lets token rest ∧ IsSound token.item.letsKeyBegin rest

theorem isSettled_append {lets : Bool} {token : Placed Token} {after tail : List (Placed Token)}
    (h : IsSettled lets token after) (htail : ∀ other ∈ tail, Precedes token other) :
    IsSettled lets token (after ++ tail) := by
  rcases h with h | ⟨hstart, key, rest, rfl, hkey, hpending⟩
  · left
    intro other hmem
    rcases List.mem_append.mp hmem with hmem | hmem
    · exact h other hmem
    · exact htail other hmem
  · exact .inr ⟨hstart, key, rest ++ tail, by simp, hkey,
      isPending_append hpending (isBehind_of_precedes htail)⟩

/-- Where no key may begin there is less to begin with. -/
theorem isSound_of_false {tokens : List (Placed Token)} (h : IsSound false tokens) (lets : Bool) :
    IsSound lets tokens := by
  cases tokens with
  | nil => trivial
  | cons token rest =>
    refine ⟨?_, h.2⟩
    rcases h.1 with h | ⟨hblock | ⟨_, hlets⟩, hahead⟩
    · exact .inl h
    · exact .inr ⟨.inl hblock, hahead⟩
    · simp at hlets

/-- Rows are put behind each other. -/
theorem isSound_append {lets : Bool} {front back : List (Placed Token)}
    (hfront : IsSound lets front) (hback : IsSound (letsBehind lets front) back)
    (hcross : ∀ token ∈ front, ∀ other ∈ back, Precedes token other) :
    IsSound lets (front ++ back) := by
  induction front generalizing lets with
  | nil => exact hback
  | cons token rest ih =>
    refine ⟨isSettled_append hfront.1 (hcross token List.mem_cons_self), ih hfront.2 hback ?_⟩
    exact fun other hmem => hcross other (List.mem_cons_of_mem _ hmem)

theorem isSound_singleton (lets : Bool) (token : Placed Token) : IsSound lets [token] :=
  ⟨.inl (by simp), trivial⟩

theorem isSound_push {lets : Bool} {tokens : List (Placed Token)} (h : IsSound lets tokens)
    {token : Placed Token} (hle : ∀ other ∈ tokens, Precedes other token) :
    IsSound lets (tokens ++ [token]) :=
  isSound_append h (isSound_singleton _ token) (by simpa using hle)

/-- The end of a sound row. -/
theorem isSound_right {lets : Bool} {front back : List (Placed Token)}
    (h : IsSound lets (front ++ back)) : IsSound (letsBehind lets front) back := by
  induction front generalizing lets with
  | nil => exact h
  | cons token rest ih => exact ih h.2

/-- A beginning that is sound by itself is sound in front of a place where no key may begin as
    well, if the whole row is. -/
theorem isSound_false_left {lets : Bool} {front back : List (Placed Token)}
    (h : IsSound false (front ++ back)) (hfront : IsSound lets front) : IsSound false front := by
  cases front with
  | nil => trivial
  | cons token rest =>
    refine ⟨?_, hfront.2⟩
    rcases hfront.1 with h' | ⟨hblock | ⟨hflow, _⟩, hahead⟩
    · exact .inl h'
    · exact .inr ⟨.inl hblock, hahead⟩
    · -- In the whole row, a flow mapping that starts here is in order.
      left
      rcases h.1 with h | ⟨hblock | ⟨_, hlets⟩, _⟩
      · exact fun other hmem => h other (List.mem_append_left _ hmem)
      · simp [hflow] at hblock
      · simp at hlets

/-- A key, its tokens and its colon, with the start of a mapping in front if there is one. -/
theorem isSound_insert {lets : Bool} {heads inner : List (Placed Token)}
    {key colon : Placed Token} (hheads : heads = [] ∨ ∃ token, heads = [token] ∧ IsHead lets token)
    (hkey : key.item = .key) (hcolon : colon.item = .value)
    (hinner : IsSound false inner) (hbetween : IsInner 0 inner)
    (hafter : ∀ other ∈ inner, key.mark.index ≤ other.mark.index ∧ Precedes other colon)
    (hle : key.mark.index ≤ colon.mark.index) :
    IsSound lets (heads ++ key :: (inner ++ [colon])) := by
  -- The key and what is behind it are in order.
  have hrow (lets : Bool) : IsSound lets (key :: (inner ++ [colon])) := by
    refine ⟨.inl fun other hmem => .inr ?_, ?_⟩
    · rcases List.mem_append.mp hmem with hmem | hmem
      · exact (hafter other hmem).1
      · rw [List.mem_singleton.mp hmem]
        exact hle
    · exact isSound_push (isSound_of_false hinner _) fun other hmem => (hafter other hmem).2
  rcases hheads with rfl | ⟨token, rfl, hhead⟩
  · exact hrow lets
  · refine ⟨.inr ⟨hhead, key, inner ++ [colon], rfl, hkey, inner, colon, [], rfl, hcolon, hbetween,
      ?_⟩, hrow _⟩
    simp [IsBehind]

end Yaml

end YamlLocator
