import YamlLocator.KeyMatch

/-!
# The Chain of Keys of a Path

What following a key path comes down to, said without the order in which the keys are
tried. A path leads through a chain of entries: in the root the first entry with the first
name, in the value of that entry the first one with the second name, and so on, until the
names are used up or there is no such entry. The chain is determined by the tree and the
path alone.

The answer then depends on the chain and on the number of segments only. If the chain is
as long as the path, its last key is the one that the path addresses. If it is not, or if
that key cannot be shown, the answer is the last key in front of it that can.

The recursion in `Node.locate` finds the answer from the inside out: every level falls back
on its own key when the levels below it have none. `answer_cons` is that fallback as an
equation between answers, and the rest is an induction along the chain.

## Main definitions

* `IsFirstNamed`: An entry is the first one with a key of a given name.
* `LongestChain`: The entries that a path leads through.
* `answer`: The answer for a chain and a number of segments.

## Theorems

* `entryFor?_eq_some_iff`: The search for an entry finds the first one of its name.
* `exists_longestChain`, `longestChain_unique`: A path leads through exactly one chain.
* `answer_cons`: A longer chain answers what the shorter one answers, or falls back.
* `bind_locate_eq_answer`: Following a path gives the answer for its chain.
-/

namespace YamlLocator

namespace Yaml

/-- The entry is the first one whose key is a string with the given text. -/
def IsFirstNamed (name : String) (entries : List Entry) (entry : Entry) : Prop :=
  ∃ earlier later, entries = earlier ++ entry :: later ∧
    (∃ span, entry.key = .scalar name .string span) ∧
    ∀ other ∈ earlier, ∀ span, other.key ≠ .scalar name .string span

theorem isKeyNamed_iff (name : String) (node : Node) :
    node.isKeyNamed name = true ↔ ∃ span, node = .scalar name .string span := by
  cases node with
  | scalar text kind span =>
    simp only [Node.isKeyNamed, Bool.and_eq_true, decide_eq_true_eq, Node.scalar.injEq]
    constructor
    · rintro ⟨hkind, htext⟩
      exact ⟨span, htext, hkind, rfl⟩
    · rintro ⟨_, htext, hkind, _⟩
      exact ⟨hkind, htext⟩
  | mapping entries span => simp [Node.isKeyNamed]
  | sequence items span => simp [Node.isKeyNamed]
  | «alias» span => simp [Node.isKeyNamed]

/-- The search for an entry finds the first one of its name. -/
theorem entryFor?_eq_some_iff (name : String) (entries : List Entry) (entry : Entry) :
    entryFor? name entries = some entry ↔ IsFirstNamed name entries entry := by
  simp only [entryFor?, List.find?_eq_some_iff_append, isKeyNamed_iff, Bool.not_eq_true',
    ← Bool.not_eq_true, not_exists]
  constructor
  · rintro ⟨hkey, earlier, later, hentries, hearlier⟩
    exact ⟨earlier, later, hentries, hkey, hearlier⟩
  · rintro ⟨earlier, later, hentries, hkey, hearlier⟩
    exact ⟨hkey, earlier, later, hentries, hearlier⟩

/-- The entries that a path leads through from a node on, if there is a node: in each
    mapping the first one of the name whose turn it is. It ends where no name is left, or
    where the node is no mapping with an entry of the name. -/
inductive LongestChain : List String → Option Node → List Entry → Prop
  | done (node : Option Node) : LongestChain [] node []
  | stuck (name : String) (rest : List String) (node : Option Node)
      (h : ∀ entries span, node = some (.mapping entries span) →
        ∀ entry, ¬ IsFirstNamed name entries entry) :
      LongestChain (name :: rest) node []
  | follow (name : String) (rest : List String) (entries : List Entry) (span : Option Span)
      (entry : Entry) (chain : List Entry) (hfirst : IsFirstNamed name entries entry)
      (hrest : LongestChain rest entry.value chain) :
      LongestChain (name :: rest) (some (.mapping entries span)) (entry :: chain)

/-- The answer for a path of `count` segments that leads through a chain: the key of the
    last segment, or else the last key with a span in front of it. -/
def answer (count : Nat) (chain : List Entry) : Option KeyMatch :=
  match chain[count - 1]?.bind (·.key.span) with
  | some span => some (.exact span)
  | none => ((chain.take (count - 1)).filterMap (·.key.span)).getLast?.map .nearest

/-! ### A path leads through exactly one chain -/

/-- The first entry of a name is determined by the entries. -/
theorem isFirstNamed_unique {name : String} {entries : List Entry} {a b : Entry}
    (ha : IsFirstNamed name entries a) (hb : IsFirstNamed name entries b) : a = b := by
  rw [← entryFor?_eq_some_iff] at ha hb
  rw [ha, Option.some.injEq] at hb
  exact hb

theorem longestChain_unique {path : List String} {node : Option Node} {a b : List Entry}
    (ha : LongestChain path node a) (hb : LongestChain path node b) : a = b := by
  induction ha generalizing b with
  | done node => cases hb; rfl
  | stuck name rest node h =>
    cases hb with
    | stuck _ _ _ _ => rfl
    | follow _ _ entries span entry chain hfirst _ =>
      exact absurd hfirst (h entries span rfl entry)
  | follow name rest entries span entry chain hfirst _ ih =>
    cases hb with
    | stuck _ _ _ h => exact absurd hfirst (h entries span rfl entry)
    | follow _ _ _ _ entry' chain' hfirst' hrest' =>
      -- Both go on from the same entry, as only one is the first of its name.
      rw [isFirstNamed_unique hfirst hfirst'] at ih ⊢
      rw [ih hrest']

/-- Every path leads through some chain, be it an empty one. -/
theorem exists_longestChain (path : List String) (node : Option Node) :
    ∃ chain, LongestChain path node chain := by
  induction path generalizing node with
  | nil => exact ⟨[], .done node⟩
  | cons name rest ih =>
    by_cases hnext : ∃ entries span entry,
        node = some (.mapping entries span) ∧ IsFirstNamed name entries entry
    · rcases hnext with ⟨entries, span, entry, rfl, hfirst⟩
      rcases ih entry.value with ⟨chain, hchain⟩
      exact ⟨entry :: chain, .follow name rest entries span entry chain hfirst hchain⟩
    · refine ⟨[], .stuck name rest node fun entries span hnode entry hfirst => hnext ?_⟩
      exact ⟨entries, span, entry, hnode, hfirst⟩

/-! ### The answer for a chain -/

@[simp]
theorem answer_nil (count : Nat) : answer count [] = none := by
  simp [answer]

/-- A chain that goes on behind an entry answers what the rest of it answers, and falls
    back on the key of the entry if that is nothing. -/
theorem answer_cons (count : Nat) (entry : Entry) (chain : List Entry) :
    answer (count + 2) (entry :: chain) =
      (answer (count + 1) chain).or (entry.key.span.map .nearest) := by
  simp only [answer, Nat.add_sub_cancel, show count + 2 - 1 = count + 1 by omega,
    List.getElem?_cons_succ, List.take_succ_cons, List.filterMap_cons]
  cases hlast : chain[count]?.bind (·.key.span) with
  | some span => rfl
  | none =>
    -- The path is not followed to its end: the last key with a span counts.
    cases hspan : entry.key.span with
    | none => simp
    | some span =>
      simp only [List.getLast?_cons, Option.map_some]
      cases ((chain.take count).filterMap (·.key.span)).getLast? <;> rfl

theorem answer_singleton (entry : Entry) :
    answer 1 [entry] = entry.key.span.map .exact := by
  cases h : entry.key.span <;> simp [answer, h]

/-- In a mapping, following a path asks the first entry of the name only. -/
theorem locate_mapping {name : String} {entries : List Entry} {entry : Entry}
    (h : IsFirstNamed name entries entry) (rest : List String) (span : Option Span) :
    Node.locate (name :: rest) (.mapping entries span) =
      if rest = [] then entry.key.span.map .exact
      else (entry.value.bind (Node.locate rest)).or (entry.key.span.map .nearest) := by
  have hfound : (Node.mapping entries span).entryNamed? name = some entry := by
    rw [← entryFor?_eq_some_iff] at h
    simp [Node.entryNamed?, Node.entries?, h]
  cases rest with
  | nil =>
    simp only [Node.locate, hfound, Option.bind_eq_bind, Option.bind_some, if_true]
    cases entry.key.span <;> rfl
  | cons next more =>
    simp only [Node.locate, hfound, Option.bind_eq_bind, Option.bind_some, reduceCtorEq, if_false]
    cases entry.value.bind (Node.locate (next :: more)) with
    | some found => rfl
    | none => cases entry.key.span <;> rfl

/-- A node that is no mapping with an entry of the name gives no answer. -/
theorem locate_eq_none {name : String} {node : Node}
    (h : ∀ entries span, node = .mapping entries span →
      ∀ entry, ¬ IsFirstNamed name entries entry) (rest : List String) :
    Node.locate (name :: rest) node = none := by
  have hnone : node.entryNamed? name = none := by
    cases node with
    | mapping entries span =>
      cases hentry : entryFor? name entries with
      | none => simp [Node.entryNamed?, Node.entries?, hentry]
      | some entry =>
        rw [entryFor?_eq_some_iff] at hentry
        exact absurd hentry (h entries span rfl entry)
    | sequence items span => rfl
    | scalar text kind span => rfl
    | «alias» span => rfl
  cases rest <;> simp [Node.locate, hnone]

/-- Following a path from a node, if there is one, gives the answer for its chain. -/
theorem bind_locate_eq_answer {path : List String} {node : Option Node} {chain : List Entry}
    (h : LongestChain path node chain) (hne : path ≠ []) :
    node.bind (Node.locate path) = answer path.length chain := by
  induction h with
  | done node => exact absurd rfl hne
  | stuck name rest node h =>
    cases node with
    | none => simp
    | some node =>
      rw [Option.bind_some, answer_nil]
      exact locate_eq_none (fun entries span hnode => h entries span (by rw [hnode])) rest
  | follow name rest entries span entry chain hfirst hrest ih =>
    rw [Option.bind_some, locate_mapping hfirst]
    cases rest with
    | nil =>
      -- The last segment: nothing is looked for below its entry.
      cases hrest
      rw [if_pos rfl, List.length_singleton, answer_singleton]
    | cons next more =>
      rw [if_neg (by simp), ih (by simp)]
      exact (answer_cons more.length entry chain).symm

/-- The key for a path is the one that the only chain of the path answers with, whatever the
    tree is: keys may be repeated, may be no strings and may have no span, and values may be
    missing. -/
theorem locate_eq_answer_of_chain (path : KeyPath) (root : Node) :
    ∃ chain, LongestChain path.segments (some root) chain ∧
      (∀ other, LongestChain path.segments (some root) other → other = chain) ∧
      root.locate path.segments = answer path.segments.length chain := by
  rcases exists_longestChain path.segments (some root) with ⟨chain, hchain⟩
  refine ⟨chain, hchain, fun other hother => longestChain_unique hother hchain, ?_⟩
  exact bind_locate_eq_answer hchain path.segments_ne_nil

end Yaml

end YamlLocator
