import YamlLocator.Proofs.Evaluation
import YamlLocator.Proofs.KeyChain
import YamlLocator.Proofs.Spans

/-!
# What a Fallback Points At

A path that cannot be followed to its end is answered with a key in front of it. In a tree
made by hand that can be any key of the path's chain, as keys without a span are passed over.
In the tree of a text every key has a span, and the answers for the beginnings of one path fit
together: they are exact up to some length, and from there on they are the answer for the
longest beginning that is exact.

The chain of a beginning of a path is the beginning of its chain, so the length in question is
that of the chain. The rest is the answer for a chain of which every key has a span.

## Theorems

* `longestChain_take`: The chain of the beginning of a path.
* `answer_of_length_eq`, `answer_of_length_lt`: The answers for a chain with spans.
* `locate_take_of_parse`: The answers for the beginnings of a path in the tree of a text.
-/

namespace YamlLocator

namespace Yaml

/-- The chain of the beginning of a path is the beginning of its chain. -/
theorem longestChain_take {path : List String} {node : Option Node} {chain : List Entry}
    (h : LongestChain path node chain) (count : Nat) :
    LongestChain (path.take count) node (chain.take count) := by
  induction h generalizing count with
  | done node => simpa using LongestChain.done node
  | stuck name rest node h =>
    cases count with
    | zero => exact .done node
    | succ count => exact .stuck name (rest.take count) node h
  | follow name rest entries span entry chain hfirst _ ih =>
    cases count with
    | zero => exact .done _
    | succ count =>
      exact .follow name (rest.take count) entries span entry (chain.take count) hfirst (ih count)

theorem longestChain_length_le {path : List String} {node : Option Node} {chain : List Entry}
    (h : LongestChain path node chain) : chain.length ≤ path.length := by
  induction h with
  | done node => exact Nat.le_refl _
  | stuck name rest node h => exact Nat.zero_le _
  | follow name rest entries span entry chain _ _ ih => exact Nat.succ_le_succ ih

/-- The keys of a chain have spans if the nodes of the tree have. -/
theorem span_of_mem_chain {path : List String} {node : Option Node} {chain : List Entry}
    (h : LongestChain path node chain)
    (hnode : ∀ root, node = some root → root.IsSpanned fun _ => True) :
    ∀ entry ∈ chain, ∃ span, entry.key.span = some span := by
  induction h with
  | done node => simp
  | stuck name rest node h => simp
  | follow name rest entries span entry chain hfirst _ ih =>
    have hspanned := hnode _ rfl
    have hmem : entry ∈ entries := by
      rcases hfirst with ⟨earlier, later, hentries, _⟩
      simp [hentries]
    intro other hother
    rcases List.mem_cons.mp hother with rfl | hother
    · rcases hspanned _ (.key other entries span hmem (.whole)) with ⟨found, hfound, _⟩
      exact ⟨found, hfound⟩
    · -- The nodes below the value are nodes of the whole.
      refine ih (fun value hvalue part hpart => ?_) other hother
      exact hspanned part (.value value entry entries span hmem hvalue hpart)

/-- A chain as long as the path answers with its last key. -/
theorem answer_of_length_eq {chain : List Entry} (hne : chain ≠ [])
    (h : ∀ entry ∈ chain, ∃ span, entry.key.span = some span) :
    ∃ span, (chain.getLast hne).key.span = some span ∧
      answer chain.length chain = some (.exact span) := by
  rcases h _ (List.getLast_mem hne) with ⟨span, hspan⟩
  refine ⟨span, hspan, ?_⟩
  simp [answer, ← List.getLast?_eq_getElem?, List.getLast?_eq_some_getLast hne, hspan]

/-- A shorter chain answers with its last key as the nearest one. -/
theorem answer_of_length_lt {chain : List Entry} {count : Nat} (hcount : chain.length < count)
    (h : ∀ entry ∈ chain, ∃ span, entry.key.span = some span) :
    answer count chain = (chain.getLast?.bind (·.key.span)).map .nearest := by
  have hnone : chain[count - 1]? = none := List.getElem?_eq_none (by omega)
  have htake : chain.take (count - 1) = chain := List.take_of_length_le (by omega)
  rw [answer, hnone, Option.bind_none, htake]
  simp only
  rcases List.eq_nil_or_concat chain with rfl | ⟨front, last, rfl⟩
  · rfl
  · rcases h last (by simp) with ⟨span, hspan⟩
    simp [hspan]

/-- In the tree of a text, the beginnings of a path up to some length are answered exactly. A
    longer path is answered with the very key of the longest of them, and if there is none it
    has no answer. -/
theorem locate_take_of_parse (text : String) (root : Node)
    (hparse : Document.parse text = .ok (some root)) (path : KeyPath) :
    ∃ k ≤ path.segments.length,
      (∀ m, 1 ≤ m → m ≤ path.segments.length →
        ((∃ span, root.locate (path.segments.take m) = some (.exact span)) ↔ m ≤ k)) ∧
      (k = path.segments.length → ∃ span, root.locate path.segments = some (.exact span)) ∧
      (0 < k → k < path.segments.length → ∃ span,
        root.locate (path.segments.take k) = some (.exact span) ∧
          root.locate path.segments = some (.nearest span)) ∧
      (k = 0 → root.locate path.segments = none) := by
  rcases exists_longestChain path.segments (some root) with ⟨chain, hchain⟩
  have hspans := span_of_mem_chain hchain fun node hnode => by
    rw [Option.some.injEq] at hnode
    exact hnode ▸ span_of_parse hparse
  have hle := longestChain_length_le hchain
  have hpos := List.length_pos_iff.mpr path.segments_ne_nil
  -- What the beginnings of the path are answered with.
  have hlocate (m : Nat) (h₁ : 1 ≤ m) (h₂ : m ≤ path.segments.length) :
      root.locate (path.segments.take m) = answer m (chain.take m) := by
    have hne : path.segments.take m ≠ [] := by
      rw [← List.length_pos_iff, List.length_take]
      omega
    have := bind_locate_eq_answer (longestChain_take hchain m) hne
    rwa [Option.bind_some, List.length_take, Nat.min_eq_left h₂] at this
  have hexact (m : Nat) (h₁ : 1 ≤ m) (h₂ : m ≤ chain.length) : ∃ hne : chain.take m ≠ [],
      ∃ span, ((chain.take m).getLast hne).key.span = some span ∧
        root.locate (path.segments.take m) = some (.exact span) := by
    have hlength : (chain.take m).length = m := by rw [List.length_take, Nat.min_eq_left h₂]
    have hne : chain.take m ≠ [] := List.length_pos_iff.mp (by omega)
    rcases answer_of_length_eq hne fun entry hmem => hspans entry (List.mem_of_mem_take hmem) with
      ⟨span, hspan, hanswer⟩
    rw [hlength] at hanswer
    exact ⟨hne, span, hspan, by rw [hlocate m h₁ (by omega), hanswer]⟩
  have hnearest (m : Nat) (h₁ : 1 ≤ m) (h₂ : m ≤ path.segments.length) (h₃ : chain.length < m) :
      root.locate (path.segments.take m) =
        (chain.getLast?.bind (·.key.span)).map .nearest := by
    rw [hlocate m h₁ h₂, List.take_of_length_le (Nat.le_of_lt h₃), answer_of_length_lt h₃ hspans]
  have hwhole : path.segments.take path.segments.length = path.segments := List.take_length
  refine ⟨chain.length, hle, fun m h₁ h₂ => ⟨fun ⟨span, hspan⟩ => ?_, fun hm => ?_⟩,
    fun hk => ?_, fun h₀ hlt => ?_, fun h₀ => ?_⟩
  · -- A beginning that is longer than the chain is answered with a nearest key at best.
    refine Nat.le_of_not_lt fun hlt => ?_
    rw [hnearest m h₁ h₂ hlt] at hspan
    cases hlast : chain.getLast?.bind (·.key.span) <;> simp [hlast] at hspan
  · rcases hexact m h₁ hm with ⟨_, span, _, hlocated⟩
    exact ⟨span, hlocated⟩
  · rcases hexact path.segments.length hpos (Nat.le_of_eq hk.symm) with ⟨_, span, _, hlocated⟩
    exact ⟨span, by rwa [hwhole] at hlocated⟩
  · -- The last key of the chain answers the beginning as long as the chain, and the path too.
    rcases hexact chain.length h₀ (Nat.le_refl _) with ⟨hne, span, hspan, hlocated⟩
    refine ⟨span, hlocated, ?_⟩
    have := hnearest path.segments.length hpos (Nat.le_refl _) hlt
    rw [hwhole] at this
    simp only [List.take_length] at hspan hne
    rw [this, List.getLast?_eq_some_getLast hne, Option.bind_some, hspan, Option.map_some]
  · have := hnearest path.segments.length hpos (Nat.le_refl _) (by omega)
    rw [hwhole, List.length_eq_zero_iff.mp h₀] at this
    exact this

/-- A path of three segments through two mappings. The first two segments lead to keys, and the
    third one does not. -/
theorem locate_take_of_parse_of_missing :
    Document.parse "a:\n  b: 1\n" = .ok (some (.mapping
        [{ key := .scalar "a" .string (some ⟨0, 1⟩)
           value := some (.mapping
            [{ key := .scalar "b" .string (some ⟨5, 6⟩)
               value := some (.scalar "1" .integer (some ⟨8, 9⟩)) }] (some ⟨6, 10⟩)) }]
        (some ⟨1, 10⟩))) ∧
      ∃ root, Document.parse "a:\n  b: 1\n" = .ok (some root) ∧ ∃ k ≤ 3,
        (∀ m, 1 ≤ m → m ≤ 3 →
          ((∃ span, root.locate (["a", "b", "c"].take m) = some (.exact span)) ↔ m ≤ k)) ∧
        (k = 3 → ∃ span, root.locate ["a", "b", "c"] = some (.exact span)) ∧
        (0 < k → k < 3 → ∃ span,
          root.locate (["a", "b", "c"].take k) = some (.exact span) ∧
            root.locate ["a", "b", "c"] = some (.nearest span)) ∧
        (k = 0 → root.locate ["a", "b", "c"] = none) := by
  refine ⟨?parse, _, ?parse,
    locate_take_of_parse _ _ ?parse ⟨["a", "b", "c"], by decide, by decide⟩⟩
  case parse => exact Document.parse_of_parseWithin 30 (by decide +kernel)

end Yaml

end YamlLocator
