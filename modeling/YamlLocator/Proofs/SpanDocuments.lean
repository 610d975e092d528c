import YamlLocator.Position.SpanJson
import YamlLocator.Proofs.Json.Writing

/-!
# The Documents of Spans

Which JSON documents stand for a span: the arrays of its two offsets, and the objects that give
each of them once. Whatever else an object holds is passed over, and so is the layout, since the
grammar of JSON decides which texts are documents of a value.

All of it rests on one statement for objects and one for arrays. That the written form is read
back, that the order of the members is free and that bad offsets are refused are what these two say
of one kind of members or the other.

## Main definitions

* `FitsWord`: Both offsets of a span have at most 64 bits.
* `IsGivenBy`: The members of an object give the offsets of a span.
* `IsFurther`: A member of some other name.

## Theorems

* `offset?_eq_some_iff`: The values that are offsets.
* `ofJson?_object_eq_some_iff`, `ofJson?_array_eq_some_iff`: The values that are spans.
* `isGivenBy_of_isFurther`: Two members are enough, in either order, wherever they stand.
* `documents_and_spans`: What is read, what is read back, and what is refused.
-/

namespace YamlLocator

namespace Json

/-- The values that are natural numbers. -/
theorem Value.natural?_eq_some_iff {value : Value} {number : Nat} :
    value.natural? = some number ↔ value = .ofNatural number := by
  constructor
  · intro h
    cases value with
    | number numeral =>
      rcases numeral with ⟨negative, whole, integral⟩
      cases negative <;> cases integral <;> cases h
      rfl
    | _ => cases h
  · rintro rfl
    rfl

end Json

namespace Span

open Json

variable {span : Span} {value : Value} {members : List (Option String × Value)} {text : String}

/-- Both offsets have at most 64 bits. -/
structure FitsWord (span : Span) : Prop where
  start_lt : span.start < UInt64.size
  stop_lt : span.stop < UInt64.size

/-- The members of an object give each of the two offsets once. -/
structure IsGivenBy (span : Span) (members : List (Option String × Value)) : Prop where
  /-- Every name stands for a text, so that it can be told apart from the two names. -/
  named : ∀ member ∈ members, member.1 ≠ none
  start : membersNamed "start" members = [.ofNatural span.start]
  stop : membersNamed "end" members = [.ofNatural span.stop]

/-- A member that gives neither of the offsets. -/
def IsFurther (member : Option String × Value) : Prop :=
  ∃ name, member.1 = some name ∧ name ≠ "start" ∧ name ≠ "end"

/-! ### Values -/

/-- The values that are offsets. -/
theorem offset?_eq_some_iff {number : Nat} :
    offset? value = some number ↔ value = .ofNatural number ∧ number < UInt64.size := by
  rw [offset?, Option.filter_eq_some_iff, Value.natural?_eq_some_iff, decide_eq_true_eq]

/-- The span of two values is the one that has them as offsets. -/
theorem offsets_eq_some_iff {first second : Value} :
    (do
      let start ← offset? first
      let stop ← offset? second
      return ({ start, stop } : Span)) = some span ↔
      first = .ofNatural span.start ∧ second = .ofNatural span.stop ∧ span.FitsWord := by
  constructor
  · intro h
    rcases Option.bind_eq_some_iff.mp h with ⟨start, hstart, h⟩
    rcases Option.bind_eq_some_iff.mp h with ⟨stop, hstop, h⟩
    cases h
    rcases offset?_eq_some_iff.mp hstart with ⟨hfirst, hstart⟩
    rcases offset?_eq_some_iff.mp hstop with ⟨hsecond, hstop⟩
    exact ⟨hfirst, hsecond, hstart, hstop⟩
  · rintro ⟨hfirst, hsecond, hstart, hstop⟩
    rw [offset?_eq_some_iff.mpr ⟨hfirst, hstart⟩, offset?_eq_some_iff.mpr ⟨hsecond, hstop⟩]
    rfl

/-- The objects that are spans. -/
theorem ofJson?_object_eq_some_iff :
    ofJson? (.object members) = some span ↔ span.IsGivenBy members ∧ span.FitsWord := by
  have hnamed : (members.all fun member => member.1.isSome) = true ↔
      ∀ member ∈ members, member.1 ≠ none := by
    simp only [List.all_eq_true, Option.isSome_iff_ne_none]
  constructor
  · intro h
    rw [ofJson?] at h
    split at h
    · rename_i hall
      split at h
      · rename_i first second hfirst hsecond
        rcases offsets_eq_some_iff.mp h with ⟨rfl, rfl, hfits⟩
        exact ⟨⟨hnamed.mp hall, hfirst, hsecond⟩, hfits⟩
      · cases h
    · cases h
  · rintro ⟨hgiven, hfits⟩
    rw [ofJson?, if_pos (hnamed.mpr hgiven.named), hgiven.start, hgiven.stop]
    exact offsets_eq_some_iff.mpr ⟨rfl, rfl, hfits⟩

/-- The arrays that are spans. -/
theorem ofJson?_array_eq_some_iff {items : List Value} :
    ofJson? (.array items) = some span ↔
      items = [.ofNatural span.start, .ofNatural span.stop] ∧ span.FitsWord := by
  constructor
  · intro h
    rcases items with _ | ⟨first, _ | ⟨second, _ | ⟨third, more⟩⟩⟩
    · cases h
    · cases h
    · rcases offsets_eq_some_iff.mp h with ⟨rfl, rfl, hfits⟩
      exact ⟨rfl, hfits⟩
    · cases h
  · rintro ⟨rfl, hfits⟩
    exact offsets_eq_some_iff.mpr ⟨rfl, rfl, hfits⟩

/-- No other value is a span. -/
theorem exists_of_ofJson? (h : ofJson? value = some span) :
    (∃ members, value = .object members) ∨ ∃ items, value = .array items := by
  cases value with
  | object members => exact .inl ⟨members, rfl⟩
  | array items => exact .inr ⟨items, rfl⟩
  | _ => cases h

/-! ### Members -/

/-- Further members have no value for either of the two names. -/
theorem membersNamed_of_isFurther {name : String} (hname : name = "start" ∨ name = "end")
    (h : ∀ member ∈ members, IsFurther member) : membersNamed name members = [] := by
  refine membersNamed_eq_nil fun member hmember heq => ?_
  rcases h member hmember with ⟨other, hother, hstart, hstop⟩
  rw [hother, Option.some_inj] at heq
  rcases hname with rfl | rfl
  · exact hstart heq
  · exact hstop heq

theorem ne_none_of_isFurther {member : Option String × Value} (h : IsFurther member) :
    member.1 ≠ none := by
  rcases h with ⟨name, hname, -⟩
  rw [hname]
  exact Option.some_ne_none name

/-- Two members give a span, in either order, wherever they stand among further ones. -/
theorem isGivenBy_of_isFurther (span : Span) {front between back : List (Option String × Value)}
    (hfront : ∀ member ∈ front, IsFurther member) (hbetween : ∀ member ∈ between, IsFurther member)
    (hback : ∀ member ∈ back, IsFurther member) :
    span.IsGivenBy (front ++ (some "start", .ofNatural span.start) ::
      (between ++ (some "end", .ofNatural span.stop) :: back)) ∧
    span.IsGivenBy (front ++ (some "end", .ofNatural span.stop) ::
      (between ++ (some "start", .ofNatural span.start) :: back)) := by
  have hstart : "start" = "start" ∨ "start" = "end" := .inl rfl
  have hstop : "end" = "start" ∨ "end" = "end" := .inr rfl
  have hne : "end" ≠ "start" := by decide
  constructor
  all_goals
    refine ⟨fun member hmember => ?_, ?_, ?_⟩
    · simp only [List.mem_append, List.mem_cons] at hmember
      rcases hmember with h | rfl | h | rfl | h
      · exact ne_none_of_isFurther (hfront member h)
      · exact Option.some_ne_none _
      · exact ne_none_of_isFurther (hbetween member h)
      · exact Option.some_ne_none _
      · exact ne_none_of_isFurther (hback member h)
    · simp only [membersNamed_append, membersNamed_cons_self, membersNamed_cons_of_ne hne,
        membersNamed_of_isFurther hstart hfront, membersNamed_of_isFurther hstart hbetween,
        membersNamed_of_isFurther hstart hback, List.nil_append]
    · simp only [membersNamed_append, membersNamed_cons_self, membersNamed_cons_of_ne hne.symm,
        membersNamed_of_isFurther hstop hfront, membersNamed_of_isFurther hstop hbetween,
        membersNamed_of_isFurther hstop hback, List.nil_append]

/-! ### Documents -/

/-- A document is read as its value is. -/
theorem ofJsonText?_of_spellsElement (h : SpellsElement value text.toList) :
    ofJsonText? text = ofJson? value := by
  rw [ofJsonText?, ofText?_eq_some_iff.mpr h, Option.bind_some]

/-- The documents that are read as a span. -/
theorem ofJsonText?_eq_some_iff :
    ofJsonText? text = some span ↔ span.FitsWord ∧
      ((∃ members, span.IsGivenBy members ∧ SpellsElement (.object members) text.toList) ∨
        SpellsElement (.array [.ofNatural span.start, .ofNatural span.stop]) text.toList) := by
  constructor
  · intro h
    rcases Option.bind_eq_some_iff.mp h with ⟨value, hvalue, hspan⟩
    rw [ofText?_eq_some_iff] at hvalue
    rcases exists_of_ofJson? hspan with ⟨members, rfl⟩ | ⟨items, rfl⟩
    · rcases ofJson?_object_eq_some_iff.mp hspan with ⟨hgiven, hfits⟩
      exact ⟨hfits, .inl ⟨members, hgiven, hvalue⟩⟩
    · rcases ofJson?_array_eq_some_iff.mp hspan with ⟨rfl, hfits⟩
      exact ⟨hfits, .inr hvalue⟩
  · rintro ⟨hfits, ⟨members, hgiven, h⟩ | h⟩
    · rw [ofJsonText?_of_spellsElement h]
      exact ofJson?_object_eq_some_iff.mpr ⟨hgiven, hfits⟩
    · rw [ofJsonText?_of_spellsElement h]
      exact ofJson?_array_eq_some_iff.mpr ⟨rfl, hfits⟩

/-- A span that fits is read back. -/
theorem ofJsonText?_toJson (h : span.FitsWord) : ofJsonText? span.toJson = some span := by
  have hspells := spellsElement_writeObject (List.cons_ne_nil ("start", Field.natural span.start)
    [("end", .natural span.stop)])
  have hgiven := (isGivenBy_of_isFurther span (List.forall_mem_nil _) (List.forall_mem_nil _)
    (List.forall_mem_nil _)).1
  exact ofJsonText?_eq_some_iff.mpr ⟨h, .inl ⟨_, hgiven, hspells⟩⟩

/-- An object is refused unless each name has one value, and that is an offset. -/
theorem ofJsonText?_object_eq_none {name : String} (hname : name = "start" ∨ name = "end")
    (h : ∀ number < UInt64.size, membersNamed name members ≠ [.ofNatural number])
    (hspells : SpellsElement (.object members) text.toList) : ofJsonText? text = none := by
  rw [ofJsonText?_of_spellsElement hspells, Option.eq_none_iff_forall_ne_some]
  intro span hspan
  rcases ofJson?_object_eq_some_iff.mp hspan with ⟨hgiven, hfits⟩
  rcases hname with rfl | rfl
  · exact h span.start hfits.start_lt hgiven.start
  · exact h span.stop hfits.stop_lt hgiven.stop

/-- An array is refused unless it has two items and both are offsets. -/
theorem ofJsonText?_array_eq_none {items : List Value}
    (h : ∀ start < UInt64.size, ∀ stop < UInt64.size,
      items ≠ [.ofNatural start, .ofNatural stop])
    (hspells : SpellsElement (.array items) text.toList) : ofJsonText? text = none := by
  rw [ofJsonText?_of_spellsElement hspells, Option.eq_none_iff_forall_ne_some]
  intro span hspan
  rcases ofJson?_array_eq_some_iff.mp hspan with ⟨hitems, hfits⟩
  exact h span.start hfits.start_lt span.stop hfits.stop_lt hitems

/-- Values that are refused for a name: none, more than one, or a number that is negative, has a
    fraction or an exponent, or does not fit. -/
theorem ne_singleton_of_refused {values : List Value}
    (h : values = [] ∨ 2 ≤ values.length ∨ ∃ numeral, .number numeral ∈ values ∧
      (numeral.negative = true ∨ numeral.integral = false ∨ UInt64.size ≤ numeral.whole)) :
    ∀ number < UInt64.size, values ≠ [.ofNatural number] := by
  rintro number hnumber rfl
  rcases h with h | h | ⟨numeral, hmem, h⟩
  · cases h
  · rw [List.length_singleton] at h
    omega
  · rw [List.mem_singleton] at hmem
    cases hmem
    rcases h with h | h | h
    · cases h
    · cases h
    · exact absurd hnumber (Nat.not_lt.mpr h)

/-- A span of 64-bit offsets is read back from its written form. It is also read from every
    document of an object that gives the two offsets in either order among members of other names,
    and from every document of the array of the two, however they are laid out. What is read from
    any document is read back. No object is read in which one of the two members is missing or
    given twice, or is a number that is negative, not whole or too large; no array is read that is
    not made of two offsets. -/
theorem documents_and_spans :
    (∀ span : Span, span.FitsWord → ofJsonText? span.toJson = some span) ∧
    (∀ (span : Span) (front between back : List (Option String × Value)) (text : String),
      span.FitsWord → (∀ member ∈ front ++ between ++ back, IsFurther member) →
      (SpellsElement (.object (front ++ (some "start", .ofNatural span.start) ::
          (between ++ (some "end", .ofNatural span.stop) :: back))) text.toList ∨
        SpellsElement (.object (front ++ (some "end", .ofNatural span.stop) ::
          (between ++ (some "start", .ofNatural span.start) :: back))) text.toList) →
      ofJsonText? text = some span) ∧
    (∀ (span : Span) (text : String), span.FitsWord →
      SpellsElement (.array [.ofNatural span.start, .ofNatural span.stop]) text.toList →
      ofJsonText? text = some span) ∧
    (∀ (text : String) (span : Span), ofJsonText? text = some span →
      span.FitsWord ∧ ofJsonText? span.toJson = some span) ∧
    (∀ (members : List (Option String × Value)) (name text : String),
      SpellsElement (.object members) text.toList → name = "start" ∨ name = "end" →
      (membersNamed name members = [] ∨ 2 ≤ (membersNamed name members).length ∨
        ∃ numeral, .number numeral ∈ membersNamed name members ∧
          (numeral.negative = true ∨ numeral.integral = false ∨ UInt64.size ≤ numeral.whole)) →
      ofJsonText? text = none) ∧
    ∀ (items : List Value) (text : String), SpellsElement (.array items) text.toList →
      (∀ start < UInt64.size, ∀ stop < UInt64.size,
        items ≠ [.ofNatural start, .ofNatural stop]) →
      ofJsonText? text = none := by
  refine ⟨fun span => ofJsonText?_toJson, ?_, fun span text hfits hspells => ?_,
    fun text span h => ?_, fun members name text hspells hname h => ?_,
    fun items text hspells h => ofJsonText?_array_eq_none h hspells⟩
  · intro span front between back text hfits hfurther hspells
    simp only [List.forall_mem_append] at hfurther
    rcases hfurther with ⟨⟨hfront, hbetween⟩, hback⟩
    rcases isGivenBy_of_isFurther span hfront hbetween hback with ⟨hgiven, hswapped⟩
    rcases hspells with hspells | hspells
    · exact ofJsonText?_eq_some_iff.mpr ⟨hfits, .inl ⟨_, hgiven, hspells⟩⟩
    · exact ofJsonText?_eq_some_iff.mpr ⟨hfits, .inl ⟨_, hswapped, hspells⟩⟩
  · exact ofJsonText?_eq_some_iff.mpr ⟨hfits, .inr hspells⟩
  · have hfits := (ofJsonText?_eq_some_iff.mp h).1
    exact ⟨hfits, ofJsonText?_toJson hfits⟩
  · exact ofJsonText?_object_eq_none hname (ne_singleton_of_refused h) hspells

/-- The members may be turned around, with another one between them. -/
theorem documents_and_spans_of_swapped :
    FitsWord ⟨12, 20⟩ ∧ IsFurther (some "of", .string (some "key")) ∧
      ofJsonText?
          (writeObject [("end", .natural 20), ("of", .text "key"), ("start", .natural 12)]) =
        some ⟨12, 20⟩ := by
  have hfits : FitsWord ⟨12, 20⟩ := ⟨by decide, by decide⟩
  have hfurther : IsFurther (some "of", .string (some "key")) :=
    ⟨"of", rfl, by decide, by decide⟩
  have hspells := spellsElement_writeObject (List.cons_ne_nil ("end", Field.natural 20)
    [("of", .text "key"), ("start", .natural 12)])
  refine ⟨hfits, hfurther, ?_⟩
  refine documents_and_spans.2.1 ⟨12, 20⟩ [] [(some "of", .string (some "key"))] [] _ hfits ?_
    (.inr hspells)
  intro member hmember
  rw [List.nil_append, List.append_nil, List.mem_singleton] at hmember
  rw [hmember]
  exact hfurther

/-- Neither the layout matters nor what the other members hold. -/
example : ofJsonText? " \x7b \"end\" : 20, \"of\": [null, -1.5e3], \"start\":12 \x7d " =
    some ⟨12, 20⟩ := by
  decide +kernel

end Span

end YamlLocator
