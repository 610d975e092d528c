import YamlLocator.Position.OffsetTable

/-!
# What Offset Tables Say

An offset table is kept in one of two forms, and which one it is depends on the text. This
module says what both mean, so that nothing else has to know about the two: the offset of a
character is the number of bytes that the characters in front of it take.

## Theorems

* `byteAt_tabulated`, `byteAt_narrow`: What either form gives for an index.
* `byteAt_ofText`: The offset of a character is the length of what is in front of it.
* `byteAt_ofText_append`: The offset at the end of a beginning is its length.
* `byteAt_offsets`: The offsets of a text, measured by the sizes of strings.
-/

namespace YamlLocator

namespace OffsetTable

/-- Characters below 128 take one byte each. -/
theorem byteLength_of_all_narrow {text : List Char} (h : ∀ c ∈ text, c.val < 128) :
    Text.byteLength text = text.length := by
  induction text with
  | nil => rfl
  | cons c rest ih =>
    have hc : c.val ≤ 127 := by
      have := h c List.mem_cons_self
      rw [UInt32.lt_iff_toNat_lt] at this
      rw [UInt32.le_iff_toNat_le]
      exact Nat.le_of_lt_succ this
    have hsize : c.utf8Size = 1 := Char.utf8Size_eq_one_iff.mpr hc
    rw [Text.byteLength_cons, hsize, ih fun c hmem => h c (List.mem_cons_of_mem _ hmem),
      List.length_cons, Nat.add_comm]

/-- A start is the length of what is in front of it, and there are no starts behind the
    text. -/
theorem getD_startsFrom (offset : Nat) (text : List Char) (i : Nat) :
    (startsFrom offset text)[i]?.getD (offset + Text.byteLength text) =
      offset + Text.byteLength (text.take i) := by
  induction text generalizing offset i with
  | nil => simp [startsFrom]
  | cons c rest ih =>
    cases i with
    | zero => rfl
    | succ i =>
      rw [startsFrom, List.getElem?_cons_succ, Text.byteLength_cons, ← Nat.add_assoc, ih,
        List.take_succ_cons, Text.byteLength_cons, Nat.add_assoc]

/-- The table of all starts gives the number of bytes in front of a character, and behind the text
    its length. -/
theorem byteAt_tabulated (text : List Char) (i : Nat) :
    (tabulated text).byteAt i = Text.byteLength (text.take i) := by
  have hstart := getD_startsFrom 0 text i
  rw [Nat.zero_add, Nat.zero_add] at hstart
  rw [tabulated, byteAt, Array.getD_eq_getD_getElem?, List.getElem?_toArray, hstart]

/-- Where every character takes one byte, the length alone gives the same. -/
theorem byteAt_narrow {text : List Char} (h : ∀ c ∈ text, c.val < 128) (i : Nat) :
    (narrow text.length).byteAt i = Text.byteLength (text.take i) := by
  rw [byteAt, byteLength_of_all_narrow fun c hmem => h c (List.mem_of_mem_take hmem),
    List.length_take]

/-- The offset of a character is the number of bytes in front of it, and behind the text it
    is the length of the text. -/
theorem byteAt_ofText (text : List Char) (i : Nat) :
    (ofText text).byteAt i = Text.byteLength (text.take i) := by
  unfold ofText
  split
  · rename_i h
    exact byteAt_narrow (by simpa using h) i
  · exact byteAt_tabulated text i

/-- The offset at the end of a beginning of the text is the length of that beginning. -/
theorem byteAt_ofText_append (front back : List Char) :
    (ofText (front ++ back)).byteAt front.length = Text.byteLength front := by
  rw [byteAt_ofText, List.take_left]

/-- The offset of a character is the size of what is in front of it, in either form of the table. It
    grows with the index up to the number of characters, is the size of the text from there on, and
    never falls into a character. -/
theorem byteAt_offsets (source : String) :
    (∀ i, (ofText source.toList).byteAt i =
      (String.ofList (source.toList.take (min i source.length))).utf8ByteSize) ∧
    (∀ i, (tabulated source.toList).byteAt i =
      (String.ofList (source.toList.take (min i source.length))).utf8ByteSize) ∧
    (∀ i j, i < j → j ≤ source.length →
      (ofText source.toList).byteAt i < (ofText source.toList).byteAt j) ∧
    (∀ i, source.length ≤ i → (ofText source.toList).byteAt i = source.utf8ByteSize) ∧
    (∀ i, String.Pos.Raw.IsValid source ⟨(ofText source.toList).byteAt i⟩) ∧
    ((∀ c ∈ source.toList, c.val < 128) →
      ofText source.toList = narrow source.length ∧
        ∀ i, (narrow source.length).byteAt i = (tabulated source.toList).byteAt i) := by
  have htake (i : Nat) :
      source.toList.take (min i source.length) = source.toList.take i := by
    rw [← String.length_toList, ← List.take_take, List.take_length]
  have hsize (i : Nat) : (String.ofList (source.toList.take i)).utf8ByteSize =
      (ofText source.toList).byteAt i := by
    rw [Text.utf8ByteSize_ofList, byteAt_ofText]
  refine ⟨fun i => ?_, fun i => ?_, fun i j hlt hle => ?_, fun i hle => ?_, fun i => ?_,
    fun hnarrow => ⟨?_, fun i => ?_⟩⟩
  · rw [htake, hsize]
  · rw [htake, hsize, byteAt_tabulated, byteAt_ofText]
  · rw [byteAt_ofText, byteAt_ofText]
    exact Text.byteLength_take_lt hlt (String.length_toList ▸ hle)
  · rw [← hsize, List.take_of_length_le (String.length_toList ▸ hle), String.ofList_toList]
  · have hvalid : String.Pos.Raw.IsValid (String.ofList source.toList)
        ⟨(ofText source.toList).byteAt i⟩ :=
      String.Pos.Raw.isValid_ofList.mpr ⟨i, (hsize i).symm⟩
    rwa [String.ofList_toList] at hvalid
  · rw [ofText, if_pos (by simpa using hnarrow), String.length_toList]
  · rw [← String.length_toList, byteAt_narrow hnarrow, byteAt_tabulated]

/-- Characters of one byte to four: the offset behind each, and behind all of them. -/
example : [0, 1, 2, 3, 4, 5].map (ofText "aé€😀".toList).byteAt = [0, 1, 3, 6, 10, 10] := by
  decide

end OffsetTable

end YamlLocator
