import YamlLocator.Proofs.Outcomes

/-!
# Key Paths as They Are Written

A path is written with full stops between its segments, and a text is read by cutting it at its
full stops. Either way back is asked about here: which texts can be read at all, and which paths
can be read back from what is written.

A text is refused for an empty piece. Pieces are what is between two neighbouring separators, or
between one end of the text and the separator next to it, so that a piece is empty in one of four
cases: the text is empty, a separator is its first character or its last one, or two separators
stand next to each other. `Text.nil_mem_pieces_iff` turns the one into the other: the pieces in
front of an empty one and those behind it are the text in front of it and the text behind.

Reading and making a path from a list have one equation each, `parse_eq_ok_iff` and
`ofSegments_eq_ok_iff`: they succeed exactly with the path that has the segments, if there is
one. Everything about success follows from these two.

## Theorems

* `Text.nil_mem_pieces_iff`: When a piece of a text is empty.
* `KeyPath.ofSegments_eq_ok_iff`, `KeyPath.parse_eq_ok_iff`: The path that is made or read.
* `KeyPath.eq_of_ofSegments_eq_error`, `KeyPath.eq_of_parse_eq_error`: The error otherwise.
* `KeyPath.segmentsOf_toText_iff`: The paths whose segments can be told apart again.
* `KeyPath.reading_and_writing`: What can be read, what it is read as, and what can be read back.
-/

namespace YamlLocator

namespace Text

variable {separator : Char}

/-- A piece is empty exactly if the text is, if a separator begins or ends it, or if two
    separators are next to each other. -/
theorem nil_mem_pieces_iff {text : List Char} :
    [] ∈ pieces separator text ↔
      text = [] ∨ [separator] <+: text ∨ [separator] <:+ text ∨
        [separator, separator] <:+: text := by
  constructor
  · intro hmem
    rcases List.append_of_mem hmem with ⟨front, back, hpieces⟩
    have htext : glue separator (front ++ [] :: back) = text := hpieces ▸ glue_pieces separator text
    -- On either side of the empty piece there is nothing, or there are more pieces and a separator.
    cases front with
    | nil =>
      cases back with
      | nil => exact .inl htext.symm
      | cons next more => exact .inr (.inl ⟨glue separator (next :: more), htext⟩)
    | cons first others =>
      rw [glue_append (List.cons_ne_nil first others) (List.cons_ne_nil [] back)] at htext
      cases back with
      | nil => exact .inr (.inr (.inl ⟨glue separator (first :: others), htext⟩))
      | cons next more =>
        refine .inr (.inr (.inr
          ⟨glue separator (first :: others), glue separator (next :: more), ?_⟩))
        rw [← htext, List.append_assoc]
        rfl
  · rintro (rfl | ⟨rest, rfl⟩ | ⟨front, rfl⟩ | ⟨front, back, rfl⟩)
    · exact List.mem_singleton.mpr rfl
    · rw [List.singleton_append, pieces, if_pos rfl]
      exact List.mem_cons_self
    · rw [pieces_append_separator]
      exact List.mem_append_right _ (List.mem_singleton.mpr rfl)
    · rw [List.append_assoc, List.cons_append, pieces_append_separator, List.singleton_append,
        pieces, if_pos rfl]
      exact List.mem_append_right _ List.mem_cons_self

end Text

namespace KeyPath

/-! ### Making a path and reading one -/

/-- The path that is made has the segments that are given. -/
theorem ofSegments_eq_ok_iff {segments : List String} {path : KeyPath} :
    ofSegments segments = .ok path ↔ path.segments = segments := by
  constructor
  · intro h
    simp only [ofSegments] at h
    split at h
    · split at h
      · cases h
        rfl
      · cases h
    · cases h
  · rintro rfl
    rw [ofSegments, dif_pos path.segments_ne_nil, dif_pos path.segments_ne_empty]

/-- The path that is read has the segments that are spelled. -/
theorem parse_eq_ok_iff {text : String} {path : KeyPath} :
    parse text = .ok path ↔ path.segments = segmentsOf text := by
  by_cases htext : text = ""
  · rw [parse, if_pos htext]
    refine ⟨fun h => absurd h (by simp), fun h => ?_⟩
    -- An empty text spells one empty segment, and no path has that.
    refine absurd rfl (path.segments_ne_empty "" ?_)
    rw [h, htext]
    exact List.mem_singleton.mpr rfl
  · rw [parse, if_neg htext, ofSegments_eq_ok_iff]

/-- If no path is made, the error shows the segments as they would be written. -/
theorem eq_of_ofSegments_eq_error {segments : List String} {e : Error}
    (h : ofSegments segments = .error e) :
    e = ⟨joined segments, if segments = [] then .noSegment else .emptySegment⟩ := by
  simp only [ofSegments] at h
  split at h
  · rename_i hne
    split at h
    · cases h
    · cases h
      rw [if_neg hne]
  · rename_i hnil
    cases h
    rw [Decidable.not_not.mp hnil]
    rfl

/-- If no path is read, the error shows the text. -/
theorem eq_of_parse_eq_error {text : String} {e : Error} (h : parse text = .error e) :
    e = ⟨text, if text = "" then .noSegment else .emptySegment⟩ := by
  by_cases htext : text = ""
  · rw [parse, if_pos htext] at h
    cases h
    rw [if_pos htext]
  · rw [parse, if_neg htext] at h
    have hne : segmentsOf text ≠ [] := by
      rw [segmentsOf, ne_eq, List.map_eq_nil_iff]
      exact Text.pieces_ne_nil separator text.toList
    rw [eq_of_ofSegments_eq_error h, joined_segments_of_text, if_neg hne, if_neg htext]

/-! ### Reading back -/

/-- No segment that is read from a text holds a separator. -/
theorem separator_not_mem_of_mem_segmentsOf {text segment : String}
    (h : segment ∈ segmentsOf text) : separator ∉ segment.toList := by
  rcases List.mem_map.mp h with ⟨piece, hpiece, rfl⟩
  rw [String.toList_ofList]
  exact Text.not_mem_of_mem_pieces hpiece

/-- The segments of a path can be told apart again exactly if none of them holds a separator. -/
theorem segmentsOf_toText_iff {path : KeyPath} :
    segmentsOf path.toText = path.segments ↔
      ∀ segment ∈ path.segments, separator ∉ segment.toList := by
  constructor
  · intro h segment hsegment
    rw [← h] at hsegment
    exact separator_not_mem_of_mem_segmentsOf hsegment
  · intro h
    have hpieces : Text.pieces separator (Text.glue separator (path.segments.map String.toList)) =
        path.segments.map String.toList := by
      refine Text.pieces_glue ?_ fun part hpart => ?_
      · rw [ne_eq, List.map_eq_nil_iff]
        exact path.segments_ne_nil
      · rcases List.mem_map.mp hpart with ⟨segment, hsegment, rfl⟩
        exact h segment hsegment
    rw [segmentsOf, toText, joined, String.toList_ofList, hpieces, List.map_map]
    exact List.map_id'' (fun _ => String.ofList_toList) path.segments

/-- A text is no path if it is empty, if a separator begins or ends it, or if two separators are
    next to each other. -/
theorem isMalformed_iff {text : String} :
    IsMalformed text ↔ text = "" ∨ [separator] <+: text.toList ∨ [separator] <:+ text.toList ∨
      [separator, separator] <:+: text.toList := by
  rw [IsMalformed, Text.nil_mem_pieces_iff, String.toList_eq_nil_iff]

/-- A text is a path exactly if it is not malformed. -/
theorem exists_parse_eq_ok_iff {text : String} :
    (∃ path, parse text = .ok path) ↔ ¬ IsMalformed text := by
  constructor
  · rintro ⟨path, hpath⟩ hmalformed
    rcases parse_of_isMalformed hmalformed with ⟨fault, hfault⟩
    rw [hpath] at hfault
    cases hfault
  · intro h
    rcases exists_parse_of_not_isMalformed h with ⟨path, hpath, -⟩
    exact ⟨path, hpath⟩

/-- A text is read as a path exactly if it is not empty, no full stop begins or ends it, and no two
    full stops are next to each other. The path is written as that text again, and otherwise the
    error shows the text. A list makes a path exactly if it is not empty and holds no empty
    segment, and the path keeps the list. Of all paths, those are read back from the written form
    that have no full stop within a segment. -/
theorem reading_and_writing :
    (∀ text : String,
      ((∃ path, parse text = .ok path) ↔
        text ≠ "" ∧ ¬ ['.'] <+: text.toList ∧ ¬ ['.'] <:+ text.toList ∧
          ¬ ['.', '.'] <:+: text.toList) ∧
      (∀ path, parse text = .ok path →
        (∀ segment ∈ path.segments, segment ≠ "" ∧ '.' ∉ segment.toList) ∧ path.toText = text) ∧
      ∀ e, parse text = .error e →
        e = ⟨text, if text = "" then .noSegment else .emptySegment⟩) ∧
    (∀ segments : List String,
      ((∃ path, ofSegments segments = .ok path) ↔ segments ≠ [] ∧ "" ∉ segments) ∧
      ∀ path, ofSegments segments = .ok path → path.segments = segments) ∧
    ∀ path : KeyPath, parse path.toText = .ok path ↔
      ∀ segment ∈ path.segments, '.' ∉ segment.toList := by
  refine ⟨fun text => ⟨?_, fun path hpath => ?_, fun e => eq_of_parse_eq_error⟩,
    fun segments => ⟨?_, fun path => ofSegments_eq_ok_iff.mp⟩, fun path => ?_⟩
  · rw [exists_parse_eq_ok_iff, isMalformed_iff]
    simp only [not_or]
    exact Iff.rfl
  · rw [parse_eq_ok_iff] at hpath
    refine ⟨fun segment hsegment => ⟨path.segments_ne_empty segment hsegment, ?_⟩, ?_⟩
    · exact separator_not_mem_of_mem_segmentsOf (hpath ▸ hsegment)
    · rw [toText, hpath, joined_segments_of_text]
  · simp only [ofSegments_eq_ok_iff]
    constructor
    · rintro ⟨path, rfl⟩
      exact ⟨path.segments_ne_nil, fun hmem => path.segments_ne_empty "" hmem rfl⟩
    · rintro ⟨hne, hempty⟩
      exact ⟨⟨segments, hne, fun segment hmem heq => hempty (heq ▸ hmem)⟩, rfl⟩
  · rw [parse_eq_ok_iff, eq_comm, segmentsOf_toText_iff]
    exact Iff.rfl

/-- A full stop within a segment is read as one between two segments. -/
example : segmentsOf (joined ["example.com", "port"]) = ["example", "com", "port"] := by
  decide

end KeyPath

end YamlLocator
