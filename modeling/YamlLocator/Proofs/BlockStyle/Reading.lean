import YamlLocator.Lookup
import YamlLocator.Proofs.BlockStyle.Events
import YamlLocator.Proofs.KeyChain

/-!
# Reading Block Style

A document in block style is read back. Its root is a mapping with the entries that were
written, and following a path through it leads to the key of the row that the path means,
which is found on its line and behind its indentation.

Everything about the text has been said by the time the entries are known. What is left goes
by the tree: a path that leads to a row leads through the entries to a key that begins where
the row does. Where that is in terms of lines is counted from the rows in front, which have
one line feed each.

## Theorems

* `locate_of_isRead`: A path leads to the key of its row.
* `getElem?_of_rowFor?`: The row of a path is as deep as the path is long.
* `ofSpan_keyOffset`: A key is located on its row.
* `parse_find_document`: A document in block style is read back, and its keys are found.
-/

namespace YamlLocator

namespace Yaml

namespace BlockStyle

/-! ### Following paths -/

/-- An entry with a key of another name makes no difference to where a path leads. -/
theorem locate_cons_of_ne {name key : String} (h : key ≠ name) (rest : List String)
    (span : Option Span) (value : Option Node) (more : List Entry) (outer : Option Span) :
    Node.locate (name :: rest)
        (.mapping ({ key := .scalar key .string span, value } :: more) outer) =
      Node.locate (name :: rest) (.mapping more outer) := by
  have hentry :
      (Node.mapping ({ key := .scalar key .string span, value } :: more) outer).entryNamed? name =
        (Node.mapping more outer).entryNamed? name := by
    simp [Node.entryNamed?, Node.entries?, entryFor?, Node.isKeyNamed, h]
  cases rest with
  | nil => simp only [Node.locate, hentry]
  | cons next path => simp only [Node.locate, hentry]

/-- An entry with a key of the name is the only one that is asked. -/
theorem locate_cons_of_eq (name : String) (rest : List String) (span : Span) (value : Node)
    (more : List Entry) (outer : Option Span) :
    Node.locate (name :: rest) (.mapping
        ({ key := .scalar name .string (some span), value := some value } :: more) outer) =
      if rest = [] then some (.exact span)
      else (Node.locate rest value).or (some (.nearest span)) := by
  have hfirst : IsFirstNamed name
      ({ key := .scalar name .string (some span), value := some value } :: more)
      { key := .scalar name .string (some span), value := some value } :=
    ⟨[], more, rfl, ⟨some span, rfl⟩, by simp⟩
  rw [locate_mapping hfirst]
  rfl

mutual

/-- A path that leads to a row of a mapping leads through its entries to the key of that
    row. -/
theorem locate_of_isRead (mapping : TextMapping) {place : Nat → Nat} {row i : Nat}
    {entries : List Entry} {path : List String} (hread : mapping.IsRead place row entries)
    (h : mapping.rowFor? path = some i) (outer : Option Span) :
    ∃ span, Node.locate path (.mapping entries outer) = some (.exact span) ∧
      span.start = place (row + i) := by
  cases path with
  | nil => cases mapping <;> simp [TextMapping.rowFor?] at h
  | cons name path =>
    cases mapping with
    | last key value =>
      rcases hread with ⟨span, node, hstart, hvalue, rfl⟩
      by_cases hname : key.text = name
      · rw [TextMapping.rowFor?, if_pos hname] at h
        rw [hname]
        exact locate_of_isRead_value value hstart hvalue h name [] outer
      · rw [TextMapping.rowFor?, if_neg hname] at h
        simp at h
    | entry key value rest =>
      rcases hread with ⟨span, node, more, hstart, hvalue, hrest, rfl⟩
      by_cases hname : key.text = name
      · rw [TextMapping.rowFor?, if_pos hname] at h
        rw [hname]
        exact locate_of_isRead_value value hstart hvalue h name more outer
      · -- The row is that of a later entry, and is counted from there.
        rw [TextMapping.rowFor?, if_neg hname, Option.map_eq_some_iff] at h
        rcases h with ⟨j, hj, rfl⟩
        rw [locate_cons_of_ne hname, ← Nat.add_assoc]
        exact locate_of_isRead rest hrest hj outer

/-- A path that leads from a value to a row leads through an entry of that value to the key
    of that row. -/
theorem locate_of_isRead_value (value : TextValue) {place : Nat → Nat} {row i : Nat} {node : Node}
    {span : Span} {path : List String} (hstart : span.start = place row)
    (hread : value.IsRead place row node) (h : value.rowFor? path = some i) (name : String)
    (more : List Entry) (outer : Option Span) :
    ∃ found, Node.locate (name :: path) (.mapping
        ({ key := .scalar name .string (some span), value := some node } :: more) outer) =
        some (.exact found) ∧
      found.start = place (row + i) := by
  rw [locate_cons_of_eq]
  cases path with
  | nil =>
    -- The path ends here, so the row is the one of the key itself.
    have hi : i = 0 := by
      cases value <;> simpa [TextValue.rowFor?, eq_comm] using h
    rw [if_pos rfl, hi]
    exact ⟨span, rfl, hstart⟩
  | cons next path =>
    cases value with
    | text text => simp [TextValue.rowFor?] at h
    | mapping mapping =>
      rw [TextValue.rowFor?, Option.map_eq_some_iff] at h
      rcases h with ⟨j, hj, rfl⟩
      rcases hread with ⟨entries, inner, hentries, rfl⟩
      rcases locate_of_isRead mapping hentries hj inner with ⟨found, hfound, hplace⟩
      -- There is an answer below, so the key is not fallen back on.
      rw [if_neg (List.cons_ne_nil next path), hfound]
      refine ⟨found, rfl, ?_⟩
      rw [hplace, Nat.add_assoc, Nat.add_comm 1 j]

end

mutual

/-- The row that a path leads to is as deep as the path is long, and its key has the last
    name of the path. -/
theorem getElem?_of_rowFor? (mapping : TextMapping) (depth : Nat) {path : List String} {i : Nat}
    (h : mapping.rowFor? path = some i) :
    ∃ row, (mapping.rows depth)[i]? = some row ∧ row.depth + 1 = depth + path.length ∧
      path.getLast? = some row.key.text := by
  cases path with
  | nil => cases mapping <;> simp [TextMapping.rowFor?] at h
  | cons name path =>
    cases mapping with
    | last key value =>
      by_cases hname : key.text = name
      · rw [TextMapping.rowFor?, if_pos hname] at h
        rcases getElem?_of_rowFor?_value value key depth h with ⟨row, hrow, hdepth, hlast⟩
        refine ⟨row, hrow, by rw [hdepth, List.length_cons, Nat.add_assoc], ?_⟩
        rw [hlast, hname, List.getLast?_cons]
      · rw [TextMapping.rowFor?, if_neg hname] at h
        simp at h
    | entry key value rest =>
      by_cases hname : key.text = name
      · rw [TextMapping.rowFor?, if_pos hname] at h
        rcases getElem?_of_rowFor?_value value key depth h with ⟨row, hrow, hdepth, hlast⟩
        refine ⟨row, ?_, by rw [hdepth, List.length_cons, Nat.add_assoc], ?_⟩
        · have hlt := (List.getElem?_eq_some_iff.mp hrow).1
          rw [TextMapping.rows, List.getElem?_append_left hlt, hrow]
        · rw [hlast, hname, List.getLast?_cons]
      · -- The rows of the first entry are passed over.
        rw [TextMapping.rowFor?, if_neg hname, Option.map_eq_some_iff] at h
        rcases h with ⟨j, hj, rfl⟩
        rcases getElem?_of_rowFor? rest depth hj with ⟨row, hrow, hdepth, hlast⟩
        refine ⟨row, ?_, hdepth, hlast⟩
        rw [TextMapping.rows, ← length_rows_value value key depth,
          List.getElem?_append_right (Nat.le_add_right _ _), Nat.add_sub_cancel_left, hrow]

/-- The same for a path that leads from a value to a row. -/
theorem getElem?_of_rowFor?_value (value : TextValue) (key : KeyText) (depth : Nat)
    {path : List String} {i : Nat} (h : value.rowFor? path = some i) :
    ∃ row, (value.rows depth key)[i]? = some row ∧ row.depth = depth + path.length ∧
      row.key.text = path.getLast?.getD key.text := by
  cases path with
  | nil =>
    cases value with
    | text text =>
      cases h
      exact ⟨_, rfl, rfl, rfl⟩
    | mapping mapping =>
      cases h
      exact ⟨_, rfl, rfl, rfl⟩
  | cons name path =>
    cases value with
    | text text => simp [TextValue.rowFor?] at h
    | mapping mapping =>
      rw [TextValue.rowFor?, Option.map_eq_some_iff] at h
      rcases h with ⟨j, hj, rfl⟩
      rcases getElem?_of_rowFor? mapping (depth + 1) hj with ⟨row, hrow, hdepth, hlast⟩
      refine ⟨row, ?_, by omega, by rw [hlast, Option.getD_some]⟩
      rw [TextValue.rows, List.getElem?_cons_succ, hrow]

end

/-! ### Lines and columns -/

theorem not_mem_quoted (text : LineText) : '\n' ∉ quoted text.text.toList := by
  have hspelled : ∀ ch ∈ text.text.toList, '\n' ∉ spelled ch := by
    intro ch hmem hspelled
    have hline := text.isLine ch hmem
    by_cases hquote : ch = '\''
    · simp [spelled, hquote] at hspelled
    · rw [spelled, if_neg hquote, List.mem_singleton] at hspelled
      rw [← hspelled] at hline
      exact absurd hline (by decide)
  simp only [quoted, List.mem_cons, List.mem_append, List.mem_flatMap, List.not_mem_nil, not_or,
    not_exists, not_and]
  exact ⟨by decide, hspelled, by decide, fun h => h⟩

/-- A row is a single line. -/
theorem not_mem_chars (row : Row) : '\n' ∉ row.chars := by
  have hkey := not_mem_quoted row.key.toLineText
  have htail : '\n' ∉ row.tail := by
    cases hvalue : row.value with
    | none => simp [Row.tail, hvalue]
    | some value =>
      have := not_mem_quoted value
      simp [Row.tail, hvalue, this]
  simp [Row.chars, Row.content, hkey, htail]

/-- There are as many line feeds in front of a row as rows. -/
theorem count_linesOf (rows : List Row) : (linesOf rows).count '\n' = rows.length := by
  induction rows with
  | nil => rfl
  | cons row rest ih =>
    rw [linesOf_cons, List.count_append, List.count_eq_zero_of_not_mem (not_mem_chars row),
      List.count_cons_self, ih, Nat.zero_add, List.length_cons]

/-- Behind some lines and the indentation of a row, the line that is cut begins with that
    indentation. -/
theorem reverse_takeWhile_linesOf (front : List Row) (n : Nat) :
    ((linesOf front ++ List.replicate n ' ').reverse.takeWhile (· ≠ '\n')).reverse =
      List.replicate n ' ' := by
  have hspaces : ∀ ch ∈ List.replicate n ' ', decide (ch ≠ '\n') = true := by
    intro ch hmem
    rw [List.eq_of_mem_replicate hmem]
    decide
  -- The text in front is empty or ends in a line feed.
  have hfront : (linesOf front).reverse.takeWhile (· ≠ '\n') = [] := by
    rcases List.eq_nil_or_concat front with rfl | ⟨before, row, rfl⟩
    · rfl
    · rw [List.concat_eq_append, linesOf_append, linesOf_cons]
      simp
  rw [List.reverse_append, List.reverse_replicate, List.takeWhile_append_of_pos hspaces, hfront,
    List.append_nil, List.reverse_replicate]

/-- What begins at the key of a row is located on the line of the row, behind its
    indentation. -/
theorem ofSpan_keyOffset (lineFeed : Bool) (front : List Row) (row : Row) (rest : List Row)
    (span : Span) (hstart : span.start = keyOffset (front ++ row :: rest) front.length)
    (file : String) :
    Location.ofSpan (String.ofList (written lineFeed (front ++ row :: rest))) span file true =
      { path := file, line := front.length + 1, column := some (2 * row.depth) } := by
  -- The offset cuts the text in front of the key, at the end of the indentation.
  let before := linesOf front ++ List.replicate (2 * row.depth) ' '
  have htext : written lineFeed (front ++ row :: rest) =
      before ++ (row.content ++ behind lineFeed rest) := by
    rw [written_append_cons, Row.chars, List.append_assoc, ← List.append_assoc]
  have hoffset : span.start = Text.byteLength before := by
    rw [hstart, keyOffset_append_cons, Text.byteLength_append, byteLength_spaces]
  have hcut : Text.cutAtByte span.start (written lineFeed (front ++ row :: rest)) =
      (before, row.content ++ behind lineFeed rest) := by
    rw [hoffset, htext, Text.cutAtByte_byteLength_append]
  have hline : Position.lineNumber (String.ofList (written lineFeed (front ++ row :: rest)))
      span.start = front.length + 1 := by
    rw [Position.lineNumber, String.toList_ofList, hcut, List.count_append, count_linesOf,
      List.count_replicate]
    rfl
  have hcolumn : Position.indentation (Position.lineText
      (String.ofList (written lineFeed (front ++ row :: rest))) span.start) = 2 * row.depth := by
    rw [Position.indentation, Position.lineText, String.toList_ofList, String.toList_ofList,
      Position.lineChars, hcut]
    simp only [before, reverse_takeWhile_linesOf]
    rw [List.takeWhile_append_of_pos (by simp)]
    simp [Row.content, quoted]
  simp only [Location.ofSpan, hline, hcolumn, if_true]

/-! ### Documents -/

/-- A document in block style is a mapping with the entries that were written. -/
theorem exists_parse_document (lineFeed : Bool) (mapping : TextMapping) :
    ∃ entries span, Document.parse (mapping.document lineFeed) =
        .ok (some (.mapping entries span)) ∧
      mapping.IsRead (keyOffset (mapping.rows 0)) 0 entries := by
  rcases ofTokens_written lineFeed mapping with
    ⟨first, last, children, before, after, hevents, hbefore, hafter, hread⟩
  have hparse : Document.parse (mapping.document lineFeed) =
      .ok (some ((Outline.mapping first children last).node
        (OffsetTable.ofText (written lineFeed (mapping.rows 0))))) := by
    rw [TextMapping.document, Document.parse_of_events (by
      rwa [String.toList_ofList, Document.events]), String.toList_ofList,
      Assembly.ofEvents_events _ (.mapping first children last) hbefore hafter]
    rfl
  rw [Outline.node] at hparse
  exact ⟨_, _, hparse, hread⟩

/-- A document in block style is read back, and the key that a path leads to is located on the
    line of its row, behind the indentation of the row. -/
theorem parse_find_document (lineFeed : Bool) (mapping : TextMapping) :
    (∃ entries span, Document.parse (mapping.document lineFeed) =
        .ok (some (.mapping entries span)) ∧
      mapping.IsRead (keyOffset (mapping.rows 0)) 0 entries) ∧
    ∀ (path : KeyPath) (i : Nat), mapping.rowFor? path.segments = some i →
      ∃ row span, (mapping.rows 0)[i]? = some row ∧
        row.depth + 1 = path.segments.length ∧
        path.segments.getLast? = some row.key.text ∧
        path.find (mapping.document lineFeed) = .ok (some (.exact span)) ∧
        ∀ file, Location.ofSpan (mapping.document lineFeed) span file true =
          { path := file, line := i + 1, column := some (2 * row.depth) } := by
  rcases exists_parse_document lineFeed mapping with ⟨entries, outer, hparse, hread⟩
  refine ⟨⟨entries, outer, hparse, hread⟩, ?_⟩
  intro path i hi
  rcases getElem?_of_rowFor? mapping 0 hi with ⟨row, hrow, hdepth, hlast⟩
  rcases locate_of_isRead mapping hread hi outer with ⟨span, hlocate, hstart⟩
  refine ⟨row, span, hrow, by rw [hdepth, Nat.zero_add], hlast, ?_, ?_⟩
  · rw [KeyPath.find, hparse]
    simp only [bind, Except.bind, Option.bind_some, hlocate]
    rfl
  · intro file
    rcases List.getElem?_eq_some_iff.mp hrow with ⟨hlt, hget⟩
    -- The row splits the document into what is in front of it and what is behind it.
    have hrows : mapping.rows 0 =
        (mapping.rows 0).take i ++ row :: (mapping.rows 0).drop (i + 1) := by
      rw [← hget, ← List.drop_eq_getElem_cons hlt, List.take_append_drop]
    have hlength : ((mapping.rows 0).take i).length = i :=
      List.length_take_of_le (Nat.le_of_lt hlt)
    have hlocation := ofSpan_keyOffset lineFeed ((mapping.rows 0).take i) row
      ((mapping.rows 0).drop (i + 1)) span (by rw [← hrows, hlength, hstart, Nat.zero_add]) file
    rw [← hrows, hlength] at hlocation
    exact hlocation

/-- A mapping with a repeated key, the first one with a mapping for its value. -/
def repeated : TextMapping :=
  .entry ⟨⟨"a", by simp [isLineEnd, isBreak, isEnd, endMark]⟩, by decide⟩
    (.mapping (.last ⟨⟨"it's", by simp [isLineEnd, isBreak, isEnd, endMark]⟩, by decide⟩
      (.text ⟨"x: #", by simp [isLineEnd, isBreak, isEnd, endMark]⟩)))
    (.last ⟨⟨"a", by simp [isLineEnd, isBreak, isEnd, endMark]⟩, by decide⟩ (.text ⟨"", by simp⟩))

/-- The key inside the first of two equal keys is found on the second line. -/
theorem parse_find_document_of_repeated :
    repeated.document false = "'a':\n  'it''s': 'x: #'\n'a': ''" ∧
      repeated.rowFor? ["a", "it's"] = some 1 ∧
      ∃ span, KeyPath.find ⟨["a", "it's"], by decide, by decide⟩ (repeated.document false) =
          .ok (some (.exact span)) ∧
        Location.ofSpan (repeated.document false) span "f.yaml" true =
          { path := "f.yaml", line := 2, column := some 2 } := by
  refine ⟨by decide, by decide, ?_⟩
  rcases (parse_find_document false repeated).2 ⟨["a", "it's"], by decide, by decide⟩ 1 (by decide)
    with ⟨row, span, hrow, _, _, hfind, hlocation⟩
  cases hrow
  exact ⟨span, hfind, hlocation "f.yaml"⟩

end BlockStyle

end Yaml

end YamlLocator
