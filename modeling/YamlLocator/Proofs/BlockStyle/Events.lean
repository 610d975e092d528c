import YamlLocator.Proofs.BlockStyle.Tokens
import YamlLocator.Proofs.Nesting
import YamlLocator.Proofs.Offsets
import YamlLocator.Proofs.Outline

/-!
# Events of Block Style

From the rows of a document back to its tree. The grammar reads the tokens of the rows from
front to back, and what it has read of a mapping is an outline.

The tokens of the layout stand where the rows are, but the grammar wants them where the
mappings are: the end of a mapping in front of a row belongs to the mapping, and not to the
row. Two facts about the tokens of rows settle this. In front of a row that is deeper than
all open mappings stands the beginning of one, and then the same tokens as if it had been
open already. And with one more mapping open than the rows are inside of, the tokens are the
same with one more end in front of them.

With these, the induction is on the tree. What a mapping gives is stated for any rows that
follow it, as long as none of them belongs to it.

## Main definitions

* `Derivation.Stands`: Which tokens and expectations a derivation has left.
* `KeysAt`: Where the keys of a document begin.
* `keyOutline`: The outline of a key.

## Theorems

* `tokensOf_open`, `tokensOf_close`: Where the layout begins and ends a mapping.
* `gives_mapping`: The rows of a mapping give an outline that holds it.
* `ofTokens_written`: The events of a document are those of an outline that holds it.
-/

namespace YamlLocator

namespace Yaml

/-- A derivation has some tokens and some expectations left. -/
structure Derivation.Stands (d : Derivation) (tokens : List (Placed Token))
    (agenda : List Production) : Prop where
  tokens : d.tokens.map Delivered.toPlaced = tokens
  agenda : d.agenda = agenda

namespace BlockStyle

open YamlLocator.Yaml.Derivation

/-! ### Where mappings begin and end -/

/-- The first row of a mapping that is not open yet begins it. -/
theorem tokensOf_open (stop : Mark) (front : List Row) (mapping : TextMapping) (depth : Nat)
    (rest : List Row) :
    ∃ mark, tokensOf stop depth front (mapping.rows depth ++ rest) =
      { item := .blockMappingStart, mark } ::
        tokensOf stop (depth + 1) front (mapping.rows depth ++ rest) := by
  rcases exists_rows_eq_cons mapping depth with ⟨row, more, hrows, hdepth⟩
  refine ⟨colonMark front row, ?_⟩
  -- Nothing is closed in front of a row that is deeper than all open mappings.
  have hnone : depth - 1 - depth = 0 := by omega
  simp [hrows, tokensOf, rowTokens, closingTokens, entryTokens, hdepth, hnone]

/-- A mapping that no more rows belong to ends in front of them. -/
theorem tokensOf_close (stop : Mark) (bound : Nat) (front : List Row) {rest : List Row}
    (h : ∀ row ∈ rest.head?, row.depth < bound) :
    ∃ mark, tokensOf stop (bound + 1) front rest =
      { item := .blockEnd, mark } :: tokensOf stop bound front rest := by
  cases rest with
  | nil => exact ⟨stop, rfl⟩
  | cons row more =>
    have hlt : row.depth < bound := h row rfl
    -- The row closes one mapping more, and it is too far to the left to open one.
    have hcount : bound + 1 - 1 - row.depth = (bound - 1 - row.depth) + 1 := by omega
    refine ⟨keyMark front row, ?_⟩
    rw [tokensOf, tokensOf, rowTokens, rowTokens, closingTokens, closingTokens, hcount,
      List.replicate_succ, entryTokens, entryTokens, if_neg (by omega), if_neg (by omega)]
    rfl

/-! ### Steps -/

section Step

variable {d : Derivation} {tokens : List (Placed Token)} {agenda : List Production}

/-- The first of some tokens as it was handed out, and the others. -/
theorem exists_eq_cons_of_map {delivered : List Delivered} {token : Placed Token}
    (h : delivered.map Delivered.toPlaced = token :: tokens) :
    ∃ reached rest, delivered = { toPlaced := token, reached } :: rest ∧
      rest.map Delivered.toPlaced = tokens := by
  rcases List.map_eq_cons_iff.mp h with ⟨first, rest, hdelivered, hfirst, hrest⟩
  refine ⟨first.reached, rest, ?_, hrest⟩
  rw [hdelivered, ← hfirst]

/-- The beginning of a document that is a mapping. -/
theorem gives_start {first second : Mark}
    (h : d.Stands ({ item := .streamStart, mark := first } ::
      { item := .blockMappingStart, mark := second } :: tokens) [.stream]) :
    ∃ d', Gives d [{ item := .streamStart, mark := first },
        { item := .documentStart, mark := second }, { item := .mappingStart, mark := second }] d' ∧
      d'.Stands tokens [.blockKey, .documentEnd] := by
  rcases d with ⟨delivered, error, reached, expected, anchors, handle⟩
  rcases h with ⟨htokens, rfl⟩
  rcases exists_eq_cons_of_map htokens with ⟨reached₁, rest₁, rfl, hrest₁⟩
  rcases exists_eq_cons_of_map hrest₁ with ⟨reached₂, rest₂, rfl, hrest₂⟩
  exact ⟨_, .more _ _ _ _ _ rfl (.more _ _ _ _ _ rfl (gives_of_step rfl)), hrest₂, rfl⟩

/-- The end of a document that is over. -/
theorem gives_end {mark : Mark} (h : d.Stands [{ item := .streamEnd, mark }] [.documentEnd]) :
    ∃ d', Gives d [{ item := .documentEnd, mark }] d' ∧ d'.agenda = [] := by
  rcases d with ⟨delivered, error, reached, expected, anchors, handle⟩
  rcases h with ⟨htokens, rfl⟩
  rcases exists_eq_cons_of_map htokens with ⟨reached₁, rest₁, rfl, hrest₁⟩
  exact ⟨_, gives_of_step rfl, rfl⟩

/-- A key with a scalar behind its colon. -/
theorem gives_scalarEntry {key colon behind : Mark} {name text : String}
    (h : d.Stands ({ item := .key, mark := key } ::
      { item := .scalar .singleQuoted name, mark := key } :: { item := .value, mark := colon } ::
        { item := .scalar .singleQuoted text, mark := behind } :: tokens) (.blockKey :: agenda)) :
    ∃ d', Gives d [{ item := .scalar .singleQuoted name, mark := key },
        { item := .scalar .singleQuoted text, mark := behind }] d' ∧
      d'.Stands tokens (.blockKey :: agenda) := by
  rcases d with ⟨delivered, error, reached, expected, anchors, handle⟩
  rcases h with ⟨htokens, rfl⟩
  rcases exists_eq_cons_of_map htokens with ⟨reached₁, rest₁, rfl, hrest₁⟩
  rcases exists_eq_cons_of_map hrest₁ with ⟨reached₂, rest₂, rfl, hrest₂⟩
  rcases exists_eq_cons_of_map hrest₂ with ⟨reached₃, rest₃, rfl, hrest₃⟩
  rcases exists_eq_cons_of_map hrest₃ with ⟨reached₄, rest₄, rfl, hrest₄⟩
  exact ⟨_, .more _ _ _ _ _ rfl (gives_of_step rfl), hrest₄, rfl⟩

/-- A key with a mapping behind its colon, which is left to be read. -/
theorem gives_mappingEntry {key colon behind : Mark} {name : String}
    (h : d.Stands ({ item := .key, mark := key } ::
      { item := .scalar .singleQuoted name, mark := key } :: { item := .value, mark := colon } ::
        { item := .blockMappingStart, mark := behind } :: tokens) (.blockKey :: agenda)) :
    ∃ d', Gives d [{ item := .scalar .singleQuoted name, mark := key },
        { item := .mappingStart, mark := behind }] d' ∧
      d'.Stands tokens (.blockKey :: .blockKey :: agenda) := by
  rcases d with ⟨delivered, error, reached, expected, anchors, handle⟩
  rcases h with ⟨htokens, rfl⟩
  rcases exists_eq_cons_of_map htokens with ⟨reached₁, rest₁, rfl, hrest₁⟩
  rcases exists_eq_cons_of_map hrest₁ with ⟨reached₂, rest₂, rfl, hrest₂⟩
  rcases exists_eq_cons_of_map hrest₂ with ⟨reached₃, rest₃, rfl, hrest₃⟩
  rcases exists_eq_cons_of_map hrest₃ with ⟨reached₄, rest₄, rfl, hrest₄⟩
  exact ⟨_, .more _ _ _ _ _ rfl (gives_of_step rfl), hrest₄, rfl⟩

/-- The end of a mapping. -/
theorem gives_blockEnd {mark : Mark}
    (h : d.Stands ({ item := .blockEnd, mark } :: tokens) (.blockKey :: agenda)) :
    ∃ d', Gives d [{ item := .mappingEnd, mark }] d' ∧ d'.Stands tokens agenda := by
  rcases d with ⟨delivered, error, reached, expected, anchors, handle⟩
  rcases h with ⟨htokens, rfl⟩
  rcases exists_eq_cons_of_map htokens with ⟨reached₁, rest₁, rfl, hrest₁⟩
  exact ⟨_, gives_of_step rfl, hrest₁, rfl⟩

end Step

/-! ### Mappings -/

/-- The keys of a document begin at some places, the rows numbered from zero. -/
def KeysAt (doc : List Row) (offsets : OffsetTable) (place : Nat → Nat) : Prop :=
  ∀ front row rest, doc = front ++ row :: rest →
    offsets.byteAt (keyMark front row).index = place front.length

/-- The outline of the key of the row behind some others. -/
def keyOutline (front : List Row) (depth : Nat) (key : KeyText) : Outline :=
  .scalar .singleQuoted key.text ((lineStart front).right (2 * depth))

section Mapping

variable {doc : List Row} {stop : Mark} {offsets : OffsetTable} {place : Nat → Nat}

mutual

/-- The rows of a mapping that is open give an outline of its entries that holds them, and
    then the end of the mapping. -/
theorem gives_mapping (hplace : KeysAt doc offsets place) (mapping : TextMapping)
    {depth : Nat} {front rest : List Row} {d : Derivation} {agenda : List Production}
    (hdoc : doc = front ++ (mapping.rows depth ++ rest))
    (hrest : ∀ row ∈ rest.head?, row.depth < depth)
    (h : d.Stands (tokensOf stop (depth + 1) front (mapping.rows depth ++ rest))
      (.blockKey :: agenda)) :
    ∃ children last d',
      Gives d (Outline.eventsOfAll children ++ [{ item := .mappingEnd, mark := last }]) d' ∧
      d'.Stands (tokensOf stop depth (front ++ mapping.rows depth) rest) agenda ∧
      mapping.IsRead place front.length (pairUp (Outline.nodes offsets children)) := by
  cases mapping with
  | last key value =>
    -- Behind the rows of the entry nothing belongs to the mapping, so it ends there.
    rw [TextMapping.rows] at hdoc h ⊢
    rcases gives_value hplace value key hdoc (fun row hrow => Nat.le_of_lt (hrest row hrow)) h with
      ⟨outline, d₁, hvalue, hstands, hstart, hread⟩
    rcases tokensOf_close stop depth (front ++ value.rows depth key) hrest with ⟨last, hclose⟩
    rw [hclose] at hstands
    rcases gives_blockEnd hstands with ⟨d₂, hend, hstands'⟩
    refine ⟨[keyOutline front depth key, outline], last, d₂, ?_, hstands', _, _, hstart, hread, rfl⟩
    have := gives_append hvalue hend
    simpa [Outline.eventsOfAll] using this
  | entry key value more =>
    rw [TextMapping.rows, List.append_assoc] at hdoc h
    -- What follows the entry begins with a row of the same mapping, which leaves it open.
    have hmore : ∀ row ∈ (more.rows depth ++ rest).head?, row.depth ≤ depth := by
      rcases exists_rows_eq_cons more depth with ⟨row, _, hrows, hdepth⟩
      rw [hrows]
      intro row' hrow'
      cases hrow'
      exact Nat.le_of_eq hdepth
    rcases gives_value hplace value key hdoc hmore h with
      ⟨outline, d₁, hvalue, hstands, hstart, hread⟩
    rcases gives_mapping hplace more (by rw [hdoc, List.append_assoc]) hrest hstands with
      ⟨children, last, d₂, hgives, hstands', hread'⟩
    -- The rows of the other entries are numbered from behind those of this one.
    rw [List.length_append, length_rows_value] at hread'
    refine ⟨keyOutline front depth key :: outline :: children, last, d₂, ?_, ?_,
      _, _, _, hstart, hread, hread', rfl⟩
    · have := gives_append hvalue hgives
      simpa [Outline.eventsOfAll] using this
    · rwa [List.append_assoc] at hstands'

/-- The rows of an entry give the key and an outline that holds the value. -/
theorem gives_value (hplace : KeysAt doc offsets place) (value : TextValue) (key : KeyText)
    {depth : Nat} {front rest : List Row} {d : Derivation} {agenda : List Production}
    (hdoc : doc = front ++ (value.rows depth key ++ rest))
    (hrest : ∀ row ∈ rest.head?, row.depth ≤ depth)
    (h : d.Stands (tokensOf stop (depth + 1) front (value.rows depth key ++ rest))
      (.blockKey :: agenda)) :
    ∃ (outline : Outline) (d' : Derivation),
      Gives d ((keyOutline front depth key).events ++ outline.events) d' ∧
      d'.Stands (tokensOf stop (depth + 1) (front ++ value.rows depth key) rest)
        (.blockKey :: agenda) ∧
      (Assembly.scalarSpan offsets ((lineStart front).right (2 * depth)) .singleQuoted
        key.text).start = place front.length ∧
      value.IsRead place front.length (outline.node offsets) := by
  -- The row lies in the innermost mapping: it closes none and opens none.
  have hnone : depth + 1 - 1 - depth = 0 := by omega
  have hlt : ¬depth = depth + 1 := by omega
  cases value with
  | text text =>
    have hstart := hplace front { depth, key, value := some text } rest hdoc
    simp only [TextValue.rows, List.cons_append, List.nil_append, tokensOf, rowTokens,
      closingTokens, entryTokens, valueTokens, keyToken, hnone, hlt, if_false, List.replicate_zero,
      Option.map_some, Option.toList_some] at h
    rcases gives_scalarEntry h with ⟨d', hgives, hstands⟩
    exact ⟨.scalar .singleQuoted text.text _, d', hgives, hstands, hstart, _, rfl⟩
  | mapping mapping =>
    have hstart := hplace front { depth, key, value := none }
      (mapping.rows (depth + 1) ++ rest) hdoc
    -- Behind the key stands the beginning of a mapping, since the next row is deeper.
    rcases tokensOf_open stop (front ++ [{ depth, key, value := none }]) mapping (depth + 1) rest
      with ⟨first, hopen⟩
    simp only [TextValue.rows, List.cons_append, List.nil_append, tokensOf, rowTokens,
      closingTokens, entryTokens, valueTokens, keyToken, hnone, hlt, if_false, List.replicate_zero,
      Option.map_none, Option.toList_none, hopen] at h
    rcases gives_mappingEntry h with ⟨d₁, hentry, hstands⟩
    rcases gives_mapping hplace mapping (by rw [hdoc]; simp [TextValue.rows])
      (fun row hrow => Nat.lt_succ_of_le (hrest row hrow)) hstands with
      ⟨children, last, d₂, hgives, hstands', hread⟩
    refine ⟨.mapping first children last, d₂, ?_, ?_, hstart, _, _, ?_, rfl⟩
    · have hall := gives_append hentry hgives
      exact hall
    · rwa [List.append_assoc] at hstands'
    · rwa [List.length_append] at hread

end

end Mapping

/-! ### Documents -/

/-- The places that the offset table of a document gives are the offsets of the keys. -/
theorem keysAt_written (lineFeed : Bool) (rows : List Row) :
    KeysAt rows (OffsetTable.ofText (written lineFeed rows)) (keyOffset rows) := by
  intro front row rest hrows
  have htext : written lineFeed rows = (linesOf front ++ List.replicate (2 * row.depth) ' ') ++
      (row.content ++ behind lineFeed rest) := by
    rw [hrows, written_append_cons, Row.chars, List.append_assoc, List.append_assoc]
  have hindex : (keyMark front row).index =
      (linesOf front ++ List.replicate (2 * row.depth) ' ').length := by
    simp [keyMark, lineStart, Mark.right]
  rw [htext, hindex, OffsetTable.byteAt_ofText_append, hrows, keyOffset_append_cons,
    Text.byteLength_append, byteLength_spaces]

/-- The events of a document in block style are those of an outline that holds its mapping,
    inside the stream and the document. -/
theorem ofTokens_written (lineFeed : Bool) (mapping : TextMapping) :
    ∃ first last children before after,
      Event.ofTokens (TokenStream.ofText (written lineFeed (mapping.rows 0))) =
        .ok (before ++ (Outline.mapping first children last).events ++ after) ∧
      (∀ event ∈ before, event.item.isBoundary = true) ∧
      (∀ event ∈ after, event.item.isBoundary = true) ∧
      mapping.IsRead (keyOffset (mapping.rows 0)) 0 (pairUp (Outline.nodes
        (OffsetTable.ofText (written lineFeed (mapping.rows 0))) children)) := by
  have hne : mapping.rows 0 ≠ [] := by
    rcases exists_rows_eq_cons mapping 0 with ⟨row, rest, hrows, _⟩
    rw [hrows]
    exact List.cons_ne_nil row rest
  -- Nothing follows the rows of the outermost mapping.
  have hrows : mapping.rows 0 = mapping.rows 0 ++ [] := (List.append_nil _).symm
  have hstepwise : IsStepwise 0 (mapping.rows 0) := by
    rw [hrows]
    exact isStepwise_rows mapping 0 trivial
  rcases tokens_ofText_written lineFeed hne hstepwise with ⟨stop, htokens⟩
  rcases tokensOf_open stop [] mapping 0 [] with ⟨first, hopen⟩
  rw [← hrows] at hopen
  rw [hopen] at htokens
  have hbegin : (ofStream (TokenStream.ofText (written lineFeed (mapping.rows 0)))).Stands _
      [.stream] := ⟨htokens, rfl⟩
  rcases gives_start hbegin with ⟨d₁, hstart, hstands₁⟩
  rw [hrows] at hstands₁
  rcases gives_mapping (keysAt_written lineFeed (mapping.rows 0)) mapping hrows (by simp) hstands₁
    with ⟨children, last, d₂, hmapping, hstands₂, hread⟩
  rcases gives_end hstands₂ with ⟨d₃, hend, hagenda⟩
  refine ⟨first, last, children, [{ item := .streamStart, mark := Mark.start },
    { item := .documentStart, mark := first }], [{ item := .documentEnd, mark := stop }], ?_,
    by simp [Event.isBoundary], by simp [Event.isBoundary], hread⟩
  rw [Event.ofTokens, events_of_gives (gives_append hstart (gives_append hmapping hend)) hagenda]
  simp [Outline.events]

end BlockStyle

end Yaml

end YamlLocator
