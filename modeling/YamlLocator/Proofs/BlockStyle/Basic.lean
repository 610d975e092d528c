import YamlLocator.Position.Line
import YamlLocator.Text.Pieces
import YamlLocator.Yaml.Character
import YamlLocator.Yaml.Node.Basic

/-!
# Documents in Block Style

A tree of mappings from strings to strings, and the plainest way to write it down: every
entry on a line of its own, indented by two spaces for each mapping around it, and every
string between single quotes. A string value stands on the line of its key and a mapping on
the lines below.

The lines of such a document are a list of rows, and a row knows how deep it is. This is
what makes a document easy to read from front to back: how the rows nest is in their depths
alone, and no row is more than one step deeper than the one in front of it.

What the document says is stated once more without any text. `TextMapping.IsRead` relates a
mapping to the entries of a node, for given places of the keys, and `TextMapping.rowFor?`
follows a path to the row of an entry.

## Main definitions

* `quoted`: A string between single quotes.
* `LineText`, `KeyText`: Strings that fit on a line, and into a key.
* `TextMapping`, `TextValue`: Trees of mappings that have at least one entry each.
* `Row`, `TextMapping.rows`: The lines of a document.
* `written`: The text of a document, with or without a line feed at its end.
* `keyOffset`: The byte at which the key of a row begins.
* `TextMapping.IsRead`: What it means that entries hold a mapping.
* `TextMapping.rowFor?`: The row of the entry that a path leads to.

## Theorems

* `written_cons`: A document is its first row and what stands behind it.
* `isStepwise_rows`: No row is more than one step deeper than the one in front of it.
-/

namespace YamlLocator

namespace Yaml

namespace BlockStyle

/-! ### Strings -/

/-- A character as it is spelled between single quotes, where a quote is written twice. -/
def spelled (c : Char) : List Char := if c = '\'' then ['\'', '\''] else [c]

/-- The characters between single quotes. -/
def quoted (chars : List Char) : List Char := '\'' :: (chars.flatMap spelled ++ ['\''])

/-- A string without the ends of lines and texts. -/
structure LineText where
  text : String
  isLine : ∀ c ∈ text.toList, isLineEnd c = false

/-- A string that is short enough for a key when it is quoted. -/
structure KeyText extends LineText where
  length_quoted_le : (quoted text.toList).length ≤ 1000

/-! ### Trees -/

mutual

/-- A mapping with at least one entry. -/
inductive TextMapping where
  | last (key : KeyText) (value : TextValue)
  | entry (key : KeyText) (value : TextValue) (rest : TextMapping)

/-- The value of an entry. -/
inductive TextValue where
  | text (text : LineText)
  | mapping (mapping : TextMapping)

end

/-! ### Rows -/

/-- The line of an entry. A row without a value is the key of a mapping. -/
structure Row where
  /-- The number of mappings around the one that the entry belongs to. -/
  depth : Nat
  key : KeyText
  value : Option LineText

namespace Row

/-- The row behind the colon. -/
def tail (row : Row) : List Char :=
  match row.value with
  | some value => ' ' :: quoted value.text.toList
  | none => []

/-- The row behind its indentation. -/
def content (row : Row) : List Char := quoted row.key.text.toList ++ ':' :: row.tail

/-- The characters of the row. -/
def chars (row : Row) : List Char := List.replicate (2 * row.depth) ' ' ++ row.content

end Row

mutual

/-- The rows of a mapping inside `depth` others. -/
def TextMapping.rows (depth : Nat) : TextMapping → List Row
  | .last key value => value.rows depth key
  | .entry key value rest => value.rows depth key ++ rest.rows depth

/-- The rows of an entry. -/
def TextValue.rows (depth : Nat) (key : KeyText) : TextValue → List Row
  | .text text => [{ depth, key, value := some text }]
  | .mapping mapping => { depth, key, value := none } :: mapping.rows (depth + 1)

end

mutual

/-- The number of rows of a mapping. -/
def TextMapping.height : TextMapping → Nat
  | .last _ value => value.height
  | .entry _ value rest => value.height + rest.height

/-- The number of rows of an entry with a given value. -/
def TextValue.height : TextValue → Nat
  | .text _ => 1
  | .mapping mapping => mapping.height + 1

end

/-- Rows as lines of a text. The last line may end in a line feed, too. -/
def written (lineFeed : Bool) (rows : List Row) : List Char :=
  Text.glue '\n' (rows.map Row.chars) ++ if lineFeed then ['\n'] else []

/-- The text of a mapping that is a whole document. -/
def TextMapping.document (lineFeed : Bool) (mapping : TextMapping) : String :=
  String.ofList (written lineFeed (mapping.rows 0))

/-- The text in front of a row, if some rows are in front of it. -/
def linesOf (rows : List Row) : List Char := rows.flatMap fun row => row.chars ++ ['\n']

/-- The byte at which the key of a row begins, the rows numbered from zero. -/
def keyOffset (rows : List Row) (i : Nat) : Nat :=
  Text.byteLength (linesOf (rows.take i)) + 2 * (rows[i]?.elim 0 Row.depth)

/-! ### Reading -/

mutual

/-- Some entries hold a mapping whose first row has a given number: the same keys and values
    in the same order, each key and each text a string, and each key with a span from the
    place of its row on. -/
def TextMapping.IsRead (place : Nat → Nat) (row : Nat) : TextMapping → List Entry → Prop
  | .last key value, entries => ∃ span node,
      span.start = place row ∧ value.IsRead place row node ∧
        entries = [{ key := .scalar key.text .string (some span), value := some node }]
  | .entry key value rest, entries => ∃ span node more,
      span.start = place row ∧ value.IsRead place row node ∧
        rest.IsRead place (row + value.height) more ∧
          entries = { key := .scalar key.text .string (some span), value := some node } :: more

/-- A node holds a value whose key is in a given row. -/
def TextValue.IsRead (place : Nat → Nat) (row : Nat) : TextValue → Node → Prop
  | .text text, node => ∃ span, node = .scalar text.text .string span
  | .mapping mapping, node => ∃ entries span,
      mapping.IsRead place (row + 1) entries ∧ node = .mapping entries span

end

mutual

/-- The row of the entry that a path leads to if every name on it means the first key of
    that name, counted from the first row of the mapping. -/
def TextMapping.rowFor? : TextMapping → List String → Option Nat
  | _, [] => none
  | .last key value, name :: path => if key.text = name then value.rowFor? path else none
  | .entry key value rest, name :: path =>
    if key.text = name then
      value.rowFor? path
    else
      (rest.rowFor? (name :: path)).map (value.height + ·)

/-- The row of the entry that a path leads to from a value, counted from the row of the
    key of that value. -/
def TextValue.rowFor? : TextValue → List String → Option Nat
  | _, [] => some 0
  | .text _, _ :: _ => none
  | .mapping mapping, name :: path => (mapping.rowFor? (name :: path)).map (· + 1)

end

/-! ### Rows one by one -/

/-- What stands behind a row, before some others. -/
def behind (lineFeed : Bool) : List Row → List Char
  | [] => if lineFeed then ['\n'] else []
  | row :: rest => '\n' :: written lineFeed (row :: rest)

/-- A document is its first row and what stands behind it. -/
theorem written_cons (lineFeed : Bool) (row : Row) (rest : List Row) :
    written lineFeed (row :: rest) = row.chars ++ behind lineFeed rest := by
  cases rest with
  | nil => rfl
  | cons next more =>
    simp only [behind, written, List.map_cons, Text.glue, List.append_assoc, List.cons_append]

@[simp]
theorem linesOf_nil : linesOf [] = [] := rfl

theorem linesOf_cons (row : Row) (rest : List Row) :
    linesOf (row :: rest) = row.chars ++ '\n' :: linesOf rest := by
  rw [linesOf, List.flatMap_cons, List.append_assoc]
  rfl

theorem linesOf_append (front back : List Row) :
    linesOf (front ++ back) = linesOf front ++ linesOf back := List.flatMap_append

/-- A document from one of its rows on stands behind the lines in front of that row. -/
theorem written_append_cons (lineFeed : Bool) (front : List Row) (row : Row) (rest : List Row) :
    written lineFeed (front ++ row :: rest) =
      linesOf front ++ (row.chars ++ behind lineFeed rest) := by
  induction front with
  | nil => exact written_cons lineFeed row rest
  | cons first front ih =>
    rw [List.cons_append, written_cons, linesOf_cons]
    -- Something follows the first row, whatever is in front of the one that is looked at.
    have hbehind : behind lineFeed (front ++ row :: rest) =
        '\n' :: written lineFeed (front ++ row :: rest) := by
      cases front <;> rfl
    rw [hbehind, ih, List.append_assoc, List.cons_append]

theorem byteLength_spaces (n : Nat) : Text.byteLength (List.replicate n ' ') = n := by
  induction n with
  | zero => rfl
  | succ n ih =>
    rw [List.replicate_succ, Text.byteLength_cons, ih, Nat.add_comm]
    rfl

/-- The key of a row begins behind the lines in front of the row and its indentation. -/
theorem keyOffset_append_cons (front : List Row) (row : Row) (rest : List Row) :
    keyOffset (front ++ row :: rest) front.length =
      Text.byteLength (linesOf front) + 2 * row.depth := by
  rw [keyOffset, List.take_left, List.getElem?_append_right (Nat.le_refl _), Nat.sub_self,
    List.getElem?_cons_zero]
  rfl

/-- No row is deeper than a bound, which is one more than the depth of the row in front. -/
def IsStepwise : Nat → List Row → Prop
  | _, [] => True
  | bound, row :: rest => row.depth ≤ bound ∧ IsStepwise (row.depth + 1) rest

theorem isStepwise_of_le {a b : Nat} {rows : List Row} (h : IsStepwise a rows) (hle : a ≤ b) :
    IsStepwise b rows := by
  cases rows with
  | nil => trivial
  | cons row rest => exact ⟨Nat.le_trans h.1 hle, h.2⟩

mutual

/-- No row of a mapping is more than one step deeper than the one in front of it. -/
theorem isStepwise_rows (mapping : TextMapping) (depth : Nat) {rest : List Row}
    (h : IsStepwise (depth + 1) rest) : IsStepwise depth (mapping.rows depth ++ rest) := by
  cases mapping with
  | last key value => exact isStepwise_rows_value value key depth h
  | entry key value more =>
    rw [TextMapping.rows, List.append_assoc]
    exact isStepwise_rows_value value key depth
      (isStepwise_of_le (isStepwise_rows more depth h) (Nat.le_succ depth))

theorem isStepwise_rows_value (value : TextValue) (key : KeyText) (depth : Nat) {rest : List Row}
    (h : IsStepwise (depth + 1) rest) : IsStepwise depth (value.rows depth key ++ rest) := by
  cases value with
  | text text => exact ⟨Nat.le_refl depth, h⟩
  | mapping mapping =>
    exact ⟨Nat.le_refl depth,
      isStepwise_rows mapping (depth + 1) (isStepwise_of_le h (Nat.le_succ _))⟩

end

mutual

/-- The rows of a mapping are as many as its height. -/
theorem length_rows (mapping : TextMapping) (depth : Nat) :
    (mapping.rows depth).length = mapping.height := by
  cases mapping with
  | last key value => exact length_rows_value value key depth
  | entry key value more =>
    rw [TextMapping.rows, List.length_append, length_rows_value value, length_rows more,
      TextMapping.height]

theorem length_rows_value (value : TextValue) (key : KeyText) (depth : Nat) :
    (value.rows depth key).length = value.height := by
  cases value with
  | text text => rfl
  | mapping mapping =>
    rw [TextValue.rows, List.length_cons, length_rows mapping, TextValue.height]

end

/-- The first row of an entry is as deep as its mapping. -/
theorem exists_rows_eq_cons_value (value : TextValue) (key : KeyText) (depth : Nat) :
    ∃ row rest, value.rows depth key = row :: rest ∧ row.depth = depth := by
  cases value <;> exact ⟨_, _, rfl, rfl⟩

/-- So is the first row of a mapping. -/
theorem exists_rows_eq_cons (mapping : TextMapping) (depth : Nat) :
    ∃ row rest, mapping.rows depth = row :: rest ∧ row.depth = depth := by
  cases mapping with
  | last key value => exact exists_rows_eq_cons_value value key depth
  | entry key value more =>
    rcases exists_rows_eq_cons_value value key depth with ⟨row, rest, hrows, hdepth⟩
    refine ⟨row, rest ++ more.rows depth, ?_, hdepth⟩
    rw [TextMapping.rows, hrows, List.cons_append]

end BlockStyle

end Yaml

end YamlLocator
