import YamlLocator.Proofs.BlockStyle.Rounds

/-!
# Tokens of Block Style

The tokens of a document in block style, row after row. A row gives the tokens of its key,
its colon and its value. Which tokens of the layout stand in front of them follows from its
depth and from the number of mappings that were open behind the row before: a row that is
deeper than all of them opens one more, and a row that is not deeper than some of them closes
those.

What the tokenizer knows of this are its levels. `levelsBehind` is what they are behind a
row: one block collection for every mapping around its entry, with a provisional level on
top. Closing to the column of the next row leaves the levels that the row lies in, and opening
a collection there, if the row calls for one, and laying a provisional level on top leads to
the levels behind that row.

## Main definitions

* `levelsBehind`: The levels behind a row.
* `keyMark`, `colonMark`, `valueMark`: The marks of a row.
* `rowTokens`, `tokensOf`: The tokens of a row, and of rows up to the end of the text.
* `Arrives`, `IsBetween`: Where a cursor, and the tokenizer, comes to between two rows.

## Theorems

* `closeTo_levelsBehind`, `indent_levelsIn`: The levels from row to row.
* `runs_row`: The tokens of a row are handed out.
* `runs_rows`: The tokens of all rows are.
* `tokens_ofText_written`: The tokens of a document are those of its rows.
-/

namespace YamlLocator

namespace Yaml

namespace BlockStyle

open Tokenizer

/-! ### Levels -/

/-- The levels of some mappings inside one another, each two columns to the right of the one
    around it. -/
def blocks : Nat → List Level
  | 0 => []
  | n + 1 => { column := 2 * n, block := true } :: blocks n

/-- The levels behind a row inside which so many mappings are open. -/
def levelsBehind : Nat → List Level
  | 0 => []
  | n + 1 => { column := 2 * n + 1, block := false } :: blocks (n + 1)

/-- The levels that a row lies in, if so many mappings were open behind the row before. -/
def levelsIn (bound depth : Nat) : List Level :=
  if depth = bound then levelsBehind bound else blocks (depth + 1)

theorem margin_blocks_le (n : Nat) : Layout.margin (blocks n) ≤ 2 * n := by
  cases n with
  | zero => exact Nat.le_refl 0
  | succ n =>
    simp only [blocks, Layout.margin]
    omega

theorem margin_levelsBehind (n : Nat) : Layout.margin (levelsBehind n) = 2 * n := by
  cases n with
  | zero => rfl
  | succ n =>
    simp only [levelsBehind, Layout.margin]
    omega

theorem margin_levelsIn_le (bound depth : Nat) :
    Layout.margin (levelsIn bound depth) ≤ 2 * depth + 1 := by
  unfold levelsIn
  split
  · rename_i h
    rw [margin_levelsBehind, h]
    exact Nat.le_succ _
  · exact Nat.le_refl _

/-- Nothing is closed by what stands inside the innermost level. -/
theorem closeTo_of_margin_le {column : Nat} {levels : List Level}
    (h : Layout.margin levels ≤ column) :
    Layout.closeTo column levels = levels ∧ Layout.closedTo column levels = 0 := by
  cases levels with
  | nil => exact ⟨rfl, rfl⟩
  | cons level outer =>
    have hlt : ¬column ≤ level.column := Nat.not_le_of_lt h
    simp [Layout.closeTo, Layout.closedTo, hlt]

/-- A level at or to the right of a column is closed, and the ones around it are looked at. -/
theorem closeTo_cons {column : Nat} (level : Level) (outer : List Level)
    (h : column ≤ level.column) :
    Layout.closeTo column (level :: outer) = Layout.closeTo column outer ∧
      Layout.closedTo column (level :: outer) =
        Layout.closedTo column outer + if level.block then 1 else 0 := by
  rw [Layout.closeTo, Layout.closedTo, List.dropWhile_cons_of_pos (by simpa using h),
    List.takeWhile_cons_of_pos (by simpa using h), List.countP_cons]
  exact ⟨rfl, rfl⟩

/-- At a token inside the innermost level, a round reads that token and nothing else. -/
theorem round_of_stop {c : Cursor} (queue : List (Placed Token)) (delivered : Nat)
    (keyAllowed : Bool) (candidate : Option Candidate) (levels : List Level) (adjacent : Nat)
    (hstop : Cursor.isStop c.peek = true) (hmargin : Layout.margin levels ≤ c.mark.column + 1)
    (hfresh : ∀ k ∈ candidate, k.isStale c.mark = false) :
    (inBlock c queue delivered keyAllowed candidate levels adjacent).round =
      (inBlock c queue delivered keyAllowed candidate levels adjacent).token := by
  rcases closeTo_of_margin_le hmargin with ⟨hclose, hclosed⟩
  rw [round_inBlock queue delivered keyAllowed candidate adjacent
    (Cursor.separation_of_stop _ false hstop) hfresh, hclose, hclosed, List.replicate_zero,
    List.append_nil, Bool.or_false]

theorem closeTo_blocks {n depth : Nat} (h : depth < n) :
    Layout.closeTo (2 * depth + 1) (blocks n) = blocks (depth + 1) ∧
      Layout.closedTo (2 * depth + 1) (blocks n) = n - (depth + 1) := by
  induction n with
  | zero => exact absurd h (Nat.not_lt_zero _)
  | succ n ih =>
    by_cases heq : depth = n
    · -- The mapping that the row is an entry of stays open.
      rw [heq, Nat.sub_self]
      exact closeTo_of_margin_le (Nat.le_refl _)
    · have hle : 2 * depth + 1 ≤ 2 * n := by omega
      rcases ih (by omega) with ⟨hclose, hclosed⟩
      rcases closeTo_cons { column := 2 * n, block := true } (blocks n) hle with
        ⟨hclose', hclosed'⟩
      rw [blocks, hclose', hclosed', hclose, hclosed, if_pos rfl]
      exact ⟨rfl, by omega⟩

/-- A row closes the mappings that it is not inside of. -/
theorem closeTo_levelsBehind {bound depth : Nat} (h : depth ≤ bound) :
    Layout.closeTo (2 * depth + 1) (levelsBehind bound) = levelsIn bound depth ∧
      Layout.closedTo (2 * depth + 1) (levelsBehind bound) = bound - 1 - depth := by
  by_cases heq : depth = bound
  · rw [levelsIn, if_pos heq, heq, Nat.sub_eq_zero_of_le (Nat.sub_le bound 1)]
    exact closeTo_of_margin_le (by rw [margin_levelsBehind]; exact Nat.le_succ _)
  · -- The provisional level goes first, and it is none that is reported.
    obtain ⟨n, rfl⟩ : ∃ n, bound = n + 1 := ⟨bound - 1, by omega⟩
    have hle : 2 * depth + 1 ≤ 2 * n + 1 := by omega
    rcases closeTo_cons { column := 2 * n + 1, block := false } (blocks (n + 1)) hle with
      ⟨hclose, hclosed⟩
    rcases closeTo_blocks (show depth < n + 1 by omega) with ⟨hclose', hclosed'⟩
    rw [levelsIn, if_neg heq, levelsBehind, hclose, hclosed, hclose', hclosed']
    refine ⟨rfl, ?_⟩
    simp only [Bool.false_eq_true, if_false]
    omega

/-- A row opens a mapping if it is deeper than all that are open, and leaves its own levels
    behind. -/
theorem indent_levelsIn (bound depth : Nat) :
    Layout.addProvisional (Layout.indent (2 * depth) (levelsIn bound depth)).1 =
        levelsBehind (depth + 1) ∧
      ((Layout.indent (2 * depth) (levelsIn bound depth)).2 = true ↔ depth = bound) := by
  by_cases heq : depth = bound
  · -- The provisional level gives way to the mapping that is opened.
    have hsettle : Layout.settle (2 * depth) (levelsIn bound depth) = blocks depth := by
      rw [levelsIn, if_pos heq, ← heq]
      cases depth with
      | zero => rfl
      | succ n =>
        have hle : 2 * n + 1 ≤ 2 * (n + 1) := by omega
        simp [levelsBehind, Layout.settle, hle]
    rw [Layout.indent, hsettle, if_pos (margin_blocks_le depth)]
    exact ⟨rfl, iff_of_true rfl heq⟩
  · have hsettle : Layout.settle (2 * depth) (levelsIn bound depth) = blocks (depth + 1) := by
      rw [levelsIn, if_neg heq]
      rfl
    have hmargin : ¬Layout.margin (blocks (depth + 1)) ≤ 2 * depth :=
      Nat.not_succ_le_self _
    rw [Layout.indent, hsettle, if_neg hmargin]
    exact ⟨rfl, iff_of_false Bool.false_ne_true heq⟩

/-- Closing to a column first makes no difference to how many mappings are closed at the
    end. -/
theorem closedTo_add_closedTo (column : Nat) (levels : List Level) :
    Layout.closedTo column levels + Layout.closedTo 0 (Layout.closeTo column levels) =
      Layout.closedTo 0 levels := by
  induction levels with
  | nil => rfl
  | cons level outer ih =>
    by_cases h : column ≤ level.column
    · rcases closeTo_cons level outer h with ⟨hclose, hclosed⟩
      rcases closeTo_cons level outer (Nat.zero_le level.column) with ⟨_, hclosed'⟩
      rw [hclose, hclosed, hclosed', ← ih]
      omega
    · have hmargin : Layout.margin (level :: outer) ≤ column := Nat.lt_of_not_le h
      rcases closeTo_of_margin_le hmargin with ⟨hclose, hclosed⟩
      rw [hclose, hclosed, Nat.zero_add]

theorem closedTo_zero_levelsBehind (n : Nat) : Layout.closedTo 0 (levelsBehind n) = n := by
  have hblocks : ∀ n, Layout.closedTo 0 (blocks n) = n := by
    intro n
    induction n with
    | zero => rfl
    | succ n ih =>
      rw [blocks, (closeTo_cons _ (blocks n) (Nat.zero_le _)).2, ih, if_pos rfl]
  cases n with
  | zero => rfl
  | succ n =>
    rw [levelsBehind, (closeTo_cons _ (blocks (n + 1)) (Nat.zero_le _)).2, hblocks]
    rfl

/-! ### Marks -/

/-- The beginning of the row behind some others. -/
def lineStart (front : List Row) : Mark :=
  { index := (linesOf front).length, line := front.length + 1, column := 0 }

/-- The mark of the key of the row behind some others. -/
def keyMark (front : List Row) (row : Row) : Mark := (lineStart front).right (2 * row.depth)

/-- The mark of the colon of the row behind some others. -/
def colonMark (front : List Row) (row : Row) : Mark :=
  (keyMark front row).right (quoted row.key.text.toList).length

/-- The mark of the value on the row behind some others. -/
def valueMark (front : List Row) (row : Row) : Mark := (colonMark front row).right 2

/-- The end of a row is in front of the next line. -/
theorem nextLine_right (front : List Row) (row : Row) :
    ((lineStart front).right row.chars.length).nextLine = lineStart (front ++ [row]) := by
  simp [lineStart, Mark.right, Mark.nextLine, linesOf_append, linesOf_cons, Nat.add_assoc]

/-- The characters of a row with a value. -/
theorem length_chars_of_some {row : Row} {value : LineText} (h : row.value = some value) :
    row.chars.length = 2 * row.depth + ((quoted row.key.text.toList).length +
      (2 + (quoted value.text.toList).length)) := by
  simp [Row.chars, Row.content, Row.tail, h]
  omega

/-- The characters of a row without a value. -/
theorem length_chars_of_none {row : Row} (h : row.value = none) :
    row.chars.length = 2 * row.depth + ((quoted row.key.text.toList).length + 1) := by
  simp [Row.chars, Row.content, Row.tail, h]

/-! ### Tokens -/

/-- The ends of the mappings that were open in front of a row and that it is not inside of. -/
def closingTokens (bound : Nat) (front : List Row) (row : Row) : List (Placed Token) :=
  List.replicate (bound - 1 - row.depth) { item := .blockEnd, mark := keyMark front row }

/-- The key of a row. -/
def keyToken (front : List Row) (row : Row) : Placed Token :=
  { item := .scalar .singleQuoted row.key.text, mark := keyMark front row }

/-- The key and the colon of a row, behind the beginning of a mapping if the row is the first
    one in it. -/
def entryTokens (bound : Nat) (front : List Row) (row : Row) : List (Placed Token) :=
  (if row.depth = bound then
    [{ item := .blockMappingStart, mark := colonMark front row }]
  else []) ++
    [{ item := .key, mark := keyMark front row }, keyToken front row,
      { item := .value, mark := colonMark front row }]

/-- The value of a row, if it has one. -/
def valueTokens (front : List Row) (row : Row) : List (Placed Token) :=
  (row.value.map fun value =>
    { item := .scalar .singleQuoted value.text, mark := valueMark front row }).toList

/-- The tokens of the row behind some others, if so many mappings were open in front of
    it. -/
def rowTokens (bound : Nat) (front : List Row) (row : Row) : List (Placed Token) :=
  closingTokens bound front row ++ (entryTokens bound front row ++ valueTokens front row)

/-- The tokens of the rows behind some others, up to the end of the stream. -/
def tokensOf (stop : Mark) : Nat → List Row → List Row → List (Placed Token)
  | bound, _, [] =>
    List.replicate bound { item := .blockEnd, mark := stop } ++
      [{ item := .streamEnd, mark := stop }]
  | bound, front, row :: rest =>
    rowTokens bound front row ++ tokensOf stop (row.depth + 1) (front ++ [row]) rest

/-! ### Between rows -/

/-- A cursor behind some rows is at the key of the next one, where a key has to be allowed,
    or at the end of the text. -/
def Arrives (lineFeed : Bool) (bound : Nat) (front : List Row) (keyAllowed : Bool) (c : Cursor) :
    List Row → Prop
  | [] => c.rest = [] ∧ (c.mark.column = 0 ∨ 2 * bound ≤ c.mark.column + 1)
  | row :: rest =>
    c.rest = row.content ++ behind lineFeed rest ∧ c.mark = keyMark front row ∧ keyAllowed = true

/-- A reader with nothing left in its queue goes on with the next row. -/
inductive IsBetween (lineFeed : Bool) (bound : Nat) (front rest : List Row) : Tokenizer → Prop
  | mk (c c' : Cursor) (delivered : Nat) (keyAllowed broken : Bool) (adjacent : Nat)
      (hseparation :
        c.separation (Layout.margin (levelsBehind bound)) false = .ok (c', broken))
      (harrives : Arrives lineFeed bound front (keyAllowed || broken) c' rest) :
      IsBetween lineFeed bound front rest
        (inBlock c [] delivered keyAllowed none (levelsBehind bound) adjacent)

theorem content_eq_cons (row : Row) : ∃ rest, row.content = '\'' :: rest := ⟨_, rfl⟩

/-- Where a cursor arrives, nothing separates it from the next token. -/
theorem isStop_of_arrives {lineFeed : Bool} {bound : Nat} {front rest : List Row}
    {keyAllowed : Bool} {c : Cursor} (h : Arrives lineFeed bound front keyAllowed c rest) :
    Cursor.isStop c.peek = true := by
  cases rest with
  | nil =>
    rw [Cursor.peek_nil h.1]
    decide
  | cons row rest =>
    rcases content_eq_cons row with ⟨more, hcontent⟩
    have hrest := h.1
    rw [hcontent, List.cons_append] at hrest
    rw [Cursor.peek_cons hrest]
    decide

/-- What is behind a row begins like the end of a line. -/
theorem isLineEnd_headD_behind (lineFeed : Bool) (rest : List Row) :
    isLineEnd ((behind lineFeed rest).headD endMark) = true := by
  cases rest with
  | nil => cases lineFeed <;> decide
  | cons row rest => exact rfl

/-- From the end of a row, separation leads to the next one. -/
theorem separation_behind {lineFeed : Bool} {front : List Row} {row : Row} {rest : List Row}
    {c : Cursor} (hrest : c.rest = behind lineFeed rest)
    (hmark : c.mark = (lineStart front).right row.chars.length) :
    ∃ c' broken, (∀ margin, c.separation margin false = .ok (c', broken)) ∧
      Arrives lineFeed (row.depth + 1) (front ++ [row]) broken c' rest := by
  cases rest with
  | nil =>
    -- The last row is the end of the text, or there is an empty line behind it.
    cases lineFeed with
    | false =>
      refine ⟨c, false, fun margin => Cursor.separation_of_stop margin false ?_, hrest, .inr ?_⟩
      · rw [Cursor.peek_nil hrest]
        decide
      · rw [hmark]
        simp [Mark.right, Row.chars, Row.content, quoted, Row.tail]
        omega
    | true =>
      refine ⟨c.nextLine.blanks 0, true, fun margin =>
        Cursor.separation_lineFeed margin false 0 hrest rfl, ?_, .inl rfl⟩
      rw [Cursor.rest_blanks, Cursor.nextLine, hrest]
      rfl
  | cons next more =>
    have hrest' : c.rest = '\n' ::
        (List.replicate (2 * next.depth) ' ' ++ (next.content ++ behind lineFeed more)) := by
      rw [hrest, behind, written_cons, Row.chars, List.append_assoc]
    refine ⟨c.nextLine.blanks (2 * next.depth), true, fun margin =>
      Cursor.separation_lineFeed margin false _ hrest' rfl, ?_, ?_, rfl⟩
    · simp [Cursor.nextLine, hrest']
    · rw [Cursor.mark_blanks, Cursor.nextLine, hmark, nextLine_right, keyMark]

/-! ### Row by row -/

section Row

variable {lineFeed : Bool} {bound : Nat} {front rest : List Row} {row : Row}

/-- Behind the colon of a row is a gap, and it is no tab. -/
theorem headD_tail_append (lineFeed : Bool) (row : Row) (rest : List Row) :
    isGap ((row.tail ++ behind lineFeed rest).headD endMark) = true ∧
      (row.tail ++ behind lineFeed rest).headD endMark ≠ '\t' := by
  cases hvalue : row.value with
  | some value =>
    rw [Row.tail, hvalue, List.cons_append, List.headD_cons]
    decide
  | none =>
    have hend := isLineEnd_headD_behind lineFeed rest
    rw [Row.tail, hvalue, List.nil_append, isGap, hend, Bool.or_true]
    refine ⟨rfl, fun htab => ?_⟩
    rw [htab] at hend
    exact absurd hend (by decide)

/-- A key is not too long for a candidate. -/
theorem not_isStale_right (k : Candidate) (key : KeyText) :
    k.isStale (k.mark.right (quoted key.text.toList).length) = false := by
  have hlength := key.length_quoted_le
  have hindex : ¬k.mark.index + 1024 < k.mark.index + (quoted key.text.toList).length := by
    omega
  simp [Candidate.isStale, Candidate.reach, Mark.right, hindex]

theorem column_keyMark (front : List Row) (row : Row) :
    (keyMark front row).column = 2 * row.depth := Nat.zero_add _

/-- A round reads the key of a row, behind the ends of the mappings that the row closes, and
    those ends are handed out. -/
theorem runs_key {c c' : Cursor} {delivered : Nat} {keyAllowed broken : Bool} {adjacent : Nat}
    (hdepth : row.depth ≤ bound)
    (hseparation : c.separation (Layout.margin (levelsBehind bound)) false = .ok (c', broken))
    (harrives : Arrives lineFeed bound front (keyAllowed || broken) c' (row :: rest)) :
    ∃ out closed k, Runs (inBlock c [] delivered keyAllowed none (levelsBehind bound) adjacent) out
        (inBlock closed [keyToken front row] k.number false (some k) (levelsIn bound row.depth)
          closed.mark.index) ∧
      out.map Delivered.toPlaced = closingTokens bound front row ∧
      closed.rest = ':' :: (row.tail ++ behind lineFeed rest) ∧
      closed.mark = colonMark front row ∧ k.mark = keyMark front row := by
  rcases harrives with ⟨hrest, hmark, hallowed⟩
  rw [Row.content, List.append_assoc, List.cons_append] at hrest
  have hcolumn : c'.mark.column = 2 * row.depth := by
    rw [hmark, column_keyMark]
  have hmargin := margin_levelsIn_le bound row.depth
  -- The round closes what the row is not inside of.
  have hround := round_inBlock [] delivered keyAllowed none adjacent hseparation (by simp)
  rcases closeTo_levelsBehind hdepth with ⟨hclose, hclosed⟩
  rw [hcolumn, hclose, hclosed, hallowed, List.nil_append, hmark, ← closingTokens,
    token_of_quote hrest (by omega)] at hround
  -- The candidate begins behind what is closed, so all of that can be handed out.
  rcases exists_saveCandidate c' (closingTokens bound front row) delivered none
    (levelsIn bound row.depth) adjacent with ⟨k, hsave, hnumber, hkmark⟩
  rcases quotedScalar_inBlock row.key.toLineText _ hsave hrest (.inl rfl) (by omega) with
    ⟨closed, hclosedRest, hclosedMark, hscalar⟩
  have hstop : Cursor.isStop closed.peek = true := by
    rw [Cursor.peek_cons hclosedRest]
    decide
  rw [hscalar closed false (Cursor.separation_of_stop _ false hstop), hmark] at hround
  have hfresh : k.isStale closed.mark = false := by
    rw [hclosedMark, ← hkmark]
    exact not_isStale_right k row.key
  rcases runs_deliver_inBlock closed (closingTokens bound front row) [keyToken front row] delivered
    false (some k) (levelsIn bound row.depth) closed.mark.index (by
      intro k' hk'
      cases hk'
      exact ⟨hfresh, Nat.le_of_eq hnumber.symm⟩) with ⟨out, hruns, hout⟩
  refine ⟨out, closed, k, ?_, hout, hclosedRest, ?_, ?_⟩
  · rw [hnumber]
    exact runs_append (runs_of_round rfl rfl hround) hruns
  · rw [hclosedMark, hmark, colonMark]
  · rw [hkmark, hmark]

/-- A round reads the colon behind a key, and the tokens of both are handed out. -/
theorem runs_colon {closed : Cursor} {k : Candidate} {adjacent : Nat}
    (hrest : closed.rest = ':' :: (row.tail ++ behind lineFeed rest))
    (hmark : closed.mark = colonMark front row) (hkmark : k.mark = keyMark front row) :
    ∃ out delivered, Runs
        (inBlock closed [keyToken front row] k.number false (some k) (levelsIn bound row.depth)
          adjacent) out
        (inBlock (closed.advance 1) [] delivered false none (levelsBehind (row.depth + 1))
          adjacent) ∧
      out.map Delivered.toPlaced = entryTokens bound front row := by
  have hright : 2 * row.depth ≤ closed.mark.column := by
    rw [hmark, colonMark, ← column_keyMark front row]
    exact Nat.le_add_right _ _
  have hmargin : Layout.margin (levelsIn bound row.depth) ≤ closed.mark.column + 1 :=
    Nat.le_trans (margin_levelsIn_le bound row.depth) (Nat.succ_le_succ hright)
  have hfresh : k.isStale closed.mark = false := by
    rw [hmark, colonMark, ← hkmark]
    exact not_isStale_right k row.key
  have hstop : Cursor.isStop closed.peek = true := by
    rw [Cursor.peek_cons hrest]
    decide
  have hround := round_of_stop [keyToken front row] k.number false (some k)
    (levelsIn bound row.depth) adjacent hstop hmargin (by
      intro k' hk'
      cases hk'
      exact hfresh)
  -- The candidate becomes a key, and a mapping begins in front of it if its column is free.
  rcases headD_tail_append lineFeed row rest with ⟨hgap, htab⟩
  rcases indent_levelsIn bound row.depth with ⟨hlevels, hopens⟩
  rw [token_of_colon hrest hgap hmargin, value_inBlock _ _ k _ _ hrest htab, hmark, hkmark,
    column_keyMark, hlevels] at hround
  simp only [hopens] at hround
  rcases runs_deliver_inBlock (closed.advance 1) (entryTokens bound front row) [] k.number false
    none (levelsBehind (row.depth + 1)) adjacent (by simp) with ⟨out, hruns, hout⟩
  rw [List.append_nil] at hruns
  exact ⟨out, _, runs_append (runs_of_round_waiting rfl rfl rfl rfl hfresh hround) hruns, hout⟩

/-- A round reads the value of a row, and the reader comes to the next row. -/
theorem runs_value {value : LineText} {c : Cursor} {delivered adjacent : Nat}
    (hvalue : row.value = some value) (hrest : c.rest = row.tail ++ behind lineFeed rest)
    (hmark : c.mark = (colonMark front row).right 1) :
    ∃ out t', Runs
        (inBlock c [] delivered false none (levelsBehind (row.depth + 1)) adjacent) out t' ∧
      out.map Delivered.toPlaced = valueTokens front row ∧
      IsBetween lineFeed (row.depth + 1) (front ++ [row]) rest t' := by
  rw [Row.tail, hvalue] at hrest
  rw [valueTokens, hvalue]
  -- A single blank separates the colon from the value.
  have hrest' : (c.blanks 1).rest = quoted value.text.toList ++ behind lineFeed rest := by
    simp [hrest]
  have hmark' : (c.blanks 1).mark = valueMark front row := by
    rw [Cursor.mark_blanks, hmark, Mark.right_right, valueMark]
  have hseparation : c.separation (Layout.margin (levelsBehind (row.depth + 1))) false =
      .ok (c.blanks 1, false) := by
    rw [Cursor.separation_spaces _ false 1 hrest, Cursor.separation_of_stop]
    rw [Cursor.peek_cons hrest']
    decide
  have hmargin : Layout.margin (levelsBehind (row.depth + 1)) ≤ (c.blanks 1).mark.column + 1 := by
    rw [margin_levelsBehind, hmark']
    simp [valueMark, colonMark, keyMark, lineStart, Mark.right]
    omega
  have hround := round_inBlock [] delivered false none adjacent hseparation (by simp)
  rcases closeTo_of_margin_le hmargin with ⟨hclose, hclosed⟩
  rw [hclose, hclosed, List.replicate_zero, List.append_nil, Bool.or_false,
    token_of_quote hrest' hmargin] at hround
  -- No key may begin here, so no candidate is saved.
  have hsave : (inBlock (c.blanks 1) [] delivered false none (levelsBehind (row.depth + 1))
      adjacent).saveCandidate = inBlock (c.blanks 1) [] delivered false none
        (levelsBehind (row.depth + 1)) adjacent := rfl
  rcases quotedScalar_inBlock value _ hsave hrest' (.inr (isLineEnd_headD_behind lineFeed rest))
    (Nat.le_succ_of_le hmargin) with ⟨closed, hclosedRest, hclosedMark, hscalar⟩
  have hend : closed.mark = (lineStart front).right row.chars.length := by
    rw [hclosedMark, hmark', length_chars_of_some hvalue, valueMark, colonMark, keyMark,
      Mark.right_right, Mark.right_right, Mark.right_right]
  rcases separation_behind hclosedRest hend with ⟨c', broken, hseparation', harrives⟩
  rw [hscalar c' broken (hseparation' _), hmark'] at hround
  rcases runs_deliver_inBlock c'
    [{ item := .scalar .singleQuoted value.text, mark := valueMark front row }] [] delivered broken
    none (levelsBehind (row.depth + 1)) c'.mark.index (by simp) with ⟨out, hruns, hout⟩
  refine ⟨out, _, runs_append (runs_of_round rfl rfl hround) hruns, hout, ?_⟩
  refine .mk c' c' _ broken false _ (Cursor.separation_of_stop _ false
    (isStop_of_arrives harrives)) ?_
  rwa [Bool.or_false]

/-- Behind the colon of a row without a value, the reader comes to the next row. -/
theorem isBetween_of_none {c : Cursor} {delivered adjacent : Nat} (hvalue : row.value = none)
    (hrest : c.rest = row.tail ++ behind lineFeed rest)
    (hmark : c.mark = (colonMark front row).right 1) :
    IsBetween lineFeed (row.depth + 1) (front ++ [row]) rest
      (inBlock c [] delivered false none (levelsBehind (row.depth + 1)) adjacent) := by
  rw [Row.tail, hvalue, List.nil_append] at hrest
  have hend : c.mark = (lineStart front).right row.chars.length := by
    rw [hmark, length_chars_of_none hvalue, colonMark, keyMark, Mark.right_right, Mark.right_right]
  rcases separation_behind hrest hend with ⟨c', broken, hseparation, harrives⟩
  exact .mk c c' delivered false broken adjacent (hseparation _) harrives

/-- The tokens of a row are handed out, and the reader comes to the next row. -/
theorem runs_row {t : Tokenizer} (hdepth : row.depth ≤ bound)
    (ht : IsBetween lineFeed bound front (row :: rest) t) :
    ∃ out t', Runs t out t' ∧ out.map Delivered.toPlaced = rowTokens bound front row ∧
      IsBetween lineFeed (row.depth + 1) (front ++ [row]) rest t' := by
  rcases ht with ⟨c, c', delivered, keyAllowed, broken, adjacent, hseparation, harrives⟩
  rcases runs_key hdepth hseparation harrives with
    ⟨out₁, closed, k, hkey, hout₁, hrest, hmark, hkmark⟩
  rcases runs_colon hrest hmark hkmark with ⟨out₂, delivered₂, hcolon, hout₂⟩
  -- Behind the colon stands the value, or nothing but the next row.
  have hrest' : (closed.advance 1).rest = row.tail ++ behind lineFeed rest := by
    rw [Cursor.rest_advance, hrest, List.drop_succ_cons, List.drop_zero]
  have hmark' : (closed.advance 1).mark = (colonMark front row).right 1 := by
    rw [Cursor.mark_advance, hmark]
  cases hvalue : row.value with
  | none =>
    refine ⟨out₁ ++ out₂, _, runs_append hkey hcolon, ?_, isBetween_of_none hvalue hrest' hmark'⟩
    rw [List.map_append, hout₁, hout₂, rowTokens, valueTokens, hvalue]
    simp
  | some value =>
    rcases runs_value hvalue hrest' hmark' with ⟨out₃, t', hruns, hout₃, hbetween⟩
    refine ⟨out₁ ++ (out₂ ++ out₃), t', runs_append hkey (runs_append hcolon hruns), ?_, hbetween⟩
    rw [List.map_append, List.map_append, hout₁, hout₂, hout₃, rowTokens]

/-- At the end of the text everything is closed, and no more tokens can be had. -/
theorem runs_end {t : Tokenizer} (ht : IsBetween lineFeed bound front [] t) :
    ∃ stop out t' error, Runs t out t' ∧
      out.map Delivered.toPlaced = tokensOf stop bound front [] ∧ t'.step = .error error := by
  rcases ht with ⟨c, c', delivered, keyAllowed, broken, adjacent, hseparation, hrest, hcolumn⟩
  have hround := round_inBlock [] delivered keyAllowed none adjacent hseparation (by simp)
  rcases streamEnd_inBlock c' ([] ++ List.replicate
      (Layout.closedTo (c'.mark.column + 1) (levelsBehind bound))
      { item := .blockEnd, mark := c'.mark }) delivered (keyAllowed || broken)
    (Layout.closeTo (c'.mark.column + 1) (levelsBehind bound)) adjacent with
    ⟨t', hend, hqueue, hcandidate, houter, hended⟩
  rw [token_of_end hrest, hend] at hround
  -- What the round itself closes is reported for the same place as everything else.
  have hmark : Layout.closedTo (c'.mark.column + 1) (levelsBehind bound) = 0 ∨
      c'.mark = (afterLastLine c').mark := by
    rcases hcolumn with hzero | hle
    · right
      rw [afterLastLine, Cursor.column, if_pos hzero]
    · left
      exact (closeTo_of_margin_le (by rwa [margin_levelsBehind])).2
  have htokens : t'.queue = tokensOf (afterLastLine c').mark bound front [] := by
    have hall := closedTo_add_closedTo (c'.mark.column + 1) (levelsBehind bound)
    rw [closedTo_zero_levelsBehind] at hall
    rw [hqueue, tokensOf, List.nil_append]
    rcases hmark with hzero | hmark
    · rw [hzero, Nat.zero_add] at hall
      rw [hzero, List.replicate_zero, List.nil_append, hall]
    · rw [← hmark, List.replicate_append_replicate, hall]
  rcases runs_deliver _ [] t' (by rw [htokens, List.append_nil]) houter (by simp [hcandidate]) with
    ⟨out, hruns, hout⟩
  exact ⟨_, out, _, _, runs_append (runs_of_round rfl rfl hround) hruns, hout,
    step_of_ended rfl hended⟩

end Row

/-! ### All rows -/

/-- From any row on, the tokens of the rows are handed out up to the end of the stream. -/
theorem runs_rows {lineFeed : Bool} {bound : Nat} {front rows : List Row} {t : Tokenizer}
    (hrows : IsStepwise bound rows) (ht : IsBetween lineFeed bound front rows t) :
    ∃ stop out t' error, Runs t out t' ∧
      out.map Delivered.toPlaced = tokensOf stop bound front rows ∧ t'.step = .error error := by
  induction rows generalizing bound front t with
  | nil => exact runs_end ht
  | cons row rest ih =>
    rcases runs_row hrows.1 ht with ⟨out, t', hrow, hout, hbetween⟩
    rcases ih hrows.2 hbetween with ⟨stop, out', last, error, hrest, hout', herror⟩
    refine ⟨stop, out ++ out', last, error, runs_append hrow hrest, ?_, herror⟩
    rw [List.map_append, hout, hout', tokensOf]

/-- The tokens of a document in block style are those of its rows. -/
theorem tokens_ofText_written (lineFeed : Bool) {rows : List Row} (hne : rows ≠ [])
    (hrows : IsStepwise 0 rows) :
    ∃ stop, (TokenStream.ofText (written lineFeed rows)).tokens.map Delivered.toPlaced =
      { item := .streamStart, mark := Mark.start } :: tokensOf stop 0 [] rows := by
  obtain ⟨row, rest, rfl⟩ := List.exists_cons_of_ne_nil hne
  have hdepth : row.depth = 0 := Nat.le_zero.mp hrows.1
  let c := Cursor.ofText (written lineFeed (row :: rest))
  have harrives : Arrives lineFeed 0 [] true c (row :: rest) := by
    refine ⟨?_, ?_, rfl⟩
    · simp [c, Cursor.ofText, written_cons, Row.chars, hdepth]
    · simp [c, Cursor.ofText, keyMark, hdepth, Mark.right, lineStart, Mark.start]
  have hbetween : IsBetween lineFeed 0 [] (row :: rest) (inBlock c [] 1 true none [] 0) :=
    .mk c c 1 true false 0 (Cursor.separation_of_stop _ false (isStop_of_arrives harrives)) harrives
  -- The beginning of the stream is in the queue from the start.
  rcases runs_deliver_inBlock c [{ item := .streamStart, mark := Mark.start }] [] 0 true none [] 0
    (by simp) with ⟨out, hstart, hout⟩
  rcases runs_rows hrows hbetween with ⟨stop, out', t', error, hruns, hout', herror⟩
  refine ⟨stop, ?_⟩
  have hstream := stream_of_runs (runs_append hstart hruns) []
  rw [stream_of_step_error herror] at hstream
  simp only [List.append_nil, List.reverse_reverse] at hstream
  rw [TokenStream.ofText]
  have htokens : ((ofText (written lineFeed (row :: rest))).stream []).tokens = out ++ out' :=
    congrArg TokenStream.tokens hstream
  rw [htokens, List.map_append, hout, hout']
  rfl

end BlockStyle

end Yaml

end YamlLocator
