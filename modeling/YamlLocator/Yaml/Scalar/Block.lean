import YamlLocator.Yaml.Cursor.Progress
import YamlLocator.Text.Bytes

/-!
# Block Scalars

Scalars that hold the indented lines below a vertical bar or an angle bracket. The
bar keeps the line breaks; the angle bracket folds them, except next to lines that
begin with a blank. The header behind the sign may say what becomes of the line
breaks at the end, and by how much the lines are indented; otherwise the first line
with contents decides.

## Marks behind a block scalar

A mark counts characters, with one exception that everything behind a block scalar
inherits. The contents of its lines are counted in bytes instead, except for the
characters that had been looked at before the line was read. How many those are is
kept in `Cursor.seen`. Four characters are looked at where the scalar begins, and
where a line could be a marker between documents. The indentation of every line is
looked at in windows of `windowSize` characters: one window is filled before the
spaces in it are gone over, and another one as long as a window held nothing else.

## Main definitions

* `Chomping`, `Header`: What the header of a block scalar says.
* `Header.read`: The header.
* `skipIndent`: Go over the indentation of a line and over empty lines.
* `contents`: Go over the contents of a line.
* `readLines`: The lines with contents.
* `readBlock`: A block scalar.

## Theorems

* `left_skipIndent_le`, `left_contents`, `left_readLines_le`: None of these gives
  anything back.
* `left_readBlock_lt`: Reading a block scalar takes something away.
-/

namespace YamlLocator

namespace Yaml

namespace Block

/-- What becomes of the line breaks at the end of a block scalar. -/
inductive Chomping where
  /-- All of them are dropped. -/
  | strip
  /-- The first one is kept. -/
  | clip
  /-- All of them are kept. -/
  | keep
deriving DecidableEq, Repr

/-- What the header of a block scalar says. -/
structure Header where
  chomping : Chomping
  /-- By how much the lines are indented, if that is said. -/
  increment : Option Nat
deriving DecidableEq, Repr

namespace Header

/-- What a sign in a header says about the line breaks at the end. -/
def chomping? (sign : Char) : Option Chomping :=
  if sign = '+' then some .keep else if sign = '-' then some .strip else none

/-- The value of a decimal digit. -/
def digit? (c : Char) : Option Nat :=
  if c.isDigit then some (c.toNat - '0'.toNat) else none

/-- The indentation that a header gives, if any, and the cursor behind it. -/
def readIncrement (start : Mark) (c : Cursor) : Except SyntaxError (Option Nat × Cursor) :=
  match digit? c.peek with
  | none => .ok (none, c)
  | some 0 => start.refuse .zeroIndentationIndicator
  | some increment => .ok (some increment, c.advance 1)

/-- The two parts of a header, which come in either order, and the cursor behind
    them. -/
def read (start : Mark) (c : Cursor) : Except SyntaxError (Header × Cursor) :=
  match chomping? c.peek with
  | some chomping => do
    let (increment, c₁) ← readIncrement start (c.advance 1)
    return ({ chomping, increment }, c₁)
  | none => do
    let (increment, c₁) ← readIncrement start c
    match increment, chomping? c₁.peek with
    | some _, some chomping => return ({ chomping, increment }, c₁.advance 1)
    | _, _ => return ({ chomping := .clip, increment }, c₁)

end Header

/-- The number of characters of indentation that are looked at together. -/
def windowSize : Nat := 16

/-- How much has been looked at beyond `count` spaces of indentation, `seen`
    characters having been looked at before. The last window is followed by another
    one if it ended with the spaces, unless these were all that was `wanted`. -/
def seenBeyond (seen count : Nat) (wanted : Bool) : Nat :=
  let first := max seen windowSize
  if count < first then
    max 2 (first - count)
  else if (count - first) % windowSize = 0 then
    if wanted then 2 else windowSize
  else
    max 2 (windowSize - (count - first) % windowSize)

/-- Go over the spaces of a line up to column `width`. -/
def indentation (width : Nat) (c : Cursor) : Cursor :=
  let count := min (c.rest.takeWhile (· = ' ')).length (width - c.column)
  { c.blanks count with seen := seenBeyond c.seen count (c.column + count = width) }

@[simp]
theorem left_indentation (width : Nat) (c : Cursor) :
    (indentation width c).left =
      c.left - min (c.rest.takeWhile (· = ' ')).length (width - c.column) :=
  Cursor.left_blanks ..

/-- Go over the indentation of a line, and over lines in front of it that hold
    nothing else. The number of their line breaks is added to `breaks`. -/
def skipIndent (width : Nat) (breaks : Nat) (c : Cursor) : Nat × Cursor :=
  if isBreak (indentation width c).peek then
    skipIndent width (breaks + 1) (indentation width c).lineBreak
  else
    (breaks, indentation width c)
termination_by c.left
decreasing_by
  have h := Cursor.left_lineBreak_lt (indentation width c) ‹_›
  rw [left_indentation] at h
  omega

/-- Go over the spaces of a line. -/
def spaces (c : Cursor) : Cursor := c.blanks (c.rest.takeWhile (· = ' ')).length

/-- Go over the spaces of the first line with contents, and over the lines in front
    of it. The first component is the greatest column that the spaces reach, the
    second one the number of line breaks. -/
def skipFirstIndent (widest : Nat) (breaks : Nat) (c : Cursor) : Nat × Nat × Cursor :=
  if isBreak (spaces c).peek then
    skipFirstIndent (max widest (spaces c).column) (breaks + 1) (spaces c).lineBreak
  else
    (max widest (spaces c).column, breaks, spaces c)
termination_by c.left
decreasing_by
  have h := Cursor.left_lineBreak_lt (spaces c) ‹_›
  have : (spaces c).left ≤ c.left := by simp [spaces]
  omega

/-- The characters of the contents of the line. -/
def contentChars (c : Cursor) : List Char := c.rest.takeWhile fun ch => !isLineEnd ch

/-- Go over the contents of a line. Characters that have been looked at count as
    one, the others as their bytes. -/
def contents (c : Cursor) : Cursor :=
  let line := contentChars c
  { c with
    rest := c.rest.drop line.length
    mark := c.mark.right (min c.seen line.length + Text.byteLength (line.drop c.seen))
    seen := c.seen - line.length }

@[simp]
theorem left_contents (c : Cursor) : (contents c).left = c.left - (contentChars c).length := by
  simp [contents, Cursor.left]

/-- Line feeds for a number of line breaks. -/
def lineFeeds (breaks : Nat) : List Char := List.replicate breaks '\n'

/-- Where the reading of lines stands. -/
structure Progress where
  /-- The text read so far, newest first. -/
  text : List Char
  /-- Whether a line break follows it. -/
  broken : Bool
  /-- The number of line breaks behind that one. -/
  empty : Nat
  /-- Whether the last line began with a blank. -/
  blank : Bool
deriving DecidableEq, Repr

/-- Nothing read but the empty lines behind the header. -/
def Progress.afterHeader (breaks : Nat) : Progress :=
  { text := [], broken := false, empty := breaks, blank := false }

/-- The text read so far with the line breaks behind it, in front of a line of which
    is said whether it begins with a blank. -/
def Progress.joined (p : Progress) (fold blank : Bool) : List Char :=
  if fold && p.broken && !p.blank && !blank then
    if p.empty = 0 then ' ' :: p.text else lineFeeds p.empty ++ p.text
  else
    lineFeeds (p.broken.toNat + p.empty) ++ p.text

/-- Whether another line of the scalar begins here. -/
def continues (width : Nat) (c : Cursor) : Bool :=
  c.column = width && !isEnd c.peek && !(width = 0 && c.atSign '.')

/-- The contents of a line added to what was read. -/
def readLine (fold : Bool) (p : Progress) (c : Cursor) : Progress :=
  { text := (contentChars c).reverse ++ p.joined fold (isBlank c.peek)
    broken := false
    empty := 0
    blank := isBlank c.peek }

/-- Go over the contents of a line of a scalar that is indented by `width`. -/
def lineEnd (width : Nat) (c : Cursor) : Cursor :=
  contents (c.lookAt (if width = 0 then 4 else 1))

theorem left_skipIndent_le (width breaks : Nat) (c : Cursor) :
    (skipIndent width breaks c).2.left ≤ c.left := by
  fun_induction skipIndent width breaks c with
  | case1 breaks c hbreak ih =>
    have h := Cursor.left_lineBreak_le (indentation width c)
    rw [left_indentation] at h
    omega
  | case2 => simp

theorem left_skipFirstIndent_le (widest breaks : Nat) (c : Cursor) :
    (skipFirstIndent widest breaks c).2.2.left ≤ c.left := by
  fun_induction skipFirstIndent widest breaks c with
  | case1 widest breaks c hbreak ih =>
    have h := Cursor.left_lineBreak_le (spaces c)
    simp only [spaces, Cursor.left_blanks] at h ih ⊢
    omega
  | case2 => simp [spaces]

theorem left_lineEnd_le (width : Nat) (c : Cursor) : (lineEnd width c).left ≤ c.left := by
  simp [lineEnd]

/-- The lines with contents, up to one that is indented less. -/
def readLines (fold : Bool) (width : Nat) (p : Progress) (c : Cursor) : Progress × Cursor :=
  if continues width c then
    if isBreak (lineEnd width c).peek then
      match _skip : skipIndent width 0 (lineEnd width c).lineBreak with
      | (empty, c') => readLines fold width { readLine fold p c with broken := true, empty } c'
    else
      (readLine fold p c, lineEnd width c)
  else
    (p, c)
termination_by c.left
decreasing_by
  have h₁ := left_lineEnd_le width c
  have h₂ := Cursor.left_lineBreak_lt (lineEnd width c) ‹_›
  have h₃ := left_skipIndent_le width 0 (lineEnd width c).lineBreak
  rw [_skip] at h₃
  simp only at h₃
  omega

theorem left_readLines_le (fold : Bool) (width : Nat) (p : Progress) (c : Cursor) :
    (readLines fold width p c).2.left ≤ c.left := by
  fun_induction readLines fold width p c with
  | case1 p c hcontinues hbreak empty c' hskip ih =>
    have h₁ := left_lineEnd_le width c
    have h₂ := Cursor.left_lineBreak_le (lineEnd width c)
    have h₃ := left_skipIndent_le width 0 (lineEnd width c).lineBreak
    rw [hskip] at h₃
    simp only at h₃
    omega
  | case2 p c => exact left_lineEnd_le width c
  | case3 => exact Nat.le_refl _

/-- The line feeds that the scalar ends with. A last line without a break counts as
    ended if it is indented as the scalar is. -/
def ending (chomping : Chomping) (width : Nat) (p : Progress) (c : Cursor) : Nat :=
  let last := p.broken.toNat + (isEnd c.peek && max width 1 ≤ c.column).toNat
  match chomping with
  | .strip => 0
  | .clip => last
  | .keep => last + p.empty

/-- The line feeds of a scalar without contents, which `breaks` empty lines follow
    before the text ends. -/
def emptyEnding (chomping : Chomping) (start : Mark) (breaks : Nat) (c : Cursor) : Nat :=
  if c.mark.line = start.line then
    0
  else
    match chomping with
    | .strip => 0
    | .clip => 1
    | .keep => max 1 breaks

/-- A block scalar: its text, the mark of its first character, and the cursor behind
    it. -/
structure Scalar where
  text : List Char
  mark : Mark
  behind : Cursor
deriving DecidableEq, Repr

/-- The body of a block scalar whose header has been read, with the number of empty
    lines in front of it. -/
def readBody (fold : Bool) (margin : Nat) (start : Mark) (chomping : Chomping)
    (width breaks : Nat) (c : Cursor) : Except SyntaxError Scalar :=
  if isEnd c.peek then
    .ok { text := lineFeeds (emptyEnding chomping start breaks c), mark := start, behind := c }
  else if c.column < width ∧ margin ≤ c.column then
    c.mark.refuse .wrongBlockIndentation
  else
    match readLines fold width (Progress.afterHeader breaks) c with
    | (p, c') =>
      .ok
        { text := (lineFeeds (ending chomping width p c') ++ p.text).reverse
          mark := c.mark
          behind := c' }

/-- The block scalar whose sign is next. The bar does not fold and the bracket does;
    `margin` is the least column that the lines may be indented to. -/
def readBlock (fold : Bool) (margin : Nat) (c : Cursor) : Except SyntaxError Scalar := do
  let (header, c₁) ← Header.read c.mark ((c.lookAt 4).advance 1)
  let c₂ ← c₁.lineRest
  if !isLineEnd c₂.peek then
    c.mark.refuse .blockHeaderNotEnded
  else if c₂.lineBreak.peek = '\t' then
    c.mark.refuse .tabBeforeBlockContent
  else
    match header.increment with
    | some increment =>
      let width := increment + (margin - 1)
      let (breaks, c₃) := skipIndent width 0 c₂.lineBreak
      readBody fold margin c.mark header.chomping width breaks c₃
    | none =>
      let (widest, breaks, c₃) := skipFirstIndent 0 0 c₂.lineBreak
      readBody fold margin c.mark header.chomping (max widest margin) breaks c₃

theorem left_readIncrement_le {start : Mark} {c : Cursor} {r : Option Nat × Cursor}
    (h : Header.readIncrement start c = .ok r) : r.2.left ≤ c.left := by
  unfold Header.readIncrement at h
  split at h
  · simp only [Except.ok.injEq] at h
    exact Nat.le_of_eq (by rw [← h])
  · simp [Mark.refuse] at h
  · simp only [Except.ok.injEq] at h
    rw [← h]
    simp

theorem left_readHeader_le {start : Mark} {c : Cursor} {r : Header × Cursor}
    (h : Header.read start c = .ok r) : r.2.left ≤ c.left := by
  simp only [Header.read, bind, Except.bind, pure, Except.pure] at h
  split at h
  · split at h
    · simp at h
    · rename_i increment hincrement
      have hle := left_readIncrement_le hincrement
      simp only [Except.ok.injEq] at h
      rw [← h]
      simp only [Cursor.left_advance] at hle ⊢
      omega
  · split at h
    · simp at h
    · rename_i increment hincrement
      have hle := left_readIncrement_le hincrement
      split at h <;> simp only [Except.ok.injEq] at h <;> rw [← h] <;>
        simp only [Cursor.left_advance] <;> omega

theorem left_readBody_le {fold : Bool} {margin width breaks : Nat} {start : Mark}
    {chomping : Chomping} {c : Cursor} {r : Scalar}
    (h : readBody fold margin start chomping width breaks c = .ok r) : r.behind.left ≤ c.left := by
  simp only [readBody] at h
  split at h
  · simp only [Except.ok.injEq] at h
    exact Nat.le_of_eq (by rw [← h])
  · split at h
    · simp [Mark.refuse] at h
    · simp only [Except.ok.injEq] at h
      rw [← h]
      exact left_readLines_le ..

theorem left_readBlock_lt {fold : Bool} {margin : Nat} {c : Cursor} {r : Scalar} (hc : 0 < c.left)
    (h : readBlock fold margin c = .ok r) : r.behind.left < c.left := by
  simp only [readBlock, bind, Except.bind] at h
  split at h
  · simp at h
  · rename_i header hheader
    have h₁ := left_readHeader_le hheader
    simp only [Cursor.left_advance, Cursor.left_lookAt] at h₁
    split at h
    · simp at h
    · rename_i c₂ hrest
      have h₂ := Cursor.left_lineRest_le hrest
      have h₃ := Cursor.left_lineBreak_le c₂
      split at h
      · simp [Mark.refuse] at h
      · split at h
        · simp [Mark.refuse] at h
        · split at h
          · rename_i increment hi
            have h₄ := left_skipIndent_le (increment + (margin - 1)) 0 c₂.lineBreak
            have h₅ := left_readBody_le h
            omega
          · have h₄ := left_skipFirstIndent_le 0 0 c₂.lineBreak
            have h₅ : r.behind.left ≤ (skipFirstIndent 0 0 c₂.lineBreak).2.2.left :=
              left_readBody_le h
            omega

end Block

end Yaml

end YamlLocator
