import YamlLocator.Yaml.Scalar.Folding
import YamlLocator.Yaml.Cursor.Progress
import YamlLocator.Text.Hex

/-!
# Quoted Scalars

Scalars between single or double quotes. Between single quotes the only escape is
a quote written twice. Between double quotes a backslash begins an escape: a letter
for one of a few characters, a character by its hexadecimal number, or a line break
that stands for nothing.

A quoted scalar may go over several lines; see `Gap` for what is made of the line
breaks. Every line that goes on must be indented, may not be indented by a tab, and
may not begin with a marker between documents. The errors of the scalar itself are
reported for its opening quote, except for the tab.

## Main definitions

* `Quotes`: The two kinds of quotes.
* `letterEscape?`, `escapeDigits?`: The escapes.
* `readQuoted`: The text up to the closing quote.
* `AtWord`: Cursors at a character of the text that is no blank and no line break.

## Theorems

* `readQuoted_of_pair`, `readQuoted_of_sign`, `readQuoted_of_escapedBreak`,
  `readQuoted_of_escape`, `readQuoted_of_letter`: What becomes of such a character.
* `left_readQuoted_lt`: Reading a quoted scalar takes something away.
-/

namespace YamlLocator

namespace Yaml

namespace Quoted

/-- The two kinds of quotes. -/
inductive Quotes where
  | single
  | double
deriving DecidableEq, Repr

/-- The character that quotes with. -/
def Quotes.sign : Quotes → Char
  | .single => '\''
  | .double => '"'

/-- The character that a letter behind a backslash stands for. -/
def letterEscape? (letter : Char) : Option Char :=
  match letter with
  | '0' => some '\x00'
  | 'a' => some '\x07'
  | 'b' => some '\x08'
  | 't' => some '\t'
  | '\t' => some '\t'
  | 'n' => some '\n'
  | 'v' => some '\x0b'
  | 'f' => some '\x0c'
  | 'r' => some '\r'
  | 'e' => some '\x1b'
  | ' ' => some ' '
  | '"' => some '"'
  | '/' => some '/'
  | '\\' => some '\\'
  | 'N' => some '\u0085'
  | '_' => some '\u00a0'
  | 'L' => some '\u2028'
  | 'P' => some '\u2029'
  | _ => none

/-- The number of digits behind a letter that escapes a character by number. -/
def escapeDigits? (letter : Char) : Option Nat :=
  match letter with
  | 'x' => some 2
  | 'u' => some 4
  | 'U' => some 8
  | _ => none

/-- The character whose escape is next, and the cursor behind it. -/
def readEscape (start : Mark) (c : Cursor) : Except SyntaxError (Char × Cursor) :=
  match letterEscape? (c.peekAt 1) with
  | some ch => .ok (ch, c.advance 2)
  | none =>
    match escapeDigits? (c.peekAt 1) with
    | none => start.refuse .unknownEscape
    | some count =>
      let digits := (c.rest.drop 2).take count
      match Text.hexNumber? digits with
      | none => start.refuse .hexDigitExpected
      | some number =>
        if digits.length < count then
          start.refuse .hexDigitExpected
        else if number.isValidChar then
          .ok (Char.ofNat number, c.advance (2 + count))
        else
          start.refuse .invalidEscapeCode

theorem left_readEscape_le {start : Mark} {c : Cursor} {r : Char × Cursor}
    (h : readEscape start c = .ok r) : r.2.left ≤ c.left - 1 := by
  simp only [readEscape] at h
  split at h
  · simp only [Except.ok.injEq] at h
    rw [← h]
    simp only [Cursor.left_advance]
    omega
  · split at h
    · simp [Mark.refuse] at h
    · split at h
      · simp [Mark.refuse] at h
      · split at h
        · simp [Mark.refuse] at h
        · split at h
          · simp only [Except.ok.injEq] at h
            rw [← h]
            simp only [Cursor.left_advance]
            omega
          · simp [Mark.refuse] at h

/-- The text up to the closing quote, newest first and in front of what was read
    already, with the cursor behind that quote. The gap is what lies between the
    text and the cursor. -/
def readQuoted (quotes : Quotes) (margin : Nat) (start : Mark) (text : List Char) (gap : Gap)
    (c : Cursor) : Except SyntaxError (List Char × Cursor) :=
  if isBlank c.peek then
    if gap.isBroken ∧ c.peek = '\t' ∧ c.column + 1 < margin then
      c.mark.refuse .tabInQuotedIndentation
    else
      readQuoted quotes margin start text (gap.addBlank c.peek) (c.blanks 1)
  else if isBreak c.peek then
    readQuoted quotes margin start text gap.addBreak c.lineBreak
  else if c.atDocumentMark then
    start.refuse .documentMarkInQuoted
  else if isEnd c.peek then
    start.refuse .endInQuoted
  else if c.column + 1 < margin then
    start.refuse .wrongQuotedIndentation
  else if quotes = .single ∧ c.peek = '\'' ∧ c.peekAt 1 = '\'' then
    readQuoted quotes margin start ('\'' :: gap.text ++ text) .none (c.advance 2)
  else if c.peek = quotes.sign then
    .ok (gap.text ++ text, c.advance 1)
  else if quotes = .double ∧ c.peek = '\\' then
    if isBreak (c.peekAt 1) then
      -- A quote right behind the break closes the scalar wherever it stands.
      if (c.advance 1).lineBreak.peek = quotes.sign then
        .ok (gap.text ++ text, (c.advance 1).lineBreak.advance 1)
      else
        readQuoted quotes margin start (gap.text ++ text) (.escaped 0) (c.advance 1).lineBreak
    else
      match _read : readEscape start c with
      | .error e => .error e
      | .ok (ch, c') => readQuoted quotes margin start (ch :: gap.text ++ text) .none c'
  else
    readQuoted quotes margin start (c.peek :: gap.text ++ text) .none (c.advance 1)
termination_by c.left
decreasing_by
  all_goals
    have hpos : isEnd c.peek = false → 0 < c.left := fun h =>
      Cursor.left_pos_of_peek_ne c (by simpa [isEnd] using h)
  · have := Cursor.left_pos_of_class c isBlank (by decide) ‹_›
    simp only [Cursor.left_blanks]
    omega
  · exact Cursor.left_lineBreak_lt c ‹_›
  · have := hpos (by simpa using ‹¬isEnd c.peek = true›)
    simp only [Cursor.left_advance]
    omega
  · have := hpos (by simpa using ‹¬isEnd c.peek = true›)
    have hle := Cursor.left_lineBreak_le (c.advance 1)
    simp only [Cursor.left_advance] at hle
    omega
  · have := hpos (by simpa using ‹¬isEnd c.peek = true›)
    have hle := left_readEscape_le _read
    simp only at hle
    omega
  · have := hpos (by simpa using ‹¬isEnd c.peek = true›)
    simp only [Cursor.left_advance]
    omega

/-! ### At a character of the text -/

/-- A cursor at a character of the text that is no blank and no line break. A line may go on
    there, since the margin is kept and no marker between documents is next. -/
structure AtWord (margin : Nat) (c : Cursor) : Prop where
  not_blank : ¬isBlank c.peek = true
  not_break : ¬isBreak c.peek = true
  not_mark : ¬c.atDocumentMark = true
  not_end : ¬isEnd c.peek = true
  behind_margin : ¬c.column + 1 < margin

section AtWord

variable {quotes : Quotes} {margin : Nat} {start : Mark} {text : List Char} {gap : Gap}
  {c : Cursor}

/-- A quote written twice is one quote. -/
theorem readQuoted_of_pair (h : AtWord margin c)
    (hpair : quotes = .single ∧ c.peek = '\'' ∧ c.peekAt 1 = '\'') :
    readQuoted quotes margin start text gap c =
      readQuoted quotes margin start ('\'' :: gap.text ++ text) .none (c.advance 2) := by
  rw [readQuoted.eq_def, if_neg h.not_blank, if_neg h.not_break, if_neg h.not_mark,
    if_neg h.not_end, if_neg h.behind_margin, if_pos hpair]

/-- A quote on its own closes the scalar. -/
theorem readQuoted_of_sign (h : AtWord margin c)
    (hpair : ¬(quotes = .single ∧ c.peek = '\'' ∧ c.peekAt 1 = '\''))
    (hsign : c.peek = quotes.sign) :
    readQuoted quotes margin start text gap c = .ok (gap.text ++ text, c.advance 1) := by
  rw [readQuoted.eq_def, if_neg h.not_blank, if_neg h.not_break, if_neg h.not_mark,
    if_neg h.not_end, if_neg h.behind_margin, if_neg hpair, if_pos hsign]

/-- An escaped line break stands for nothing. A quote right behind it closes the scalar. -/
theorem readQuoted_of_escapedBreak (h : AtWord margin c) (hslash : c.peek = '\\')
    (hbreak : isBreak (c.peekAt 1) = true) :
    readQuoted .double margin start text gap c =
      if (c.advance 1).lineBreak.peek = Quotes.double.sign then
        .ok (gap.text ++ text, (c.advance 1).lineBreak.advance 1)
      else
        readQuoted .double margin start (gap.text ++ text) (.escaped 0)
          (c.advance 1).lineBreak := by
  rw [readQuoted.eq_def, if_neg h.not_blank, if_neg h.not_break, if_neg h.not_mark,
    if_neg h.not_end, if_neg h.behind_margin, if_neg (by simp), if_neg (by rw [hslash]; decide),
    if_pos ⟨rfl, hslash⟩, if_pos hbreak]

/-- Any other escape is a character. -/
theorem readQuoted_of_escape (h : AtWord margin c) (hslash : c.peek = '\\')
    (hbreak : ¬isBreak (c.peekAt 1) = true) :
    readQuoted .double margin start text gap c =
      readEscape start c >>= fun r =>
        readQuoted .double margin start (r.1 :: gap.text ++ text) .none r.2 := by
  rw [readQuoted.eq_def, if_neg h.not_blank, if_neg h.not_break, if_neg h.not_mark,
    if_neg h.not_end, if_neg h.behind_margin, if_neg (by simp), if_neg (by rw [hslash]; decide),
    if_pos ⟨rfl, hslash⟩, if_neg hbreak]
  split <;> rename_i hread <;> rw [hread] <;> rfl

/-- Any other character stands for itself. -/
theorem readQuoted_of_letter (h : AtWord margin c)
    (hpair : ¬(quotes = .single ∧ c.peek = '\'' ∧ c.peekAt 1 = '\''))
    (hsign : ¬c.peek = quotes.sign) (hslash : ¬(quotes = .double ∧ c.peek = '\\')) :
    readQuoted quotes margin start text gap c =
      readQuoted quotes margin start (c.peek :: gap.text ++ text) .none (c.advance 1) := by
  rw [readQuoted.eq_def quotes margin start text gap c, if_neg h.not_blank, if_neg h.not_break,
    if_neg h.not_mark, if_neg h.not_end, if_neg h.behind_margin, if_neg hpair, if_neg hsign,
    if_neg hslash]

end AtWord

theorem left_readQuoted_lt {quotes : Quotes} {margin : Nat} {start : Mark} {text : List Char}
    {gap : Gap} {c : Cursor} {r : List Char × Cursor}
    (h : readQuoted quotes margin start text gap c = .ok r) : r.2.left < c.left := by
  have hpos : ∀ c : Cursor, ¬isEnd c.peek = true → 0 < c.left := fun c h =>
    Cursor.left_pos_of_peek_ne c (by simpa [isEnd] using h)
  fun_induction readQuoted quotes margin start text gap c with
  | case1 => simp [Mark.refuse] at h
  | case2 text gap c hblank htab ih =>
    exact Nat.lt_of_lt_of_le (ih h) (by simp)
  | case3 text gap c hblank hbreak ih =>
    exact Nat.lt_of_lt_of_le (ih h) (Cursor.left_lineBreak_le c)
  | case4 => simp [Mark.refuse] at h
  | case5 => simp [Mark.refuse] at h
  | case6 => simp [Mark.refuse] at h
  | case7 text gap c hblank hbreak hmark hend hmargin hsingle ih =>
    exact Nat.lt_of_lt_of_le (ih h) (by simp)
  | case8 text gap c hblank hbreak hmark hend hmargin hsingle hclose =>
    have := hpos c hend
    simp only [Except.ok.injEq] at h
    rw [← h, Cursor.left_advance]
    omega
  | case9 text gap c hblank hbreak hmark hend hmargin hsingle hclose hdouble hescaped hnext =>
    have := hpos c hend
    have hle := Cursor.left_lineBreak_le (c.advance 1)
    simp only [Except.ok.injEq] at h
    rw [← h]
    simp only [Cursor.left_advance] at hle ⊢
    omega
  | case10 text gap c hblank hbreak hmark hend hmargin hsingle hclose hdouble hescaped hnext ih =>
    have hle := Cursor.left_lineBreak_le (c.advance 1)
    have := ih h
    simp only [Cursor.left_advance] at hle
    omega
  | case11 => simp at h
  | case12 text gap c hblank hbreak hmark hend hmargin hsingle hclose hdouble hescaped ch c' hread
      ih =>
    have hle := left_readEscape_le hread
    have := ih h
    simp only at hle
    omega
  | case13 text gap c hblank hbreak hmark hend hmargin hsingle hclose hdouble ih =>
    exact Nat.lt_of_lt_of_le (ih h) (by simp)

end Quoted

end Yaml

end YamlLocator
