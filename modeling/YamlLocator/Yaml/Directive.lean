import YamlLocator.Yaml.Property

/-!
# Directives

The lines in front of a document that begin with a percent sign. A version
directive names the version of the language, a tag directive gives a meaning to a
tag handle, and directives of any other name are read over.

A directive takes the rest of its line, comment included, and the line break behind
it. Apart from the rules for its name, all errors are reported for the mark of the
percent sign.

## Main definitions

* `Directive`: What a directive line says.
* `readDirective`: The directive whose percent sign is next.

## Theorems

* `left_readDirective_lt`: Reading a directive takes something away.
-/

namespace YamlLocator

namespace Yaml

/-- What a directive line says. -/
inductive Directive where
  /-- The version of the language. -/
  | version (major minor : Nat)
  /-- The beginning of the tags that a handle stands for. -/
  | tag (handle start : String)
  /-- A directive with another name. -/
  | other
deriving DecidableEq, Repr

namespace Directive

/-- A number of at most nine digits. -/
def readNumber (start : Mark) (c : Cursor) : Except SyntaxError (Nat × Cursor) :=
  let digits := c.rest.takeWhile Char.isDigit
  if digits.isEmpty then
    start.refuse .versionExpected
  else if 9 < digits.length then
    start.refuse .versionTooLong
  else
    .ok (Nat.ofDigitChars 10 digits 0, c.advance digits.length)

/-- A version: two numbers with a point between them. -/
def readVersion (start : Mark) (c : Cursor) : Except SyntaxError (Directive × Cursor) := do
  let (major, c₁) ← readNumber start c.skipBlanks
  if c₁.peek = '.' then
    let (minor, c₂) ← readNumber start (c₁.advance 1)
    return (.version major minor, c₂)
  else
    start.refuse .versionPointExpected

/-- The beginning of the tags that a handle stands for. Its first character is an
    exclamation mark or a tag character, which may be escaped. -/
def readTagStart (start : Mark) (c : Cursor) : Except SyntaxError (List Char × Cursor) :=
  if c.peek = '!' then
    Property.readUri start isUriChar ['!'] (c.advance 1)
  else if isTagChar c.peek then
    Property.readUri start isUriChar [] c
  else
    start.refuse .invalidTagStart

/-- A handle and the beginning of the tags that it stands for. -/
def readTagMeaning (start : Mark) (c : Cursor) : Except SyntaxError (Directive × Cursor) :=
  let c₁ := c.skipBlanks
  let handle := Property.handleAhead c₁
  if c₁.peek ≠ '!' then
    start.refuse .tagHandleExpected
  else if handle.getLast? ≠ some '!' then
    start.refuse .tagHandleNotEnded
  else
    match readTagStart start (c₁.advance handle.length).skipBlanks with
    | .error e => .error e
    | .ok (text, c₂) =>
      if isGap c₂.peek then
        .ok (.tag (String.ofList handle) (String.ofList text.reverse), c₂)
      else
        start.refuse .tagDirectiveNotEnded

/-- What the directive with a given name says in the text behind the name. -/
def readMeaning (start : Mark) (name : List Char) (c : Cursor) :
    Except SyntaxError (Directive × Cursor) :=
  if name = ['Y', 'A', 'M', 'L'] then
    readVersion start c
  else if name = ['T', 'A', 'G'] then
    readTagMeaning start c
  else
    .ok (.other, c.comment)

/-- The directive whose percent sign is next, with the cursor on the next line. -/
def readDirective (c : Cursor) : Except SyntaxError (Directive × Cursor) :=
  let nameStart := c.advance 1
  let name := nameStart.rest.takeWhile isWord
  let nameEnd := nameStart.advance name.length
  if name.isEmpty then
    nameStart.mark.refuse .directiveNameExpected
  else if !isGap nameEnd.peek then
    nameStart.mark.refuse .directiveNameNotEnded
  else do
    let (directive, c₁) ← readMeaning c.mark name nameEnd
    let c₂ ← c₁.lineRest
    if isLineEnd c₂.peek then
      return (directive, c₂.lineBreak)
    else
      c.mark.refuse .directiveNotEnded

theorem left_readNumber_le {start : Mark} {c : Cursor} {r : Nat × Cursor}
    (h : readNumber start c = .ok r) : r.2.left ≤ c.left := by
  simp only [readNumber] at h
  split at h
  · simp [Mark.refuse] at h
  · split at h
    · simp [Mark.refuse] at h
    · simp only [Except.ok.injEq] at h
      rw [← h]
      simp

theorem left_readVersion_le {start : Mark} {c : Cursor} {r : Directive × Cursor}
    (h : readVersion start c = .ok r) : r.2.left ≤ c.left := by
  simp only [readVersion, bind, Except.bind, pure, Except.pure] at h
  split at h
  · simp at h
  · rename_i major hmajor
    have h₁ := left_readNumber_le hmajor
    have h₀ := Cursor.left_skipBlanks_le c
    split at h
    · split at h
      · simp at h
      · rename_i minor hminor
        have h₂ := left_readNumber_le hminor
        simp only [Except.ok.injEq] at h
        rw [← h]
        simp only [Cursor.left_advance] at h₂ ⊢
        omega
    · simp [Mark.refuse] at h

theorem left_readTagStart_le {start : Mark} {c : Cursor} {r : List Char × Cursor}
    (h : readTagStart start c = .ok r) : r.2.left ≤ c.left := by
  unfold readTagStart at h
  split at h
  · exact Nat.le_trans (Property.left_readUri_le h) (by simp)
  · split at h
    · exact Property.left_readUri_le h
    · simp [Mark.refuse] at h

theorem left_readTagMeaning_le {start : Mark} {c : Cursor} {r : Directive × Cursor}
    (h : readTagMeaning start c = .ok r) : r.2.left ≤ c.left := by
  simp only [readTagMeaning] at h
  split at h
  · simp [Mark.refuse] at h
  · split at h
    · simp [Mark.refuse] at h
    · split at h
      · simp at h
      · rename_i text c₂ hstart
        have h₀ := Cursor.left_skipBlanks_le c
        have h₁ := Cursor.left_skipBlanks_le
          (c.skipBlanks.advance (Property.handleAhead c.skipBlanks).length)
        have h₂ := left_readTagStart_le hstart
        rw [Cursor.left_advance] at h₁
        split at h
        · simp only [Except.ok.injEq] at h
          rw [← h]
          simp only at h₂ ⊢
          omega
        · simp [Mark.refuse] at h

theorem left_readMeaning_le {start : Mark} {name : List Char} {c : Cursor} {r : Directive × Cursor}
    (h : readMeaning start name c = .ok r) : r.2.left ≤ c.left := by
  unfold readMeaning at h
  split at h
  · exact left_readVersion_le h
  · split at h
    · exact left_readTagMeaning_le h
    · simp only [Except.ok.injEq] at h
      rw [← h]
      exact Cursor.left_comment_le c

theorem left_readDirective_lt {c : Cursor} {r : Directive × Cursor} (hc : 0 < c.left)
    (h : readDirective c = .ok r) : r.2.left < c.left := by
  simp only [readDirective] at h
  split at h
  · simp [Mark.refuse] at h
  · split at h
    · simp [Mark.refuse] at h
    · simp only [bind, Except.bind, pure, Except.pure] at h
      split at h
      · simp at h
      · rename_i meaning hmeaning
        have h₁ := left_readMeaning_le hmeaning
        simp only [Cursor.left_advance] at h₁
        split at h
        · simp at h
        · rename_i c₂ hrest
          have h₂ := Cursor.left_lineRest_le hrest
          have h₃ := Cursor.left_lineBreak_le c₂
          split at h
          · simp only [Except.ok.injEq] at h
            rw [← h]
            simp only
            omega
          · simp [Mark.refuse] at h

end Directive

end Yaml

end YamlLocator
