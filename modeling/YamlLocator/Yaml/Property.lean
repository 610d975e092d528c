import YamlLocator.Yaml.Cursor.Progress
import YamlLocator.Text.Hex

/-!
# Node Properties

Anchors and tags, the properties that may stand in front of a node, and aliases,
which are spelled like anchors.

A tag is a handle and a suffix. The handle is the part of the spelling between two
exclamation marks and stands for the beginning of the full tag; a tag written out
between angle brackets has no handle at all. A suffix may hold characters escaped
by their bytes, each byte as a percent sign and two hexadecimal digits. The bytes
of one character are put together as the digits of one number to the base 256,
whatever their marker bits; what is asked of them is that they look like UTF-8 and
that the number is the number of a character.

All errors are reported for the mark at which the property begins.

## Main definitions

* `Tag`: A handle and a suffix.
* `readName`: The name of an anchor or an alias.
* `readTag`: A tag.
* `readEscaped`, `readUri`: An escaped character, and a run of characters of a tag.

## Theorems

* `readUri_of_escape`: An escape is one character of what is read.
* `left_readName_lt`, `left_readTag_lt`: Reading a property takes something away.
-/

namespace YamlLocator

namespace Yaml

/-- A tag as it is spelled. -/
structure Tag where
  /-- The part that stands for the beginning of a full tag; empty for none. -/
  handle : String
  /-- The part behind the handle. -/
  suffix : String
deriving DecidableEq, Repr

namespace Property

/-- The name of an anchor or an alias whose sign is next. -/
def readName (c : Cursor) : Except SyntaxError (String × Cursor) :=
  let name := (c.advance 1).rest.takeWhile isAnchorChar
  if name.isEmpty then
    c.mark.refuse .anchorNameExpected
  else
    .ok (String.ofList name, (c.advance 1).advance name.length)

/-- The byte that is escaped here. -/
def octet? (c : Cursor) : Option Nat :=
  if c.peek = '%' then Text.hexNumber? [c.peekAt 1, c.peekAt 2] else none

/-- The number of bytes of the character that a byte begins. -/
def octetWidth? (octet : Nat) : Option Nat :=
  if octet / 0x80 = 0b0 then some 1
  else if octet / 0x20 = 0b110 then some 2
  else if octet / 0x10 = 0b1110 then some 3
  else if octet / 0x08 = 0b11110 then some 4
  else none

/-- The number that `count` further escaped bytes make together with what comes in
    front of them. -/
def readOctets (start : Mark) : Nat → Nat → Cursor → Except SyntaxError (Nat × Cursor)
  | 0, number, c => .ok (number, c)
  | count + 1, number, c =>
    match octet? c with
    | none => start.refuse .escapedOctetExpected
    | some octet =>
      if octet / 0x40 = 0b10 then
        readOctets start count (number * 0x100 + octet) (c.advance 3)
      else
        start.refuse .wrongTrailingOctet

/-- The character that is escaped here. -/
def readEscaped (start : Mark) (c : Cursor) : Except SyntaxError (Char × Cursor) :=
  match octet? c with
  | none => start.refuse .escapedOctetExpected
  | some octet =>
    match octetWidth? octet with
    | none => start.refuse .wrongLeadingOctet
    | some width =>
      match readOctets start (width - 1) octet (c.advance 3) with
      | .error e => .error e
      | .ok (number, c) =>
        if number.isValidChar then
          .ok (Char.ofNat number, c)
        else
          start.refuse .invalidEscapedCharacter

theorem left_readOctets_le {start : Mark} {count number : Nat} {c : Cursor} {r : Nat × Cursor}
    (h : readOctets start count number c = .ok r) : r.2.left ≤ c.left := by
  induction count generalizing number c with
  | zero =>
    simp only [readOctets, Except.ok.injEq] at h
    exact Nat.le_of_eq (by rw [← h])
  | succ count ih =>
    simp only [readOctets] at h
    split at h
    · simp [Mark.refuse] at h
    · split at h
      · exact Nat.le_trans (ih h) (by simp)
      · simp [Mark.refuse] at h

theorem left_pos_of_octet? {c : Cursor} {octet : Nat} (h : octet? c = some octet) : 0 < c.left := by
  unfold octet? at h
  split at h
  · rename_i hp
    exact Cursor.left_pos_of_peek_ne c (by rw [hp]; decide)
  · exact absurd h (by simp)

theorem left_readEscaped_lt {start : Mark} {c : Cursor} {r : Char × Cursor}
    (h : readEscaped start c = .ok r) : r.2.left < c.left := by
  unfold readEscaped at h
  split at h
  · simp [Mark.refuse] at h
  · rename_i octet ho
    split at h
    · simp [Mark.refuse] at h
    · split at h
      · simp at h
      · rename_i number c' hr
        have hle := left_readOctets_le hr
        have hpos := left_pos_of_octet? ho
        rw [Cursor.left_advance] at hle
        split at h
        · simp only [Except.ok.injEq] at h
          rw [← h]
          simp only at hle ⊢
          omega
        · simp [Mark.refuse] at h

/-- The characters of a class that follow, with escapes resolved. The percent sign
    of an escape belongs to the class. The characters come newest first, in front of
    those that are there already. -/
def readUri (start : Mark) (inClass : Char → Bool) (text : List Char) (c : Cursor) :
    Except SyntaxError (List Char × Cursor) :=
  if inClass c.peek ∧ !isEnd c.peek then
    if c.peek = '%' then
      match _read : readEscaped start c with
      | .error e => .error e
      | .ok (ch, c') => readUri start inClass (ch :: text) c'
    else
      readUri start inClass (c.peek :: text) (c.advance 1)
  else
    .ok (text, c)
termination_by c.left
decreasing_by
  · exact left_readEscaped_lt _read
  · rename_i h _
    have := Cursor.left_pos_of_peek_ne c (by simpa [isEnd] using h.2)
    rw [Cursor.left_advance]
    omega

/-- An escape is read, and then what is behind it. -/
theorem readUri_of_escape {start : Mark} {inClass : Char → Bool} {text : List Char} {c : Cursor}
    (hin : inClass c.peek ∧ !isEnd c.peek) (hsign : c.peek = '%') :
    readUri start inClass text c =
      readEscaped start c >>= fun r => readUri start inClass (r.1 :: text) r.2 := by
  rw [readUri.eq_def, if_pos hin, if_pos hsign]
  split <;> rename_i hread <;> rw [hread] <;> rfl

theorem left_readUri_le {start : Mark} {inClass : Char → Bool} {text : List Char} {c : Cursor}
    {r : List Char × Cursor} (h : readUri start inClass text c = .ok r) : r.2.left ≤ c.left := by
  fun_induction readUri start inClass text c with
  | case1 => simp at h
  | case2 text c hclass hescape ch c' hread ih =>
    exact Nat.le_trans (ih h) (Nat.le_of_lt (left_readEscaped_lt hread))
  | case3 text c hclass hescape ih =>
    exact Nat.le_trans (ih h) (by simp)
  | case4 =>
    simp only [Except.ok.injEq] at h
    exact Nat.le_of_eq (by rw [← h])

/-- The handle whose exclamation mark is next: word characters, and then another
    exclamation mark if one follows. -/
def handleAhead (c : Cursor) : List Char :=
  let name := (c.rest.drop 1).takeWhile isWord
  if c.peekAt (1 + name.length) = '!' then '!' :: name ++ ['!'] else '!' :: name

/-- Whether a handle stands for the beginning of a tag that goes on behind it. -/
def isNamedHandle (handle : List Char) : Bool :=
  2 ≤ handle.length && handle.getLast? = some '!'

/-- A tag, with the cursor behind it, provided that it ends here. -/
def endTag (start : Mark) (inFlow : Bool) (tag : Tag) (c : Cursor) :
    Except SyntaxError (Tag × Cursor) :=
  if isGap c.peek || (inFlow && isFlow c.peek) then
    .ok (tag, c)
  else
    start.refuse .tagNotEnded

/-- A tag written out between angle brackets. -/
def readVerbatim (inFlow : Bool) (c : Cursor) : Except SyntaxError (Tag × Cursor) := do
  let (suffix, c') ← readUri c.mark isUriChar [] (c.advance 2)
  if c'.peek = '>' then
    endTag c.mark inFlow { handle := "", suffix := String.ofList suffix.reverse } (c'.advance 1)
  else
    c.mark.refuse .verbatimTagNotEnded

/-- A tag with a handle that ends in an exclamation mark of its own. -/
def readHandled (inFlow : Bool) (handle : List Char) (c : Cursor) :
    Except SyntaxError (Tag × Cursor) := do
  let (suffix, c') ← readUri c.mark isTagChar [] (c.advance handle.length)
  if suffix.isEmpty then
    c.mark.refuse .tagSuffixExpected
  else
    endTag c.mark inFlow
      { handle := String.ofList handle, suffix := String.ofList suffix.reverse } c'

/-- A tag with the handle of one exclamation mark. That mark alone is a suffix and
    no handle. -/
def readLocal (inFlow : Bool) (name : List Char) (c : Cursor) :
    Except SyntaxError (Tag × Cursor) := do
  let (suffix, c') ← readUri c.mark isTagChar name.reverse (c.advance (1 + name.length))
  endTag c.mark inFlow
    (if suffix.isEmpty then { handle := "", suffix := "!" }
      else { handle := "!", suffix := String.ofList suffix.reverse })
    c'

/-- The tag whose first exclamation mark is next. -/
def readTag (inFlow : Bool) (c : Cursor) : Except SyntaxError (Tag × Cursor) :=
  if c.peekAt 1 = '<' then
    readVerbatim inFlow c
  else if isNamedHandle (handleAhead c) then
    readHandled inFlow (handleAhead c) c
  else
    readLocal inFlow ((handleAhead c).drop 1) c

theorem left_readName_lt {c : Cursor} {r : String × Cursor} (hc : 0 < c.left)
    (h : readName c = .ok r) : r.2.left < c.left := by
  simp only [readName] at h
  split at h
  · simp [Mark.refuse] at h
  · simp only [Except.ok.injEq] at h
    rw [← h]
    simp only [Cursor.left_advance]
    omega

theorem eq_of_endTag {start : Mark} {inFlow : Bool} {tag : Tag} {c : Cursor} {r : Tag × Cursor}
    (h : endTag start inFlow tag c = .ok r) : r = (tag, c) := by
  unfold endTag at h
  split at h
  · simpa using h.symm
  · simp [Mark.refuse] at h

theorem left_readTag_lt {inFlow : Bool} {c : Cursor} {r : Tag × Cursor} (hc : 0 < c.left)
    (h : readTag inFlow c = .ok r) : r.2.left < c.left := by
  unfold readTag at h
  split at h
  · simp only [readVerbatim, bind, Except.bind] at h
    split at h
    · simp at h
    · rename_i p hr
      have hle := left_readUri_le hr
      split at h
      · rw [eq_of_endTag h]
        simp only [Cursor.left_advance] at hle ⊢
        omega
      · simp [Mark.refuse] at h
  · split at h
    · rename_i hnamed
      simp only [readHandled, bind, Except.bind] at h
      split at h
      · simp at h
      · rename_i p hr
        have hle := left_readUri_le hr
        simp only [isNamedHandle, Bool.and_eq_true, decide_eq_true_eq] at hnamed
        split at h
        · simp [Mark.refuse] at h
        · rw [eq_of_endTag h]
          simp only [Cursor.left_advance] at hle ⊢
          omega
    · simp only [readLocal, bind, Except.bind] at h
      split at h
      · simp at h
      · rename_i p hr
        have hle := left_readUri_le hr
        rw [eq_of_endTag h]
        simp only [Cursor.left_advance] at hle ⊢
        omega

end Property

end Yaml

end YamlLocator
