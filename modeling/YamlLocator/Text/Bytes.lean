/-!
# Bytes of a Text

Offsets count bytes of the UTF-8 form of a text, while the text itself is a list
of characters. This module is the bridge: how many bytes some characters take,
and where a byte offset cuts a list of characters.

An offset may fall inside a character or behind the end. `cutAtByte` therefore
takes the longest beginning that fits into the offset, so that a character which
the offset splits belongs to the second part. The offset is a character boundary
exactly when the first part takes all of it.

## Main definitions

* `byteLength`: The number of bytes of some characters.
* `cutAtByte`: A text cut at a byte offset.
* `sliceBytes?`: The characters between two byte offsets, if both are boundaries.

## Theorems

* `utf8ByteSize_ofList`: The number of bytes is the size of the text as a string.
* `byteLength_take_lt`: More characters take more bytes.
* `cutAtByte_append`: Cutting loses nothing.
* `cutAtByte_byteLength_append`: Cutting behind a beginning gives that beginning.
-/

namespace YamlLocator

namespace Text

/-- The number of bytes that the characters take in UTF-8. -/
def byteLength : List Char → Nat
  | [] => 0
  | c :: rest => c.utf8Size + byteLength rest

/-- The longest beginning of at most `offset` bytes, and what follows it. -/
def cutAtByte : Nat → List Char → List Char × List Char
  | _, [] => ([], [])
  | offset, c :: rest =>
    if c.utf8Size ≤ offset then
      let (before, after) := cutAtByte (offset - c.utf8Size) rest
      (c :: before, after)
    else
      ([], c :: rest)

/-- The characters from byte `start` up to byte `stop`, provided that both are
    character boundaries of the text and come in this order. -/
def sliceBytes? (start stop : Nat) (text : List Char) : Option (List Char) :=
  let (before, after) := cutAtByte start text
  let (slice, _) := cutAtByte (stop - start) after
  if start ≤ stop ∧ byteLength before = start ∧ byteLength slice = stop - start then
    some slice
  else
    none

@[simp]
theorem byteLength_nil : byteLength [] = 0 := rfl

@[simp]
theorem byteLength_cons (c : Char) (rest : List Char) :
    byteLength (c :: rest) = c.utf8Size + byteLength rest := rfl

@[simp]
theorem byteLength_append (a b : List Char) :
    byteLength (a ++ b) = byteLength a + byteLength b := by
  induction a with
  | nil => simp
  | cons c rest ih => simp [ih, Nat.add_assoc]

/-- Characters take as many bytes as the text that they make up. -/
theorem utf8ByteSize_ofList (text : List Char) :
    (String.ofList text).utf8ByteSize = byteLength text := by
  induction text with
  | nil => rfl
  | cons c rest ih =>
    rw [String.ofList_cons, String.utf8ByteSize_append, String.utf8ByteSize_singleton, ih,
      byteLength_cons]

/-- More characters take more bytes, as long as there are more. -/
theorem byteLength_take_lt {text : List Char} {i j : Nat} (hlt : i < j) (hle : j ≤ text.length) :
    byteLength (text.take i) < byteLength (text.take j) := by
  induction text generalizing i j with
  | nil =>
    rw [List.length_nil] at hle
    omega
  | cons c rest ih =>
    rw [List.length_cons] at hle
    cases j with
    | zero => omega
    | succ j =>
      rw [List.take_succ_cons, byteLength_cons]
      cases i with
      | zero =>
        -- The first character is more than nothing.
        have hpos := c.utf8Size_pos
        rw [List.take_zero, byteLength_nil]
        omega
      | succ i =>
        have hrest := @ih i j (by omega) (by omega)
        rw [List.take_succ_cons, byteLength_cons]
        omega

/-- Cutting loses nothing. -/
theorem cutAtByte_append (offset : Nat) (text : List Char) :
    (cutAtByte offset text).1 ++ (cutAtByte offset text).2 = text := by
  fun_induction cutAtByte offset text with
  | case1 => rfl
  | case2 offset c rest hc before after hr ih =>
    simp only [hr] at ih
    simp [ih]
  | case3 => rfl

/-- Cutting at the number of bytes of a beginning gives that beginning. -/
theorem cutAtByte_byteLength_append (a b : List Char) :
    cutAtByte (byteLength a) (a ++ b) = (a, b) := by
  induction a with
  | nil =>
    cases b with
    | nil => rfl
    | cons c rest =>
      have := c.utf8Size_pos
      simp [cutAtByte, Nat.not_le_of_lt this]
  | cons c rest ih => simp [cutAtByte, ih]

end Text

end YamlLocator
