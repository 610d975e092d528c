import Mathlib.Algebra.Ring.Nat
import YamlLocator.Location
import YamlLocator.Proofs.Preamble
import YamlLocator.Proofs.SpanBounds

/-!
# Lines at Byte Offsets

The line at an offset is one of the pieces of the text between its line feeds, and its number is
the number of that piece. This module says so for every offset, also for one inside a character,
on a line feed or behind the text. Which piece it is depends on where the pieces begin: each one
takes its own bytes and one more for the line feed behind it, so that an offset lies in exactly one
of them, an offset on a line feed being at the end of the piece in front.

The line can as well be searched for in the bytes of the text, backwards from the offset to the
last line feed and forwards to the next one. No byte of a wider character is a line feed, so both
searches end between two characters, whatever lies at the offset.

Everything is an induction on the pieces. An offset lies within the first piece, or it is an offset
into the text behind the first line feed; `foundAt_first` and `foundAt_behind` are these two steps.

## Main definitions

* `Text.bytes`: The bytes of some characters.
* `Position.lineSpan`: The line at an offset, searched for in the bytes of a text.
* `Text.startOf`, `Text.PieceAt`: Where a piece begins, and whether an offset lies in it.
* `Position.FoundAt`: What is found out about an offset in a piece.
* `Position.IsBlankCount`: The number of blank bytes that some bytes begin with.

## Theorems

* `Text.pieceAt_unique`: An offset lies in one piece only.
* `Position.exists_foundAt`: The pieces of a text, and what is found at an offset.
* `Position.isBlankCount_indentation`: Indentation counts the blank bytes that a line begins with.
* `Position.exists_piece`: The line, its number and its indentation for every offset.
-/

namespace YamlLocator

namespace Text

/-- The bytes of the characters in UTF-8. -/
def bytes (text : List Char) : List UInt8 := text.flatMap String.utf8EncodeChar

/-- The byte that is a line feed. -/
def lineFeedByte : UInt8 := 10

/-- What stands behind the last separator. -/
def behindLast {α : Type} [DecidableEq α] (separator : α) (items : List α) : List α :=
  (items.reverse.takeWhile (· ≠ separator)).reverse

/-- What stands in front of the next separator. -/
def beforeNext {α : Type} [DecidableEq α] (separator : α) (items : List α) : List α :=
  items.takeWhile (· ≠ separator)

/-- The byte at which a piece begins, one byte being taken by each line feed in front. -/
def startOf (pieces : List (List Char)) (i : Nat) : Nat :=
  ((pieces.take i).map fun piece => byteLength piece + 1).sum

/-- The offset lies in the piece of the number, or right behind it. -/
def PieceAt (pieces : List (List Char)) (offset i : Nat) (piece : List Char) : Prop :=
  pieces[i]? = some piece ∧ startOf pieces i ≤ offset ∧
    offset ≤ startOf pieces i + byteLength piece

end Text

namespace Position

/-- The line at an offset: from behind the last line feed in front of the offset up to the next one
    from the offset on. An offset behind the bytes means their end. -/
def lineSpan (bytes : List UInt8) (offset : Nat) : Span :=
  let offset := min offset bytes.length
  { start := offset - (Text.behindLast Text.lineFeedByte (bytes.take offset)).length
    stop := offset + (Text.beforeNext Text.lineFeedByte (bytes.drop offset)).length }

end Position

namespace Text

/-! ### Searching for a separator -/

section Search

variable {α : Type} [DecidableEq α] {separator : α} {items : List α}

theorem behindLast_of_not_mem (h : separator ∉ items) : behindLast separator items = items := by
  have hall : ∀ item ∈ items.reverse, decide (item ≠ separator) = true := by
    intro item hmem
    exact decide_eq_true fun heq => h (heq ▸ List.mem_reverse.mp hmem)
  rw [behindLast, List.takeWhile_eq_self_iff.mpr hall, List.reverse_reverse]

/-- What is in front of a separator does not count. -/
theorem behindLast_append_cons (front items : List α) :
    behindLast separator (front ++ separator :: items) = behindLast separator items := by
  have hstop : (separator :: front.reverse).takeWhile (· ≠ separator) = [] :=
    List.takeWhile_cons_of_neg (by simp)
  rw [behindLast, behindLast, List.reverse_append, List.reverse_cons, List.append_assoc,
    List.singleton_append, takeWhile_append_of_eq_nil _ hstop]

theorem beforeNext_of_not_mem (h : separator ∉ items) : beforeNext separator items = items := by
  rw [beforeNext, List.takeWhile_eq_self_iff]
  intro item hmem
  exact decide_eq_true fun heq => h (heq ▸ hmem)

theorem beforeNext_append_cons (h : separator ∉ items) (rest : List α) :
    beforeNext separator (items ++ separator :: rest) = items := by
  rw [beforeNext, List.takeWhile_append_of_pos, List.takeWhile_cons_of_neg (by simp),
    List.append_nil]
  intro item hmem
  exact decide_eq_true fun heq => h (heq ▸ hmem)

theorem length_behindLast_le (separator : α) (items : List α) :
    (behindLast separator items).length ≤ items.length := by
  rw [behindLast, List.length_reverse]
  exact (List.takeWhile_prefix _).length_le.trans_eq (List.length_reverse ..)

end Search

/-! ### Bytes -/

@[simp]
theorem bytes_append (front back : List Char) : bytes (front ++ back) = bytes front ++ bytes back :=
  List.flatMap_append

theorem bytes_lineFeed (rest : List Char) : bytes ('\n' :: rest) = lineFeedByte :: bytes rest := rfl

@[simp]
theorem length_bytes (text : List Char) : (bytes text).length = byteLength text := by
  induction text with
  | nil => rfl
  | cons c rest ih =>
    rw [bytes, List.flatMap_cons, List.length_append, String.length_utf8EncodeChar, ← bytes, ih,
      byteLength_cons]

theorem utf8EncodeChar_of_lt {c : Char} (h : c.toNat < 128) :
    String.utf8EncodeChar c = [UInt8.ofNat c.toNat] :=
  if_pos (Nat.le_of_lt_succ h)

/-- The bytes of a wider character are no characters themselves. -/
theorem le_of_mem_utf8EncodeChar {c : Char} (h : 128 ≤ c.toNat) {b : UInt8}
    (hb : b ∈ String.utf8EncodeChar c) : 128 ≤ b.toNat := by
  have hwide : ¬ c.val.toNat ≤ 127 := by
    rw [Char.toNat] at h
    omega
  simp only [String.utf8EncodeChar, hwide, if_false] at hb
  -- There are two, three or four bytes, to each of which at least 128 has been added.
  split at hb
  · simp only [List.mem_cons, List.not_mem_nil, or_false] at hb
    rcases hb with rfl | rfl <;> simp only [UInt8.toNat_ofNat'] <;> omega
  · split at hb
    · simp only [List.mem_cons, List.not_mem_nil, or_false] at hb
      rcases hb with rfl | rfl | rfl <;> simp only [UInt8.toNat_ofNat'] <;> omega
    · simp only [List.mem_cons, List.not_mem_nil, or_false] at hb
      rcases hb with rfl | rfl | rfl | rfl <;> simp only [UInt8.toNat_ofNat'] <;> omega

/-- A byte below 128 is a character of its own. -/
theorem toNat_of_mem_utf8EncodeChar {c : Char} {b : UInt8} (hb : b ∈ String.utf8EncodeChar c)
    (h : b.toNat < 128) : c.toNat = b.toNat := by
  by_cases hnarrow : c.toNat < 128
  · rw [utf8EncodeChar_of_lt hnarrow, List.mem_singleton] at hb
    rw [hb, UInt8.toNat_ofNat']
    omega
  · have hle := le_of_mem_utf8EncodeChar (Nat.le_of_not_lt hnarrow) hb
    exact absurd h (Nat.not_lt.mpr hle)

/-- A line feed among the bytes is one among the characters. -/
theorem lineFeedByte_not_mem_bytes {text : List Char} (h : '\n' ∉ text) :
    lineFeedByte ∉ bytes text := by
  intro hmem
  rcases List.mem_flatMap.mp hmem with ⟨c, hc, hbyte⟩
  have hfeed : c = '\n' := Char.toNat_inj.mp (toNat_of_mem_utf8EncodeChar hbyte (by decide))
  exact h (hfeed ▸ hc)

/-! ### Where pieces begin -/

theorem startOf_zero (pieces : List (List Char)) : startOf pieces 0 = 0 := by
  rw [startOf, List.take_zero]
  rfl

theorem startOf_succ (piece : List Char) (pieces : List (List Char)) (i : Nat) :
    startOf (piece :: pieces) (i + 1) = byteLength piece + 1 + startOf pieces i := by
  rw [startOf, List.take_succ_cons, List.map_cons, List.sum_cons, ← startOf]

/-- A piece is over where a later one begins. -/
theorem startOf_add_lt {pieces : List (List Char)} {i j : Nat} {piece : List Char}
    (hpiece : pieces[i]? = some piece) (hlt : i < j) :
    startOf pieces i + byteLength piece < startOf pieces j := by
  induction pieces generalizing i j with
  | nil => simp at hpiece
  | cons first pieces ih =>
    cases j with
    | zero => exact absurd hlt (Nat.not_lt_zero i)
    | succ j =>
      cases i with
      | zero =>
        rw [List.getElem?_cons_zero, Option.some.injEq] at hpiece
        rw [startOf_zero, startOf_succ, hpiece]
        omega
      | succ i =>
        rw [List.getElem?_cons_succ] at hpiece
        have := ih hpiece (Nat.lt_of_succ_lt_succ hlt)
        rw [startOf_succ, startOf_succ]
        omega

/-- An offset lies in one piece only. -/
theorem pieceAt_unique {pieces : List (List Char)} {offset i j : Nat} {piece other : List Char}
    (h : PieceAt pieces offset i piece) (h' : PieceAt pieces offset j other) : i = j := by
  rcases h with ⟨hpiece, hle, hge⟩
  rcases h' with ⟨hother, hle', hge'⟩
  -- Of two pieces, the first one is over before the second one begins.
  rcases Nat.lt_trichotomy i j with hlt | heq | hlt
  · have := startOf_add_lt hpiece hlt
    omega
  · exact heq
  · have := startOf_add_lt hother hlt
    omega

/-! ### Cutting a text in front of a line feed and behind it -/

/-- A cut through the front of a text leaves all of what is behind. -/
theorem cutAtByte_append_of_le {offset : Nat} {front : List Char} (h : offset ≤ byteLength front)
    (back : List Char) :
    cutAtByte offset (front ++ back) =
      ((cutAtByte offset front).1, (cutAtByte offset front).2 ++ back) := by
  induction front generalizing offset with
  | nil =>
    have hzero : offset = 0 := Nat.le_zero.mp h
    rw [hzero]
    exact cutAtByte_byteLength_append [] back
  | cons c front ih =>
    rw [byteLength_cons] at h
    rw [List.cons_append, cutAtByte, cutAtByte]
    by_cases hfits : c.utf8Size ≤ offset
    · have hle : offset - c.utf8Size ≤ byteLength front := by omega
      rw [if_pos hfits, if_pos hfits, ih hle]
    · rw [if_neg hfits, if_neg hfits]
      rfl

theorem not_mem_cutAtByte {text : List Char} (h : '\n' ∉ text) (offset : Nat) :
    '\n' ∉ (cutAtByte offset text).1 ∧ '\n' ∉ (cutAtByte offset text).2 := by
  rw [← cutAtByte_append offset text, List.mem_append, not_or] at h
  exact h

/-- A cut behind a line feed is a cut of the text that begins there. -/
theorem cutAtByte_behind (front rest : List Char) (offset : Nat) :
    cutAtByte (byteLength front + 1 + offset) (front ++ '\n' :: rest) =
      (front ++ '\n' :: (cutAtByte offset rest).1, (cutAtByte offset rest).2) := by
  have hlength : byteLength (front ++ ['\n']) = byteLength front + 1 := byteLength_append front _
  have hcut := cutAtByte_add_append (front ++ ['\n']) rest offset
  rw [hlength, List.append_assoc, List.append_assoc] at hcut
  exact hcut

end Text

namespace Position

open Text

/-- What is found out about an offset that lies in the piece with the number. -/
structure FoundAt (pieces : List (List Char)) (offset i : Nat) (piece : List Char) : Prop where
  /-- The piece is the one that the offset lies in. -/
  pieceAt : PieceAt pieces (min offset (byteLength (glue '\n' pieces))) i piece
  /-- The piece stands where it is said to begin. -/
  stretch : ∃ front back, glue '\n' pieces = front ++ (piece ++ back) ∧
    byteLength front = startOf pieces i
  /-- As many line feeds are in front of the offset as there are earlier pieces. -/
  count : (cutAtByte offset (glue '\n' pieces)).1.count '\n' = i
  /-- The same count in the bytes. -/
  countBytes : ((bytes (glue '\n' pieces)).take offset).count lineFeedByte = i
  /-- The line at the offset is the piece. -/
  chars : lineChars (glue '\n' pieces) offset = piece
  /-- The search in the bytes ends where the piece does. -/
  span : lineSpan (bytes (glue '\n' pieces)) offset =
    ⟨startOf pieces i, startOf pieces i + byteLength piece⟩

theorem lineChars_eq (source : List Char) (offset : Nat) :
    lineChars source offset = behindLast '\n' (cutAtByte offset source).1 ++
      beforeNext '\n' (cutAtByte offset source).2 := rfl

/-! ### The search in the bytes -/

theorem lineSpan_of_not_mem {bytes : List UInt8} (h : lineFeedByte ∉ bytes) (offset : Nat) :
    lineSpan bytes offset = ⟨0, bytes.length⟩ := by
  have hfront : lineFeedByte ∉ bytes.take (min offset bytes.length) :=
    fun hmem => h (List.mem_of_mem_take hmem)
  have hback : lineFeedByte ∉ bytes.drop (min offset bytes.length) :=
    fun hmem => h (List.mem_of_mem_drop hmem)
  simp only [lineSpan, behindLast_of_not_mem hfront, beforeNext_of_not_mem hback, List.length_take,
    List.length_drop, Span.mk.injEq]
  omega

/-- An offset into the bytes in front of the first line feed, or on that. -/
theorem lineSpan_append_of_le {front : List UInt8} (h : lineFeedByte ∉ front) (rest : List UInt8)
    {offset : Nat} (hle : offset ≤ front.length) :
    lineSpan (front ++ lineFeedByte :: rest) offset = ⟨0, front.length⟩ := by
  have hfront : lineFeedByte ∉ front.take offset := fun hmem => h (List.mem_of_mem_take hmem)
  have hback : lineFeedByte ∉ front.drop offset := fun hmem => h (List.mem_of_mem_drop hmem)
  have hmin : min offset (front ++ lineFeedByte :: rest).length = offset := by
    rw [List.length_append]
    omega
  simp only [lineSpan, hmin, List.take_append_of_le_length hle, List.drop_append_of_le_length hle,
    behindLast_of_not_mem hfront, beforeNext_append_cons hback, List.length_take, List.length_drop,
    Span.mk.injEq]
  omega

/-- An offset into the bytes behind a line feed. -/
theorem lineSpan_append_add (front rest : List UInt8) (offset : Nat) :
    lineSpan (front ++ lineFeedByte :: rest) (front.length + 1 + offset) =
      (lineSpan rest offset).shift (front.length + 1) := by
  have hmin : min (front.length + 1 + offset) (front ++ lineFeedByte :: rest).length =
      front.length + (min offset rest.length + 1) := by
    rw [List.length_append, List.length_cons]
    omega
  have hle := length_behindLast_le lineFeedByte (rest.take (min offset rest.length))
  rw [List.length_take] at hle
  simp only [lineSpan, hmin, List.take_length_add_append, List.drop_length_add_append,
    List.take_succ_cons, List.drop_succ_cons, behindLast_append_cons, Span.shift, Span.mk.injEq]
  omega

/-! ### The two steps -/

variable {piece next : List Char} {more : List (List Char)}

/-- Any offset into a text without line feeds lies in its only piece. -/
theorem foundAt_single (h : '\n' ∉ piece) (offset : Nat) : FoundAt [piece] offset 0 piece where
  pieceAt := by
    refine ⟨rfl, by rw [startOf_zero]; exact Nat.zero_le _, ?_⟩
    rw [startOf_zero, Nat.zero_add]
    exact Nat.min_le_right _ _
  stretch := ⟨[], [], (List.append_nil piece).symm, rfl⟩
  count := List.count_eq_zero.mpr (not_mem_cutAtByte h offset).1
  countBytes :=
    List.count_eq_zero.mpr fun hmem => lineFeedByte_not_mem_bytes h (List.mem_of_mem_take hmem)
  chars := by
    rcases not_mem_cutAtByte h offset with ⟨hfront, hback⟩
    rw [glue, lineChars_eq, behindLast_of_not_mem hfront, beforeNext_of_not_mem hback,
      cutAtByte_append]
  span := by
    rw [glue, lineSpan_of_not_mem (lineFeedByte_not_mem_bytes h), length_bytes, startOf_zero,
      Nat.zero_add]

/-- An offset up to the first line feed lies in the first piece. -/
theorem foundAt_first (h : '\n' ∉ piece) {offset : Nat} (hle : offset ≤ byteLength piece) :
    FoundAt (piece :: next :: more) offset 0 piece where
  pieceAt := by
    refine ⟨rfl, by rw [startOf_zero]; exact Nat.zero_le _, ?_⟩
    rw [startOf_zero, Nat.zero_add]
    exact (Nat.min_le_left _ _).trans hle
  stretch := ⟨[], _, rfl, rfl⟩
  count := by
    rw [glue, cutAtByte_append_of_le hle]
    exact List.count_eq_zero.mpr (not_mem_cutAtByte h offset).1
  countBytes := by
    have hlength : offset ≤ (bytes piece).length := (length_bytes piece).symm ▸ hle
    rw [glue, bytes_append, List.take_append_of_le_length hlength]
    exact List.count_eq_zero.mpr fun hmem =>
      lineFeedByte_not_mem_bytes h (List.mem_of_mem_take hmem)
  chars := by
    rcases not_mem_cutAtByte h offset with ⟨hfront, hback⟩
    rw [glue, lineChars_eq, cutAtByte_append_of_le hle, behindLast_of_not_mem hfront,
      beforeNext_append_cons hback, cutAtByte_append]
  span := by
    have hlength : offset ≤ (bytes piece).length := (length_bytes piece).symm ▸ hle
    rw [glue, bytes_append, bytes_lineFeed,
      lineSpan_append_of_le (lineFeedByte_not_mem_bytes h) _ hlength, length_bytes, startOf_zero,
      Nat.zero_add]

/-- An offset into the text behind the first line feed lies where it does in that text. -/
theorem foundAt_behind (h : '\n' ∉ piece) {offset i : Nat} {part : List Char}
    (hfound : FoundAt (next :: more) offset i part) :
    FoundAt (piece :: next :: more) (byteLength piece + 1 + offset) (i + 1) part where
  pieceAt := by
    rcases hfound.pieceAt with ⟨hpart, hle, hge⟩
    have hmin : min (byteLength piece + 1 + offset)
        (byteLength (glue '\n' (piece :: next :: more))) =
          byteLength piece + 1 + min offset (byteLength (glue '\n' (next :: more))) := by
      rw [glue, byteLength_append, byteLength_cons, show '\n'.utf8Size = 1 from rfl]
      omega
    refine ⟨hpart, ?_, ?_⟩ <;> rw [startOf_succ, hmin] <;> omega
  stretch := by
    rcases hfound.stretch with ⟨front, back, htext, hfront⟩
    refine ⟨piece ++ '\n' :: front, back, ?_, ?_⟩
    · rw [glue, htext, List.append_assoc, List.cons_append]
    · rw [byteLength_append, byteLength_cons, hfront, startOf_succ,
        show '\n'.utf8Size = 1 from rfl, Nat.add_assoc]
  count := by
    rw [glue, cutAtByte_behind, List.count_append, List.count_eq_zero.mpr h, List.count_cons_self,
      hfound.count, Nat.zero_add]
  countBytes := by
    have hpiece : (bytes piece).count lineFeedByte = 0 :=
      List.count_eq_zero.mpr (lineFeedByte_not_mem_bytes h)
    have hoffset : byteLength piece + 1 + offset = (bytes piece).length + (offset + 1) := by
      rw [length_bytes]
      omega
    rw [glue, bytes_append, bytes_lineFeed, hoffset, List.take_length_add_append,
      List.take_succ_cons, List.count_append, hpiece, List.count_cons_self, hfound.countBytes,
      Nat.zero_add]
  chars := by
    have hchars := hfound.chars
    rw [lineChars_eq] at hchars
    rw [glue, lineChars_eq, cutAtByte_behind, behindLast_append_cons, hchars]
  span := by
    rw [glue, bytes_append, bytes_lineFeed, ← length_bytes piece, lineSpan_append_add, hfound.span,
      startOf_succ, length_bytes]
    simp only [Span.shift, Span.mk.injEq]
    omega

/-- Every offset is found in a piece. The induction is on the pieces: behind the first line feed
    the search goes on as if the text began there. -/
theorem exists_foundAt {pieces : List (List Char)} (hne : pieces ≠ [])
    (h : ∀ piece ∈ pieces, '\n' ∉ piece) (offset : Nat) :
    ∃ i piece, FoundAt pieces offset i piece := by
  induction pieces generalizing offset with
  | nil => exact absurd rfl hne
  | cons piece pieces ih =>
    have hpiece : '\n' ∉ piece := h piece List.mem_cons_self
    cases pieces with
    | nil => exact ⟨0, piece, foundAt_single hpiece offset⟩
    | cons next more =>
      -- The line feed behind the first piece still belongs to that piece.
      by_cases hle : offset ≤ byteLength piece
      · exact ⟨0, piece, foundAt_first hpiece hle⟩
      · rcases Nat.exists_eq_add_of_lt (Nat.lt_of_not_le hle) with ⟨beyond, hbeyond⟩
        rcases ih (List.cons_ne_nil next more)
          (fun other hmem => h other (List.mem_cons_of_mem piece hmem)) beyond with
          ⟨i, part, hfound⟩
        have hoffset : offset = byteLength piece + 1 + beyond := by omega
        exact ⟨i + 1, part, hoffset ▸ foundAt_behind hpiece hfound⟩

/-! ### Indentation in bytes -/

/-- The byte is a space or a tab. -/
def IsBlankByte (b : UInt8) : Prop := b = 32 ∨ b = 9

/-- The number of blank bytes that some bytes begin with. -/
def IsBlankCount (bytes : List UInt8) (count : Nat) : Prop :=
  count ≤ bytes.length ∧ (∀ b ∈ bytes.take count, IsBlankByte b) ∧
    ∀ b, bytes[count]? = some b → ¬ IsBlankByte b

/-- There is one such number only: the byte behind the smaller of two would be blank. -/
theorem isBlankCount_unique {bytes : List UInt8} {count other : Nat}
    (h : IsBlankCount bytes count) (h' : IsBlankCount bytes other) : count = other := by
  -- The argument is the same for either of the two being the smaller one.
  have hnot (count other : Nat) (h : IsBlankCount bytes count) (h' : IsBlankCount bytes other) :
      ¬ count < other := by
    intro hlt
    have hlength : count < bytes.length := Nat.lt_of_lt_of_le hlt h'.1
    have hmem : bytes[count] ∈ bytes.take other :=
      List.mem_take_iff_getElem.mpr ⟨count, by omega, rfl⟩
    exact h.2.2 _ (List.getElem?_eq_getElem hlength) (h'.2.1 _ hmem)
  exact Nat.le_antisymm (Nat.le_of_not_lt (hnot other count h' h))
    (Nat.le_of_not_lt (hnot count other h h'))

theorem isBlankCount_cons {b : UInt8} (hb : IsBlankByte b) {bytes : List UInt8} {count : Nat}
    (h : IsBlankCount bytes count) : IsBlankCount (b :: bytes) (count + 1) := by
  rcases h with ⟨hlength, hblank, hstop⟩
  refine ⟨Nat.succ_le_succ hlength, fun byte hmem => ?_, hstop⟩
  rw [List.take_succ_cons] at hmem
  rcases List.mem_cons.mp hmem with rfl | hmem
  · exact hb
  · exact hblank byte hmem

/-- The first byte of a character that is not blank is not blank either. -/
theorem not_isBlankByte {c : Char} (h : ¬ (c = ' ' ∨ c = '\t')) {b : UInt8}
    (hb : b ∈ String.utf8EncodeChar c) : ¬ IsBlankByte b := by
  rintro (rfl | rfl)
  · exact h (.inl (Char.toNat_inj.mp (toNat_of_mem_utf8EncodeChar hb (by decide))))
  · exact h (.inr (Char.toNat_inj.mp (toNat_of_mem_utf8EncodeChar hb (by decide))))

/-- Indentation counts the blank bytes that a line begins with. -/
theorem isBlankCount_indentation (line : List Char) :
    IsBlankCount (bytes line) (indentation (String.ofList line)) := by
  rw [indentation, String.toList_ofList]
  induction line with
  | nil => exact ⟨Nat.zero_le _, by simp, by simp [bytes]⟩
  | cons c rest ih =>
    by_cases hc : c = ' ' ∨ c = '\t'
    · rw [List.takeWhile_cons_of_pos (by simpa using hc), List.length_cons]
      rcases hc with rfl | rfl
      · exact isBlankCount_cons (.inl rfl) ih
      · exact isBlankCount_cons (.inr rfl) ih
    · -- The first byte of the character ends the search.
      rw [List.takeWhile_cons_of_neg (by simpa using hc), List.length_nil]
      refine ⟨Nat.zero_le _, by simp, fun b hb => not_isBlankByte hc ?_⟩
      rw [bytes, List.flatMap_cons, List.getElem?_append_left] at hb
      · exact List.mem_of_getElem? hb
      · rw [String.length_utf8EncodeChar]
        exact c.utf8Size_pos

/-! ### The line at an offset -/

/-- The line at any offset is the only piece of the text that the offset lies in, and its number
    is one more than that of the piece. Searching the bytes for it counts the same line feeds and
    ends at the ends of the piece, where the text can always be cut. Of a span, only the start
    decides about its location, in which the column counts the blank bytes at the beginning of the
    piece. -/
theorem exists_piece (source : String) (offset : Nat) :
    let pieces := Text.pieces '\n' source.toList
    let bytes := Text.bytes source.toList
    ∃ i piece, PieceAt pieces (min offset bytes.length) i piece ∧
      (∀ j other, PieceAt pieces (min offset bytes.length) j other → j = i) ∧
      lineNumber source offset = i + 1 ∧
      (bytes.take offset).count lineFeedByte = i ∧
      lineText source offset = String.ofList piece ∧
      lineSpan bytes offset = ⟨startOf pieces i, startOf pieces i + byteLength piece⟩ ∧
      (lineSpan bytes offset).text? source = some (lineText source offset) ∧
      ∃ column, IsBlankCount (Text.bytes piece) column ∧
        (∀ other, IsBlankCount (Text.bytes piece) other → other = column) ∧
        ∀ stop path withColumn, Location.ofSpan source ⟨offset, stop⟩ path withColumn =
          { path, line := i + 1, column := if withColumn then some column else none } := by
  intro pieces bytes
  have hglue : glue '\n' pieces = source.toList := glue_pieces '\n' source.toList
  rcases exists_foundAt (pieces_ne_nil '\n' source.toList)
    (fun piece hmem => not_mem_of_mem_pieces hmem) offset with
    ⟨i, piece, hpieceAt, ⟨front, back, hstretch, hfront⟩, hcount, hcountBytes, hchars, hspan⟩
  -- What is found among the pieces is found in the text that they make up.
  rw [hglue] at hpieceAt hstretch hcount hcountBytes hchars hspan
  rw [← length_bytes] at hpieceAt
  have hnumber : lineNumber source offset = i + 1 := by rw [lineNumber, hcount]
  have hline : lineText source offset = String.ofList piece := by rw [lineText, hchars]
  have htext : (lineSpan bytes offset).text? source = some (lineText source offset) := by
    have := Span.text?_of_append front piece back
    rwa [← hstretch, String.ofList_toList, hfront, ← hspan, ← hline] at this
  have hblank := isBlankCount_indentation piece
  refine ⟨i, piece, hpieceAt, fun j other hother => pieceAt_unique hother hpieceAt, hnumber,
    hcountBytes, hline, hspan, htext, _, hblank,
    fun other hother => isBlankCount_unique hother hblank, fun stop path withColumn => ?_⟩
  rw [Location.ofSpan, hnumber, hline]

/-- An offset on a line feed, one behind it, one inside a character and one behind the text. -/
example : [1, 2, 4, 9].map (lineSpan (bytes "a\n é".toList)) =
    [⟨0, 1⟩, ⟨2, 5⟩, ⟨2, 5⟩, ⟨2, 5⟩] := by
  decide

end Position

end YamlLocator
