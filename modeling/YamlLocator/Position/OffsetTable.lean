import YamlLocator.Text.Bytes

/-!
# From Characters to Bytes

A reader of text counts characters, spans count bytes. The two agree on a text
whose characters all take one byte, so for such a text only its length is kept;
for any other text a table holds the byte offset at which each character starts.
Either way an index behind the last character stands for the end of the text.

## Main definitions

* `OffsetTable`: What has to be known of a text to turn indices into offsets.
* `OffsetTable.ofText`: The table of a text.
* `OffsetTable.byteAt`: The byte offset of the character with a given index.
-/

namespace YamlLocator

/-- The byte offsets of the characters of a text. -/
inductive OffsetTable where
  /-- Every character takes one byte; the text has `size` of them. -/
  | narrow (size : Nat)
  /-- Character `i` starts at byte `starts[i]`; the text has `size` bytes. -/
  | wide (starts : Array Nat) (size : Nat)

namespace OffsetTable

/-- The offsets at which the characters of a text start, if the text itself starts
    at byte `offset`. -/
def startsFrom (offset : Nat) : List Char → List Nat
  | [] => []
  | c :: rest => offset :: startsFrom (offset + c.utf8Size) rest

/-- The table that holds every start, whatever the characters are. -/
def tabulated (text : List Char) : OffsetTable :=
  .wide (startsFrom 0 text).toArray (Text.byteLength text)

/-- The table of a text. -/
def ofText (text : List Char) : OffsetTable :=
  if text.all fun c => c.val < 128 then
    .narrow text.length
  else
    tabulated text

/-- The byte offset of the character with the given index. -/
def byteAt : OffsetTable → Nat → Nat
  | .narrow size, index => min index size
  | .wide starts size, index => starts.getD index size

end OffsetTable

end YamlLocator
