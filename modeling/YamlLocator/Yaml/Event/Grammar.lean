import YamlLocator.Yaml.Event.Basic
import YamlLocator.Yaml.Token.Stream

/-!
# The Grammar of Documents

From tokens to events. The reader keeps an agenda of what is still expected, the next
expectation first, and in each step fulfils the first one: it takes some tokens, gives
exactly one event, and may put further expectations in its place.

Only the first document of a stream is read. Behind it the reader looks at one more
token, to see that the document really ends there.

## Where nodes are missing

Keys, values and entries may be left out, and then stand for an empty plain scalar. It
is placed at the token that is found instead, except that a value left out in a flow
mapping is placed at its colon.

## What is looked at

A step looks no further than it has to, because looking at a token is what brings an
error in the text to light. The place that the tokenizer has come to for the last token
looked at is kept as well: it is where a pair without braces in a flow sequence ends.

## Main definitions

* `Production`: Something that is expected.
* `Derivation`: Where the reading of a document stands.
* `Derivation.node`: A node with its properties.
* `Derivation.fulfil`: Fulfil an expectation.
-/

namespace YamlLocator

namespace Yaml

/-- Something that is expected to follow. -/
inductive Production where
  /-- The beginning of the stream. -/
  | stream
  /-- The beginning of a document, or the end of the stream. -/
  | document
  /-- The contents of a document behind its marker. -/
  | content
  /-- The contents of a document without a marker. -/
  | root
  | documentEnd
  /-- A key of a block mapping, or its end. -/
  | blockKey
  | blockValue
  /-- The value of a block mapping behind the colon that has been taken. -/
  | blockColon
  /-- An entry of a block sequence, or its end. -/
  | blockEntry
  /-- An entry of a sequence that is not indented against its mapping, or its end. -/
  | levelEntry
  /-- A key of a flow mapping, or its end, behind the separator unless it is the first
      one. -/
  | flowKey (first : Bool)
  | flowValue
  /-- The value of a flow mapping behind the colon that has been taken. -/
  | flowColon (colon : Mark)
  /-- The value that a key without a sign and a colon does not have. -/
  | flowNoValue
  /-- An entry of a flow sequence, or its end, behind the separator unless it is the first
      one. -/
  | flowEntry (first : Bool)
  /-- The parts of a pair without braces in a flow sequence. -/
  | pairKey
  | pairValue
  | pairEnd
deriving DecidableEq, Repr

/-- Where the reading of a document stands. -/
structure Derivation where
  /-- The tokens that have not been taken. -/
  tokens : List Delivered
  /-- The error behind the tokens. -/
  error : SyntaxError
  /-- The place that the tokenizer has come to for the last token looked at. -/
  reached : Mark
  /-- What is still expected, the next expectation first. -/
  agenda : List Production
  /-- The anchors met so far. -/
  anchors : List String
  /-- The tag handle declared for the document. -/
  handle : Option String
deriving DecidableEq, Repr

namespace Derivation

/-- The beginning of the reading of a stream. -/
def ofStream (stream : TokenStream) : Derivation :=
  { tokens := stream.tokens
    error := stream.error
    reached := Mark.start
    agenda := [.stream]
    anchors := []
    handle := none }

/-- What a step gives: an event, and where the reading stands behind it. -/
abbrev Step := Except SyntaxError (Placed Event × Derivation)

/-- The next token. -/
def peek (d : Derivation) : Except SyntaxError (Delivered × Derivation) :=
  match d.tokens with
  | [] => .error d.error
  | token :: _ => .ok (token, { d with reached := token.reached })

/-- Take the next token. -/
def skip (d : Derivation) : Derivation := { d with tokens := d.tokens.tail }

/-- Give an event, and go on with an agenda. -/
def emit (d : Derivation) (event : Event) (mark : Mark) (agenda : List Production) : Step :=
  .ok ({ item := event, mark }, { d with agenda })

/-! ### Nodes -/

/-- Remember an anchor. -/
def addAnchor (d : Derivation) (name : String) : Derivation :=
  { d with anchors := name :: d.anchors }

/-- The handle of a tag must be declared if it has a name. -/
def checkHandle (d : Derivation) (tag : Tag) (mark : Mark) : Except SyntaxError Unit :=
  if Property.isNamedHandle tag.handle.toList ∧ tag.handle ≠ "!!" ∧ d.handle ≠ some tag.handle then
    mark.refuse .undeclaredHandle
  else
    .ok ()

/-- The kinds of node that may stand somewhere beside scalars and flow collections. -/
structure Place where
  /-- Block collections may stand here. -/
  block : Bool
  /-- Entries of a sequence may stand here without being indented. -/
  level : Bool
deriving DecidableEq, Repr

/-- The place of an entry of a block sequence or of the contents of a document. -/
def Place.inBlock : Place := { block := true, level := false }

/-- The place of a key or a value in a block mapping. -/
def Place.inBlockMapping : Place := { block := true, level := true }

/-- The places in flow collections. -/
def Place.inFlow : Place := { block := false, level := false }

/-- A node that is left out, which only properties can stand for. -/
def leftOut (d : Derivation) (adorned : Bool) (mark : Mark) (rest : List Production) : Step :=
  if adorned then d.emit .emptyScalar mark rest else mark.refuse .nodeExpected

/-- A node behind its properties, if it has any. -/
def unadorned (d : Derivation) (place : Place) (adorned : Bool) (rest : List Production) :
    Step := do
  let (next, d) ← d.peek
  match next.item with
  | .scalar style text => d.skip.emit (.scalar style text) next.mark rest
  | .flowSequenceStart => d.skip.emit .sequenceStart next.mark (.flowEntry true :: rest)
  | .flowMappingStart => d.skip.emit .mappingStart next.mark (.flowKey true :: rest)
  | .blockEntry =>
    if place.level then
      d.emit .sequenceStart next.mark (.levelEntry :: rest)
    else
      d.leftOut adorned next.mark rest
  | .blockSequenceStart =>
    if place.block then
      d.skip.emit .sequenceStart next.mark (.blockEntry :: rest)
    else
      d.leftOut adorned next.mark rest
  | .blockMappingStart =>
    if place.block then
      d.skip.emit .mappingStart next.mark (.blockKey :: rest)
    else
      d.leftOut adorned next.mark rest
  | _ => d.leftOut adorned next.mark rest

/-- A node behind an anchor, which a tag may follow. -/
def anchored (d : Derivation) (place : Place) (mark : Mark) (rest : List Production) : Step := do
  let (next, d) ← d.peek
  match next.item with
  | .tag tag => do
    d.checkHandle tag mark
    d.skip.unadorned place true rest
  | _ => d.unadorned place true rest

/-- A node behind a tag, which an anchor may follow. -/
def tagged (d : Derivation) (place : Place) (rest : List Production) : Step := do
  let (next, d) ← d.peek
  match next.item with
  | .anchor name => (d.skip.addAnchor name).unadorned place true rest
  | _ => d.unadorned place true rest

/-- A node. -/
def node (d : Derivation) (place : Place) (rest : List Production) : Step := do
  let (next, d) ← d.peek
  match next.item with
  | .alias name =>
    if d.anchors.contains name then
      d.skip.emit .alias next.mark rest
    else
      next.mark.refuse .unknownAnchor
  | .anchor name => (d.skip.addAnchor name).anchored place next.mark rest
  | .tag tag => do
    d.checkHandle tag next.mark
    d.skip.tagged place rest
  | _ => d.unadorned place false rest

/-- A node, or an empty scalar in front of a token that shows that the node is left out. -/
def nodeUnless (d : Derivation) (isLeftOut : Token → Bool) (place : Place)
    (rest : List Production) : Step := do
  let (next, d) ← d.peek
  if isLeftOut next.item then
    d.emit .emptyScalar next.mark rest
  else
    d.node place rest

/-! ### Documents -/

/-- Whether a token is a directive. -/
def isDirective : Token → Bool
  | .directive _ => true
  | _ => false

/-- Whether a token is a version directive. -/
def isVersion : Token → Bool
  | .directive (.version ..) => true
  | _ => false

/-- The tag handle that a directive declares. -/
def declaredHandle? : Token → Option String
  | .directive (.tag handle _) => some handle
  | _ => none

/-- The directives that are next. -/
def directives (d : Derivation) : List Delivered := d.tokens.takeWhile (isDirective ·.item)

/-- Take the directives in front of a document. There may be one version, and only the
    last directive can declare a handle. -/
def passDirectives (d : Derivation) : Except SyntaxError Derivation :=
  match d.directives.filter (isVersion ·.item) with
  | _ :: second :: _ => second.mark.refuse .duplicateVersion
  | _ =>
    .ok { d with
      tokens := d.tokens.dropWhile (isDirective ·.item)
      handle := d.directives.getLast?.bind (declaredHandle? ·.item) }

/-- The beginning of a stream. -/
def stream (d : Derivation) (rest : List Production) : Step := do
  let (next, d) ← d.peek
  d.skip.emit .streamStart next.mark (.document :: rest)

/-- A document that is announced by directives or by its marker. -/
def announced (d : Derivation) (rest : List Production) : Step := do
  let (next, d) ← (← d.passDirectives).peek
  if next.item = .documentStart then
    d.skip.emit .documentStart next.mark (.content :: .documentEnd :: rest)
  else
    next.mark.refuse .documentStartExpected

/-- The beginning of a document, or the end of the stream. -/
def document (d : Derivation) (rest : List Production) : Step := do
  let (next, d) ← { d with tokens := d.tokens.dropWhile (·.item = Token.documentEnd) }.peek
  match next.item with
  | .streamEnd => d.skip.emit .streamEnd next.mark rest
  | .directive _ => d.announced rest
  | .documentStart => d.announced rest
  | _ => d.emit .documentStart next.mark (.root :: .documentEnd :: rest)

/-- Whether a document is over in front of a token. -/
def endsDocument : Token → Bool
  | .directive _ => true
  | .documentStart => true
  | .documentEnd => true
  | .streamEnd => true
  | _ => false

/-- The end of a document. A directive behind it needs a marker in between. -/
def documentEnd (d : Derivation) (rest : List Production) : Step := do
  let (next, d) ← d.peek
  match next.item with
  | .documentEnd => d.skip.emit .documentEnd next.mark rest
  | .directive _ => next.mark.refuse .documentEndExpected
  | _ => d.emit .documentEnd next.mark rest

/-! ### Block collections -/

/-- Whether a key or a value of a block mapping is left out in front of a token. -/
def endsBlockPart : Token → Bool
  | .key => true
  | .value => true
  | .blockEnd => true
  | _ => false

/-- Whether an entry of a block sequence is left out in front of a token. -/
def endsBlockEntry : Token → Bool
  | .blockEntry => true
  | .blockEnd => true
  | _ => false

/-- Whether an entry of a sequence that is not indented is left out in front of a token. -/
def endsLevelEntry : Token → Bool
  | .blockEntry => true
  | .key => true
  | .value => true
  | .blockEnd => true
  | _ => false

/-- A key of a block mapping, or its end. -/
def blockKey (d : Derivation) (rest : List Production) : Step := do
  let (next, d) ← d.peek
  match next.item with
  | .key => d.skip.nodeUnless endsBlockPart .inBlockMapping (.blockValue :: rest)
  | .value => d.skip.emit .emptyScalar next.mark (.blockColon :: rest)
  | .blockEnd => d.skip.emit .mappingEnd next.mark rest
  | _ => next.mark.refuse .blockKeyExpected

/-- The value of a block mapping behind its colon. -/
def blockColon (d : Derivation) (rest : List Production) : Step :=
  d.nodeUnless endsBlockPart .inBlockMapping (.blockKey :: rest)

/-- A value of a block mapping, with its colon if it has one. -/
def blockValue (d : Derivation) (rest : List Production) : Step := do
  let (next, d) ← d.peek
  match next.item with
  | .value => d.skip.blockColon rest
  | _ => d.emit .emptyScalar next.mark (.blockKey :: rest)

/-- An entry of a block sequence, or its end. -/
def blockEntry (d : Derivation) (rest : List Production) : Step := do
  let (next, d) ← d.peek
  match next.item with
  | .blockEntry => d.skip.nodeUnless endsBlockEntry .inBlock (.blockEntry :: rest)
  | .blockEnd => d.skip.emit .sequenceEnd next.mark rest
  | _ => next.mark.refuse .blockEntryExpected

/-- An entry of a sequence that is not indented, or its end. -/
def levelEntry (d : Derivation) (rest : List Production) : Step := do
  let (next, d) ← d.peek
  match next.item with
  | .blockEntry => d.skip.nodeUnless endsLevelEntry .inBlock (.levelEntry :: rest)
  | _ => d.emit .sequenceEnd next.mark rest

/-! ### Flow collections -/

/-- Whether a key of a flow mapping is left out in front of a token. -/
def endsFlowKey : Token → Bool
  | .value => true
  | .flowEntry => true
  | .flowMappingEnd => true
  | _ => false

/-- Whether a value of a flow mapping is left out in front of a token. -/
def endsFlowValue : Token → Bool
  | .flowEntry => true
  | .flowMappingEnd => true
  | _ => false

/-- Whether a part of a pair in a flow sequence is left out in front of a token. -/
def endsPairValue : Token → Bool
  | .flowEntry => true
  | .flowSequenceEnd => true
  | _ => false

/-- A key of a flow mapping, or its end, which is placed at a mark. -/
def flowKeyAt (d : Derivation) (mark : Mark) (rest : List Production) : Step := do
  let (next, d) ← d.peek
  match next.item with
  | .key => d.skip.nodeUnless endsFlowKey .inFlow (.flowValue :: rest)
  | .value => d.skip.emit .emptyScalar next.mark (.flowColon next.mark :: rest)
  | .flowMappingEnd => d.skip.emit .mappingEnd mark rest
  | _ => d.node .inFlow (.flowNoValue :: rest)

/-- A key of a flow mapping with the separator in front of it, or the end of the
    mapping. -/
def flowKey (d : Derivation) (first : Bool) (rest : List Production) : Step := do
  let (next, d) ← d.peek
  if first ∨ next.item = .flowMappingEnd then
    d.flowKeyAt next.mark rest
  else if next.item = .flowEntry then
    d.skip.flowKeyAt next.mark rest
  else
    next.mark.refuse .flowMappingSeparatorExpected

/-- The value of a flow mapping behind its colon. -/
def flowColon (d : Derivation) (colon : Mark) (rest : List Production) : Step := do
  let (next, d) ← d.peek
  if endsFlowValue next.item then
    d.emit .emptyScalar colon (.flowKey false :: rest)
  else
    d.node .inFlow (.flowKey false :: rest)

/-- A value of a flow mapping, with its colon if it has one. -/
def flowValue (d : Derivation) (rest : List Production) : Step := do
  let (next, d) ← d.peek
  match next.item with
  | .value => d.skip.flowColon next.mark rest
  | _ => d.emit .emptyScalar next.mark (.flowKey false :: rest)

/-- The value that a key of a flow mapping does not have. -/
def flowNoValue (d : Derivation) (rest : List Production) : Step := do
  let (next, d) ← d.peek
  d.emit .emptyScalar next.mark (.flowKey false :: rest)

/-- An entry of a flow sequence, or its end. -/
def flowEntryAt (d : Derivation) (rest : List Production) : Step := do
  let (next, d) ← d.peek
  match next.item with
  | .flowSequenceEnd => d.skip.emit .sequenceEnd next.mark rest
  | .key => d.skip.emit .mappingStart next.mark (.pairKey :: .flowEntry false :: rest)
  | _ => d.node .inFlow (.flowEntry false :: rest)

/-- An entry of a flow sequence with the separator in front of it, or the end of the
    sequence. -/
def flowEntry (d : Derivation) (first : Bool) (rest : List Production) : Step := do
  let (next, d) ← d.peek
  if first ∨ next.item = .flowSequenceEnd then
    d.flowEntryAt rest
  else if next.item = .flowEntry then
    d.skip.flowEntryAt rest
  else
    next.mark.refuse .flowSequenceSeparatorExpected

/-- The key of a pair in a flow sequence. A token in its place is taken, be it a colon. -/
def pairKey (d : Derivation) (rest : List Production) : Step := do
  let (next, d) ← d.peek
  if next.item = .value ∨ endsPairValue next.item then
    d.skip.emit .emptyScalar next.mark (.pairValue :: rest)
  else
    d.node .inFlow (.pairValue :: rest)

/-- The value of a pair in a flow sequence. -/
def pairValue (d : Derivation) (rest : List Production) : Step := do
  let (next, d) ← d.peek
  match next.item with
  | .value => d.skip.nodeUnless endsPairValue .inFlow (.pairEnd :: rest)
  | _ => d.emit .emptyScalar next.mark (.pairEnd :: rest)

/-- The end of a pair in a flow sequence. -/
def pairEnd (d : Derivation) (rest : List Production) : Step := d.emit .mappingEnd d.reached rest

/-! ### Steps -/

/-- Fulfil an expectation; `rest` is expected behind it. -/
def fulfil (d : Derivation) (rest : List Production) : Production → Step
  | .stream => d.stream rest
  | .document => d.document rest
  | .content => d.nodeUnless endsDocument .inBlock rest
  | .root => d.node .inBlock rest
  | .documentEnd => d.documentEnd rest
  | .blockKey => d.blockKey rest
  | .blockValue => d.blockValue rest
  | .blockColon => d.blockColon rest
  | .blockEntry => d.blockEntry rest
  | .levelEntry => d.levelEntry rest
  | .flowKey first => d.flowKey first rest
  | .flowValue => d.flowValue rest
  | .flowColon colon => d.flowColon colon rest
  | .flowNoValue => d.flowNoValue rest
  | .flowEntry first => d.flowEntry first rest
  | .pairKey => d.pairKey rest
  | .pairValue => d.pairValue rest
  | .pairEnd => d.pairEnd rest

end Derivation

end Yaml

end YamlLocator
