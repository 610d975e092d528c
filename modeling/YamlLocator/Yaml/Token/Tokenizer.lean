import YamlLocator.Yaml.Cursor.Separation
import YamlLocator.Yaml.Layout
import YamlLocator.Yaml.Scalar.Block
import YamlLocator.Yaml.Scalar.Plain
import YamlLocator.Yaml.Scalar.Quoted
import YamlLocator.Yaml.Token.Basic

/-!
# Reading Tokens

The reader of tokens and its rounds, one for each kind of token.

Tokens cannot always be handed out as they are read. Whatever may turn out to be a
key is remembered as a candidate; if a colon follows it, a key token is put in
front of it, and perhaps the start of a mapping in front of that. So tokens wait
in a queue while one of them may still be preceded by others. Tokens are numbered in
the order in which they leave the queue, and a candidate remembers the number of
the token that it begins with.

A candidate exists on each level of flow nesting. Outside flow collections it lapses
at the end of its line and after `Candidate.reach` characters; if it stands where a
block mapping needs a key, its lapse is an error.

Some things hold for the whole reader rather than for one level: whether a mapping
in braces was opened, without regard to whether it has been closed again since, and
whether the last colon began a mapping of one pair without braces. Both are only
looked at inside flow collections.

## Main definitions

* `Candidate`: What may turn out to be a key.
* `Tokenizer`: The state of the reader.
* `Tokenizer.ofText`: The reader at the beginning of a text.
* `Tokenizer.round`: Read what comes next, which is one token except where the layout
  adds others.
-/

namespace YamlLocator

namespace Yaml

/-- What may turn out to be a key. -/
structure Candidate where
  /-- Whether a key must stand here. -/
  required : Bool
  /-- The number of the token that it begins with. -/
  number : Nat
  mark : Mark
deriving DecidableEq, Repr

namespace Candidate

/-- The number of characters that a key without a sign may take. -/
def reach : Nat := 1024

/-- Whether the candidate lies too far back to be a key. -/
def isStale (k : Candidate) (mark : Mark) : Bool :=
  k.mark.line < mark.line || k.mark.index + reach < mark.index

end Candidate

/-- The reader of tokens. -/
structure Tokenizer where
  cursor : Cursor
  /-- The tokens that were read and not handed out yet. -/
  queue : List (Placed Token)
  /-- The number of tokens handed out. -/
  delivered : Nat
  /-- Whether a key without a sign may begin here. -/
  keyAllowed : Bool
  /-- The candidate on the innermost level of flow nesting. -/
  candidate : Option Candidate
  /-- The candidates on the levels around it. -/
  outer : List (Option Candidate)
  /-- The open block collections, innermost first. -/
  levels : List Level
  /-- The index right behind the last quoted scalar or nested flow collection, where a
      colon needs nothing behind it. -/
  adjacent : Nat
  /-- Whether a flow mapping was opened. -/
  inMapping : Bool
  /-- Whether a mapping of one pair without braces is open. -/
  inPair : Bool
  /-- Whether the end of the text has been read. -/
  ended : Bool
deriving DecidableEq, Repr

namespace Tokenizer

/-- The deepest flow nesting that is read. -/
def maxFlowDepth : Nat := 255

/-- The reader at the beginning of a text. -/
def ofText (text : List Char) : Tokenizer :=
  { cursor := Cursor.ofText text
    queue := [{ item := .streamStart, mark := Mark.start }]
    delivered := 0
    keyAllowed := true
    candidate := none
    outer := []
    levels := []
    adjacent := 0
    inMapping := false
    inPair := false
    ended := false }

/-- The place that the reader has come to. -/
def mark (t : Tokenizer) : Mark := t.cursor.mark

/-- Whether the reader is inside a flow collection. -/
def inFlow (t : Tokenizer) : Bool := !t.outer.isEmpty

/-- The least column at which the contents of the open block collection may stand. -/
def margin (t : Tokenizer) : Nat := Layout.margin t.levels

/-! ### The queue -/

/-- Queue a token. -/
def push (t : Tokenizer) (token : Token) (mark : Mark) : Tokenizer :=
  { t with queue := t.queue ++ [{ item := token, mark }] }

/-- Put a token in front of the one with a given number. -/
def pushBefore (t : Tokenizer) (number : Nat) (token : Token) (mark : Mark) : Tokenizer :=
  { t with queue := t.queue.insertIdx (number - t.delivered) { item := token, mark } }

/-! ### Candidates -/

/-- Remember that a key may begin here. -/
def saveCandidate (t : Tokenizer) : Tokenizer :=
  if t.keyAllowed then
    { t with
      candidate := some
        { required := !t.inFlow && t.margin = t.mark.column + 1 && t.levels.head?.any (·.block)
          number := t.delivered + t.queue.length
          mark := t.mark } }
  else
    t

/-- Forget the candidate if it lies too far back. -/
def dropStale (t : Tokenizer) : Except SyntaxError Tokenizer :=
  match t.candidate with
  | none => .ok t
  | some k =>
    if !t.inFlow && k.isStale t.mark then
      if k.required then t.mark.refuse .colonExpected else .ok { t with candidate := none }
    else
      .ok t

/-- Forget the candidate, which must not be a key that is required. -/
def dropCandidate (t : Tokenizer) : Except SyntaxError Tokenizer :=
  if t.candidate.any (·.required) then
    t.mark.refuse .keyExpected
  else
    .ok { t with candidate := none }

/-- Allow a key without a sign to begin, or not. -/
def allowKey (t : Tokenizer) (allowed : Bool) : Tokenizer := { t with keyAllowed := allowed }

/-! ### Block levels, which do not change inside flow collections -/

/-- Close the block collections at or to the right of a column. -/
def closeTo (t : Tokenizer) (column : Nat) : Tokenizer :=
  if t.inFlow then
    t
  else
    { t with
      levels := Layout.closeTo column t.levels
      queue := t.queue ++
        List.replicate (Layout.closedTo column t.levels) { item := .blockEnd, mark := t.mark } }

/-- Open a block collection at a column, if the column is free for one, with a token in
    front of the one with a given number or else at the back of the queue. -/
def indent (t : Tokenizer) (column : Nat) (number : Option Nat) (token : Token) (mark : Mark) :
    Tokenizer :=
  if t.inFlow then
    t
  else
    let t' := { t with levels := (Layout.indent column t.levels).1 }
    if (Layout.indent column t.levels).2 then
      match number with
      | some number => t'.pushBefore number token mark
      | none => t'.push token mark
    else
      t'

/-- Lay a provisional level on top. -/
def addProvisional (t : Tokenizer) : Tokenizer :=
  if t.inFlow then t else { t with levels := Layout.addProvisional t.levels }

/-- Take the provisional levels away. -/
def dropProvisional (t : Tokenizer) : Tokenizer :=
  { t with levels := Layout.dropProvisional t.levels }

/-! ### Moves -/

/-- Go on from another place. -/
def moveTo (t : Tokenizer) (cursor : Cursor) : Tokenizer := { t with cursor }

/-- Go over what separates tokens. A line break lets a key begin outside flow
    collections. -/
def separate (t : Tokenizer) : Except SyntaxError Tokenizer := do
  let (cursor, broken) ← t.cursor.separation t.margin false
  return { t with cursor, keyAllowed := t.keyAllowed || (broken && !t.inFlow) }

/-- Go over the sign of a token and the blanks and the comment behind it. -/
def passSign (t : Tokenizer) : Except SyntaxError Tokenizer := do
  return t.moveTo (← (t.cursor.advance 1).lineRest)

/-! ### The end of the text, documents and directives -/

/-- End the document: close every block collection. -/
def endDocument (t : Tokenizer) : Except SyntaxError Tokenizer := do
  return (← (t.closeTo 0).dropCandidate).allowKey false

/-- The place behind the last line, which counts as the beginning of a line. -/
def afterLastLine (c : Cursor) : Cursor :=
  if c.column = 0 then
    c
  else
    { c with mark := { c.mark with line := c.mark.line + 1, column := 0 } }

/-- The end of the text. -/
def streamEnd (t : Tokenizer) : Except SyntaxError Tokenizer := do
  let t := t.moveTo (afterLastLine t.cursor)
  if (t.candidate :: t.outer).any fun candidate => candidate.any (·.required) then
    t.mark.refuse .keyExpected
  else
    let t ← endDocument { t with candidate := none, outer := t.outer.map fun _ => none }
    return { t.push .streamEnd t.mark with ended := true }

/-- A directive. -/
def directive (t : Tokenizer) : Except SyntaxError Tokenizer := do
  let t' ← t.endDocument
  let (directive, cursor) ← Directive.readDirective t'.cursor
  return (t'.moveTo cursor).push (.directive directive) t.mark

/-- A marker between documents. -/
def documentMark (t : Tokenizer) (token : Token) : Except SyntaxError Tokenizer := do
  let t' ← t.endDocument
  return (t'.moveTo (t'.cursor.advance 3)).push token t.mark

/-- The marker behind a document, which nothing but a comment may follow. -/
def documentEnd (t : Tokenizer) : Except SyntaxError Tokenizer := do
  let t ← t.documentMark .documentEnd
  let cursor ← t.cursor.lineRest
  if isLineEnd cursor.peek then
    return t.moveTo cursor
  else
    cursor.mark.refuse .contentAfterDocumentEnd

/-! ### Flow collections -/

/-- The opening bracket of a flow collection. -/
def flowStart (t : Tokenizer) (token : Token) : Except SyntaxError Tokenizer := do
  let t' := t.saveCandidate.addProvisional
  if t'.outer.length = maxFlowDepth then
    t'.mark.refuse .nestingTooDeep
  else
    let t' := { t' with
      candidate := none
      outer := t'.candidate :: t'.outer
      keyAllowed := true
      inMapping := t'.inMapping || decide (token = Token.flowMappingStart) }
    return (← t'.passSign).push token t.mark

/-- The level of flow nesting around this one; outside flow collections there is none. -/
def leaveFlow (t : Tokenizer) : Tokenizer :=
  match t.outer with
  | [] => t
  | candidate :: outer => { t with candidate, outer }

/-- End a mapping of one pair without braces, if one is open. -/
def endPair (t : Tokenizer) : Tokenizer :=
  if t.inPair then
    { t.push .flowMappingEnd t.mark with inPair := false, inMapping := false }
  else
    t

/-- The closing bracket of a flow collection. -/
def flowEnd (t : Tokenizer) (token : Token) : Except SyntaxError Tokenizer := do
  let t' ← (((← t.dropCandidate).leaveFlow.allowKey false).endPair).passSign
  return { t' with adjacent := if t'.inFlow then t'.mark.index else t'.adjacent }.push token t.mark

/-- A comma. -/
def flowEntry (t : Tokenizer) : Except SyntaxError Tokenizer := do
  return (← ((← t.dropCandidate).allowKey true).endPair.passSign).push .flowEntry t.mark

/-! ### Entries, keys and values -/

/-- The place of a property in the first column that the queue ends with. -/
def lastProperty? (t : Tokenizer) : Option Mark :=
  match t.queue.getLast? with
  | some { item := .anchor _, mark } => if mark.column = 0 then some mark else none
  | some { item := .tag _, mark } => if mark.column = 0 then some mark else none
  | _ => none

/-- Whether a tab and then another entry follow the sign of an entry. -/
def entryAfterTab (c : Cursor) : Bool :=
  (c.rest.takeWhile isBlank).contains '\t' && c.lineTail.peek = '-' && isGap (c.lineTail.peekAt 1)

/-- A property in the first column may not stand in front of an entry there. -/
def checkProperty (t : Tokenizer) : Except SyntaxError Unit :=
  match t.lastProperty? with
  | some mark =>
    if t.mark.column = 0 ∧ t.levels ≠ [] then
      mark.refuse .wrongPropertyIndentation
    else
      .ok ()
  | none => .ok ()

/-- An entry of a block sequence whose contents begin at a cursor. -/
def blockEntryAt (t : Tokenizer) (cursor : Cursor) : Except SyntaxError Tokenizer := do
  let t₁ := (t.indent t.mark.column none .blockSequenceStart t.mark).moveTo cursor
  let t₂ := if isBreak cursor.peek || isFlow cursor.peek then t₁.addProvisional else t₁
  return ((← t₂.dropCandidate).allowKey true).push .blockEntry cursor.mark

/-- An entry of a block sequence. -/
def blockEntry (t : Tokenizer) : Except SyntaxError Tokenizer :=
  if t.inFlow then
    t.mark.refuse .entryInFlow
  else if !t.keyAllowed then
    t.mark.refuse .entryNotAllowed
  else do
    t.checkProperty
    let cursor ← (t.cursor.advance 1).lineRest
    if entryAfterTab (t.cursor.advance 1) then
      cursor.mark.refuse .entryNeedsWhitespace
    else
      t.blockEntryAt cursor

/-- The sign of a key. -/
def explicitKey (t : Tokenizer) : Except SyntaxError Tokenizer := do
  if !t.inFlow && !t.keyAllowed then
    t.mark.refuse .keyNotAllowed
  else
    let t' := t.indent t.mark.column none .blockMappingStart t.mark
    let t' := { t' with inMapping := t'.inMapping || t'.inFlow }
    let t' := (← t'.dropCandidate).allowKey !t.inFlow
    let cursor ← (t'.cursor.advance 1).keySeparation
    return (t'.moveTo cursor).push .key t.mark

/-- Go over a colon. A tab behind it must not be all that separates it from a word. -/
def passColon (c : Cursor) : Except SyntaxError Cursor :=
  let behind := c.advance 1
  if behind.peek = '\t' then do
    let rest ← behind.lineRest
    if !(behind.rest.takeWhile isBlank).contains ' ' && isWord rest.peek then
      rest.mark.refuse .valueNeedsWhitespace
    else
      return rest
  else
    .ok behind

/-- Begin a mapping of one pair in front of a key, if the colon calls for one. -/
def startPair (t : Tokenizer) (k : Candidate) (colon : Mark) : Except SyntaxError Tokenizer :=
  if t.inPair then
    if k.mark.line < colon.line then
      colon.refuse .misplacedColon
    else
      .ok (t.pushBefore k.number .flowMappingStart t.mark)
  else
    .ok t

/-- The colon behind a candidate, which is now known to be a key. -/
def valueOf (t : Tokenizer) (k : Candidate) (colon : Mark) : Except SyntaxError Tokenizer := do
  let t₁ ← (t.pushBefore k.number .key k.mark).startPair k colon
  let t₂ := (t₁.indent k.mark.column (some k.number) .blockMappingStart colon).addProvisional
  return ({ t₂ with candidate := none }.allowKey false).push .value colon

/-- Begin a mapping of one pair without a key, if the colon calls for one. -/
def startKeylessPair (t : Tokenizer) : Tokenizer :=
  if t.inPair then t.push .flowMappingStart t.mark else t

/-- A colon that no candidate stands in front of. -/
def valueAlone (t : Tokenizer) (colon : Mark) : Except SyntaxError Tokenizer :=
  if !t.inFlow && !t.keyAllowed then
    colon.refuse .valueNotAllowed
  else
    let t' := t.startKeylessPair.indent colon.column none .blockMappingStart colon
    .ok ((t'.addProvisional.allowKey !t.inFlow).push .value colon)

/-- A colon. -/
def value (t : Tokenizer) : Except SyntaxError Tokenizer := do
  let cursor ← passColon t.cursor
  let t' := { t with cursor, inPair := t.inFlow && !t.inMapping }
  match t.candidate with
  | some k => t'.valueOf k t.mark
  | none => t'.valueAlone t.mark

/-! ### Nodes -/

/-- An alias or an anchor. -/
def named (t : Tokenizer) (token : String → Token) : Except SyntaxError Tokenizer := do
  let t' := t.saveCandidate.allowKey false
  let (name, cursor) ← Property.readName t.cursor
  return (t'.moveTo cursor).push (token name) t.mark

/-- A tag. -/
def tag (t : Tokenizer) : Except SyntaxError Tokenizer := do
  let t' := t.saveCandidate.allowKey false
  let (tag, cursor) ← Property.readTag t.inFlow t.cursor
  return (t'.moveTo cursor).push (.tag tag) t.mark

/-- A block scalar. -/
def blockScalar (t : Tokenizer) (style : ScalarStyle) : Except SyntaxError Tokenizer := do
  let t' := (t.saveCandidate.allowKey true).dropProvisional
  let scalar ← Block.readBlock (style = .folded) t'.margin t.cursor
  return (t'.moveTo scalar.behind).push (.scalar style (String.ofList scalar.text)) scalar.mark

/-- Whether a quoted scalar that began on a line may be followed by what is next. -/
def endsQuoted (inFlow : Bool) (line : Nat) (c : Cursor) : Bool :=
  isLineEnd c.peek
    || (c.peek = ':' && (inFlow || line = c.mark.line))
    || (inFlow && (c.peek = ',' || c.peek = '}' || c.peek = ']'))

/-- A quoted scalar. What follows it is looked for beyond the end of the line. -/
def quotedScalar (t : Tokenizer) (quotes : Quoted.Quotes) (style : ScalarStyle) :
    Except SyntaxError Tokenizer := do
  let t' := t.saveCandidate.allowKey false
  let (text, closed) ←
    Quoted.readQuoted quotes t.margin t.mark [] .none (t.cursor.advance 1)
  let behind ← closed.lineRest
  if endsQuoted t.inFlow t.mark.line behind then
    let t' ← (t'.moveTo behind).separate
    return { t' with adjacent := t'.mark.index }.push
      (.scalar style (String.ofList text.reverse)) t.mark
  else
    behind.mark.refuse .contentAfterQuoted

/-- A plain scalar. -/
def plainScalar (t : Tokenizer) : Except SyntaxError Tokenizer := do
  let t' := (t.saveCandidate.allowKey false).dropProvisional
  if t.inFlow && t.mark.column < t'.margin then
    t.mark.refuse .wrongFlowIndentation
  else if Plain.atFlowDash t.inFlow t.cursor then
    t.mark.refuse .plainStartsWithDash
  else
    let (text, cursor) ← Plain.readPlain t.inFlow t'.margin t.mark [t.cursor.peek] .none
      (t.cursor.advance 1)
    return ((t'.moveTo cursor).allowKey cursor.indenting).push
      (.scalar .plain (String.ofList text.reverse)) t.mark

/-! ### Rounds -/

/-- Whether a colon is next that stands in front of a value. -/
def atValue (t : Tokenizer) : Bool :=
  isGap (t.cursor.peekAt 1)
    || (t.inFlow && (isFlow (t.cursor.peekAt 1) || t.mark.index = t.adjacent))

/-- What a round can find. -/
inductive Upcoming where
  | streamEnd
  | directive
  | documentStart
  | documentEnd
  | flowStart (token : Token)
  | flowEnd (token : Token)
  | flowEntry
  | blockEntry
  | explicitKey
  | value
  | alias
  | anchor
  | tag
  | blockScalar (style : ScalarStyle)
  | quotedScalar (quotes : Quoted.Quotes) (style : ScalarStyle)
  | plainScalar
  /-- Something that no token can begin with here. -/
  | refused (fault : Fault)
deriving DecidableEq, Repr

/-- What an indicator means that stands where a token begins. -/
def indicated (t : Tokenizer) (next : Char) (spaced : Bool) : Upcoming :=
  match next with
  | '[' => .flowStart .flowSequenceStart
  | '{' => .flowStart .flowMappingStart
  | ']' => .flowEnd .flowSequenceEnd
  | '}' => .flowEnd .flowMappingEnd
  | ',' => .flowEntry
  | '-' => if spaced then .blockEntry else .plainScalar
  | '?' => if spaced then .explicitKey else .plainScalar
  | ':' => if t.atValue then .value else .plainScalar
  | '*' => .alias
  | '&' => .anchor
  | '!' => .tag
  | '|' => if t.inFlow then .plainScalar else .blockScalar .literal
  | '>' => if t.inFlow then .plainScalar else .blockScalar .folded
  | '\'' => .quotedScalar .single .singleQuoted
  | '"' => .quotedScalar .double .doubleQuoted
  | '%' => .refused (.unexpectedCharacter next)
  | '@' => .refused (.unexpectedCharacter next)
  | '`' => .refused (.unexpectedCharacter next)
  | _ => .plainScalar

/-- What is next. -/
def upcoming (t : Tokenizer) : Upcoming :=
  if isEnd t.cursor.peek then .streamEnd
  else if t.mark.column = 0 ∧ t.cursor.peek = '%' then .directive
  else if t.cursor.atSign '-' then .documentStart
  else if t.cursor.atSign '.' then .documentEnd
  else if t.mark.column + 1 < t.margin then .refused .wrongIndentation
  else t.indicated t.cursor.peek (isGap (t.cursor.peekAt 1))

/-- Read the token that is next. -/
def token (t : Tokenizer) : Except SyntaxError Tokenizer :=
  match t.upcoming with
  | .streamEnd => t.streamEnd
  | .directive => t.directive
  | .documentStart => t.documentMark .documentStart
  | .documentEnd => t.documentEnd
  | .flowStart token => t.flowStart token
  | .flowEnd token => t.flowEnd token
  | .flowEntry => t.flowEntry
  | .blockEntry => t.blockEntry
  | .explicitKey => t.explicitKey
  | .value => t.value
  | .alias => t.named .alias
  | .anchor => t.named .anchor
  | .tag => t.tag
  | .blockScalar style => t.blockScalar style
  | .quotedScalar quotes style => t.quotedScalar quotes style
  | .plainScalar => t.plainScalar
  | .refused fault => t.mark.refuse fault

/-- Read what comes next: go to the next token, close the block collections that end in
    front of it, and read it. -/
def round (t : Tokenizer) : Except SyntaxError Tokenizer := do
  let t ← (← t.separate).dropStale
  (t.closeTo (t.mark.column + 1)).token

end Tokenizer

end Yaml

end YamlLocator
