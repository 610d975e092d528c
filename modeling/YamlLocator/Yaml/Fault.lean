import YamlLocator.Yaml.Mark

/-!
# What Can Be Wrong with a YAML Text

The causes for which a text is refused, and the wording of each. The first cause
met ends the reading, so an error is one cause together with one mark.

Causes are grouped by the part of the language that they concern: layout and
simple keys, block and flow structure, scalars, node properties, directives, and
finally the order in which tokens may follow one another.

## Main definitions

* `Fault`: A cause for refusing a text.
* `Fault.message`: Its wording.
* `SyntaxError`: A cause and the place that it is reported for.
-/

namespace YamlLocator

namespace Yaml

/-- A cause for refusing a text. -/
inductive Fault where
  -- Layout and simple keys.
  | colonExpected
  | keyExpected
  | wrongIndentation
  | unexpectedCharacter (c : Char)
  | unseparatedComment
  | tabInBlockIndentation
  | tabAfterKey
  | whitespaceExpected
  | contentAfterDocumentEnd
  -- Block and flow structure.
  | nestingTooDeep
  | entryInFlow
  | entryNotAllowed
  | wrongPropertyIndentation
  | entryNeedsWhitespace
  | keyNotAllowed
  | valueNotAllowed
  | valueNeedsWhitespace
  | misplacedColon
  -- Plain scalars.
  | wrongFlowIndentation
  | plainStartsWithDash
  | tabInPlain
  -- Quoted scalars.
  | documentMarkInQuoted
  | endInQuoted
  | wrongQuotedIndentation
  | tabInQuotedIndentation
  | hexDigitExpected
  | invalidEscapeCode
  | unknownEscape
  | contentAfterQuoted
  -- Block scalars.
  | zeroIndentationIndicator
  | blockHeaderNotEnded
  | tabBeforeBlockContent
  | wrongBlockIndentation
  -- Anchors, aliases and tags.
  | anchorNameExpected
  | verbatimTagNotEnded
  | tagSuffixExpected
  | tagNotEnded
  | escapedOctetExpected
  | wrongLeadingOctet
  | wrongTrailingOctet
  | invalidEscapedCharacter
  -- Directives.
  | directiveNameExpected
  | directiveNameNotEnded
  | versionTooLong
  | versionExpected
  | versionPointExpected
  | tagHandleExpected
  | tagHandleNotEnded
  | invalidTagStart
  | tagDirectiveNotEnded
  | directiveNotEnded
  -- The order of tokens.
  | duplicateVersion
  | documentStartExpected
  | documentEndExpected
  | unknownAnchor
  | undeclaredHandle
  | nodeExpected
  | blockKeyExpected
  | blockEntryExpected
  | flowMappingSeparatorExpected
  | flowSequenceSeparatorExpected
  | unexpectedEnd
deriving DecidableEq, Repr

/-- The wording of a cause. -/
def Fault.message : Fault → String
  | colonExpected => "simple key expect ':'"
  | keyExpected => "simple key expected"
  | wrongIndentation => "invalid indentation"
  | unexpectedCharacter c => "unexpected character: `" ++ c.toString ++ "'"
  | unseparatedComment => "comments must be separated from other tokens by whitespace"
  | tabInBlockIndentation => "tabs disallowed within this context (block indentation)"
  | tabAfterKey => "tabs disallowed in this context"
  | whitespaceExpected => "expected whitespace"
  | contentAfterDocumentEnd => "invalid content after document end marker"
  | nestingTooDeep => "recursion limit exceeded"
  | entryInFlow => "\"-\" is only valid inside a block"
  | entryNotAllowed => "block sequence entries are not allowed in this context"
  | wrongPropertyIndentation => "invalid indentation for anchor"
  | entryNeedsWhitespace => "'-' must be followed by a valid YAML whitespace"
  | keyNotAllowed => "mapping keys are not allowed in this context"
  | valueNotAllowed => "mapping values are not allowed in this context"
  | valueNeedsWhitespace => "':' must be followed by a valid YAML whitespace"
  | misplacedColon => "illegal placement of ':' indicator"
  | wrongFlowIndentation => "invalid indentation in flow construct"
  | plainStartsWithDash => "plain scalar cannot start with '-' followed by ,[]\x7b\x7d"
  | tabInPlain => "while scanning a plain scalar, found a tab"
  | documentMarkInQuoted =>
    "while scanning a quoted scalar, found unexpected document indicator"
  | endInQuoted => "while scanning a quoted scalar, found unexpected end of stream"
  | wrongQuotedIndentation => "invalid indentation in quoted scalar"
  | tabInQuotedIndentation => "tab cannot be used as indentation"
  | hexDigitExpected =>
    "while parsing a quoted scalar, did not find expected hexadecimal number"
  | invalidEscapeCode =>
    "while parsing a quoted scalar, found invalid Unicode character escape code"
  | unknownEscape => "while parsing a quoted scalar, found unknown escape character"
  | contentAfterQuoted => "invalid trailing content after double-quoted scalar"
  | zeroIndentationIndicator =>
    "while scanning a block scalar, found an indentation indicator equal to 0"
  | blockHeaderNotEnded =>
    "while scanning a block scalar, did not find expected comment or line break"
  | tabBeforeBlockContent => "a block scalar content cannot start with a tab"
  | wrongBlockIndentation => "wrongly indented line in block scalar"
  | anchorNameExpected =>
    "while scanning an anchor or alias, did not find expected alphabetic or numeric character"
  | verbatimTagNotEnded => "while scanning a verbatim tag, did not find the expected '>'"
  | tagSuffixExpected => "while parsing a tag, did not find expected tag URI"
  | tagNotEnded => "while scanning a tag, did not find expected whitespace or line break"
  | escapedOctetExpected => "while parsing a tag, did not find URI escaped octet"
  | wrongLeadingOctet => "while parsing a tag, found an incorrect leading UTF-8 octet"
  | wrongTrailingOctet => "while parsing a tag, found an incorrect trailing UTF-8 octet"
  | invalidEscapedCharacter => "while parsing a tag, found an invalid UTF-8 codepoint"
  | directiveNameExpected =>
    "while scanning a directive, could not find expected directive name"
  | directiveNameNotEnded =>
    "while scanning a directive, found unexpected non-alphabetical character"
  | versionTooLong =>
    "while scanning a YAML directive, found extremely long version number"
  | versionExpected =>
    "while scanning a YAML directive, did not find expected version number"
  | versionPointExpected =>
    "while scanning a YAML directive, did not find expected digit or '.' character"
  | tagHandleExpected => "while scanning a tag, did not find expected '!'"
  | tagHandleNotEnded => "while parsing a tag directive, did not find expected '!'"
  | invalidTagStart => "invalid global tag character"
  | tagDirectiveNotEnded =>
    "while scanning TAG, did not find expected whitespace or line break"
  | directiveNotEnded =>
    "while scanning a directive, did not find expected comment or line break"
  | duplicateVersion => "duplicate version directive"
  | documentStartExpected => "did not find expected <document start>"
  | documentEndExpected => "missing explicit document end marker before directive"
  | unknownAnchor => "while parsing node, found unknown anchor"
  | undeclaredHandle => "the handle wasn't declared"
  | nodeExpected => "while parsing a node, did not find expected node content"
  | blockKeyExpected => "while parsing a block mapping, did not find expected key"
  | blockEntryExpected =>
    "while parsing a block collection, did not find expected '-' indicator"
  | flowMappingSeparatorExpected =>
    "while parsing a flow mapping, did not find expected ',' or '\x7d'"
  | flowSequenceSeparatorExpected => "while parsing a flow sequence, expected ',' or ']'"
  | unexpectedEnd => "unexpected eof"

/-- A cause for refusing a text, and the place that it is reported for. -/
structure SyntaxError where
  fault : Fault
  mark : Mark
deriving DecidableEq, Repr

/-- Refuse the text for a cause met at a place. -/
def Mark.refuse {α : Type} (mark : Mark) (fault : Fault) : Except SyntaxError α :=
  .error { fault, mark }

@[simp]
theorem refuse_ne_ok {α : Type} (mark : Mark) (fault : Fault) (a : α) :
    mark.refuse fault ≠ .ok a := by
  simp [Mark.refuse]

/-- A sequence of two steps succeeds exactly if both do. -/
theorem bind_eq_ok {α β : Type} {first : Except SyntaxError α} {next : α → Except SyntaxError β}
    {b : β} : (first >>= next) = .ok b ↔ ∃ a, first = .ok a ∧ next a = .ok b := by
  cases first with
  | error e => simp [bind, Except.bind]
  | ok a => simp [bind, Except.bind]

@[simp]
theorem pure_eq_ok {α : Type} (a : α) : (pure a : Except SyntaxError α) = .ok a := rfl

end Yaml

end YamlLocator
