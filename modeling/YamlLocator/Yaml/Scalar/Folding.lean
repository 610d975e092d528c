import YamlLocator.Yaml.Character

/-!
# Folding

What a scalar makes of the blanks and line breaks between two of its words.

Blanks within a line stand for themselves. A single line break stands for one
space, and the blanks around it stand for nothing; of several line breaks in a row
the first stands for nothing and each other one for a line feed. A line break that
is escaped in a quoted scalar stands for nothing, and so do the blanks that indent
the next line, while every further line break stands for a line feed.

A gap is held back until the next word comes: at the end of a plain scalar it is
dropped.

## Main definitions

* `Gap`: What lies between two words.
* `Gap.text`: What it stands for.
* `Gap.addBlank`, `Gap.addBreak`: A gap that goes on.
-/

namespace YamlLocator

namespace Yaml

/-- The blanks and line breaks between two words of a scalar. -/
inductive Gap where
  /-- Nothing, inside a word. -/
  | none
  /-- Blanks within a line, newest first. -/
  | blanks (run : List Char)
  /-- A line break, and the number of further ones. -/
  | folded (more : Nat)
  /-- An escaped line break, and the number of plain ones behind it. -/
  | escaped (more : Nat)
deriving DecidableEq, Repr

namespace Gap

/-- What the gap stands for, newest first. -/
def text : Gap → List Char
  | .none => []
  | .blanks run => run
  | .folded 0 => [' ']
  | .folded (more + 1) => List.replicate (more + 1) '\n'
  | .escaped more => List.replicate more '\n'

/-- Whether the gap goes over a line break. -/
def isBroken : Gap → Bool
  | .none => false
  | .blanks _ => false
  | .folded _ => true
  | .escaped _ => true

/-- The gap with one more blank, which counts within a line only. -/
def addBlank (gap : Gap) (blank : Char) : Gap :=
  match gap with
  | .none => .blanks [blank]
  | .blanks run => .blanks (blank :: run)
  | .folded more => .folded more
  | .escaped more => .escaped more

/-- The gap with one more line break. -/
def addBreak : Gap → Gap
  | .none => .folded 0
  | .blanks _ => .folded 0
  | .folded more => .folded (more + 1)
  | .escaped more => .escaped (more + 1)

end Gap

end Yaml

end YamlLocator
