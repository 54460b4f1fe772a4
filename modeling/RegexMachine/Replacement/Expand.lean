import RegexMachine.Match
import RegexMachine.Replacement.Template

/-!
# Expanding templates
-/

namespace RegexMachine

namespace Template

/-- The text that a rule stands for in a match. -/
def segment (t : Template) (m : Match) : Rule → Except Fault String
  | .literal index => .ok (t.literal index)
  | .group number => m.groupString number
  | .leftPortion => m.left
  | .rightPortion => m.right
  | .lastGroup => m.groupString m.lastGroup
  | .wholeText => .ok m.text.toString

/-- The text of every rule, in order. -/
def segments (t : Template) (m : Match) : Except Fault (List String) :=
  t.rules.mapM (t.segment m)

/-- The replacement text for a match. -/
def expand (t : Template) (m : Match) : Except Fault String :=
  (t.segments m).map String.join

end Template

/-- Expands a template against a match. -/
def Match.expand (m : Match) (template : String) : Except Fault String :=
  (Template.parse template m.groupCount m.names).expand m

/-- What the text of a match is replaced with, given how many matches were replaced before it. -/
abbrev Evaluator := Nat → Match → Except Fault String

namespace Evaluator

/-- The match in parentheses. -/
def wrap : Evaluator := fun _ m => do return "(" ++ (← m.string) ++ ")"

/-- The length of the match. -/
def length : Evaluator := fun _ m => .ok (toString m.length)

/-- How many matches came before. -/
def index : Evaluator := fun i _ => .ok (toString i)

/-- Where the match lies. -/
def range : Evaluator := fun _ m => .ok (toString m.start ++ ".." ++ toString m.stop)

/-- Nothing. -/
def erase : Evaluator := fun _ _ => .ok ""

/-- What lies on both sides of the match. -/
def sides : Evaluator := fun _ m => do
  return "<" ++ (← m.left) ++ "|" ++ (← m.right) ++ ">"

/-- The expansion of a template. -/
def template (t : String) : Evaluator := fun _ m => m.expand t

/-- The evaluator of a name; any other text is a template. -/
def named : String → Evaluator
  | "wrap" => wrap
  | "len" => length
  | "index" => index
  | "range" => range
  | "empty" => erase
  | "sides" => sides
  | t => template t

end Evaluator

end RegexMachine
