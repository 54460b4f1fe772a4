import RegexMachine.Capture.Spans
import RegexMachine.Text.Basic
import RegexMachine.Character.Literal
import RegexMachine.Tree.GroupNames

/-!
# Matches

A match is a text with the spans of its groups. Cutting text out of it is a fault when a span does
not lie in the text or cuts a character.
-/

namespace RegexMachine

/-- The visible capture of a group, and all captures that the group made. -/
structure Group where
  text : Text
  span : Span
  history : List Span

namespace Group

def string (g : Group) : Except Fault String := g.text.slice g.span.start g.span.stop

/-- The text of every capture, oldest first. -/
def captureStrings (g : Group) : Except Fault (List String) :=
  g.history.mapM fun s => g.text.slice s.start s.stop

/-- The group in a listing. -/
def listing (g : Group) : String :=
  "Group \x7b start: " ++ toString g.span.start ++ ", end: " ++ toString g.span.stop ++
    ", captures: " ++ toString g.history.length ++ " \x7d"

end Group

structure Match where
  text : Text
  spans : Spans
  names : GroupNames := {}
  deriving DecidableEq, Inhabited

namespace Match

def start (m : Match) : Nat := m.spans.whole.start

def stop (m : Match) : Nat := m.spans.whole.stop

def length (m : Match) : Nat := m.spans.whole.length

def isEmpty (m : Match) : Bool := m.length == 0

/-- The matched text. -/
def string (m : Match) : Except Fault String := m.text.slice m.start m.stop

/-- The text before the match. -/
def left (m : Match) : Except Fault String := m.text.slice 0 m.start

/-- The text after the match. -/
def right (m : Match) : Except Fault String := m.text.slice m.stop m.text.size

def groupCount (m : Match) : Nat := m.spans.groupCount

def lastGroup (m : Match) : Nat := m.spans.lastGroup

/-- A group, if it took part in the match. -/
def group? (m : Match) (i : Nat) : Option Group :=
  (m.spans.group? i).map fun span => { text := m.text, span, history := m.spans.history i }

/-- The text of a group; nothing when it took no part. -/
def groupString (m : Match) (i : Nat) : Except Fault String :=
  match m.group? i with
  | some g => g.string
  | none => .ok ""

/-- The group of a name, if the name is known and the group took part. -/
def named? (m : Match) (name : String) : Option Group :=
  (m.names.number? name).bind m.group?

/-- The match in a listing. -/
def listing (m : Match) : Except Fault String := do
  let s ← m.string
  return "Match \x7b start: " ++ toString m.start ++ ", end: " ++ toString m.stop ++
    ", text: " ++ Literal.string s ++ " \x7d"

end Match

end RegexMachine
