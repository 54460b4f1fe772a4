/-!
# Spans

Where the groups of a match lie in its text.
-/

namespace RegexMachine

/-- A stretch of text, in bytes. -/
structure Span where
  start : Nat
  length : Nat
  deriving DecidableEq, Repr, Inhabited

def Span.stop (s : Span) : Nat := s.start + s.length

/-- The captures of every group of a match, oldest first; the last one is the visible capture. -/
structure Spans where
  groups : Array (List Span)
  deriving DecidableEq, Repr, Inhabited

namespace Spans

def groupCount (s : Spans) : Nat := s.groups.size

/-- All captures of a group; none for a group that does not exist. -/
def history (s : Spans) (group : Nat) : List Span := s.groups.getD group []

/-- The visible capture of a group, if it took part. -/
def group? (s : Spans) (group : Nat) : Option Span := (s.history group).getLast?

/-- The span of the whole match. -/
def whole (s : Spans) : Span := (s.group? 0).getD ⟨0, 0⟩

/-- The highest-numbered group, whether or not it took part. -/
def lastGroup (s : Spans) : Nat := s.groupCount - 1

end Spans

end RegexMachine
