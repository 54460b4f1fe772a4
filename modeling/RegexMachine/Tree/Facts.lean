import RegexMachine.Tree.Basic

/-!
# Facts about a tree

One walk from the root passes two facts down (atomic position, inside a loop) and rolls two up (may
backtrack, contains a capture). The facts are kept by node number and are only ever added, so a
node that occurs twice has the facts of both occurrences.

The walk has a depth limit. A walk that meets the limit stops in the middle of the tree. What it has
found by then is kept but says nothing for certain, and every question is then answered the cautious
way.
-/

namespace RegexMachine

structure NodeFacts where
  /-- Nothing that follows can send the match back into the node. -/
  atomicByAncestor : Bool := false
  /-- The node can match in more than one way, as seen from outside. -/
  mayBacktrack : Bool := false
  containsCapture : Bool := false
  inLoop : Bool := false
  deriving DecidableEq, Repr, Inhabited

namespace NodeFacts

def union (a b : NodeFacts) : NodeFacts where
  atomicByAncestor := a.atomicByAncestor || b.atomicByAncestor
  mayBacktrack := a.mayBacktrack || b.mayBacktrack
  containsCapture := a.containsCapture || b.containsCapture
  inLoop := a.inLoop || b.inLoop

end NodeFacts

/-- What a walk has found so far. -/
structure Findings where
  facts : Array NodeFacts
  hasIgnoreCase : Bool := false
  hasRightToLeft : Bool := false
  deriving Inhabited

namespace Findings

def factsOf (f : Findings) (id : Nat) : NodeFacts := f.facts.getD id {}

def add (f : Findings) (id : Nat) (added : NodeFacts) : Findings :=
  { f with facts := f.facts.modify id (·.union added) }

end Findings

namespace Kind

/-- Whether a construct can match its text in more than one way by itself. -/
def hasChoice : Kind → Bool
  | .alternate => true
  | .loop min max isLazy => min != max || isLazy
  | .charLoop _ min max isLazy => min != max || isLazy
  | _ => false

/-- Whether a construct seals off what its child leaves to backtrack into. -/
def isSealed : Kind → Bool
  | .atomic | .positiveLook | .negativeLook => true
  | _ => false

def isCapture : Kind → Bool
  | .capture _ _ => true
  | _ => false

def isLoop : Kind → Bool
  | .loop _ _ _ => true
  | _ => false

/-- Whether a child is in atomic position when its parent is: when the child is the last that the
parent runs. Of a sequence that is the last in reading order, or the first when it is matched
backward. -/
def handsDownAtomic (kind : Kind) (direction : Direction) (isFirst isLast : Bool) : Bool :=
  match kind with
  | .atomic | .positiveLook | .negativeLook => true
  | .alternate | .backreferenceConditional _ | .expressionConditional => true
  | .capture _ _ => true
  | .concat =>
      match direction with
      | .forward => isLast
      | .backward => isFirst
  | .loop _ max _ => max == 1
  | _ => false

end Kind

namespace Node

/-- The facts a node has by itself and by its position. -/
def ownFacts (kind : Kind) (atomic inLoop : Bool) : NodeFacts where
  atomicByAncestor := atomic
  mayBacktrack := !atomic && kind.hasChoice
  containsCapture := kind.isCapture
  inLoop := inLoop

/-- The facts that a node takes over from a child. -/
def rolledUp (kind : Kind) (child : NodeFacts) : NodeFacts where
  mayBacktrack := !kind.isSealed && child.mayBacktrack
  containsCapture := child.containsCapture

mutual

/-- Walks a node and all that lies under it, and tells whether it got through. It stops at once when a
path turns out to have more than `budget` nodes, with what it has found by then. -/
def walk : Node → (atomic inLoop : Bool) → (budget : Nat) → Findings → Bool × Findings
  | _, _, _, 0, found => (false, found)
  | node id options kind children, atomic, inLoop, budget + 1, found =>
      let found := { found with
        hasIgnoreCase := found.hasIgnoreCase || options.ignoreCase
        hasRightToLeft := found.hasRightToLeft || options.rightToLeft }
      walkChildren id options.direction kind (atomic || kind.isSealed) (inLoop || kind.isLoop)
        budget children true (found.add id (ownFacts kind atomic inLoop))

/-- Walks the children of a node that are left, rolling up the facts of each. -/
def walkChildren (id : Nat) (direction : Direction) (kind : Kind) (atomic inLoop : Bool)
    (budget : Nat) : List Node → (isFirst : Bool) → Findings → Bool × Findings
  | [], _, found => (true, found)
  | child :: rest, isFirst, found =>
      match walk child (atomic && kind.handsDownAtomic direction isFirst rest.isEmpty) inLoop
          budget found with
      | (false, found) => (false, found)
      | (true, found) =>
          walkChildren id direction kind atomic inLoop budget rest false
            (found.add id (rolledUp kind (found.factsOf child.id)))

end

end Node

/-- The result of an analysis: what the walk found, and whether it got through the whole tree. -/
structure Analysis where
  findings : Findings
  isComplete : Bool
  depthLimit : Nat
  deriving Inhabited

namespace Analysis

/-- The depth limit when none is asked for. -/
def defaultDepthLimit : Nat := 1024

/-- Analyses a tree. The whole pattern is atomic: the first match found is the match. -/
def ofTree (t : Tree) (depthLimit : Nat) : Analysis :=
  let walked := t.root.walk true false depthLimit { facts := Array.replicate t.nodeCount {} }
  { findings := walked.2, isComplete := walked.1, depthLimit }

/-- A fact of a node, or the cautious answer when the analysis is incomplete. -/
def ask (a : Analysis) (cautious : Bool) (id : Nat) (fact : NodeFacts → Bool) : Bool :=
  if a.isComplete then fact (a.findings.factsOf id) else cautious

def isAtomicByAncestor (a : Analysis) (id : Nat) : Bool := a.ask false id (·.atomicByAncestor)

def mayBacktrack (a : Analysis) (id : Nat) : Bool := a.ask true id (·.mayBacktrack)

def mayContainCapture (a : Analysis) (id : Nat) : Bool := a.ask true id (·.containsCapture)

def isInLoop (a : Analysis) (id : Nat) : Bool := a.ask true id (·.inLoop)

def hasIgnoreCase (a : Analysis) : Bool := !a.isComplete || a.findings.hasIgnoreCase

def hasRightToLeft (a : Analysis) : Bool := !a.isComplete || a.findings.hasRightToLeft

end Analysis

end RegexMachine
