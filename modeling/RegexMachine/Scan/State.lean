import RegexMachine.Machine.Basic
import RegexMachine.Scan.Watch

/-!
# The state of a scan

What a matcher keeps between attempts, whatever its kind: the cursor, the stacks, the captures and
the watch. Before every scan, and around every attempt, all of it but the clock is set afresh.
-/

namespace RegexMachine

structure ScanState where
  /-- Where the scan began. -/
  textStart : Nat := 0
  textPos : Nat := 0
  values : Stack Int := Stack.empty
  choices : Stack ChoicePoint := Stack.empty
  captures : Captures
  watch : Watch := {}
  deriving Inhabited

/-- A step of a scan; a failure leaves the state as it was when it arose. -/
abbrev Scan (α : Type) := EStateM Failure ScanState α

namespace ScanState

/-- The state of a matcher that has not run yet. -/
def fresh (groupCount : Nat) : ScanState where
  captures := Captures.none groupCount

/-- Empties the value stack and the captures. -/
def resetAttempt (s : ScanState) : ScanState :=
  { s with values := Stack.empty, captures := s.captures.reset }

/-- Sets the state up for a new scan. -/
def prepare (s : ScanState) (textStart textPos : Nat) (limit : Option Duration) : ScanState :=
  { s with textStart, textPos, watch := s.watch.start limit }.resetAttempt

/-- How many choice points, values and notes of captures are on the stacks. -/
def stackDepths (s : ScanState) : Nat × Nat × Nat :=
  (s.choices.depth, s.values.depth, s.captures.trail.depth)

/-- Whether group 0 has a capture. -/
def found (s : ScanState) : Bool := s.captures.isMatched 0

end ScanState

namespace Scan

/-- Fails with a timeout when the deadline has passed. -/
def poll : Scan Unit := fun s =>
  let (watch, expired) := s.watch.poll
  let s := { s with watch }
  if expired then .error (.error watch.expired) s else .ok () s

/-- A result that does not depend on the state. -/
def lift {α : Type} (r : Except Fault α) : Scan α := fun s =>
  match r with
  | .ok a => .ok a s
  | .error f => .error (.fault f) s

def moveTo (pos : Nat) : Scan Unit := modify fun s => { s with textPos := pos }

/-- Captures the text between two positions. -/
def capture (group start stop : Nat) : Scan Unit := do
  let s ← get
  let captures ← lift (s.captures.capture group start stop)
  set { s with captures }

def undoUntil (depth : Nat) : Scan Unit := do
  let s ← get
  let captures ← lift (s.captures.undoUntil depth)
  set { s with captures }

end Scan

end RegexMachine
