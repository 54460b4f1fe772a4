import RegexMachine.Capture.Basic
import RegexMachine.Program.Basic
import RegexMachine.Text.Basic

/-!
# The state of the machine

The machine runs a program with three stacks. Values are marks, counts and stack depths in one
untyped stack, where -1 is the mark of a loop that has not run. Choice points say where to resume
when a path fails. Captures undo themselves.

The cursor is an integer because marks are: a program may move to a mark that was never set. Marks
are 64-bit words read with a sign, so a position in the upper half of the words has a negative mark,
and the last position of all has the mark -1. No text reaches that far, but a scan may start there.
-/

namespace RegexMachine

/-- Numbers that a choice point keeps: positions, counts and depths. -/
structure Saved where
  first : Int := 0
  second : Int := 0
  third : Int := 0
  deriving DecidableEq, Repr, Inhabited

/-- How the instruction at the current address is entered. -/
inductive MachineEntry where
  | forward
  | backtracking (saved : Saved)
  | backtrackingSecond (saved : Saved)
  deriving DecidableEq, Repr, Inhabited

def MachineEntry.kind : MachineEntry → EntryKind
  | forward => .forward
  | backtracking _ => .backtracking
  | backtrackingSecond _ => .backtrackingSecond

/-- Where to resume: which instruction, and how it is entered. -/
structure ChoicePoint where
  address : Nat
  entry : MachineEntry
  deriving DecidableEq, Repr, Inhabited

/-- The largest number of a 64-bit word; there is no position after it. -/
def lastPosition : Nat := 0xffffffffffffffff

/-- The position that a mark stands for. -/
@[inline] def positionOf (mark : Int) : Nat :=
  if mark < 0 then (lastPosition + 1 + mark).toNat else mark.toNat

@[simp] theorem positionOf_natCast (n : Nat) : positionOf (n : Int) = n := by
  have h : ¬ (n : Int) < 0 := by omega
  simp [positionOf, h]

/-- The mark of a position: the number that its word stands for when it is read with a sign. -/
@[inline] def markOf (position : Nat) : Int :=
  if position >>> 63 = 1 then (position : Int) - (lastPosition + 1) else position

@[simp] theorem positionOf_markOf (position : Nat) : positionOf (markOf position) = position := by
  by_cases h : position >>> 63 = 1
  · have hlt : position ≤ lastPosition := by
      rw [lastPosition]
      omega
    have hneg : (position : Int) - (lastPosition + 1) < 0 := by omega
    rw [markOf, if_pos h, positionOf, if_pos hneg]
    omega
  · rw [markOf, if_neg h, positionOf_natCast]

theorem markOf_of_lt {position : Nat} (h : position < 0x8000000000000000) :
    markOf position = position := by
  have hshift : position >>> 63 = 0 := by omega
  rw [markOf, hshift, if_neg Nat.zero_ne_one]

/-- The last position has the mark of a loop that has not run. -/
theorem markOf_lastPosition : markOf lastPosition = -1 := by decide

structure Machine where
  address : Nat := 0
  entry : MachineEntry := .forward
  cursor : Int := 0
  values : Stack Int := Stack.empty
  choices : Stack ChoicePoint := Stack.empty
  captures : Captures
  deriving Inhabited

namespace Machine

/-- The position of the cursor. -/
@[inline] def position (m : Machine) : Nat := positionOf m.cursor

@[inline] def moveTo (m : Machine) (position : Nat) : Machine :=
  { m with cursor := markOf position }

@[simp] theorem position_moveTo (m : Machine) (position : Nat) :
    (m.moveTo position).position = position := positionOf_markOf position

@[inline] def pushValue (m : Machine) (v : Int) : Machine := { m with values := m.values.push v }

/-- Pushes a pair, the first value below the second. -/
@[inline] def pushPair (m : Machine) (first second : Int) : Machine :=
  (m.pushValue first).pushValue second

@[inline] def popValue (m : Machine) : Except Fault (Int × Machine) :=
  match m.values.pop? with
  | some (v, values) => .ok (v, { m with values })
  | none => .error .emptyValueStack

/-- Pops a pair that was pushed by `pushPair`. -/
@[inline] def popPair (m : Machine) : Except Fault ((Int × Int) × Machine) := do
  let (second, m) ← m.popValue
  let (first, m) ← m.popValue
  return ((first, second), m)

/-- Leaves a choice point at the current instruction. -/
@[inline] def leave (m : Machine) (first : Int := 0) (second : Int := 0) (third : Int := 0) : Machine :=
  let entry := .backtracking ⟨first, second, third⟩
  { m with choices := m.choices.push ⟨m.address, entry⟩ }

/-- Leaves a choice point of the second kind at the current instruction. -/
@[inline] def leaveSecond (m : Machine) (first : Int := 0) (second : Int := 0) : Machine :=
  let entry := .backtrackingSecond ⟨first, second, 0⟩
  { m with choices := m.choices.push ⟨m.address, entry⟩ }

end Machine

/-- What an attempt runs on and does not change. -/
structure Surroundings where
  program : Program
  culture : Culture
  text : Text
  /-- Where the scan began. -/
  textStart : Nat
  deriving Inhabited

end RegexMachine
