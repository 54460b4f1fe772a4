import RegexMachine.Failure
import RegexMachine.Options
import RegexMachine.StartFilter
import RegexMachine.Tree.Facts

/-!
# Programs

An instruction is an opcode with a payload of operands, the direction it consumes text in and
whether it ignores case. Nothing ties the payload to the opcode: a program may be written by hand,
so asking for an operand that is not there is a fault. A program is instructions that jump to one
another by index, the classes they test, and what a scan needs to know beside them.
-/

namespace RegexMachine

/-- A test of a single character, as programs write it: a class is an index into the class table. -/
inductive CharTest where
  | one (c : Char)
  | notOne (c : Char)
  | set (index : Nat)
  deriving DecidableEq, Repr, Inhabited

inductive Payload where
  | none
  | atom (test : CharTest)
  | atomCount (test : CharTest) (count : Int)
  | multi (chars : List Char)
  | group (number : Nat)
  | jump (address : Nat)
  | countedJump (address : Nat) (limit : Int)
  | count (initial : Int)
  | capture (group uncapture : Option Nat)
  deriving DecidableEq, Repr, Inhabited

structure Instruction where
  opcode : Opcode
  payload : Payload := .none
  direction : Direction := .forward
  ignoreCase : Bool := false
  deriving DecidableEq, Repr, Inhabited

namespace Instruction

def missing {α : Type} (i : Instruction) (operand : Operand) : Except Fault α :=
  .error (.missingOperand i.opcode operand)

/-- The address to jump to. -/
@[inline] def jump (i : Instruction) : Except Fault Nat :=
  match i.payload with
  | .jump address | .countedJump address _ => .ok address
  | _ => i.missing .jump

/-- How often a counted loop may run beyond its minimum. -/
@[inline] def limit (i : Instruction) : Except Fault Int :=
  match i.payload with
  | .countedJump _ limit => .ok limit
  | _ => i.missing .limit

@[inline] def atom (i : Instruction) : Except Fault CharTest :=
  match i.payload with
  | .atom test | .atomCount test _ => .ok test
  | _ => i.missing .atom

@[inline] def count (i : Instruction) : Except Fault Int :=
  match i.payload with
  | .atomCount _ count => .ok count
  | .count initial => .ok initial
  | _ => i.missing .count

@[inline] def group (i : Instruction) : Except Fault Nat :=
  match i.payload with
  | .group number => .ok number
  | _ => i.missing .group

/-- The characters of a literal string. -/
@[inline] def string (i : Instruction) : Except Fault (List Char) :=
  match i.payload with
  | .multi chars => .ok chars
  | _ => i.missing .string

/-- The group to capture into and the group to cancel a capture of. -/
@[inline] def capture (i : Instruction) : Except Fault (Option Nat × Option Nat) :=
  match i.payload with
  | .capture group uncapture => .ok (group, uncapture)
  | _ => i.missing .capture

/-- Whether the instruction has a jump target. -/
def jumps (i : Instruction) : Bool :=
  match i.payload with
  | .jump _ | .countedJump _ _ => true
  | _ => false

/-- The instruction with another jump target, if it has one. -/
def withTarget (i : Instruction) (address : Nat) : Instruction :=
  match i.payload with
  | .jump _ => { i with payload := .jump address }
  | .countedJump _ limit => { i with payload := .countedJump address limit }
  | _ => i

end Instruction

structure Program where
  instructions : Array Instruction
  classes : Array CharClass := #[]
  groupCount : Nat
  names : GroupNames := {}
  options : Options := {}
  filter : StartFilter := {}
  analysis : Analysis := { findings := { facts := #[] }, isComplete := false, depthLimit := 0 }
  deriving Inhabited

def Program.direction (p : Program) : Direction := p.options.direction

end RegexMachine
