import RegexMachine.CharClass
import RegexMachine.Matcher.Direct

/-!
# Scan routines

A matcher may be a routine that does the whole scan by itself, with a table of classes to test
characters against. It keeps to what every matcher promises: it captures group 0 when it succeeds
and polls the watch.
-/

namespace RegexMachine

structure Routine where
  groupCount : Nat
  direction : Direction := .forward
  classes : Array CharClass
  /-- The scan, granted a number of rounds. -/
  scan : Array CharClass → Text → (fuel : Nat) → Scan Unit

namespace Routine

/-- Whether a character is in a class of the table. -/
def isInSet (classes : Array CharClass) (index : Nat) (c : Char) : Bool :=
  (classes[index]?).any (·.contains c)

/-- The position beyond the run of characters of the first class from `pos` on. -/
def runEnd (classes : Array CharClass) (text : Text) : (n pos : Nat) → Except Fault Nat
  | 0, pos => .ok pos
  | n + 1, pos => do
      match ← Direct.charAt text (isInSet classes 0) pos with
      | some (_, next) => runEnd classes text n next
      | none => return pos

/-- Captures the first run of characters of the first class at or after `pos`. -/
def firstRunFrom (classes : Array CharClass) (text : Text) : (fuel pos : Nat) → Scan Unit
  | 0, _ => throw .exhausted
  | fuel + 1, pos => do
      Scan.poll
      let stop ← Scan.lift (runEnd classes text (text.size - pos + 1) pos)
      if stop ≠ pos then
        Scan.capture 0 pos stop
        Scan.moveTo stop
      else if pos = text.size then
        return
      else
        firstRunFrom classes text fuel (← Scan.lift (text.bump .forward pos))

def firstRun (classes : Array CharClass) (text : Text) (fuel : Nat) : Scan Unit := do
  firstRunFrom classes text fuel (← get).textPos

/-- The routine that finds runs of hexadecimal digits. -/
def hex : Routine where
  groupCount := 1
  classes := #[(({} : CharClass).withRange '0' '9').withRange 'a' 'f']
  scan := firstRun

end Routine

end RegexMachine
