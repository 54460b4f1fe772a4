import RegexMachine.Character.Basic
import RegexMachine.Scan.Loop

/-!
# Direct matchers

A matcher written for one pattern reads the text itself, forward.

* `DateMatcher` matches `(\d{4})-(\d{2})-(\d{2})`. No part of the pattern can match in two ways, so
  an attempt never goes back.
* `WordThenDigitMatcher` matches `(\w+)(\d)`. Every digit is a word character, so the greedy `\w+`
  always takes too much and gives characters back one at a time. The value stack holds the end of
  every iteration.
* `QuotedMatcher` matches `"([^"]*)"`. The body stops only at a quote or at the end, so the closing
  quote is the next quote.
-/

namespace RegexMachine

namespace Direct

/-- The character at a position, when it passes a test, and the position beyond it. -/
def charAt (text : Text) (test : Char → Bool) (pos : Nat) : Except Fault (Option (Char × Nat)) := do
  match ← text.read .forward pos with
  | some (c, next) => return if test c then some (c, next) else none
  | none => return none

/-- Moves the cursor to the first character at or after it that passes a test, or to the end. -/
def findChar (text : Text) (test : Char → Bool) : Scan Bool := do
  match text.seekForward (fun _ cell => cell.after?.any test) (← get).textPos with
  | some pos =>
      Scan.moveTo pos
      return true
  | none =>
      Scan.moveTo text.size
      return false

end Direct

namespace DateMatcher

def groupCount : Nat := 4

/-- The position beyond `n` digits. -/
def digits (text : Text) : (n pos : Nat) → Except Fault (Option Nat)
  | 0, pos => .ok (some pos)
  | n + 1, pos => do
      match ← Direct.charAt text Character.isDigit pos with
      | some (_, next) => digits text n next
      | none => return none

/-- The position beyond `n` digits, and the position beyond a hyphen that follows them. -/
def digitsAndHyphen (text : Text) (n pos : Nat) : Except Fault (Option (Nat × Nat)) := do
  match ← digits text n pos with
  | none => return none
  | some stop =>
      match ← Direct.charAt text (· == '-') stop with
      | none => return none
      | some (_, next) => return some (stop, next)

/-- Where year, month and day lie. -/
structure Fields where
  yearEnd : Nat
  monthStart : Nat
  monthEnd : Nat
  dayStart : Nat
  dayEnd : Nat

def fields (text : Text) (start : Nat) : Except Fault (Option Fields) := do
  match ← digitsAndHyphen text 4 start with
  | none => return none
  | some (yearEnd, monthStart) =>
      match ← digitsAndHyphen text 2 monthStart with
      | none => return none
      | some (monthEnd, dayStart) =>
          match ← digits text 2 dayStart with
          | none => return none
          | some dayEnd => return some { yearEnd, monthStart, monthEnd, dayStart, dayEnd }

def attempt (text : Text) : Scan Bool := do
  let start := (← get).textPos
  match ← Scan.lift (fields text start) with
  | none => return false
  | some f =>
      Scan.capture 1 start f.yearEnd
      Scan.capture 2 f.monthStart f.monthEnd
      Scan.capture 3 f.dayStart f.dayEnd
      Scan.capture 0 start f.dayEnd
      Scan.moveTo f.dayEnd
      return true

/-- Digits may start a match. -/
def findNext (text : Text) : Scan Bool := do
  Scan.lift (text.checkBoundary (← get).textPos)
  Direct.findChar text Character.isDigit

def phases : Phases where
  direction := .forward
  findNext := findNext
  attempt := attempt

end DateMatcher

namespace WordThenDigitMatcher

def groupCount : Nat := 3

/-- Pushes the end of every word character in a row from `pos` on, at most `n` of them. -/
def pushWordEnds (text : Text) : (n pos : Nat) → Stack Int → Except Fault (Stack Int)
  | 0, _, values => .ok values
  | n + 1, pos, values => do
      match ← Direct.charAt text Character.isWord pos with
      | some (_, next) => pushWordEnds text n next (values.push next)
      | none => return values

/-- Tries the ends above `floor`, the latest first, until a digit follows one of them. -/
def tryEnds (text : Text) (start floor : Nat) : (n : Nat) → Scan Bool
  | 0 => return false
  | n + 1 => do
      let s ← get
      match s.values.top? with
      | none => return false
      | some top =>
          if s.values.depth = floor then return false
          Scan.poll
          let wordEnd := positionOf top
          let depth := (← get).captures.trail.depth
          Scan.capture 1 start wordEnd
          match ← Scan.lift (Direct.charAt text Character.isDigit wordEnd) with
          | some (_, stop) =>
              Scan.capture 2 wordEnd stop
              Scan.capture 0 start stop
              modify fun s => { s with values := s.values.truncate floor, textPos := stop }
              return true
          | none =>
              Scan.undoUntil depth
              modify fun s => { s with values := s.values.tail }
              tryEnds text start floor n

def attempt (text : Text) : Scan Bool := do
  let s ← get
  let start := s.textPos
  let floor := s.values.depth
  let values ← Scan.lift (pushWordEnds text (text.size - start + 1) start s.values)
  set { s with values }
  tryEnds text start floor (values.depth + 1)

/-- Word characters may start a match. -/
def findNext (text : Text) : Scan Bool := do
  Scan.lift (text.checkBoundary (← get).textPos)
  Direct.findChar text Character.isWord

def phases : Phases where
  direction := .forward
  findNext := findNext
  attempt := attempt

end WordThenDigitMatcher

namespace QuotedMatcher

def groupCount : Nat := 2

/-- The first quote at or after a position. -/
def nextQuote (text : Text) (pos : Nat) : Except Fault (Option Nat) := do
  text.checkOffset pos
  return text.seekForward (fun _ cell => cell.after? == some '"') pos

def findNext (text : Text) : Scan Bool := do
  match ← Scan.lift (nextQuote text (← get).textPos) with
  | some pos =>
      Scan.moveTo pos
      return true
  | none =>
      Scan.moveTo text.size
      return false

def attempt (text : Text) : Scan Bool := do
  let start := (← get).textPos
  match ← Scan.lift (Direct.charAt text (· == '"') start) with
  | none => return false
  | some (_, body) =>
      match ← Scan.lift (nextQuote text body) with
      | none => return false
      | some close =>
          Scan.capture 1 body close
          Scan.capture 0 start (close + 1)
          Scan.moveTo (close + 1)
          return true

def phases : Phases where
  direction := .forward
  findNext := findNext
  attempt := attempt

end QuotedMatcher

end RegexMachine
