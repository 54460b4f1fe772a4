import RegexMachine.Scan.State

/-!
# The scan loop

A matcher with two phases offers a cheap search for the next candidate and an attempt at exactly
one position. The loop tries candidates in the direction of the scan until one matches or the
border of the text is passed.
-/

namespace RegexMachine

/-- A matcher with two phases. -/
structure Phases where
  direction : Direction
  /-- Moves the cursor to the next position at which a match may start. When there is none, the
  cursor moves to the border of the text. -/
  findNext : Text → Scan Bool
  /-- Attempts a match that starts at the cursor. -/
  attempt : Text → Scan Bool

namespace Phases

/-- Attempts a match at a candidate; a failed attempt leaves the state as before it. -/
def tryCandidate (p : Phases) (text : Text) : Scan Bool := do
  Scan.poll
  let start := (← get).textPos
  modify ScanState.resetAttempt
  if ← p.attempt text then
    return true
  else
    modify fun s => { s with textPos := start }.resetAttempt
    return false

/-- Scans for a match, trying at most `fuel` positions. -/
def scan (p : Phases) (text : Text) : (fuel : Nat) → Scan Unit
  | 0 => throw .exhausted
  | fuel + 1 => do
      if ← p.findNext text then
        if ← p.tryCandidate text then
          return
      let pos := (← get).textPos
      if pos = text.border p.direction then
        return
      Scan.moveTo (← Scan.lift (text.bump p.direction pos))
      p.scan text fuel

end Phases

end RegexMachine
