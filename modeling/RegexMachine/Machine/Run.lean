import RegexMachine.Machine.Step
import RegexMachine.Scan.State

/-!
# Attempts

Running a program from one position to its end. The watch is polled before every instruction and
before every return to a choice point. A program may loop for ever, so a run is granted a number of
instructions and is given up when they are used up.

An attempt that finds a match empties the stacks and keeps the captures. One that fails has used up
its choice points. One that runs past its limit leaves everything as it was.
-/

namespace RegexMachine

/-- How a run ended, with what the machine and the watch then hold. -/
structure Ended where
  result : Except Failure Bool
  machine : Machine
  watch : Watch
  deriving Inhabited

namespace Machine

/-- Resumes at a choice point. -/
@[inline] def resume (m : Machine) (p : ChoicePoint) (choices : Stack ChoicePoint) : Machine :=
  { m with address := p.address, entry := p.entry, choices }

/-- Goes on forward at an address. -/
@[inline] def continueAt (m : Machine) (address : Nat) : Machine :=
  { m with address, entry := .forward }

/-- Executes at most `fuel` instructions. -/
def run (env : Surroundings) : (fuel : Nat) → Machine → Watch → Ended
  | 0, m, w => ⟨.error .exhausted, m, w⟩
  | fuel + 1, m, w =>
      match w.poll with
      | (w, true) => ⟨.error (.error w.expired), m, w⟩
      | (w, false) =>
          match env.program.instructions[m.address]? with
          | none => ⟨.error (.fault .outOfBounds), m, w⟩
          | some i =>
              match m.execute env i with
              | .error f => ⟨.error (.fault f), m, w⟩
              | .ok (.stop m) => ⟨.ok (m.captures.isMatched 0), m, w⟩
              | .ok (.next m) => run env fuel (m.continueAt (m.address + 1)) w
              | .ok (.jump address m) => run env fuel (m.continueAt address) w
              | .ok (.backtrack m) =>
                  match w.poll with
                  | (w, true) => ⟨.error (.error w.expired), m, w⟩
                  | (w, false) =>
                      match m.choices.pop? with
                      | some (p, choices) => run env fuel (m.resume p choices) w
                      | none => ⟨.ok false, m, w⟩

/-- The machine at the start of an attempt. -/
def start (s : ScanState) : Machine where
  cursor := markOf s.textPos
  values := s.values
  captures := s.captures

/-- The state of the scan with the stacks of the machine. -/
def store (m : Machine) (s : ScanState) (w : Watch) : ScanState :=
  { s with values := m.values, choices := m.choices, captures := m.captures, watch := w }

/-- Drops what a match that was found leaves on the stacks. -/
def settle (m : Machine) : Machine :=
  { m with values := .empty, choices := .empty, captures := { m.captures with trail := .empty } }

/-- Attempts a match of a program at the cursor. -/
def attempt (program : Program) (culture : Culture) (fuel : Nat) (text : Text) : Scan Bool :=
  fun s =>
    let env : Surroundings := { program, culture, text, textStart := s.textStart }
    let ended := run env fuel (start s) s.watch
    let m := ended.machine
    match ended.result with
    | .ok true =>
        .ok true { m.settle.store s ended.watch with textPos := m.position }
    | .ok false => .ok false { m.store s ended.watch with textPos := m.position }
    | .error e => .error e (m.store s ended.watch)

end Machine

end RegexMachine
