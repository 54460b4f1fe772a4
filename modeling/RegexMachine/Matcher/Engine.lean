import RegexMachine.Machine.Run
import RegexMachine.Matcher.Routine

/-!
# Engines

The kinds of matcher behind a regex. They share the state of a scan, so they can take one another's
place. The interpreter finds candidates with the filter of a program and attempts them by running the
program.
-/

namespace RegexMachine

namespace Interpreter

/-- Moves the cursor to the next candidate of the filter. -/
def findNext (program : Program) (culture : Culture) (text : Text) : Scan Bool := do
  let s ← get
  match ← Scan.lift (program.filter.find culture text s.textPos s.textStart) with
  | some pos =>
      Scan.moveTo pos
      return true
  | none =>
      Scan.moveTo (text.border program.direction)
      return false

def phases (program : Program) (culture : Culture) (fuel : Nat) : Phases where
  direction := program.direction
  findNext := findNext program culture
  attempt := Machine.attempt program culture fuel

end Interpreter

inductive Engine where
  | interpreter (program : Program) (culture : Culture)
  | date
  | wordThenDigit
  | quoted
  | routine (r : Routine)

namespace Engine

def groupCount : Engine → Nat
  | interpreter program _ => program.groupCount
  | date => DateMatcher.groupCount
  | wordThenDigit => WordThenDigitMatcher.groupCount
  | quoted => QuotedMatcher.groupCount
  | routine r => r.groupCount

def names : Engine → GroupNames
  | interpreter program _ => program.names
  | _ => {}

def options : Engine → Options
  | interpreter program _ => program.options
  | _ => {}

/-- The program that an engine interprets. -/
def program? : Engine → Option Program
  | interpreter program _ => some program
  | _ => none

/-- The two phases of an engine that has them. -/
def phases? (fuel : Nat) : Engine → Option Phases
  | interpreter program culture => some (Interpreter.phases program culture fuel)
  | date => some DateMatcher.phases
  | wordThenDigit => some WordThenDigitMatcher.phases
  | quoted => some QuotedMatcher.phases
  | routine _ => none

/-- Scans from the cursor on until a match is captured or no position is left. -/
def scan (e : Engine) (text : Text) (fuel : Nat) : Scan Unit :=
  match e with
  | interpreter program culture => (Interpreter.phases program culture fuel).scan text fuel
  | date => DateMatcher.phases.scan text fuel
  | wordThenDigit => WordThenDigitMatcher.phases.scan text fuel
  | quoted => QuotedMatcher.phases.scan text fuel
  | routine r => r.scan r.classes text fuel

end Engine

end RegexMachine
