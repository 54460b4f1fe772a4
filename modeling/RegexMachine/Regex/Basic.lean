import RegexMachine.Match
import RegexMachine.Matcher.Engine
import RegexMachine.Program.Layout
import RegexMachine.Replacement.Template

/-!
# Regexes

A regex is an engine with the settings of its scans. It keeps the state of its matcher from one scan
to the next, and the last template it compiled.
-/

namespace RegexMachine

/-- The steps that a scan is granted unless told otherwise, more than any computation can take. -/
def amplePatience : Nat := Nat.pow 2 62

/-- A template as one regex compiled it. Templates with the same serial number are one object. -/
structure CompiledTemplate where
  template : Template
  serial : Nat
  deriving Inhabited

structure Regex where
  engine : Engine
  limit : Option Duration := none
  /-- The steps that every scan is granted before it is given up. -/
  patience : Nat := amplePatience
  clock : Clock := .ticking
  /-- The state of the matcher after the last scan. -/
  matcher : Option ScanState := none
  lastTemplate : Option CompiledTemplate := none
  /-- How many templates were compiled. -/
  compiledTemplates : Nat := 0

/-- A call on a regex, which may change what the regex keeps. -/
abbrev RegexM (α : Type) := EStateM Failure Regex α

/-- The settings of a regex made from a tree. -/
structure RegexConfig where
  limit : Option Duration := none
  /-- The culture, unless the pattern asks for the invariant one. -/
  culture : Culture := .invariant
  compile : CompileConfig := {}

namespace Regex

def groupCount (re : Regex) : Nat := re.engine.groupCount

def names (re : Regex) : GroupNames := re.engine.names

def options (re : Regex) : Options := re.engine.options

def direction (re : Regex) : Direction := re.options.direction

def program? (re : Regex) : Option Program := re.engine.program?

/-- Compiles a tree. -/
def ofTree (t : Tree) (config : RegexConfig) : Except Error Regex := do
  let culture := if t.options.cultureInvariant then .invariant else config.culture
  let program ← Program.compile t culture config.compile
  return { engine := .interpreter program culture, limit := config.limit }

/-- The regex of an engine that needs no program. -/
def ofEngine (engine : Engine) (limit : Option Duration) : Regex := { engine, limit }

def withLimit (re : Regex) (limit : Option Duration) : Regex := { re with limit }

/-- The group of a name, if there is such a group. -/
def groupNumber? (re : Regex) (name : String) : Option Nat :=
  (re.names.number? name).filter (· < re.groupCount)

def groupName? (re : Regex) (group : Nat) : Option String := re.names.name? group

/-- The state that the next scan starts from. -/
def rent (re : Regex) : ScanState :=
  let s := re.matcher.getD (.fresh re.groupCount)
  { s with watch := { s.watch with clock := re.clock } }

/-- Keeps the state that a scan left. -/
def giveBack (re : Regex) (s : ScanState) : Regex :=
  { re with matcher := some s, clock := s.watch.clock }

/-- One scan, from `textPos` on, for a search that began at `textStart`. -/
def scan (text : Text) (textStart textPos : Nat) : RegexM (Option Spans) := fun re =>
  let s := re.rent.prepare textStart textPos re.limit
  match re.engine.scan text re.patience s with
  | .ok () s => .ok s.captures.publish? (re.giveBack s)
  | .error e s => .error e (re.giveBack s)

/-- A computation on a match that does not depend on the regex. -/
def lift {α : Type} (r : Except Fault α) : RegexM α := fun re =>
  match r with
  | .ok a => .ok a re
  | .error f => .error (.fault f) re

def fail {α : Type} (e : Error) : RegexM α := throw (.error e)

/-- Refuses a start that is no boundary of the text. -/
def checkStart (text : Text) (start : Nat) : RegexM Unit :=
  if text.size < start then
    fail (.invalidArgument "startat"
      (toString start ++ " is past the end of a " ++ toString text.size ++ "-byte input"))
  else if !text.isBoundary start then
    fail (.invalidArgument "startat" (toString start ++ " is not on a character boundary"))
  else return

/-- The compiled form of a template; the last one is kept and used again. -/
def compileTemplate (pattern : String) : RegexM CompiledTemplate := do
  let re ← get
  match re.lastTemplate.filter (·.template.pattern == pattern) with
  | some compiled => return compiled
  | none =>
      let compiled : CompiledTemplate :=
        { template := Template.parse pattern re.groupCount re.names
          serial := re.compiledTemplates }
      set { re with
        lastTemplate := some compiled
        compiledTemplates := re.compiledTemplates + 1 }
      return compiled

/-- The time limit in a listing. -/
def limitText : Option Duration → String
  | none => "None"
  | some d => "Some(" ++ d.text ++ ")"

/-- The regex in a listing. -/
def listing (re : Regex) : String :=
  "Regex \x7b groups: " ++ toString re.groupCount ++ ", options: " ++ re.options.text ++
    ", timeout: " ++ limitText re.limit ++ ", .. \x7d"

end Regex

end RegexMachine
