import Mathlib.Logic.Function.Basic
import RegexMachine.Proofs.Text.Place
import RegexMachine.Tree.Basic

/-!
# The outcomes of a tree

A matcher takes a place with the captures made so far to the outcomes it allows, in the order in
which backtracking tries them. The matcher of a tree is read off the tree: a sequence tries the
outcomes of its parts in turn, a choice those of its alternatives one after the other, and a loop
those of its body before or after its own end. What is sealed keeps its first outcome. Nothing here
speaks of programs, stacks or choice points.
-/

namespace RegexMachine

/-- What matching reads and does not change. -/
structure Setting where
  culture : Culture
  text : Text
  textStart : Nat
  ecmaScript : Bool := false

/-- Where a match has got to, and the captures of every group, latest first. -/
structure MatchState where
  place : Place
  captured : Nat → List Span

def MatchState.moveTo (s : MatchState) (p : Place) : MatchState := { s with place := p }

/-- The outcomes from a state, in order of preference. -/
abbrev Matcher := MatchState → List MatchState

namespace Matcher

/-- Whether a character passes a test; characters are compared by their folds where case is
ignored. -/
def passes (culture : Culture) (ignoreCase : Bool) (test : Atom) (c : Char) : Bool :=
  let fold (c : Char) : Char := if ignoreCase then culture.fold c else c
  match test with
  | .one x => fold c == fold x
  | .notOne x => fold c != fold x
  | .set k => (if ignoreCase then k.foldCase culture else k).contains (fold c)

/-- The place beyond exactly `n` characters that pass a test. -/
def exactly (d : Direction) (test : Char → Bool) : (n : Nat) → Place → Option Place
  | 0, p => some p
  | n + 1, p =>
      match p.read d with
      | some (c, q) => if test c then exactly d test n q else none
      | none => none

/-- The places where a run of at most `n` characters that pass a test may end, nearest first. -/
def stops (d : Direction) (test : Char → Bool) : (n : Nat) → Place → List Place
  | 0, p => [p]
  | n + 1, p =>
      match p.read d with
      | some (c, q) => if test c then p :: stops d test n q else [p]
      | none => [p]

/-- The place beyond the expected characters, which are given in the order they are read. -/
def literal (d : Direction) (fold : Char → Char) : List Char → Place → Option Place
  | [], p => some p
  | x :: rest, p =>
      match p.read d with
      | some (c, q) => if fold c == x then literal d fold rest q else none
      | none => none

/-- The place beyond a string that is given in reading order. -/
def string (d : Direction) (fold : Char → Char) (chars : List Char) (p : Place) : Option Place :=
  match d with
  | .forward => literal d fold chars p
  | .backward => literal d fold chars.reverse p

/-- The one outcome at a place, or none. -/
def goTo (s : MatchState) : Option Place → List MatchState
  | some p => [s.moveTo p]
  | none => []

/-- A repeated character: `min` of them and as many more as the bound `spare` and the text allow. A
repetition that is cut keeps only the end it likes best. -/
def charLoop (d : Direction) (test : Char → Bool) (min : Nat) (spare : Option Nat)
    (isLazy isCut : Bool) : Matcher := fun s =>
  match exactly d test min s.place with
  | none => []
  | some p =>
      let ends := stops d test (spare.getD (p.ahead d)) p
      let ends := if isLazy then ends else ends.reverse
      (if isCut then ends.take 1 else ends).map s.moveTo

/-- Whether exactly one side of a place is a word character. -/
def atBoundary (isWord : Char → Bool) (p : Place) : Bool :=
  p.before.head?.any isWord != p.after.head?.any isWord

/-- Whether an assertion holds at a place. -/
def holdsAt (textStart : Nat) (p : Place) : Anchor → Bool
  | .bol => p.before.isEmpty || p.before.head? == some '\n'
  | .eol => p.after.isEmpty || p.after.head? == some '\n'
  | .beginning => p.before.isEmpty
  | .start => p.offset == textStart
  | .endZ => p.after.isEmpty || p.after == ['\n']
  | .end => p.after.isEmpty
  | .boundary => atBoundary Character.isBoundaryWord p
  | .nonBoundary => !atBoundary Character.isBoundaryWord p
  | .ecmaBoundary => atBoundary Character.isEcmaWord p
  | .nonEcmaBoundary => !atBoundary Character.isEcmaWord p

/-- Closes a group around the text from `start` to `stop`: a balancing group needs a capture to
cancel, and with a group of its own it captures what lies between the two. -/
def close (group uncapture : Option Nat) (start stop : Nat) (captured : Nat → List Span) :
    Option (Nat → List Span) :=
  match group, uncapture with
  | none, none => some captured
  | some g, none =>
      let span := ⟨min start stop, max start stop - min start stop⟩
      some (Function.update captured g (span :: captured g))
  | group, some u =>
      match captured u with
      | [] => none
      | old :: rest =>
          let cancelled := Function.update captured u rest
          match group with
          | none => some cancelled
          | some g =>
              match Captures.between old (min start stop) (max start stop) with
              | .ok span => some (Function.update cancelled g (span :: cancelled g))
              | .error _ => none

/-- The parts in the order they are run. -/
def sequence : List Matcher → Matcher
  | [], s => [s]
  | part :: rest, s => (part s).flatMap (sequence rest)

/-- The alternatives, in order of preference. -/
def choice (parts : List Matcher) : Matcher := fun s => parts.flatMap fun part => part s

/-- Repetition, when the body has been run `done` times. Up to the minimum it is run again whatever
happens. Beyond it, one more run is tried before the end or, lazily, after it; a run that takes no
text ends the loop. `spare` bounds the runs beyond the minimum. -/
def loop (d : Direction) (body : Matcher) (min : Nat) (spare : Option Nat) (isLazy : Bool)
    (done : Nat) (s : MatchState) : List MatchState :=
  let again := (body s).flatMap fun t =>
    if done + 1 < min ∨ t.place.ahead d < s.place.ahead d then
      loop d body min spare isLazy (done + 1) t
    else [t]
  if done < min then again
  else if spare.all (done - min < ·) then
    if isLazy then s :: again else again ++ [s]
  else [s]
termination_by (min - done, s.place.ahead d)
decreasing_by
  rw [Prod.lex_def]
  grind

/-- What follows a run of the body that led from `s` to `t` and was the last of `done` runs. -/
def afterRun (d : Direction) (body : Matcher) (min : Nat) (spare : Option Nat) (isLazy : Bool)
    (done : Nat) (s t : MatchState) : List MatchState :=
  if done < min ∨ t.place.ahead d < s.place.ahead d then loop d body min spare isLazy done t
  else [t]

/-- The outcomes of one more run of the body and of what follows it. -/
def again (d : Direction) (body : Matcher) (min : Nat) (spare : Option Nat) (isLazy : Bool)
    (done : Nat) (s : MatchState) : List MatchState :=
  (body s).flatMap (afterRun d body min spare isLazy (done + 1) s)

theorem loop_eq (d : Direction) (body : Matcher) (min : Nat) (spare : Option Nat) (isLazy : Bool)
    (done : Nat) (s : MatchState) :
    loop d body min spare isLazy done s =
      if done < min then again d body min spare isLazy done s
      else if spare.all (done - min < ·) then
        if isLazy then s :: again d body min spare isLazy done s
        else again d body min spare isLazy done s ++ [s]
      else [s] := by
  rw [loop]
  rfl

/-- Induction along the runs of a loop: a run that is followed by another has brought the minimum
nearer or has taken text. -/
theorem loop_induction (d : Direction) (min : Nat) {P : Nat → MatchState → Prop}
    (step : ∀ done s, (∀ t, done + 1 < min ∨ t.place.ahead d < s.place.ahead d → P (done + 1) t) →
      P done s) : ∀ done s, P done s :=
  loop.induct d (fun _ => []) min none false P (fun done s _ => step done s)
    (fun done s _ _ _ => step done s) (fun done s _ _ _ => step done s)
    (fun done s _ _ => step done s)

def capture (group uncapture : Option Nat) (body : Matcher) : Matcher := fun s =>
  (body s).filterMap fun t =>
    (close group uncapture s.place.offset t.place.offset t.captured).map fun captured =>
      { t with captured }

/-- Keeps the first outcome. -/
def atomic (body : Matcher) : Matcher := fun s => (body s).take 1

/-- Keeps the captures of the first outcome and goes back to where it started. -/
def positiveLook (body : Matcher) : Matcher := fun s =>
  ((body s).take 1).map fun t => t.moveTo s.place

def negativeLook (body : Matcher) : Matcher := fun s => if (body s).isEmpty then [s] else []

def backreference (σ : Setting) (options : Options) (group : Nat) : Matcher := fun s =>
  match (s.captured group).head? with
  | none => if σ.ecmaScript then [s] else []
  | some span =>
      let fold (c : Char) : Char := if options.ignoreCase then σ.culture.fold c else c
      let chars := ((σ.text.charsBetween span.start span.stop).toOption.getD []).map fold
      goTo s (string options.direction fold chars s.place)

def backreferenceConditional (group : Nat) (yes no : Matcher) : Matcher := fun s =>
  if (s.captured group).isEmpty then no s else yes s

def expressionConditional (condition yes no : Matcher) : Matcher := fun s =>
  match (condition s).head? with
  | some t => yes (t.moveTo s.place)
  | none => no s

/-- The one outcome that changes nothing. -/
def stay : Matcher := fun s => [s]

end Matcher

/-- How repetitions of a tree are read: which repeated characters are cut, and how often a
repetition may go on beyond its minimum. -/
structure Reading where
  isCut : Nat → Bool
  loopSpare : (min max : Nat) → Option Nat
  charSpare : (min max : Nat) → Option Nat

/-- The plain reading of a pattern: nothing is cut, and `unbounded` is no bound. -/
def Reading.plain : Reading :=
  let spare (min max : Nat) : Option Nat := if max = unbounded then none else some (max - min)
  { isCut := fun _ => false, loopSpare := spare, charSpare := spare }

namespace Node

open Matcher in
/-- The matcher of a node, given those of its children. -/
def matcherOf (reading : Reading) (σ : Setting) (id : Nat) (options : Options) (kind : Kind)
    (parts : List Matcher) : Matcher :=
  let d := options.direction
  let test := passes σ.culture options.ignoreCase
  let fold (c : Char) : Char := if options.ignoreCase then σ.culture.fold c else c
  match kind, parts with
  | .empty, _ => stay
  | .nothing, _ => fun _ => []
  | .char atom, _ => fun s => goTo s (exactly d (test atom) 1 s.place)
  | .multi chars, _ => fun s => goTo s (string d fold (chars.map fold) s.place)
  | .charLoop atom min max isLazy, _ =>
      Matcher.charLoop d (test atom) min (reading.charSpare min max) isLazy (reading.isCut id)
  | .anchor anchor, _ => fun s => if holdsAt σ.textStart s.place anchor then [s] else []
  | .backreference group, _ => Matcher.backreference σ options group
  | .concat, parts =>
      match d with
      | .forward => sequence parts
      | .backward => sequence parts.reverse
  | .alternate, parts => choice parts
  | .loop min max isLazy, [body] =>
      Matcher.loop d body min (reading.loopSpare min max) isLazy 0
  | .capture group uncapture, [body] => Matcher.capture group uncapture body
  | .atomic, [body] => Matcher.atomic body
  | .positiveLook, [body] => Matcher.positiveLook body
  | .negativeLook, [body] => Matcher.negativeLook body
  | .backreferenceConditional group, [yes] => Matcher.backreferenceConditional group yes stay
  | .backreferenceConditional group, [yes, no] => Matcher.backreferenceConditional group yes no
  | .expressionConditional, [condition, yes] => Matcher.expressionConditional condition yes stay
  | .expressionConditional, [condition, yes, no] => Matcher.expressionConditional condition yes no
  | _, _ => fun _ => []

mutual

/-- The matcher of a node. -/
def matcher (reading : Reading) (σ : Setting) : Node → Matcher
  | .node id options kind children =>
      matcherOf reading σ id options kind (matchers reading σ children)

def matchers (reading : Reading) (σ : Setting) : List Node → List Matcher
  | [] => []
  | n :: rest => matcher reading σ n :: matchers reading σ rest

end

theorem matchers_eq_map (reading : Reading) (σ : Setting) (ns : List Node) :
    matchers reading σ ns = ns.map (matcher reading σ) := by
  induction ns with
  | nil => rfl
  | cons n rest ih => rw [matchers, ih, List.map_cons]

theorem matcher_node (reading : Reading) (σ : Setting) (id : Nat) (options : Options) (kind : Kind)
    (children : List Node) :
    (node id options kind children).matcher reading σ =
      matcherOf reading σ id options kind (children.map (matcher reading σ)) := by
  rw [matcher, matchers_eq_map]

end Node

end RegexMachine
