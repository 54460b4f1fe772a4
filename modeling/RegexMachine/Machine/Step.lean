import RegexMachine.Machine.Basic

/-!
# One step of the machine

What each instruction does when it is entered, forward or from a choice point. A step goes on with
the next instruction, jumps, asks to backtrack, or ends the attempt.
-/

namespace RegexMachine

/-- What to do after an instruction. -/
inductive Move where
  | next (m : Machine)
  | jump (address : Nat) (m : Machine)
  | backtrack (m : Machine)
  | stop (m : Machine)
  deriving Inhabited

namespace Surroundings

/-- Whether a character passes a test. -/
def passes (env : Surroundings) (test : CharTest) (ignoreCase : Bool) (c : Char) :
    Except Fault Bool :=
  let c := if ignoreCase then env.culture.fold c else c
  match test with
  | .one x => .ok (c == x)
  | .notOne x => .ok (c != x)
  | .set index =>
      match env.program.classes[index]? with
      | some k => .ok (k.contains c)
      | none => .error .outOfBounds

/-- The position beyond the expected characters, which are given in the order they are read. -/
def readChars (env : Surroundings) (direction : Direction) (ignoreCase : Bool) :
    List Char → Nat → Except Fault (Option Nat)
  | [], pos => .ok (some pos)
  | expected :: rest, pos => do
      match ← env.text.read direction pos with
      | none => return none
      | some (c, next) =>
          let c := if ignoreCase then env.culture.fold c else c
          if c == expected then env.readChars direction ignoreCase rest next else return none

/-- The position beyond a string that is given in reading order. -/
def readString (env : Surroundings) (i : Instruction) (chars : List Char) (pos : Nat) :
    Except Fault (Option Nat) :=
  env.readChars i.direction i.ignoreCase
    (match i.direction with
      | .forward => chars
      | .backward => chars.reverse) pos

/-- The position beyond `n` characters that pass a test. -/
def takeExactly (env : Surroundings) (i : Instruction) (test : CharTest) :
    (n pos : Nat) → Except Fault (Option Nat)
  | 0, pos => .ok (some pos)
  | n + 1, pos => do
      match ← env.text.read i.direction pos with
      | none => return none
      | some (c, next) =>
          if ← env.passes test i.ignoreCase c then env.takeExactly i test n next
          else return none

/-- Takes characters that pass a test, at most `n` of them. The result is how many were taken, on
top of `taken`, and the position beyond them. -/
def takeUpTo (env : Surroundings) (i : Instruction) (test : CharTest) :
    (n taken pos : Nat) → Except Fault (Nat × Nat)
  | 0, taken, pos => .ok (taken, pos)
  | n + 1, taken, pos => do
      match ← env.text.read i.direction pos with
      | none => return (taken, pos)
      | some (c, next) =>
          if ← env.passes test i.ignoreCase c then env.takeUpTo i test n (taken + 1) next
          else return (taken, pos)

/-- Whether exactly one side of a position is a word character. -/
def isWordBoundary (env : Surroundings) (isWord : Char → Bool) (pos : Nat) : Except Fault Bool :=
  match env.text.cell? pos with
  | some (.boundary before after) => .ok (before.any isWord != after.any isWord)
  | _ => .error .outOfBounds

end Surroundings

namespace Machine

/-- Goes on when a condition holds, and backtracks when not. -/
@[inline] def check (m : Machine) (holds : Bool) : Move := if holds then .next m else .backtrack m

def unexpected {α : Type} (m : Machine) (i : Instruction) : Except Fault α :=
  .error (.unexpectedEntry i.opcode m.entry.kind m.address)

def lazybranch (i : Instruction) (m : Machine) : Except Fault Move :=
  match m.entry with
  | .forward => .ok (.next (m.leave m.cursor))
  | .backtracking saved => do return .jump (← i.jump) { m with cursor := saved.first }
  | _ => m.unexpected i

/-- Opens a group or a loop with the mark `v`. -/
def openMark (i : Instruction) (v : Int) (m : Machine) : Except Fault Move :=
  match m.entry with
  | .forward => .ok (.next (m.pushValue v).leave)
  | .backtracking _ => do return .backtrack (← m.popValue).2
  | _ => m.unexpected i

/-- Goes back to the latest mark. -/
def getmark (i : Instruction) (m : Machine) : Except Fault Move :=
  match m.entry with
  | .forward => do
      let (mark, m) ← m.popValue
      return .next { m.leave mark with cursor := mark }
  | .backtracking saved => .ok (.backtrack (m.pushValue saved.first))
  | _ => m.unexpected i

/-- Makes the captures of a group from the latest mark to the cursor. -/
def makeCaptures (group uncapture : Option Nat) (start stop : Nat) (c : Captures) :
    Except Fault Captures :=
  match group, uncapture with
  | group, some u => c.transfer group u start stop
  | some g, none => c.capture g start stop
  | none, none => .ok c

def capturemark (i : Instruction) (m : Machine) : Except Fault Move :=
  match m.entry with
  | .forward => do
      let (group, uncapture) ← i.capture
      if uncapture.any fun u => !m.captures.isMatched u then return .backtrack m
      let (mark, m) ← m.popValue
      let depth := m.captures.trail.depth
      let captures ← makeCaptures group uncapture (positionOf mark) m.position m.captures
      return .next ({ m with captures }.leave mark depth)
  | .backtracking saved => do
      let m := m.pushValue saved.first
      let captures ← m.captures.undoUntil (positionOf saved.second)
      return .backtrack { m with captures }
  | _ => m.unexpected i

/-- Closes a greedy loop: runs the body again unless its last run was empty. -/
def branchmark (i : Instruction) (m : Machine) : Except Fault Move :=
  match m.entry with
  | .forward => do
      let (mark, m) ← m.popValue
      if m.cursor != mark then
        let m := (m.leave mark m.cursor).pushValue m.cursor
        return .jump (← i.jump) m
      else return .next (m.leaveSecond mark)
  | .backtracking saved => do
      let (_, m) ← m.popValue
      return .next ({ m with cursor := saved.second }.leaveSecond saved.first)
  | .backtrackingSecond saved => .ok (.backtrack (m.pushValue saved.first))

/-- Closes a lazy loop: goes on, and runs the body again when sent back. -/
def lazybranchmark (i : Instruction) (m : Machine) : Except Fault Move :=
  match m.entry with
  | .forward => do
      let (mark, m) ← m.popValue
      if m.cursor != mark then
        let before := if mark != -1 then mark else m.cursor
        return .next (m.leave before m.cursor)
      else return .next ((m.pushValue mark).leaveSecond mark)
  | .backtracking saved => do
      let m := (m.leaveSecond saved.first).pushValue saved.second
      return .jump (← i.jump) { m with cursor := saved.second }
  | .backtrackingSecond saved => do
      let (_, m) ← m.popValue
      return .backtrack (m.pushValue saved.first)

/-- Opens a counted loop with the mark `v`. -/
def openCount (i : Instruction) (v : Int) (m : Machine) : Except Fault Move :=
  match m.entry with
  | .forward => do return .next (m.pushPair v (← i.count)).leave
  | .backtracking _ => do return .backtrack (← m.popPair).2
  | _ => m.unexpected i

/-- Closes a counted greedy loop. The count is negative until the minimum is reached. -/
def branchcount (i : Instruction) (m : Machine) : Except Fault Move :=
  match m.entry with
  | .forward => do
      let ((mark, count), m) ← m.popPair
      if (← i.limit) ≤ count || (m.cursor == mark && 0 ≤ count) then
        return .next (m.leaveSecond mark count)
      else
        let m := (m.leave mark).pushPair m.cursor (count + 1)
        return .jump (← i.jump) m
  | .backtracking saved => do
      let ((mark, count), m) ← m.popPair
      if 0 < count then
        return .next ({ m with cursor := mark }.leaveSecond saved.first (count - 1))
      else return .backtrack (m.pushPair saved.first (count - 1))
  | .backtrackingSecond saved => .ok (.backtrack (m.pushPair saved.first saved.second))

/-- Closes a counted lazy loop. -/
def lazybranchcount (i : Instruction) (m : Machine) : Except Fault Move :=
  match m.entry with
  | .forward => do
      let ((mark, count), m) ← m.popPair
      if count < 0 then
        let m := (m.leaveSecond mark).pushPair m.cursor (count + 1)
        return .jump (← i.jump) m
      else return .next (m.leave mark count m.cursor)
  | .backtracking saved => do
      let (mark, count, place) := (saved.first, saved.second, saved.third)
      if count < (← i.limit) && place != mark then
        let m := ({ m with cursor := place }.pushPair place (count + 1)).leaveSecond mark
        return .jump (← i.jump) m
      else return .backtrack (m.pushPair mark count)
  | .backtrackingSecond saved => do
      let ((_, count), m) ← m.popPair
      return .backtrack (m.pushPair saved.first (count - 1))

/-- Notes how deep the choice points and the trail are. -/
def setjump (i : Instruction) (m : Machine) : Except Fault Move :=
  match m.entry with
  | .forward => .ok (.next (m.pushPair m.choices.depth m.captures.trail.depth).leave)
  | .backtracking _ => do return .backtrack (← m.popPair).2
  | _ => m.unexpected i

/-- Drops the choice points and captures made since the latest `setjump`, and fails. -/
def backjump (i : Instruction) (m : Machine) : Except Fault Move :=
  match m.entry with
  | .forward => do
      let ((depth, trail), m) ← m.popPair
      let captures ← m.captures.undoUntil (positionOf trail)
      return .backtrack { m with choices := m.choices.truncate (positionOf depth), captures }
  | _ => m.unexpected i

/-- Drops the choice points made since the latest `setjump`, and goes on. -/
def forejump (i : Instruction) (m : Machine) : Except Fault Move :=
  match m.entry with
  | .forward => do
      let ((depth, trail), m) ← m.popPair
      return .next ({ m with choices := m.choices.truncate (positionOf depth) }.leave trail)
  | .backtracking saved => do
      let captures ← m.captures.undoUntil (positionOf saved.first)
      return .backtrack { m with captures }
  | _ => m.unexpected i

/-- Whether an assertion about a position holds; `none` for an opcode that is no assertion. -/
def assertion? (env : Surroundings) (pos : Nat) : Opcode → Option (Except Fault Bool)
  | .bol => some do
      if pos = 0 then return true
      env.text.checkOffset pos
      return env.text.charBefore? pos == some '\n'
  | .eol => some (.ok (env.text.size ≤ pos || env.text.charAt? pos == some '\n'))
  | .boundary => some (env.isWordBoundary Character.isBoundaryWord pos)
  | .nonBoundary => some do
      return !(← env.isWordBoundary Character.isBoundaryWord pos)
  | .ecmaBoundary => some (env.isWordBoundary Character.isEcmaWord pos)
  | .nonEcmaBoundary => some do return !(← env.isWordBoundary Character.isEcmaWord pos)
  | .beginning => some (.ok (pos == 0))
  | .start => some (.ok (pos == env.textStart))
  | .endZ => some do
      if pos = env.text.size then return true
      if lastPosition ≤ pos then throw .outOfBounds
      return pos + 1 == env.text.size && env.text.charAt? pos == some '\n'
  | .end => some (.ok (env.text.size ≤ pos))
  | _ => none

def char (env : Surroundings) (i : Instruction) (m : Machine) : Except Fault Move :=
  match m.entry with
  | .forward => do
      match ← env.text.read i.direction m.position with
      | none => return .backtrack m
      | some (c, next) =>
          if ← env.passes (← i.atom) i.ignoreCase c then return .next (m.moveTo next)
          else return .backtrack m
  | _ => m.unexpected i

/-- Moves on to a position, or backtracks where there is none. -/
def moveOn (m : Machine) : Option Nat → Move
  | some next => .next (m.moveTo next)
  | none => .backtrack m

def multi (env : Surroundings) (i : Instruction) (m : Machine) : Except Fault Move :=
  match m.entry with
  | .forward => do return m.moveOn (← env.readString i (← i.string) m.position)
  | _ => m.unexpected i

/-- Matches the visible capture of a group again. -/
def backreference (env : Surroundings) (i : Instruction) (m : Machine) : Except Fault Move :=
  match m.entry with
  | .forward => do
      let group ← i.group
      match m.captures.span? group with
      | some span =>
          let captured ← env.text.charsBetween span.start span.stop
          let captured := if i.ignoreCase then captured.map env.culture.fold else captured
          return m.moveOn (← env.readString i captured m.position)
      | none => return m.check env.program.options.ecmaScript
  | _ => m.unexpected i

def charRep (env : Surroundings) (i : Instruction) (m : Machine) : Except Fault Move :=
  match m.entry with
  | .forward => do
      let test ← i.atom
      let count ← i.count
      return m.moveOn (← env.takeExactly i test count.toNat m.position)
  | _ => m.unexpected i

/-- Takes as many characters as it can. What can be given back one at a time is how many were taken
and where the last of them starts. -/
def charLoop (env : Surroundings) (i : Instruction) (givesBack : Bool) (m : Machine) :
    Except Fault Move :=
  match m.entry with
  | .forward => do
      let test ← i.atom
      let count ← i.count
      let (taken, pos) ← env.takeUpTo i test count.toNat 0 m.position
      if 0 < taken then
        let m := m.moveTo pos
        if givesBack then
          let back ← env.text.bump i.direction.flip pos
          return .next (m.leave (taken - 1) (markOf back))
        else return .next m
      else return .next m
  | .backtracking saved =>
      if givesBack then do
        let m := { m with cursor := saved.second }
        if 0 < saved.first then
          let back ← env.text.bump i.direction.flip m.position
          return .next (m.leave (saved.first - 1) (markOf back))
        else return .next m
      else m.unexpected i
  | _ => m.unexpected i

/-- Takes nothing, and one character more each time it is sent back. -/
def charLazy (env : Surroundings) (i : Instruction) (m : Machine) : Except Fault Move :=
  match m.entry with
  | .forward => do
      let count ← i.count
      if 0 < count then
        match ← env.text.read i.direction m.position with
        | some _ => return .next (m.leave (count - 1) m.cursor)
        | none => return .next m
      else return .next m
  | .backtracking saved => do
      let m := { m with cursor := saved.second }
      match ← env.text.read i.direction m.position with
      | none => return .backtrack m
      | some (c, next) =>
          if ← env.passes (← i.atom) i.ignoreCase c then
            let m := m.moveTo next
            if 0 < saved.first then return .next (m.leave (saved.first - 1) m.cursor)
            else return .next m
          else return .backtrack m
  | _ => m.unexpected i

/-- An assertion about the cursor. -/
def assertion (env : Surroundings) (i : Instruction) (m : Machine) : Except Fault Move :=
  match m.entry with
  | .forward =>
      match assertion? env m.position i.opcode with
      | some holds => return m.check (← holds)
      | none => m.unexpected i
  | _ => m.unexpected i

def testBackreference (i : Instruction) (m : Machine) : Except Fault Move :=
  match m.entry with
  | .forward => do return m.check (m.captures.isMatched (← i.group))
  | _ => m.unexpected i

/-- What an instruction does. -/
def execute (env : Surroundings) (i : Instruction) (m : Machine) : Except Fault Move :=
  match i.opcode with
  | .stop => .ok (.stop m)
  | .nothing => .ok (.backtrack m)
  | .goto => do return .jump (← i.jump) m
  | .testBackreference => testBackreference i m
  | .lazybranch => lazybranch i m
  | .setmark => openMark i m.cursor m
  | .nullmark => openMark i (-1) m
  | .getmark => getmark i m
  | .capturemark => capturemark i m
  | .branchmark => branchmark i m
  | .lazybranchmark => lazybranchmark i m
  | .setcount => openCount i m.cursor m
  | .nullcount => openCount i (-1) m
  | .branchcount => branchcount i m
  | .lazybranchcount => lazybranchcount i m
  | .setjump => setjump i m
  | .backjump => backjump i m
  | .forejump => forejump i m
  | .char => char env i m
  | .multi => multi env i m
  | .backreference => backreference env i m
  | .charRep => charRep env i m
  | .charLoop => charLoop env i true m
  | .charLoopAtomic => charLoop env i false m
  | .charLazy => charLazy env i m
  | .bol | .eol | .boundary | .nonBoundary | .ecmaBoundary | .nonEcmaBoundary | .beginning
  | .start | .endZ | .end => assertion env i m

end Machine

end RegexMachine
