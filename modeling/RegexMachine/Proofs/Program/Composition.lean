import RegexMachine.Program.Layout

/-!
# Layout by composition

The layout of a node put together from the layouts of its children. Every construct keeps the addresses
of its own jumps and fills them in itself.
-/

namespace RegexMachine

/-- Lets the jump at `address` lead to the next instruction. -/
def Assembly.land (a : Assembly) (address : Nat) : Assembly := a.patch address a.here

namespace Emitter

/-- Appends the parts one after the other. -/
def sequence : List Emitter → Emitter
  | [], a => .ok a
  | part :: rest, a => do sequence rest (← part a)

/-- Appends a choice between the parts, in order of preference. -/
def choice : List Emitter → Emitter
  | [], a => .ok a
  | [part], a => part a
  | part :: rest, a => do
      let branch := a.here
      let a ← part (a.jumpAhead .lazybranch)
      let exit := a.here
      let a := (a.jumpAhead .goto).land branch
      let a ← choice rest a
      return a.land exit

def loop (min max : Nat) (isLazy : Bool) (body : Emitter) : Emitter := fun a => do
  let a := a.emit (loopOpener min max)
  let skip := a.here
  let a := if min = 0 then a.jumpAhead .goto else a
  let start := a.here
  let a ← body a
  let a := if min = 0 then a.land skip else a
  return a.emit (loopCloser min max isLazy start)

def capture (group uncapture : Option Nat) (body : Emitter) : Emitter := fun a => do
  let a ← body (a.op .setmark)
  return a.emit { opcode := .capturemark, payload := .capture group uncapture }

def atomic (needsFrame : Bool) (body : Emitter) : Emitter := fun a =>
  if needsFrame then do
    let a ← body (a.op .setjump)
    return a.op .forejump
  else body a

def positiveLook (body : Emitter) : Emitter := fun a => do
  let a ← body ((a.op .setjump).op .setmark)
  return (a.op .getmark).op .forejump

def negativeLook (body : Emitter) : Emitter := fun a => do
  let a := a.op .setjump
  let branch := a.here
  let a ← body (a.jumpAhead .lazybranch)
  return ((a.op .backjump).land branch).op .forejump

def backreferenceConditional (group : Nat) (yes no : Emitter) : Emitter := fun a => do
  let a := a.op .setjump
  let branch := a.here
  let a := (a.jumpAhead .lazybranch).emit
    { opcode := .testBackreference, payload := .group group }
  let a ← yes (a.op .forejump)
  let exit := a.here
  let a ← no (((a.jumpAhead .goto).land branch).op .forejump)
  return a.land exit

def expressionConditional (condition yes no : Emitter) : Emitter := fun a => do
  let a := (a.op .setjump).op .setmark
  let branch := a.here
  let a ← condition (a.jumpAhead .lazybranch)
  let a ← yes ((a.op .getmark).op .forejump)
  let exit := a.here
  let a ← no ((((a.jumpAhead .goto).land branch).op .getmark).op .forejump)
  return a.land exit

end Emitter

namespace LayoutContext

/-- A node around the children `parts`. -/
def construct (ctx : LayoutContext) (id : Nat) (options : Options) (kind : Kind)
    (children : List Node) (parts : List Emitter) : Emitter := fun a =>
  match kind, children, parts with
  | .concat, _, _ =>
      match options.direction with
      | .forward => Emitter.sequence parts a
      | .backward => Emitter.sequence parts.reverse a
  | .alternate, _, _ => Emitter.choice parts a
  | .loop min max isLazy, _, [body] => Emitter.loop min max isLazy body a
  | .capture group uncapture, _, [body] => Emitter.capture group uncapture body a
  | .atomic, [child], [body] => Emitter.atomic (ctx.needsFrame child) body a
  | .positiveLook, _, [body] => Emitter.positiveLook body a
  | .negativeLook, _, [body] => Emitter.negativeLook body a
  | .backreferenceConditional group, _, [yes] =>
      Emitter.backreferenceConditional group yes .ok a
  | .backreferenceConditional group, _, [yes, no] =>
      Emitter.backreferenceConditional group yes no a
  | .expressionConditional, _, [condition, yes] =>
      Emitter.expressionConditional condition yes .ok a
  | .expressionConditional, _, [condition, yes, no] =>
      Emitter.expressionConditional condition yes no a
  | _, _, _ => .error (malformed id "unexpected number of children")

mutual

/-- Appends the instructions of a node. -/
def emitNode (ctx : LayoutContext) : Node → Emitter
  | .node id options kind [], a => ctx.leaf id options kind a
  | .node id options kind (child :: rest), a =>
      ctx.construct id options kind (child :: rest) (emitters ctx (child :: rest)) a

def emitters (ctx : LayoutContext) : List Node → List Emitter
  | [] => []
  | n :: rest => emitNode ctx n :: emitters ctx rest

end

/-- Appends the whole program of a pattern. -/
def emitPattern (ctx : LayoutContext) (root : Node) : Emitter := fun a => do
  let opening := a.here
  let a ← ctx.emitNode root (a.jumpAhead .lazybranch)
  return (a.land opening).op .stop

end LayoutContext

end RegexMachine
