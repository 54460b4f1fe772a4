import RegexMachine.Program.Basic

/-!
# Layout

How a tree is laid out as a program. Every node becomes one run of instructions around those of its
children:

* sequence: the parts in the order they are run, the last one first when matched backward;
* choice: `Lazybranch next; part; Goto end; next: ...; last part; end:`;
* loop: a mark or a count, `Goto closing` when no iteration is needed, the body, and a closing
  branch back to the body; counted unless the loop is `*` or `+`;
* capture: `Setmark; body; Capturemark`;
* atomic group: `Setjump; body; Forejump`, or the bare body when that leaves nothing to backtrack
  into;
* lookaround: `Setjump; Setmark; body; Getmark; Forejump`, and when it is negative
  `Setjump; Lazybranch next; body; Backjump; next: Forejump`;
* conditional on a group:
  `Setjump; Lazybranch next; TestBackreference; Forejump; yes; Goto end; next: Forejump; no; end:`;
* conditional on an expression:
  `Setjump; Setmark; Lazybranch next; condition; Getmark; Forejump; yes; Goto end;
  next: Getmark; Forejump; no; end:`.

The program starts with a `Lazybranch` to the final `Stop`, where an attempt ends when every path
has failed.

The tree is walked with a stack of the constructs that are open. A jump forward is written before its
target is known: its address waits in one list, which all open constructs share, until the target is
filled in. The starts of loop bodies wait in the same list.
-/

namespace RegexMachine

/-- How a tree is compiled. -/
structure CompileConfig where
  /-- The depth limit of the analysis. -/
  analysisDepthLimit : Nat := Analysis.defaultDepthLimit
  /-- Refuse a tree whose analysis is incomplete. -/
  strictAnalysis : Bool := false
  deriving DecidableEq, Repr, Inhabited

/-- A program under construction. -/
structure Assembly where
  instructions : Array Instruction := #[]
  classes : Array CharClass := #[]
  deriving Inhabited

namespace Assembly

/-- The address of the next instruction. -/
def here (a : Assembly) : Nat := a.instructions.size

def emit (a : Assembly) (i : Instruction) : Assembly :=
  { a with instructions := a.instructions.push i }

def op (a : Assembly) (opcode : Opcode) : Assembly := a.emit { opcode }

def jump (a : Assembly) (opcode : Opcode) (address : Nat) : Assembly :=
  a.emit { opcode, payload := .jump address }

/-- A jump whose target is not known yet. -/
def jumpAhead (a : Assembly) (opcode : Opcode) : Assembly := a.jump opcode 0

/-- Lets the jump at `address` lead to `target`. -/
def patch (a : Assembly) (address target : Nat) : Assembly :=
  { a with instructions := a.instructions.modify address (·.withTarget target) }

/-- Adds a class to the table. -/
def addClass (a : Assembly) (k : CharClass) : Assembly :=
  { a with classes := a.classes.push k }

end Assembly

/-- Appends the instructions of some part of a tree. -/
abbrev Emitter := Assembly → Except Error Assembly

namespace Emitter

/-- Whether a loop keeps a count, and not only a mark. -/
def isCounted (min max : Nat) : Bool := max < unbounded || 1 < min

/-- How often a repetition may go on beyond its minimum. -/
def extra (min max : Nat) : Nat := if max = unbounded then unbounded else max - min

/-- The instruction that opens a loop. -/
def loopOpener (min max : Nat) : Instruction :=
  if isCounted min max then
    if min = 0 then { opcode := .nullcount, payload := .count 0 }
    else { opcode := .setcount, payload := .count (1 - min) }
  else if min = 0 then { opcode := .nullmark }
  else { opcode := .setmark }

/-- The instruction that closes a loop and leads back to its body. -/
def loopCloser (min max : Nat) (isLazy : Bool) (body : Nat) : Instruction :=
  if isCounted min max then
    { opcode := if isLazy then .lazybranchcount else .branchcount
      payload := .countedJump body (extra min max) }
  else
    { opcode := if isLazy then .lazybranchmark else .branchmark
      payload := .jump body }

end Emitter

/-- What the layout of a node depends on beside the node. -/
structure LayoutContext where
  analysis : Analysis
  culture : Culture

namespace LayoutContext

/-- An instruction that consumes text, with the direction and case of its node. -/
def consuming (options : Options) (opcode : Opcode) (payload : Payload) : Instruction :=
  { opcode, payload, direction := options.direction, ignoreCase := options.ignoreCase }

/-- A character test as programs write it; a class is added to the table. -/
def test (ctx : LayoutContext) (ignoreCase : Bool) (atom : Atom) (a : Assembly) :
    CharTest × Assembly :=
  let fold (c : Char) : Char := if ignoreCase then ctx.culture.fold c else c
  match atom with
  | .one c => (.one (fold c), a)
  | .notOne c => (.notOne (fold c), a)
  | .set k =>
      (.set a.classes.size, a.addClass (if ignoreCase then k.foldCase ctx.culture else k))

/-- The opcode for the optional part of a repeated character. In atomic position nothing that
follows can ask for another count, so a lazy repetition stops at its minimum. -/
def tailOpcode (isLazy atomic : Bool) : Option Opcode :=
  match isLazy, atomic with
  | true, true => none
  | true, false => some .charLazy
  | false, true => some .charLoopAtomic
  | false, false => some .charLoop

def charLoop (ctx : LayoutContext) (id : Nat) (options : Options) (atom : Atom) (min max : Nat)
    (isLazy : Bool) : Emitter := fun a =>
  let (test, a) := ctx.test options.ignoreCase atom a
  let a := if 0 < min then a.emit (consuming options .charRep (.atomCount test min)) else a
  if min < max then
    match tailOpcode isLazy (ctx.analysis.isAtomicByAncestor id) with
    | some opcode =>
        .ok (a.emit (consuming options opcode (.atomCount test (Emitter.extra min max))))
    | none => .ok a
  else .ok a

def anchorOpcode : Anchor → Opcode
  | .bol => .bol
  | .eol => .eol
  | .beginning => .beginning
  | .start => .start
  | .endZ => .endZ
  | .end => .end
  | .boundary => .boundary
  | .nonBoundary => .nonBoundary
  | .ecmaBoundary => .ecmaBoundary
  | .nonEcmaBoundary => .nonEcmaBoundary

/-- Whether a construct matches at most one way and leaves no choice point. -/
def isSingleStep : Kind → Bool
  | .empty | .nothing | .char _ | .multi _ | .anchor _ | .backreference _ => true
  | _ => false

/-- Whether an atomic group must cut off choice points that its body leaves. -/
def needsFrame (ctx : LayoutContext) (body : Node) : Bool :=
  match body.kind with
  | .charLoop _ _ _ _ => !ctx.analysis.isAtomicByAncestor body.id
  | kind => !isSingleStep kind

/-- A tree that cannot be written. -/
def malformed (id : Nat) (what : String) : Error :=
  .internal ("malformed tree at node " ++ toString id ++ ": " ++ what)

/-- A node without children. -/
def leaf (ctx : LayoutContext) (id : Nat) (options : Options) (kind : Kind) : Emitter := fun a =>
  match kind with
  | .empty => .ok a
  | .nothing => .ok (a.op .nothing)
  | .char atom =>
      let (test, a) := ctx.test options.ignoreCase atom a
      .ok (a.emit (consuming options .char (.atom test)))
  | .multi chars =>
      let chars := if options.ignoreCase then chars.map ctx.culture.fold else chars
      .ok (a.emit (consuming options .multi (.multi chars)))
  | .charLoop atom min max isLazy => ctx.charLoop id options atom min max isLazy a
  | .backreference group => .ok (a.emit (consuming options .backreference (.group group)))
  | .anchor anchor => .ok (a.op (anchorOpcode anchor))
  | _ => .error (malformed id "construct without children")

end LayoutContext

/-- Whether a construct may have `n` children, when it has any. -/
def Kind.takes (kind : Kind) (n : Nat) : Bool :=
  match kind with
  | .loop _ _ _ | .capture _ _ | .atomic | .positiveLook | .negativeLook => n == 1
  | .backreferenceConditional _ => n == 1 || n == 2
  | .expressionConditional => n == 2 || n == 3
  | .concat | .alternate => true
  | _ => false

namespace Node

/-- The children in the order they are written: the last one first in a sequence that is matched
backward. -/
def parts (n : Node) : List Node :=
  match n.kind, n.direction with
  | .concat, .backward => n.children.reverse
  | _, _ => n.children

mutual

/-- The turns of a walk around a node: one down to each child, and one to leave the node. -/
def turns : Node → Nat
  | node _ _ _ children => turnsAmong children + 1

def turnsAmong : List Node → Nat
  | [] => 0
  | n :: rest => turns n + 1 + turnsAmong rest

end

end Node

/-- A writer at work. -/
structure Writer where
  assembly : Assembly := {}
  /-- The addresses that the open constructs still need, latest first: of jumps that lead nowhere
  yet, and of loop bodies. -/
  patches : List Nat := []

namespace Writer

def emit (w : Writer) (i : Instruction) : Writer := { w with assembly := w.assembly.emit i }

def op (w : Writer) (opcode : Opcode) : Writer := w.emit { opcode }

def append (w : Writer) (part : Emitter) : Except Error Writer :=
  match w with
  | ⟨a, patches⟩ => do return ⟨← part a, patches⟩

/-- Keeps the address of the next instruction. -/
def keepHere (w : Writer) : Writer := { w with patches := w.assembly.here :: w.patches }

/-- A jump whose target is not known yet. -/
def jumpAhead (w : Writer) (opcode : Opcode) : Writer :=
  let w := w.keepHere
  { w with assembly := w.assembly.jumpAhead opcode }

/-- The address that was kept last, for node `id`. -/
def popPatch (id : Nat) (w : Writer) : Except Error (Nat × Writer) :=
  match w.patches with
  | [] => .error (LayoutContext.malformed id "unbalanced jump bookkeeping")
  | address :: rest => .ok (address, { w with patches := rest })

/-- Lets the jump at `address` lead to `target`. Nothing else has a target to fill in. -/
def patch (w : Writer) (address target : Nat) : Except Error Writer :=
  if (w.assembly.instructions[address]?).any Instruction.jumps then
    .ok { w with assembly := w.assembly.patch address target }
  else .error (.internal ("patching a non-jump op at " ++ toString address))

/-- Lets the jump that was kept last lead to the next instruction. -/
def patchEnd (id : Nat) (w : Writer) : Except Error Writer := do
  let (address, w) ← w.popPatch id
  w.patch address w.assembly.here

/-- The same for the `n` jumps that were kept last. -/
def patchEnds (id : Nat) : (n : Nat) → Writer → Except Error Writer
  | 0, w => .ok w
  | n + 1, w => do patchEnds id n (← w.patchEnd id)

/-- Between two alternatives: the first one jumps to the end, and the branch that was kept last leads
to the second. -/
def switch (id : Nat) (w : Writer) : Except Error Writer := do
  let (branch, w) ← w.popPatch id
  let w := w.jumpAhead .goto
  w.patch branch w.assembly.here

end Writer

namespace LayoutContext

/-- Whether the body of an atomic group must be framed. -/
def isFramed (ctx : LayoutContext) (n : Node) : Bool := n.children.head?.any ctx.needsFrame

/-- Writes what stands before part number `index` of a construct. -/
def beforeChild (ctx : LayoutContext) (n : Node) (index : Nat) (isLast : Bool) (w : Writer) :
    Except Error Writer :=
  match n.kind with
  | .concat => .ok w
  | .alternate => .ok (if isLast then w else w.jumpAhead .lazybranch)
  | .loop min max _ =>
      let w := w.emit (Emitter.loopOpener min max)
      let w := if min = 0 then w.jumpAhead .goto else w
      .ok w.keepHere
  | .capture _ _ => .ok (w.op .setmark)
  | .atomic => .ok (if ctx.isFramed n then w.op .setjump else w)
  | .positiveLook => .ok ((w.op .setjump).op .setmark)
  | .negativeLook => .ok ((w.op .setjump).jumpAhead .lazybranch)
  | .backreferenceConditional group =>
      .ok (if index = 0 then
          (((w.op .setjump).jumpAhead .lazybranch).emit
            { opcode := .testBackreference, payload := .group group }).op .forejump
        else w)
  | .expressionConditional =>
      .ok (if index = 0 then ((w.op .setjump).op .setmark).jumpAhead .lazybranch else w)
  | _ => .error (malformed n.id "leaf kind with children")

/-- Writes what stands behind part number `index` of a construct. -/
def afterChild (ctx : LayoutContext) (n : Node) (index : Nat) (isLast : Bool) (w : Writer) :
    Except Error Writer :=
  match n.kind with
  | .concat => .ok w
  | .alternate => if isLast then w.patchEnds n.id index else w.switch n.id
  | .loop min max isLazy => do
      let (body, w) ← w.popPatch n.id
      let w := w.emit (Emitter.loopCloser min max isLazy body)
      if min = 0 then
        let (skip, w) ← w.popPatch n.id
        -- The closer is the last instruction so far.
        w.patch skip (w.assembly.here - 1)
      else return w
  | .capture group uncapture =>
      .ok (w.emit { opcode := .capturemark, payload := .capture group uncapture })
  | .atomic => .ok (if ctx.isFramed n then w.op .forejump else w)
  | .positiveLook => .ok ((w.op .getmark).op .forejump)
  | .negativeLook => do
      let w ← (w.op .backjump).patchEnd n.id
      return w.op .forejump
  | .backreferenceConditional _ =>
      if index = 0 then do
        let w := (← w.switch n.id).op .forejump
        if isLast then w.patchEnd n.id else return w
      else w.patchEnd n.id
  | .expressionConditional =>
      if index = 0 then .ok ((w.op .getmark).op .forejump)
      else if index = 1 then do
        let w := ((← w.switch n.id).op .getmark).op .forejump
        if isLast then w.patchEnd n.id else return w
      else w.patchEnd n.id
  | _ => .error (malformed n.id "leaf kind with children")

/-- A construct whose part number `index` is being written, with the parts behind that. -/
structure OpenNode where
  node : Node
  index : Nat
  rest : List Node

/-- Walks around a node from part number `index` on, with the parts that are left of it, inside the
constructs that are open, the innermost first. -/
def walk (ctx : LayoutContext) : (turns : Nat) → (n : Node) → (index : Nat) → (rest : List Node) →
    (parents : List OpenNode) → Writer → Except Error Writer
  | 0, n, _, _, _, _ => .error (malformed n.id "the walk goes on")
  | turns + 1, n, index, part :: rest, parents, w => do
      if index = 0 && !n.kind.takes n.children.length then
        throw (malformed n.id "unexpected number of children")
      let w ← ctx.beforeChild n index rest.isEmpty w
      walk ctx turns part 0 part.parts (⟨n, index, rest⟩ :: parents) w
  | turns + 1, n, _, [], parents, w => do
      let w ← if n.children.isEmpty then w.append (ctx.leaf n.id n.options n.kind) else .ok w
      match parents with
      | [] => return w
      | ⟨parent, index, rest⟩ :: parents => do
          let w ← ctx.afterChild parent index rest.isEmpty w
          walk ctx turns parent (index + 1) rest parents w

/-- Writes the whole program of a pattern. -/
def write (ctx : LayoutContext) (root : Node) : Except Error Writer := do
  let w ← ctx.walk root.turns root 0 root.parts [] { assembly := Assembly.jumpAhead {} .lazybranch }
  let w ← w.patch 0 w.assembly.here
  return w.op .stop

end LayoutContext

/-- Analyses a tree and lays it out as a program. -/
def Program.compile (t : Tree) (culture : Culture) (config : CompileConfig) :
    Except Error Program := do
  let analysis := Analysis.ofTree t config.analysisDepthLimit
  if !analysis.isComplete && config.strictAnalysis then
    throw (.analysisIncomplete config.analysisDepthLimit)
  let w ← LayoutContext.write { analysis, culture } t.root
  return {
    instructions := w.assembly.instructions
    classes := w.assembly.classes
    groupCount := t.groupCount
    names := t.names
    options := t.options
    filter := StartFilter.ofTree t culture
    analysis }

end RegexMachine
