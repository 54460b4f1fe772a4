import RegexMachine.Proofs.Program.Composition

/-!
# Blocks

Which instructions stand between two addresses of a program when the layout of a node was put there.
A block is described from the outside: jumps lead where they must, and nothing is said of the order
in which the instructions were written or filled in.
-/

namespace RegexMachine

/-- What stands between a first address and the address behind the last instruction. -/
abbrev Block := (first last : Nat) → Prop

namespace Block

/-- An instruction that jumps. -/
def jumping (opcode : Opcode) (address : Nat) : Instruction :=
  { opcode, payload := .jump address }

section

variable (code : Array Instruction)

def one (i : Instruction) : Block := fun first last =>
  code[first]? = some i ∧ last = first + 1

def sequence : List Block → Block
  | [], first, last => first = last
  | part :: rest, first, last => ∃ middle, part first middle ∧ sequence rest middle last

def choice : List Block → Block
  | [], first, last => first = last
  | [part], first, last => part first last
  | part :: rest, first, last => ∃ exit,
      code[first]? = some (jumping .lazybranch (exit + 1)) ∧ part (first + 1) exit ∧
        code[exit]? = some (jumping .goto last) ∧ choice rest (exit + 1) last

/-- Where the body of a loop starts: behind the jump to the closer, if there is one. -/
def loopStart (min first : Nat) : Nat := if min = 0 then first + 2 else first + 1

def loop (min max : Nat) (isLazy : Bool) (body : Block) : Block := fun first last => ∃ closer,
  code[first]? = some (Emitter.loopOpener min max) ∧
    (min = 0 → code[first + 1]? = some (jumping .goto closer)) ∧
    body (loopStart min first) closer ∧
    code[closer]? = some (Emitter.loopCloser min max isLazy (loopStart min first)) ∧
    last = closer + 1

def capture (group uncapture : Option Nat) (body : Block) : Block := fun first last => ∃ closer,
  code[first]? = some { opcode := .setmark } ∧ body (first + 1) closer ∧
    code[closer]? = some { opcode := .capturemark, payload := .capture group uncapture } ∧
    last = closer + 1

def atomic (needsFrame : Bool) (body : Block) : Block := fun first last =>
  if needsFrame then ∃ closer,
    code[first]? = some { opcode := .setjump } ∧ body (first + 1) closer ∧
      code[closer]? = some { opcode := .forejump } ∧ last = closer + 1
  else body first last

def positiveLook (body : Block) : Block := fun first last => ∃ closer,
  code[first]? = some { opcode := .setjump } ∧ code[first + 1]? = some { opcode := .setmark } ∧
    body (first + 2) closer ∧ code[closer]? = some { opcode := .getmark } ∧
    code[closer + 1]? = some { opcode := .forejump } ∧ last = closer + 2

def negativeLook (body : Block) : Block := fun first last => ∃ closer,
  code[first]? = some { opcode := .setjump } ∧
    code[first + 1]? = some (jumping .lazybranch (closer + 1)) ∧
    body (first + 2) closer ∧ code[closer]? = some { opcode := .backjump } ∧
    code[closer + 1]? = some { opcode := .forejump } ∧ last = closer + 2

def backreferenceConditional (group : Nat) (yes no : Block) : Block := fun first last => ∃ exit,
  code[first]? = some { opcode := .setjump } ∧
    code[first + 1]? = some (jumping .lazybranch (exit + 1)) ∧
    code[first + 2]? = some { opcode := .testBackreference, payload := .group group } ∧
    code[first + 3]? = some { opcode := .forejump } ∧ yes (first + 4) exit ∧
    code[exit]? = some (jumping .goto last) ∧
    code[exit + 1]? = some { opcode := .forejump } ∧ no (exit + 2) last

def expressionConditional (condition yes no : Block) : Block := fun first last => ∃ closer exit,
  code[first]? = some { opcode := .setjump } ∧ code[first + 1]? = some { opcode := .setmark } ∧
    code[first + 2]? = some (jumping .lazybranch (exit + 1)) ∧ condition (first + 3) closer ∧
    code[closer]? = some { opcode := .getmark } ∧
    code[closer + 1]? = some { opcode := .forejump } ∧ yes (closer + 2) exit ∧
    code[exit]? = some (jumping .goto last) ∧
    code[exit + 1]? = some { opcode := .getmark } ∧
    code[exit + 2]? = some { opcode := .forejump } ∧ no (exit + 3) last

/-- No instructions at all. -/
def nothing : Block := fun first last => first = last

end

end Block

namespace LayoutContext

variable (ctx : LayoutContext) (program : Program)

/-- The test that a program writes for an atom. -/
def Tests (ignoreCase : Bool) (atom : Atom) (test : CharTest) : Prop :=
  let fold (c : Char) : Char := if ignoreCase then ctx.culture.fold c else c
  match atom with
  | .one c => test = .one (fold c)
  | .notOne c => test = .notOne (fold c)
  | .set k => ∃ index, test = .set index ∧
      program.classes[index]? = some (if ignoreCase then k.foldCase ctx.culture else k)

/-- The instruction for the optional part of a repeated character, if there is one. -/
def charTail (id : Nat) (min max : Nat) (isLazy : Bool) : Option Opcode :=
  if min < max then tailOpcode isLazy (ctx.analysis.isAtomicByAncestor id) else none

def charLoopBlock (id : Nat) (options : Options) (atom : Atom) (min max : Nat) (isLazy : Bool) :
    Block := fun first last => ∃ test middle, ctx.Tests program options.ignoreCase atom test ∧
  (if 0 < min then
      Block.one program.instructions (consuming options .charRep (.atomCount test min)) first middle
    else first = middle) ∧
  match ctx.charTail id min max isLazy with
  | some opcode => Block.one program.instructions
      (consuming options opcode (.atomCount test (Emitter.extra min max))) middle last
  | none => middle = last

/-- The block of a node around the blocks of its children. -/
def blockOf (id : Nat) (options : Options) (kind : Kind) (children : List Node)
    (parts : List Block) : Block :=
  let code := program.instructions
  let fold (c : Char) : Char := if options.ignoreCase then ctx.culture.fold c else c
  match kind, children, parts with
  | .empty, [], _ => Block.nothing
  | .nothing, [], _ => Block.one code { opcode := .nothing }
  | .char atom, [], _ => fun first last => ∃ test, ctx.Tests program options.ignoreCase atom test ∧
      Block.one code (consuming options .char (.atom test)) first last
  | .multi chars, [], _ => Block.one code (consuming options .multi (.multi (chars.map fold)))
  | .charLoop atom min max isLazy, [], _ =>
      ctx.charLoopBlock program id options atom min max isLazy
  | .backreference group, [], _ =>
      Block.one code (consuming options .backreference (.group group))
  | .anchor anchor, [], _ => Block.one code { opcode := anchorOpcode anchor }
  | .concat, _ :: _, parts =>
      match options.direction with
      | .forward => Block.sequence parts
      | .backward => Block.sequence parts.reverse
  | .alternate, _ :: _, parts => Block.choice code parts
  | .loop min max isLazy, _, [body] => Block.loop code min max isLazy body
  | .capture group uncapture, _, [body] => Block.capture code group uncapture body
  | .atomic, [child], [body] => Block.atomic code (ctx.needsFrame child) body
  | .positiveLook, _, [body] => Block.positiveLook code body
  | .negativeLook, _, [body] => Block.negativeLook code body
  | .backreferenceConditional group, _, [yes] =>
      Block.backreferenceConditional code group yes Block.nothing
  | .backreferenceConditional group, _, [yes, no] =>
      Block.backreferenceConditional code group yes no
  | .expressionConditional, _, [condition, yes] =>
      Block.expressionConditional code condition yes Block.nothing
  | .expressionConditional, _, [condition, yes, no] =>
      Block.expressionConditional code condition yes no
  | _, _, _ => fun _ _ => False

mutual

/-- The block of a node. -/
def block : Node → Block
  | .node id options kind children =>
      ctx.blockOf program id options kind children (blocks children)

def blocks : List Node → List Block
  | [] => []
  | n :: rest => block n :: blocks rest

end

theorem blocks_eq_map (ns : List Node) : ctx.blocks program ns = ns.map (ctx.block program) := by
  induction ns with
  | nil => rfl
  | cons n rest ih => rw [blocks, ih, List.map_cons]

theorem block_node (id : Nat) (options : Options) (kind : Kind) (children : List Node) :
    ctx.block program (.node id options kind children) =
      ctx.blockOf program id options kind children (children.map (ctx.block program)) := by
  rw [block, blocks_eq_map]

theorem emitters_eq_map (ns : List Node) : ctx.emitters ns = ns.map ctx.emitNode := by
  induction ns with
  | nil => rfl
  | cons n rest ih => rw [emitters, ih, List.map_cons]

end LayoutContext

end RegexMachine
