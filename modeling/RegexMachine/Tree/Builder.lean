import RegexMachine.Tree.Basic

/-!
# Building trees

A builder makes nodes bottom-up and hands out their numbers. A node may be used in several places;
options added to it later hold in all of them. Entries refer only to entries made before them, so
one pass in the order of the numbers turns them into a tree.

Trivial constructs are reduced as they are built: a string of one character is that character, a
sequence or choice of one is its only part, a repetition from one to one is its child, and a
repeated single character is a node of its own kind.
-/

namespace RegexMachine

/-- A node under construction; its children are the numbers of earlier nodes. -/
structure Entry where
  kind : Kind
  children : List Nat := []
  options : Options
  deriving Inhabited

structure Builder where
  /-- The options of the whole pattern, and of every node when it is made. -/
  options : Options
  entries : Array Entry := #[]
  names : GroupNames := {}
  /-- The largest group number that was mentioned. -/
  maxGroup : Nat := 0
  deriving Inhabited

/-- A step of building, such as making one node. -/
abbrev Build (α : Type) := StateM Builder α

namespace Builder

def push (kind : Kind) (children : List Nat) : Build Nat := fun b =>
  (b.entries.size, { b with entries := b.entries.push { kind, children, options := b.options } })

/-- Adds options to an entry and to all that lies under it, at most `depth` levels of it. What lies
under an entry has all the options of that entry, so an entry that has them is left alone. -/
def spreadOptions (added : Options) : (depth : Nat) → Array Entry → Nat → Array Entry
  | 0, entries, _ => entries
  | depth + 1, entries, id =>
      match entries[id]? with
      | none => entries
      | some e =>
          if e.options.includes added then entries
          else
            e.children.foldl (spreadOptions added depth)
              (entries.modify id fun e => { e with options := e.options.union added })

/-- Adds options to a node and to all that lies under it. Children have smaller numbers than their
parents, so no path down from a node is longer than its number. -/
def addOptionsUnder (added : Options) (id : Nat) : Build Unit := modify fun b =>
  { b with entries := spreadOptions added (id + 1) b.entries id }

def noteGroup (group : Nat) : Build Unit := modify fun b =>
  { b with maxGroup := max b.maxGroup group }

def empty : Build Nat := push .empty []

def nothing : Build Nat := push .nothing []

def atom (a : Atom) : Build Nat := push (.char a) []

def one (c : Char) : Build Nat := atom (.one c)

def notOne (c : Char) : Build Nat := atom (.notOne c)

def set (k : CharClass) : Build Nat := atom (.set k)

/-- A literal string. -/
def multi : List Char → Build Nat
  | [] => empty
  | [c] => one c
  | chars => push (.multi chars) []

def anchor (a : Anchor) : Build Nat := push (.anchor a) []

/-- A repetition; a repeated single character keeps the options of that character's node. -/
def quantify (child min max : Nat) (isLazy : Bool) : Build Nat := do
  if min = 1 && max = 1 then return child
  match (← get).entries[child]? with
  | some { kind := .char a, options, .. } =>
      let id ← push (.charLoop a min max isLazy) []
      modify fun b => { b with entries := b.entries.modify id fun e => { e with options } }
      return id
  | _ => push (.loop min max isLazy) [child]

def repeated (child min max : Nat) : Build Nat := quantify child min max false

def repeatedLazy (child min max : Nat) : Build Nat := quantify child min max true

def star (child : Nat) : Build Nat := repeated child 0 unbounded

def plus (child : Nat) : Build Nat := repeated child 1 unbounded

def optional (child : Nat) : Build Nat := repeated child 0 1

def lazyStar (child : Nat) : Build Nat := repeatedLazy child 0 unbounded

def lazyPlus (child : Nat) : Build Nat := repeatedLazy child 1 unbounded

/-- A numbered group; group 0 is kept for the whole match. -/
def capture (group child : Nat) : Build Nat := do
  noteGroup group
  push (.capture (some group) none) [child]

def namedCapture (group : Nat) (name : String) (child : Nat) : Build Nat := do
  modify fun b => { b with names := b.names.insert name group }
  capture group child

/-- A balancing group: cancels the latest capture of `uncapture` and, when `group` is given,
captures what lies between that capture and this one. -/
def balancing (group : Option Nat) (uncapture child : Nat) : Build Nat := do
  group.forM noteGroup
  noteGroup uncapture
  push (.capture group (some uncapture)) [child]

def concat : List Nat → Build Nat
  | [] => empty
  | [child] => pure child
  | children => push .concat children

def alternate : List Nat → Build Nat
  | [] => nothing
  | [child] => pure child
  | children => push .alternate children

def atomic (child : Nat) : Build Nat := push .atomic [child]

def backreference (group : Nat) : Build Nat := do
  noteGroup group
  push (.backreference group) []

def lookahead (child : Nat) : Build Nat := push .positiveLook [child]

def negativeLookahead (child : Nat) : Build Nat := push .negativeLook [child]

/-- A lookaround whose child is matched backward, up to the current position. -/
def lookBack (kind : Kind) (child : Nat) : Build Nat := do
  addOptionsUnder { rightToLeft := true } child
  let id ← push kind [child]
  addOptionsUnder { rightToLeft := true } id
  return id

def lookbehind (child : Nat) : Build Nat := lookBack .positiveLook child

def negativeLookbehind (child : Nat) : Build Nat := lookBack .negativeLook child

def backreferenceConditional (group yes : Nat) (no : Option Nat) : Build Nat := do
  noteGroup group
  push (.backreferenceConditional group) (yes :: no.toList)

def expressionConditional (condition yes : Nat) (no : Option Nat) : Build Nat :=
  push .expressionConditional (condition :: yes :: no.toList)

/-- Ignores case in a node and in all that lies under it. -/
def ignoreCase (child : Nat) : Build Nat := do
  addOptionsUnder { ignoreCase := true } child
  return child

/-- Adds the node of the next entry to the nodes of the entries before it. -/
def addNode (nodes : Array Node) (e : Entry) : Array Node :=
  nodes.push (.node nodes.size e.options e.kind (e.children.filterMap (nodes[·]?)))

/-- The nodes of all entries, by number. -/
def nodes (entries : Array Entry) : Array Node := entries.foldl addNode #[]

/-- The pattern with this body. -/
def finish (body : Nat) (b : Builder) : Tree :=
  let (root, b) := push (.capture (some 0) none) [body] b
  { root := ((nodes b.entries)[root]?).getD default
    nodeCount := b.entries.size
    groupCount := b.maxGroup + 1
    names := b.names
    options := b.options }

end Builder

/-- Runs the steps that make a body and finishes the tree. -/
def Tree.build (options : Options) (body : Build Nat) : Tree :=
  let (id, b) := body.run { options }
  b.finish id

end RegexMachine
