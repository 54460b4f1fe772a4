import RegexMachine.CharClass
import RegexMachine.Options
import RegexMachine.Tree.GroupNames

/-!
# Pattern trees

A pattern is a rose tree of nodes. Each node has a number, the options in force at it and a kind.
A builder may use one node in several places; every occurrence is then a node of the tree with the
same number, so a number names a node as built and not an occurrence.
-/

namespace RegexMachine

/-- The largest repetition bound; it stands for no bound at all. -/
def unbounded : Nat := 0x7fffffff

/-- A test of a single character. -/
inductive Atom where
  | one (c : Char)
  | notOne (c : Char)
  | set (k : CharClass)
  deriving DecidableEq, Repr, Inhabited

/-- Assertions about a position. -/
inductive Anchor where
  /-- At the start of a line. -/
  | bol
  /-- At the end of a line. -/
  | eol
  /-- At the start of the text. -/
  | beginning
  /-- Where the scan began. -/
  | start
  /-- At the end of the text, or before a line feed that ends it. -/
  | endZ
  /-- At the end of the text. -/
  | «end»
  | boundary
  | nonBoundary
  | ecmaBoundary
  | nonEcmaBoundary
  deriving DecidableEq, Repr, Inhabited

/-- What a node is, apart from its children. -/
inductive Kind where
  /-- Matches the empty string. -/
  | empty
  /-- Never matches. -/
  | nothing
  | char (atom : Atom)
  /-- A string of two or more characters. -/
  | multi (chars : List Char)
  /-- A repeated single character. -/
  | charLoop (atom : Atom) (min max : Nat) (isLazy : Bool)
  /-- Repetition of the only child. -/
  | loop (min max : Nat) (isLazy : Bool)
  /-- A capture group; with `uncapture` it cancels the latest capture of that group. -/
  | capture (group uncapture : Option Nat)
  /-- The children one after the other, in reading order in either direction. -/
  | concat
  | alternate
  /-- The child is not entered again once it has matched. -/
  | atomic
  | backreference (group : Nat)
  | positiveLook
  | negativeLook
  /-- The children are what to match when the group took part and, optionally, when not. -/
  | backreferenceConditional (group : Nat)
  /-- The children are the condition, what to match when it holds and, optionally, when not. -/
  | expressionConditional
  | anchor (a : Anchor)
  deriving DecidableEq, Repr, Inhabited

inductive Node where
  | node (id : Nat) (options : Options) (kind : Kind) (children : List Node)
  deriving Inhabited

namespace Node

def id : Node → Nat
  | node id _ _ _ => id

def options : Node → Options
  | node _ options _ _ => options

def kind : Node → Kind
  | node _ _ kind _ => kind

def children : Node → List Node
  | node _ _ _ children => children

def direction (n : Node) : Direction := n.options.direction

def isEmpty (n : Node) : Bool := n.kind == .empty

mutual

/-- The occurrences under a node, each before its children, put in front of `rest`. -/
def preorderOnto : Node → List Node → List Node
  | node id options kind children, rest =>
      node id options kind children :: forestOnto children rest

def forestOnto : List Node → List Node → List Node
  | [], rest => rest
  | n :: ns, rest => preorderOnto n (forestOnto ns rest)

end

/-- Every occurrence, each before its children. -/
def preorder (n : Node) : List Node := preorderOnto n []

mutual

/-- The number of nodes on the longest path down. -/
def height : Node → Nat
  | node _ _ _ children => forestHeight children + 1

def forestHeight : List Node → Nat
  | [] => 0
  | n :: ns => max (height n) (forestHeight ns)

end

end Node

/-- A finished pattern. The root is the capture of group 0. -/
structure Tree where
  root : Node
  /-- How many nodes were built, those that are not in the tree included. -/
  nodeCount : Nat
  /-- The number of capture groups, group 0 included. -/
  groupCount : Nat
  names : GroupNames
  options : Options
  deriving Inhabited

def Tree.direction (t : Tree) : Direction := t.options.direction

end RegexMachine
