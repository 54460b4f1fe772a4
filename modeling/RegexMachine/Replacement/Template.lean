import RegexMachine.Character.Basic
import RegexMachine.Tree.GroupNames

/-!
# Replacement templates

A template is a list of rules: literal text, kept in a table, and references to parts of a match.

* `$n` and `${n}`: group `n`; all digits are taken, and the group must exist;
* `${name}`: the group of a name;
* `$$`: a dollar sign;
* `$&`: the whole match;
* `` $` `` and `$'`: the text before and after the match;
* `$+`: the highest-numbered group;
* `$_`: the whole text.

A dollar sign that starts none of these is literal text.
-/

namespace RegexMachine

inductive Rule where
  /-- A piece of literal text, by its index in the table. -/
  | literal (index : Nat)
  | group (number : Nat)
  | leftPortion
  | rightPortion
  | lastGroup
  | wholeText
  deriving DecidableEq, Repr, Inhabited

def Rule.isLiteral : Rule → Bool
  | literal _ => true
  | _ => false

structure Template where
  /-- The template as it was written. -/
  pattern : String
  literals : Array String
  rules : List Rule
  deriving DecidableEq, Repr, Inhabited

namespace Template

/-- Whether any rule depends on the match. -/
def hasReferences (t : Template) : Bool := t.rules.any (!·.isLiteral)

/-- The literal text at an index of the table. -/
def literal (t : Template) (index : Nat) : String := t.literals.getD index ""

/-- What a template's names and numbers may refer to. -/
structure Scope where
  groupCount : Nat
  names : GroupNames
  deriving Inhabited

/-- A group number, if there is such a group. -/
def Scope.check (scope : Scope) (group : Option Nat) : Option Nat :=
  group.filter (· < scope.groupCount)

/-- What a number stands for: all digits at the start of `cs`, and what follows them. -/
def Scope.byNumber (scope : Scope) (cs : List Char) : Option (Nat × List Char) :=
  (scope.check (GroupNames.decimal? (cs.takeWhile Char.isDigit))).map
    fun group => (group, cs.dropWhile Char.isDigit)

/-- What a name stands for: all word characters at the start of `cs`, and what follows them. -/
def Scope.byName (scope : Scope) (cs : List Char) : Option (Nat × List Char) :=
  let name := String.ofList (cs.takeWhile Character.isWord)
  (scope.check (scope.names.number? name)).map
    fun group => (group, cs.dropWhile Character.isWord)

/-- The group of a reference in braces, given what follows the opening brace. -/
def Scope.braced (scope : Scope) (cs : List Char) : Option (Nat × List Char) :=
  let group :=
    match cs with
    | c :: _ =>
        if c.isDigit then scope.byNumber cs
        else if Character.isWord c then scope.byName cs
        else none
    | [] => none
  match group with
  | some (group, '\x7d' :: rest) => some (group, rest)
  | _ => none

/-- The reference that a dollar sign starts, given what follows it. -/
def Scope.reference (scope : Scope) : List Char → Option (Rule × List Char)
  | '\x7b' :: rest => (scope.braced rest).map fun r => (.group r.1, r.2)
  | '&' :: rest => some (.group 0, rest)
  | '\x60' :: rest => some (.leftPortion, rest)
  | '\'' :: rest => some (.rightPortion, rest)
  | '+' :: rest => some (.lastGroup, rest)
  | '_' :: rest => some (.wholeText, rest)
  | cs => (scope.byNumber cs).map fun r => (.group r.1, r.2)

/-- A piece of a template as it is read. -/
inductive Piece where
  | char (c : Char)
  | rule (r : Rule)
  deriving DecidableEq, Repr, Inhabited

/-- The pieces of a template, given at least as much fuel as it has characters. -/
def Scope.pieces (scope : Scope) : (fuel : Nat) → List Char → List Piece
  | 0, _ => []
  | _, [] => []
  | fuel + 1, '$' :: '$' :: rest => .char '$' :: scope.pieces fuel rest
  | fuel + 1, '$' :: rest =>
      match scope.reference rest with
      | some (rule, rest) => .rule rule :: scope.pieces fuel rest
      | none => .char '$' :: scope.pieces fuel rest
  | fuel + 1, c :: rest => .char c :: scope.pieces fuel rest

/-- A template under construction; the literal text that is being read is kept reversed. -/
structure Draft where
  literals : Array String := #[]
  rules : Array Rule := #[]
  pending : List Char := []
  deriving Inhabited

namespace Draft

/-- Makes a rule of the literal text that was read, if any. -/
def flush (d : Draft) : Draft :=
  if d.pending.isEmpty then d
  else
    { literals := d.literals.push (String.ofList d.pending.reverse)
      rules := d.rules.push (.literal d.literals.size)
      pending := [] }

def add (d : Draft) : Piece → Draft
  | .char c => { d with pending := c :: d.pending }
  | .rule r =>
      let d := d.flush
      { d with rules := d.rules.push r }

end Draft

/-- Reads a template for a pattern with these groups and names. -/
def parse (pattern : String) (groupCount : Nat) (names : GroupNames) : Template :=
  let cs := pattern.toList
  let pieces := Scope.pieces { groupCount, names } cs.length cs
  let draft := (pieces.foldl Draft.add {}).flush
  { pattern, literals := draft.literals, rules := draft.rules.toList }

end Template

end RegexMachine
