import RegexMachine.Text.Basic
import RegexMachine.Tree.Basic

/-!
# Start filters

A cheap search for the next position at which a match may start, derived from the construct that a
pattern runs first: the leading one, or the trailing one when the pattern is matched backward. When
the search finds nothing, no later position can match.
-/

namespace RegexMachine

inductive FilterMode where
  /-- Every position is a candidate. -/
  | noSearch
  | leadingBeginning
  | leadingStart
  /-- Characters that the match starts with. -/
  | leadingString (chars : List Char)
  | leadingChar (c : Char)
  /-- A folded character, compared with folded text. -/
  | leadingCharIgnoreCase (c : Char)
  | leadingSet (k : CharClass) (ignoreCase : Bool)
  | trailingEnd
  /-- The character just before the position. -/
  | trailingChar (c : Char)
  deriving DecidableEq, Repr, Inhabited

structure StartFilter where
  mode : FilterMode := .noSearch
  direction : Direction := .forward
  deriving DecidableEq, Repr, Inhabited

namespace FilterMode

/-- The filter of a single character test that is run first. -/
def ofAtom (culture : Culture) (ignoreCase : Bool) : Atom → Option FilterMode
  | .one c =>
      if ignoreCase then some (leadingCharIgnoreCase (culture.fold c)) else some (leadingChar c)
  | .set k =>
      let k := if ignoreCase then k.foldCase culture else k
      match k.singleChar?, ignoreCase with
      | some c, false => some (leadingChar c)
      | _, _ => some (leadingSet k ignoreCase)
  | .notOne _ => none

mutual

/-- The filter of what a node runs first, going forward. -/
def leading (culture : Culture) : Node → Option FilterMode
  | .node _ options kind children =>
      if options.rightToLeft then none
      else
        match kind with
        | .capture _ none | .atomic | .concat => leadingIn culture children
        | .loop min _ _ => if 1 ≤ min then leadingIn culture children else none
        | .anchor .beginning => some leadingBeginning
        | .anchor .start => some leadingStart
        | .multi chars =>
            if options.ignoreCase then
              chars.head?.map fun c => leadingCharIgnoreCase (culture.fold c)
            else some (leadingString chars)
        | .char atom => ofAtom culture options.ignoreCase atom
        | .charLoop atom min _ _ =>
            if 1 ≤ min then ofAtom culture options.ignoreCase atom else none
        | _ => none

/-- The filter of the first of these nodes that is not the empty string. -/
def leadingIn (culture : Culture) : List Node → Option FilterMode
  | [] => none
  | n :: rest => if n.isEmpty then leadingIn culture rest else leading culture n

end

mutual

/-- The filter of what a node runs first, going backward. -/
def trailing : Node → Option FilterMode
  | .node _ options kind children =>
      if !options.rightToLeft then none
      else
        match kind with
        | .capture _ none | .atomic | .concat => (trailingIn children).join
        | .loop min _ _ => if 1 ≤ min then (trailingIn children).join else none
        | .anchor .end => some trailingEnd
        | .multi chars => if options.ignoreCase then none else chars.getLast?.map trailingChar
        | .char (.one c) => if options.ignoreCase then none else some (trailingChar c)
        | .charLoop (.one c) min _ _ =>
            if 1 ≤ min && !options.ignoreCase then some (trailingChar c) else none
        | _ => none

/-- The filter of the last of these nodes that is not the empty string, if there is one. -/
def trailingIn : List Node → Option (Option FilterMode)
  | [] => none
  | n :: rest =>
      match trailingIn rest with
      | some mode => some mode
      | none => if n.isEmpty then none else some (trailing n)

end

end FilterMode

namespace StartFilter

def ofTree (t : Tree) (culture : Culture) : StartFilter where
  mode :=
    (match t.direction with
      | .forward => FilterMode.leading culture t.root
      | .backward => FilterMode.trailing t.root).getD .noSearch
  direction := t.direction

/-- The first position at or after `pos`, in the direction of the scan, at which a match may start.
The scan began at `textStart`. -/
def find (f : StartFilter) (culture : Culture) (t : Text) (pos textStart : Nat) :
    Except Fault (Option Nat) :=
  match f.mode with
  | .noSearch => .ok (some pos)
  | .leadingBeginning => .ok (if pos = 0 then some 0 else none)
  | .leadingStart => .ok (if pos = textStart then some pos else none)
  | .leadingString chars => do
      t.checkOffset pos
      return t.seekForward (fun p _ => t.startsWith chars p) pos
  | .leadingChar c => do
      t.checkOffset pos
      return t.seekForward (fun _ cell => cell.after? == some c) pos
  | .leadingCharIgnoreCase c => do
      t.checkBoundary pos
      return t.seekForward (fun _ cell => cell.after?.map culture.fold == some c) pos
  | .leadingSet k ignoreCase => do
      t.checkBoundary pos
      let fold (c : Char) : Char := if ignoreCase then culture.fold c else c
      return t.seekForward (fun _ cell => cell.after?.any fun c => k.contains (fold c)) pos
  | .trailingEnd => .ok (if pos = t.size then some pos else none)
  | .trailingChar c => do
      t.checkOffset pos
      return t.seekBackward (fun _ cell => cell.before? == some c) pos

end StartFilter

end RegexMachine
