import RegexMachine.Regex.Search
import RegexMachine.Replacement.Expand

/-!
# Replacing and splitting

The text around the matches is kept and each match is replaced. Pieces are gathered in the order in
which the matches are found; those of a backward search are put together in reverse.

A template without references gives the same text for every match, so a forward replacement with it
only notes which spans are kept and writes the result at the end. Splitting keeps the text around the
matches, and the groups of each match between.
-/

namespace RegexMachine

/-- The result of a replacement. -/
inductive Replaced where
  /-- The text itself: nothing was replaced. -/
  | unchanged
  | changed (s : String)
  deriving DecidableEq, Repr, Inhabited

def Replaced.string (t : Text) : Replaced → String
  | unchanged => t.toString
  | changed s => s

namespace Regex

/-- Pieces of a result, latest first, with the border up to which the text is dealt with. -/
structure Assembled where
  pieces : List String := []
  border : Nat
  count : Nat := 0

/-- The text between the border and a match, and the border beyond the match. -/
def keepUpTo (direction : Direction) (text : Text) (border : Nat) (m : Match) :
    Except Fault (String × Nat) :=
  match direction with
  | .forward => do return (← text.slice border m.start, m.stop)
  | .backward => do return (← text.slice m.stop border, m.start)

/-- The text from the border on, in the direction of the search. -/
def remainder (direction : Direction) (text : Text) (border : Nat) : Except Fault String :=
  match direction with
  | .forward => text.slice border text.size
  | .backward => text.slice 0 border

/-- Takes in one match and what it is replaced with, given in the order of the text. -/
def Assembled.add (direction : Direction) (text : Text)
    (replacement : Nat → Match → Except Fault (List String)) (a : Assembled) (m : Match) :
    Except Fault Assembled := do
  let (kept, border) ← keepUpTo direction text a.border m
  let segments ← replacement a.count m
  let inOrderFound :=
    match direction with
    | .forward => segments
    | .backward => segments.reverse
  return {
    pieces := inOrderFound.reverse ++ kept :: a.pieces
    border
    count := a.count + 1 }

/-- Puts the pieces together, if anything was replaced. -/
def Assembled.finish (direction : Direction) (text : Text) (a : Assembled) :
    Except Fault Replaced := do
  if a.count = 0 then return .unchanged
  let rest ← remainder direction text a.border
  let pieces := rest :: a.pieces
  return .changed (String.join
    (match direction with
      | .forward => pieces.reverse
      | .backward => pieces))

/-- How many matches a count allows; -1 allows all. -/
def allowed (count : Int) : Option Nat := if count < 0 then none else some count.toNat

/-- Replaces matches found from `start` on with the segments of a replacement. -/
def assemble (text : Text) (count : Int) (start : Nat)
    (replacement : Nat → Match → Except Fault (List String)) : RegexM Replaced := do
  let direction := (← get).direction
  let search ← searchAt text start
  let a ← foldMatches (Assembled.add direction text replacement) (← get).patience
    (allowed count) search { border := text.origin direction }
  lift (a.finish direction text)

/-- Spans of kept text, latest first, with the border up to which the text is dealt with. -/
structure Kept where
  spans : List Span := []
  border : Nat := 0

def Kept.add (k : Kept) (m : Match) : Except Fault Kept :=
  if k.border ≤ m.start then
    .ok { spans := ⟨k.border, m.start - k.border⟩ :: k.spans, border := m.stop }
  else .error .outOfBounds

/-- Writes the kept spans with the replacement between them. -/
def Kept.finish (text : Text) (replacement : String) (k : Kept) : Except Fault Replaced := do
  if k.spans.isEmpty then return .unchanged
  if text.size < k.border then throw .outOfBounds
  let spans := (⟨k.border, text.size - k.border⟩ :: k.spans).reverse
  let kept ← spans.mapM fun s => text.slice s.start s.stop
  return .changed (String.intercalate replacement kept)

/-- Replaces matches, going forward, with a text that does not depend on them. -/
def replaceLiteral (text : Text) (replacement : String) (count : Int) (start : Nat) :
    RegexM Replaced := do
  let search ← searchAt text start
  let k ← foldMatches Kept.add (← get).patience (allowed count) search {}
  lift (k.finish text replacement)

/-- The text of a template without references. -/
def literalText (t : Template) : String :=
  match t.rules.head? with
  | some (.literal index) => t.literal index
  | _ => ""

/-- Replaces matches with the expansion of a template. -/
def replaceTemplate (t : Template) (text : Text) (count : Int) (start : Nat) :
    RegexM Replaced := do
  if count = 0 then return .unchanged
  if !t.hasReferences && (← get).direction == .forward then
    replaceLiteral text (literalText t) count start
  else
    assemble text count start fun _ m => t.segments m

/-- Refuses counts below -1. -/
def checkCount (count : Int) : RegexM Unit :=
  if count < -1 then
    fail (.invalidArgument "count" (toString count ++ " is less than -1"))
  else return

/-- Replaces at most `count` matches found from `start` on with the expansion of a template; -1
replaces all. -/
def replaceN (text : Text) (pattern : String) (count : Int) (start : Nat) :
    RegexM Replaced := do
  checkCount count
  checkStart text start
  let compiled ← compileTemplate pattern
  replaceTemplate compiled.template text count start

/-- Replaces every match with the expansion of a template. -/
def replace (text : Text) (pattern : String) : RegexM Replaced := do
  replaceN text pattern (-1) (text.origin (← get).direction)

/-- Replaces at most `count` matches found from `start` on with what the evaluator gives. -/
def replaceWithN (text : Text) (count : Int) (start : Nat) (evaluator : Evaluator) :
    RegexM Replaced := do
  checkCount count
  checkStart text start
  if count = 0 then return .unchanged
  assemble text count start fun i m => do return [← evaluator i m]

/-- Replaces every match with what the evaluator gives. -/
def replaceWith (text : Text) (evaluator : Evaluator) : RegexM Replaced := do
  replaceWithN text (-1) (text.origin (← get).direction) evaluator

/-- The texts of the groups that took part in a match, the whole match left out. -/
def groupStrings (m : Match) : Except Fault (List String) :=
  ((List.range' 1 (m.groupCount - 1)).filterMap m.group?).mapM Group.string

/-- Takes in one match: the text before it, and the texts of its groups. -/
def addSplit (direction : Direction) (text : Text) (a : Assembled) (m : Match) :
    Except Fault Assembled := do
  let (kept, border) ← keepUpTo direction text a.border m
  let groups ← groupStrings m
  return { pieces := groups.reverse ++ kept :: a.pieces, border, count := a.count + 1 }

/-- Splits a text at matches found from `start` on, into at most `count` pieces when that is not 0.
The groups of each match stand between the pieces. -/
def split (text : Text) (count : Int) (start : Nat) : RegexM (List String) := do
  if count < 0 then
    fail (.invalidArgument "count" (toString count ++ " is negative"))
  checkStart text start
  if count = 1 then return [text.toString]
  let direction := (← get).direction
  let search ← searchAt text start
  let allowedMatches := if count = 0 then none else some (count.toNat - 1)
  let a ← foldMatches (addSplit direction text) (← get).patience allowedMatches search
    { border := text.origin direction }
  if a.count = 0 then return [text.toString]
  let rest ← lift (remainder direction text a.border)
  let pieces := rest :: a.pieces
  match direction with
  | .forward => return pieces.reverse
  | .backward => return pieces

end Regex

end RegexMachine
