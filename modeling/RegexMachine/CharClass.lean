import RegexMachine.Character.Basic

/-!
# Character classes

A class is a chain of layers. The first layer says which characters are in, each further layer is
the class subtracted from the part before it: `[a-z-[aeiou-[e]]]` has three layers. A layer holds
inclusive ranges and shorthand categories, and may be negated as a whole.
-/

namespace RegexMachine

/-- The shorthand categories a layer includes, such as `\w` and `\D`. -/
structure Categories where
  word : Bool := false
  notWord : Bool := false
  digit : Bool := false
  notDigit : Bool := false
  space : Bool := false
  notSpace : Bool := false
  deriving DecidableEq, Repr, Inhabited

namespace Categories

def isEmpty (k : Categories) : Bool := k == {}

def union (a b : Categories) : Categories where
  word := a.word || b.word
  notWord := a.notWord || b.notWord
  digit := a.digit || b.digit
  notDigit := a.notDigit || b.notDigit
  space := a.space || b.space
  notSpace := a.notSpace || b.notSpace

def contains (k : Categories) (c : Char) : Bool :=
  (k.word && Character.isWord c) || (k.notWord && !Character.isWord c) ||
    (k.digit && Character.isDigit c) || (k.notDigit && !Character.isDigit c) ||
    (k.space && Character.isSpace c) || (k.notSpace && !Character.isSpace c)

end Categories

/-- One layer of a class, without what is subtracted from it. -/
structure ClassLayer where
  negated : Bool := false
  ranges : List (Char × Char) := []
  categories : Categories := {}
  deriving DecidableEq, Repr, Inhabited

namespace ClassLayer

def inRanges (ranges : List (Char × Char)) (c : Char) : Bool :=
  ranges.any fun r => r.1 ≤ c && c ≤ r.2

def contains (l : ClassLayer) (c : Char) : Bool :=
  (inRanges l.ranges c || l.categories.contains c) != l.negated

/-- Ranges wider than this are left as they are when case is folded. -/
def widestFoldedRange : Nat := 0x3000

/-- The scalar values of an inclusive range that may have another case: all but the ASCII
characters that are no letters. -/
def casedMembers (r : Char × Char) : List Char :=
  (List.range (r.2.toNat + 1 - r.1.toNat)).filterMap fun i =>
    let n := r.1.toNat + i
    let c := Char.ofNat n
    if n.isValidChar && (!Character.isAscii c || c.isAlpha) then some c else none

/-- Adds the fold of `c` as a range of its own, unless it is in a range already. -/
def addFold (culture : Culture) (ranges : List (Char × Char)) (c : Char) : List (Char × Char) :=
  let f := culture.fold c
  if f != c && !inRanges ranges f then ranges ++ [(f, f)] else ranges

/-- Adds the fold of every member of a range that is not too wide. -/
def addRangeFolds (culture : Culture) (ranges : List (Char × Char)) (r : Char × Char) :
    List (Char × Char) :=
  if r.2.toNat - r.1.toNat > widestFoldedRange then ranges
  else (casedMembers r).foldl (addFold culture) ranges

/-- The layer with the fold of every range member added. -/
def foldCase (culture : Culture) (l : ClassLayer) : ClassLayer :=
  { l with ranges := l.ranges.foldl (addRangeFolds culture) l.ranges }

end ClassLayer

structure CharClass where
  base : ClassLayer := {}
  /-- What is subtracted from `base`, outermost first. -/
  subtracted : List ClassLayer := []
  deriving DecidableEq, Repr, Inhabited

namespace CharClass

/-- Membership in a chain of layers: in the first and not in the chain of the others. -/
def inLayers (c : Char) : List ClassLayer → Bool
  | [] => false
  | l :: rest => l.contains c && !inLayers c rest

def contains (k : CharClass) (c : Char) : Bool := inLayers c (k.base :: k.subtracted)

def withRange (k : CharClass) (first last : Char) : CharClass :=
  let r := if first ≤ last then (first, last) else (last, first)
  { k with base := { k.base with ranges := k.base.ranges ++ [r] } }

def withChar (k : CharClass) (c : Char) : CharClass := k.withRange c c

def withCategories (k : CharClass) (categories : Categories) : CharClass :=
  { k with base := { k.base with categories := k.base.categories.union categories } }

def negate (k : CharClass) : CharClass :=
  { k with base := { k.base with negated := !k.base.negated } }

/-- Subtracts `other`, in place of what was subtracted before. -/
def subtract (k other : CharClass) : CharClass :=
  { k with subtracted := other.base :: other.subtracted }

def digit : CharClass := ({} : CharClass).withCategories { digit := true }

def word : CharClass := ({} : CharClass).withCategories { word := true }

def space : CharClass := ({} : CharClass).withCategories { space := true }

/-- Everything but a line feed. -/
def notNewline : CharClass := (({} : CharClass).withChar '\n').negate

def any : CharClass := ({} : CharClass).withRange (Char.ofNat 0) (Char.ofNat 0x10ffff)

def isNegated (k : CharClass) : Bool := k.base.negated

/-- The only member, when the class is written as exactly one character. -/
def singleChar? (k : CharClass) : Option Char :=
  if k.base.negated || !k.base.categories.isEmpty || !k.subtracted.isEmpty then none
  else
    match k.base.ranges with
    | [(first, last)] => if first = last then some first else none
    | _ => none

/-- The class with the fold of every range member added, in every layer. -/
def foldCase (culture : Culture) (k : CharClass) : CharClass where
  base := k.base.foldCase culture
  subtracted := k.subtracted.map (ClassLayer.foldCase culture)

/-- The maximal intervals of members among the scalar values from `lo` to `hi`. -/
def membersWithin (k : CharClass) (lo hi : Nat) : List (Nat × Nat) :=
  let member (n : Nat) : Bool := n.isValidChar && k.contains (Char.ofNat n)
  let add (runs : List (Nat × Nat)) (n : Nat) : List (Nat × Nat) :=
    if member n then
      match runs with
      | (first, last) :: rest => if last + 1 = n then (first, n) :: rest else (n, n) :: runs
      | [] => [(n, n)]
    else runs
  (((List.range (hi + 1 - lo)).map (lo + ·)).foldl add []).reverse

end CharClass

end RegexMachine
