/-!
# Group names

Names given to capture groups. A later name for a group, and a later group for a name, take the
place of earlier ones. A name that was not given but reads as a number stands for that group.
-/

namespace RegexMachine

/-- Names with their groups, the latest first. -/
structure GroupNames where
  entries : List (String × Nat) := []
  deriving DecidableEq, Repr, Inhabited

namespace GroupNames

def insert (names : GroupNames) (name : String) (group : Nat) : GroupNames :=
  ⟨(name, group) :: names.entries⟩

/-- Group numbers fit a 64-bit word. -/
def groupBound : Nat := Nat.pow 2 64

/-- The value of a run of decimal digits. -/
def digitsValue (digits : List Char) : Nat :=
  digits.foldl (fun n c => 10 * n + (c.toNat - '0'.toNat)) 0

/-- A number below `groupBound` written in decimal digits. -/
def decimal? (digits : List Char) : Option Nat :=
  if digits.isEmpty || !digits.all Char.isDigit then none
  else
    let n := digitsValue digits
    if n < groupBound then some n else none

/-- A number as a name may write it, with an optional plus sign. -/
def numeral? (name : String) : Option Nat :=
  match name.toList with
  | '+' :: digits => decimal? digits
  | digits => decimal? digits

/-- The group that a name stands for. -/
def number? (names : GroupNames) (name : String) : Option Nat :=
  match names.entries.find? (·.1 == name) with
  | some (_, group) => some group
  | none => numeral? name

/-- The latest name of a group. -/
def name? (names : GroupNames) (group : Nat) : Option String :=
  (names.entries.find? (·.2 == group)).map (·.1)

def isEmpty (names : GroupNames) : Bool := names.entries.isEmpty

end GroupNames

end RegexMachine
