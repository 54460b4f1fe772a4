/-!
# Options and directions
-/

namespace RegexMachine

/-- The way a construct consumes text, and the way a scan looks for its next start. -/
inductive Direction where
  | forward
  | backward
  deriving DecidableEq, Repr, Inhabited

def Direction.flip : Direction → Direction
  | forward => backward
  | backward => forward

/-- Options of a pattern, and of each node of its tree. -/
structure Options where
  ignoreCase : Bool := false
  rightToLeft : Bool := false
  /-- A reference to a group that took no part matches the empty string. -/
  ecmaScript : Bool := false
  /-- Fold case with the invariant culture, whatever culture was asked for. -/
  cultureInvariant : Bool := false
  deriving DecidableEq, Repr, Inhabited

namespace Options

def union (a b : Options) : Options where
  ignoreCase := a.ignoreCase || b.ignoreCase
  rightToLeft := a.rightToLeft || b.rightToLeft
  ecmaScript := a.ecmaScript || b.ecmaScript
  cultureInvariant := a.cultureInvariant || b.cultureInvariant

/-- Whether every option of `b` is set in `a`. -/
def includes (a b : Options) : Bool := a.union b == a

theorem includes_union (a b : Options) : (a.union b).includes b := by
  simp [includes, union]

def direction (o : Options) : Direction := if o.rightToLeft then .backward else .forward

/-- The names of the options that are set, joined by bars, as listings show them. -/
def text (o : Options) : String :=
  let names := (if o.ignoreCase then ["IGNORE_CASE"] else []) ++
    (if o.rightToLeft then ["RIGHT_TO_LEFT"] else []) ++
    (if o.ecmaScript then ["ECMA_SCRIPT"] else []) ++
    (if o.cultureInvariant then ["CULTURE_INVARIANT"] else [])
  "RegexOptions(" ++ (if names.isEmpty then "0x0" else String.intercalate " | " names) ++ ")"

end Options

end RegexMachine
