/-!
# Range maps

A search tree that gives a value to inclusive ranges of code points. Character properties are
tables of such ranges; the tree makes a look-up logarithmic in the number of ranges.
-/

namespace RegexMachine

inductive RangeMap (α : Type) where
  | empty
  | node (left : RangeMap α) (first last : Nat) (value : α) (right : RangeMap α)

namespace RangeMap

variable {α : Type}

/-- The start of the range that holds `x`, and the value of that range. -/
def find? (x : Nat) : RangeMap α → Option (Nat × α)
  | empty => none
  | node left first last value right =>
      if x < first then left.find? x
      else if last < x then right.find? x
      else some (first, value)

/-- A range that is found starts at or before what was looked up, so its distance from there is
exact. -/
theorem le_of_find? {x first : Nat} {value : α} {m : RangeMap α}
    (h : m.find? x = some (first, value)) : first ≤ x := by
  induction m with
  | empty => simp [find?] at h
  | node left lo hi v right ihLeft ihRight =>
      rw [find?] at h
      split at h
      · exact ihLeft h
      · split at h
        · exact ihRight h
        · have : lo = first := by simp_all
          omega

def contains (x : Nat) (m : RangeMap α) : Bool := (m.find? x).isSome

/-- The tree of the rows `lo` up to, not including, `hi`, to a given height. -/
def build (rows : Array (Nat × Nat × α)) : (height lo hi : Nat) → RangeMap α
  | 0, _, _ => empty
  | height + 1, lo, hi =>
      if lo < hi then
        let middle := (lo + hi) / 2
        match rows[middle]? with
        | some (first, last, value) =>
            node (build rows height lo middle) first last value (build rows height (middle + 1) hi)
        | none => empty
      else empty

/-- The tree of rows `(first, last, value)` that are disjoint and in ascending order. -/
def ofRows (rows : Array (Nat × Nat × α)) : RangeMap α :=
  build rows (rows.size.log2 + 1) 0 rows.size

end RangeMap

end RegexMachine
