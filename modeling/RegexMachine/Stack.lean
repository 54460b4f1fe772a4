/-!
# Stacks that know their depth

The machine cuts its stacks back to a depth it noted earlier, and capture histories point at their
own entries by number. Both need the depth at hand, so it is kept beside the items.
-/

namespace RegexMachine

/-- A stack, newest item first. -/
structure Stack (α : Type) where
  items : List α := []
  depth : Nat := items.length
  depth_eq : depth = items.length := by rfl

namespace Stack

variable {α : Type}

instance : Inhabited (Stack α) := ⟨{}⟩

@[ext] theorem ext {s t : Stack α} (h : s.items = t.items) : s = t := by
  obtain ⟨xs, d, hd⟩ := s
  obtain ⟨ys, e, he⟩ := t
  subst hd he h
  rfl

def empty : Stack α := { items := [] }

def isEmpty (s : Stack α) : Bool := s.items.isEmpty

@[inline] def push (s : Stack α) (x : α) : Stack α where
  items := x :: s.items
  depth := s.depth + 1
  depth_eq := by rw [s.depth_eq, List.length_cons]

@[inline] def top? (s : Stack α) : Option α := s.items.head?

/-- The newest item and the stack below it. -/
@[inline] def pop? (s : Stack α) : Option (α × Stack α) :=
  match s with
  | ⟨[], _, _⟩ => none
  | ⟨x :: rest, d, h⟩ => some (x, ⟨rest, d - 1, by rw [h, List.length_cons, Nat.add_sub_cancel]⟩)

/-- The stack without its newest item; an empty stack stays empty. -/
@[inline] def tail (s : Stack α) : Stack α :=
  match s.pop? with
  | none => s
  | some (_, rest) => rest

/-- Keeps the oldest `n` items. -/
def truncate (s : Stack α) (n : Nat) : Stack α :=
  if h : n < s.depth then
    { items := s.items.drop (s.depth - n)
      depth := n
      depth_eq := by rw [List.length_drop, ← s.depth_eq, Nat.sub_sub_self (Nat.le_of_lt h)] }
  else s

/-- The item that was pushed when the stack held `i` items. -/
def entry? (s : Stack α) (i : Nat) : Option α :=
  if i < s.depth then s.items[s.depth - 1 - i]? else none

/-- The items, oldest first. -/
def toList (s : Stack α) : List α := s.items.reverse

@[simp] theorem items_empty : (empty : Stack α).items = [] := rfl

@[simp] theorem depth_empty : (empty : Stack α).depth = 0 := rfl

@[simp] theorem items_push (s : Stack α) (x : α) : (s.push x).items = x :: s.items := rfl

@[simp] theorem depth_push (s : Stack α) (x : α) : (s.push x).depth = s.depth + 1 := rfl

@[simp] theorem pop?_empty : (empty : Stack α).pop? = none := rfl

@[simp] theorem pop?_push (s : Stack α) (x : α) : (s.push x).pop? = some (x, s) := by
  simp [push, pop?]

@[simp] theorem top?_push (s : Stack α) (x : α) : (s.push x).top? = some x := rfl

theorem exists_push_of_top? {s : Stack α} {x : α} (h : s.top? = some x) :
    ∃ rest : Stack α, s = rest.push x := by
  obtain ⟨items, depth, hdepth⟩ := s
  cases items with
  | nil => cases h
  | cons y rest =>
    obtain rfl : y = x := Option.some.inj h
    exact ⟨{ items := rest }, Stack.ext rfl⟩

@[simp] theorem tail_push (s : Stack α) (x : α) : (s.push x).tail = s := by simp [tail]

theorem items_tail (s : Stack α) : s.tail.items = s.items.tail := by
  obtain ⟨items, depth, hdepth⟩ := s
  cases items <;> rfl

theorem toList_push (s : Stack α) (x : α) : (s.push x).toList = s.toList ++ [x] := by
  simp [toList]

theorem length_toList (s : Stack α) : s.toList.length = s.depth := by
  rw [toList, List.length_reverse, s.depth_eq]

theorem depth_truncate (s : Stack α) (n : Nat) : (s.truncate n).depth = min n s.depth := by
  by_cases h : n < s.depth
  · rw [truncate, dif_pos h, Nat.min_eq_left (Nat.le_of_lt h)]
  · rw [truncate, dif_neg h, Nat.min_eq_right (Nat.not_lt.1 h)]

theorem truncate_depth (s : Stack α) : s.truncate s.depth = s := by simp [truncate]

theorem truncate_push (s : Stack α) (x : α) (n : Nat) (h : n ≤ s.depth) :
    (s.push x).truncate n = s.truncate n := by
  have hpush : n < (s.push x).depth := by
    rw [depth_push]
    omega
  apply Stack.ext
  rw [truncate, dif_pos hpush]
  obtain he | hlt := Nat.eq_or_lt_of_le h
  · subst he
    simp [truncate]
  · have hdrop : s.depth + 1 - n = s.depth - n + 1 := by omega
    simp [truncate, hlt, hdrop]

end Stack

end RegexMachine
