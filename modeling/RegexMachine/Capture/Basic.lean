import RegexMachine.Capture.Spans
import RegexMachine.Failure
import RegexMachine.Stack

/-!
# Captures

The captures made during an attempt, and how to undo them. Every group has a history of slots, and
one trail holds the groups in the order of their transitions, so that the latest transition can be
undone without knowing what it was.

A balancing group cancels the latest capture of another group. The cancelled capture stays in the
history, and a further slot points at the capture that is visible after the cancellation.
-/

namespace RegexMachine

/-- A transition of one group. -/
inductive Slot where
  | captured (span : Span)
  /-- A cancellation; `visible` is the slot of the capture seen after it. -/
  | cancelled (visible : Option Nat)
  deriving DecidableEq, Repr, Inhabited

/-- The transitions of one group. -/
abbrev History := Stack Slot

namespace History

/-- The slot whose capture is visible. -/
def visible? (h : History) : Option Nat :=
  match h.top? with
  | some (.captured _) => some (h.depth - 1)
  | some (.cancelled visible) => visible
  | none => none

/-- The visible capture. -/
def span? (h : History) : Option Span :=
  match h.visible?.bind h.entry? with
  | some (.captured span) => some span
  | _ => none

/-- The slot that cancels the visible capture: it shows what was visible before that capture. -/
def cancellation (h : History) : Slot :=
  match h.visible? with
  | some (previous + 1) =>
      match h.entry? previous with
      | some (.cancelled visible) => .cancelled visible
      | _ => .cancelled (some previous)
  | _ => .cancelled none

/-- Takes one more slot into a published history, latest capture first. -/
def publishSlot (spans : List Span) : Slot → List Span
  | .captured span => span :: spans
  | .cancelled _ => spans.tail

/-- The captures that were not cancelled, oldest first. -/
def publish (h : History) : List Span := (h.toList.foldl publishSlot []).reverse

/-- The captures, for histories in which nothing was ever cancelled. -/
def captured (h : History) : List Span :=
  h.toList.filterMap fun
    | .captured span => some span
    | .cancelled _ => none

end History

/-- The captures of an attempt. -/
structure Captures where
  groups : Array History
  /-- The group of every transition, latest first. -/
  trail : Stack Nat := Stack.empty
  /-- Whether any capture was cancelled since the last reset. -/
  balanced : Bool := false
  deriving Inhabited

namespace Captures

/-- No captures in any of `groupCount` groups. -/
def none (groupCount : Nat) : Captures where
  groups := Array.replicate groupCount Stack.empty

def reset (c : Captures) : Captures := none c.groups.size

/-- Notes a transition of a group. -/
def record (c : Captures) (group : Nat) (slot : Slot) : Except Fault Captures :=
  if group < c.groups.size then
    .ok { c with groups := c.groups.modify group (·.push slot), trail := c.trail.push group }
  else .error .outOfBounds

/-- The visible capture of a group. -/
def span? (c : Captures) (group : Nat) : Option Span := c.groups[group]?.bind History.span?

def isMatched (c : Captures) (group : Nat) : Bool := (c.span? group).isSome

/-- The start of the visible capture of a group, or 0. -/
def startOf (c : Captures) (group : Nat) : Nat := ((c.span? group).map (·.start)).getD 0

/-- The length of the visible capture of a group, or 0. -/
def lengthOf (c : Captures) (group : Nat) : Nat := ((c.span? group).map (·.length)).getD 0

/-- Captures the text between two positions, given in either order. -/
def capture (c : Captures) (group start stop : Nat) : Except Fault Captures :=
  c.record group (.captured ⟨min start stop, max start stop - min start stop⟩)

/-- Cancels the visible capture of a group. -/
def cancel (c : Captures) (group : Nat) : Except Fault Captures :=
  let slot := ((c.groups[group]?).map History.cancellation).getD (.cancelled .none)
  ({ c with balanced := true } : Captures).record group slot

/-- What a balancing group captures when its own text is `[start, stop)` and the cancelled capture
is `old`: the gap that follows `old`, or the overlap of the two. Text that ends before `old` starts
has neither. -/
def between (old : Span) (start stop : Nat) : Except Fault Span :=
  if old.stop ≤ start then .ok ⟨old.stop, start - old.stop⟩
  else if stop < old.start then .error .invertedSpan
  else .ok ⟨max start old.start, min stop old.stop - max start old.start⟩

/-- Cancels the visible capture of `uncapture` and, when `group` is given, captures into it what
lies between that capture and the text from `start` to `stop`. -/
def transfer (c : Captures) (group : Option Nat) (uncapture start stop : Nat) :
    Except Fault Captures := do
  let old := (c.span? uncapture).getD ⟨0, 0⟩
  let c ← c.cancel uncapture
  match group with
  | some group => c.record group (.captured (← between old (min start stop) (max start stop)))
  | .none => return c

/-- Undoes the latest transition. -/
def undo (c : Captures) : Except Fault Captures :=
  match c.trail.pop? with
  | some (group, trail) =>
      if group < c.groups.size then
        .ok { c with groups := c.groups.modify group Stack.tail, trail }
      else .error .outOfBounds
  | .none => .error .emptyTrail

/-- Undoes `n` transitions. -/
def undoTimes : Nat → Captures → Except Fault Captures
  | 0, c => .ok c
  | n + 1, c => do undoTimes n (← c.undo)

/-- Undoes transitions until the trail is as deep as it was at `depth`. -/
def undoUntil (c : Captures) (depth : Nat) : Except Fault Captures :=
  undoTimes (c.trail.depth - depth) c

theorem record_eq_ok_iff {c d : Captures} {group : Nat} {slot : Slot} :
    c.record group slot = .ok d ↔ group < c.groups.size ∧
      d = { c with groups := c.groups.modify group (·.push slot), trail := c.trail.push group } := by
  by_cases hg : group < c.groups.size
  · simp [record, hg, eq_comm]
  · simp [record, hg]

theorem undo_record {c d : Captures} {group : Nat} {slot : Slot}
    (h : c.record group slot = .ok d) : d.undo = .ok c := by
  obtain ⟨hg, rfl⟩ := record_eq_ok_iff.1 h
  have hgroups : (c.groups.modify group (·.push slot)).modify group Stack.tail = c.groups := by
    ext i
    · simp
    · simp only [Array.getElem_modify]
      split <;> simp
  simp [undo, hg, hgroups]

/-- The spans of a match, if group 0 has a capture. -/
def publish? (c : Captures) : Option Spans :=
  if c.isMatched 0 then
    some ⟨c.groups.map (if c.balanced then History.publish else History.captured)⟩
  else .none

end Captures

end RegexMachine
