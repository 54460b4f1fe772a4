import Mathlib.Logic.Relation
import RegexMachine.Proofs.Capture.Undo

/-!
# Changes of captures

A matcher captures, cancels captures and takes both back. One such change may be several transitions,
so what changes keep up is said of each transition: histories stay proper, the trail holds every group
as often as the group has slots, and undoing down to a depth brings back what stood at that depth as
long as the trail was never left below it. Only the note that something was cancelled is not taken
back, and where every cancellation is noted it does not show.
-/

namespace RegexMachine

namespace Stack

variable {α : Type}

theorem eq_push_of_pop? {s rest : Stack α} {x : α} (h : s.pop? = some (x, rest)) :
    s = rest.push x := by
  obtain ⟨items, depth, hdepth⟩ := s
  cases items with
  | nil => cases h
  | cons y items =>
    obtain ⟨rfl, rfl⟩ := Prod.mk.inj (Option.some.inj h)
    exact Stack.ext rfl

theorem depth_tail (s : Stack α) : s.tail.depth = s.depth - 1 := by
  rw [depth_eq, depth_eq, items_tail, List.length_tail]

end Stack

namespace Captures

/-- A call that changes the captures. -/
inductive Change where
  | capture (group start stop : Nat)
  | transfer (group : Option Nat) (uncapture start stop : Nat)
  | undo
  | undoUntil (depth : Nat)

def Change.make : Change → Captures → Except Fault Captures
  | .capture group start stop, c => c.capture group start stop
  | .transfer group uncapture start stop, c => c.transfer group uncapture start stop
  | .undo, c => c.undo
  | .undoUntil depth, c => c.undoUntil depth

/-- The captures after changes that return, none of which leaves the trail below the depth. -/
inductive Changed (depth : Nat) (c : Captures) : Captures → Prop
  | start : Changed depth c c
  | make {d e : Captures} (h : Changed depth c d) (x : Change) (hmake : x.make d = .ok e)
      (hdepth : depth ≤ e.trail.depth) : Changed depth c e

/-- One transition, or one that is taken back and does not leave the trail below the depth. -/
inductive Transition (depth : Nat) (c d : Captures) : Prop
  | capture {group : Nat} {span : Span} (h : c.record group (.captured span) = .ok d)
  | cancel {group : Nat} (h : c.cancel group = .ok d)
  | undo (h : c.undo = .ok d) (hdepth : depth ≤ d.trail.depth)

/-- How many slots a group has. -/
def slotCount (c : Captures) (group : Nat) : Nat := ((c.groups[group]?).map Stack.depth).getD 0

/-- Every group has as many slots as the trail has entries of it. -/
def Tallied (c : Captures) : Prop := ∀ group, c.slotCount group = c.trail.items.count group

section

variable {c d e : Captures} {depth group : Nat}

theorem exists_of_undo (h : c.undo = .ok d) : ∃ group trail, c.trail = trail.push group ∧
    group < c.groups.size ∧ d = { c with groups := c.groups.modify group Stack.tail, trail } := by
  rw [undo] at h
  cases hpop : c.trail.pop? with
  | none =>
    rw [hpop] at h
    cases h
  | some entry =>
    obtain ⟨group, trail⟩ := entry
    rw [hpop] at h
    simp only at h
    split at h
    · next hgroup =>
      cases h
      exact ⟨group, trail, Stack.eq_push_of_pop? hpop, hgroup, rfl⟩
    · cases h

theorem depth_of_undo (h : c.undo = .ok d) : c.trail.depth = d.trail.depth + 1 := by
  obtain ⟨group, trail, htrail, -, rfl⟩ := exists_of_undo h
  rw [htrail, Stack.depth_push]

theorem exists_of_undoTimes_succ {n : Nat} (h : undoTimes (n + 1) c = .ok e) :
    ∃ d, c.undo = .ok d ∧ undoTimes n d = .ok e := by
  rw [undoTimes] at h
  cases hundo : c.undo with
  | error f =>
    rw [hundo] at h
    cases h
  | ok d =>
    rw [hundo] at h
    exact ⟨d, rfl, h⟩

theorem depth_of_undoTimes {n : Nat} (h : undoTimes n c = .ok d) :
    c.trail.depth = d.trail.depth + n := by
  induction n generalizing c with
  | zero =>
    cases h
    rfl
  | succ n ih =>
    obtain ⟨e, hundo, hrest⟩ := exists_of_undoTimes_succ h
    rw [depth_of_undo hundo, ih hrest, Nat.add_assoc]

/-- Of a transfer the cancellation comes first, and then the capture, if there is one. -/
theorem exists_of_transfer {group : Option Nat} {uncapture start stop : Nat}
    (h : c.transfer group uncapture start stop = .ok e) :
    ∃ d, c.cancel uncapture = .ok d ∧
      (d = e ∨ ∃ g span, d.record g (.captured span) = .ok e) := by
  rw [transfer] at h
  cases hcancel : c.cancel uncapture with
  | error f =>
    rw [hcancel] at h
    cases h
  | ok d =>
    rw [hcancel] at h
    cases group with
    | none => exact ⟨d, rfl, .inl (Except.ok.inj h)⟩
    | some g =>
      simp only [bind, Except.bind] at h
      split at h
      · cases h
      · exact ⟨d, rfl, .inr ⟨g, _, h⟩⟩

theorem transitions_of_undoTimes {n : Nat} (h : undoTimes n c = .ok d)
    (hdepth : depth ≤ d.trail.depth) : Relation.ReflTransGen (Transition depth) c d := by
  induction n generalizing c with
  | zero =>
    cases h
    exact .refl
  | succ n ih =>
    obtain ⟨e, hundo, hrest⟩ := exists_of_undoTimes_succ h
    have hlater := depth_of_undoTimes hrest
    exact .head (.undo hundo (by omega)) (ih hrest)

/-- A change that returns makes transitions and takes some back. While it does, the trail is nowhere
shorter than before it and after it. -/
theorem Change.transitions {x : Change} (h : x.make c = .ok d) (hdepth : depth ≤ d.trail.depth) :
    Relation.ReflTransGen (Transition depth) c d := by
  cases x with
  | capture group start stop => exact .single (.capture h)
  | transfer group uncapture start stop =>
    obtain ⟨e, hcancel, rfl | ⟨g, span, hrecord⟩⟩ := exists_of_transfer h
    · exact .single (.cancel hcancel)
    · exact .head (.cancel hcancel) (.single (.capture hrecord))
  | undo => exact .single (.undo h hdepth)
  | undoUntil depth => exact transitions_of_undoTimes h hdepth

theorem Changed.transitions (h : Changed depth c d) :
    Relation.ReflTransGen (Transition depth) c d := by
  induction h with
  | start => exact .refl
  | make _ x hmake hdepth ih => exact ih.trans (x.transitions hmake hdepth)

theorem size_of_cancel_lt (h : c.cancel group = .ok d) : group < c.groups.size :=
  (record_eq_ok_iff.1 h).1

theorem Transition.proper (h : Transition depth c d) (hc : c.Proper) : d.Proper := by
  cases h with
  | capture h => exact proper_of_capture hc h
  | cancel h =>
    obtain ⟨e, hcancel, hproper, -⟩ := exists_cancel hc (size_of_cancel_lt h)
    obtain rfl := Except.ok.inj (hcancel.symm.trans h)
    exact hproper
  | undo h _ =>
    obtain ⟨group, trail, -, -, rfl⟩ := exists_of_undo h
    -- Every history that is left is one from before, or one without its latest slot.
    have hleft : ∀ (g : Nat) (h : History), (c.groups.modify group Stack.tail)[g]? = some h →
        ∃ h', c.groups[g]? = some h' ∧ (h = h' ∨ h = h'.tail) := by
      intro g h hg
      rw [Array.getElem?_modify] at hg
      split at hg
      · obtain ⟨h', hg', rfl⟩ := Option.map_eq_some_iff.1 hg
        exact ⟨h', hg', .inr rfl⟩
      · exact ⟨h, hg, .inl rfl⟩
    constructor
    · intro g h hg
      obtain ⟨h', hg', rfl | rfl⟩ := hleft g h hg
      · exact hc.histories g h hg'
      · have hproper := (hc.histories g h' hg').drop 1
        rwa [List.drop_one, ← Stack.items_tail] at hproper
    · intro hnoted g h hg visible
      obtain ⟨h', hg', rfl | rfl⟩ := hleft g h hg
      · exact hc.noted hnoted g h hg' visible
      · rw [Stack.items_tail]
        exact fun hmem => hc.noted hnoted g h' hg' visible (List.mem_of_mem_tail hmem)

theorem Tallied.record {slot : Slot} (hc : c.Tallied) (h : c.record group slot = .ok d) :
    d.Tallied := by
  intro g
  have hslots := hc g
  rw [slotCount, getElem?_of_record h]
  rw [slotCount] at hslots
  obtain ⟨hgroup, rfl⟩ := record_eq_ok_iff.1 h
  rw [Stack.items_push, List.count_cons, ← hslots]
  by_cases hg : g = group
  · subst hg
    simp [hgroup]
  · simp [hg, Ne.symm hg]

theorem Transition.tallied (h : Transition depth c d) (hc : c.Tallied) : d.Tallied := by
  cases h with
  | capture h => exact hc.record h
  | cancel h => exact Tallied.record (c := { c with balanced := true }) hc h
  | undo h _ =>
    obtain ⟨group, trail, htrail, hgroup, rfl⟩ := exists_of_undo h
    intro g
    have hslots := hc g
    rw [htrail, Stack.items_push, List.count_cons, slotCount] at hslots
    rw [slotCount, Array.getElem?_modify]
    by_cases hg : group = g
    · subst hg
      simp only [hgroup, getElem?_pos, Option.map_some, Option.getD_some, beq_self_eq_true,
        if_true] at hslots ⊢
      rw [Stack.depth_tail, hslots, Nat.add_sub_cancel]
    · simpa [hg] using hslots

theorem Transition.extends {b : Captures} (h : Transition b.trail.depth c d) (hc : Extends c b) :
    Extends d b := by
  cases h with
  | capture h => exact (Extends.of_record h).trans hc
  | cancel h => exact (Extends.of_cancel h).trans hc
  | undo h hdepth =>
    obtain ⟨e, hundone, hback⟩ := hc.undo
    have hsize : d.groups.size = c.groups.size := by
      obtain ⟨_, _, -, -, rfl⟩ := exists_of_undo h
      exact Array.size_modify
    have hone : c.trail.depth - b.trail.depth = d.trail.depth - b.trail.depth + 1 := by
      rw [depth_of_undo h]
      omega
    refine ⟨hsize.trans hc.size, hdepth, e, ?_, hback⟩
    rw [undoUntil, hone, undoTimes, h] at hundone
    exact hundone

end

section

variable {c d : Captures} {depth groupCount : Nat}

theorem tallied_none (groupCount : Nat) : (none groupCount).Tallied := by
  intro group
  rw [slotCount, none, Array.getElem?_replicate]
  split <;> rfl

theorem Changed.keeps {P : Captures → Prop} (h : Changed depth c d)
    (hkeeps : ∀ {d e}, Transition depth d e → P d → P e) (hc : P c) : P d := by
  have hsteps := h.transitions
  clear h
  induction hsteps with
  | refl => exact hc
  | tail _ hstep ih => exact hkeeps hstep ih

theorem Changed.proper (h : Changed depth c d) (hc : c.Proper) : d.Proper :=
  h.keeps Transition.proper hc

theorem Changed.tallied (h : Changed depth c d) (hc : c.Tallied) : d.Tallied :=
  h.keeps Transition.tallied hc

theorem Changed.extends (h : Changed c.trail.depth c d) : Extends d c :=
  h.keeps Transition.extends (.refl c)

theorem Back.publish? {e : Captures} (h : Back e c) (hc : c.Proper) : e.publish? = c.publish? := by
  rw [publish?_eq (h.proper hc), publish?_eq hc, h.left, h.groups]

theorem Back.span? {e : Captures} (h : Back e c) (group : Nat) : e.span? group = c.span? group := by
  rw [Captures.span?, Captures.span?, h.groups]

/-- Undoing is exact. Whatever changes captures went through after a reset, and whatever changes follow
without the trail getting shorter than it is, undoing until its present depth brings back every
history, everything that is read of the groups and what a match would publish. All along the trail
holds every group as often as the group has slots. -/
theorem Changed.undoUntil_restores (hc : Changed 0 (none groupCount) c)
    (hd : Changed c.trail.depth c d) :
    (∃ e, d.undoUntil c.trail.depth = .ok e ∧ e.groups = c.groups ∧ e.trail = c.trail ∧
      (∀ group, e.isMatched group = c.isMatched group ∧ e.startOf group = c.startOf group ∧
        e.lengthOf group = c.lengthOf group) ∧
      e.publish? = c.publish?) ∧
    c.Tallied ∧ d.Tallied := by
  have hproper : c.Proper := hc.proper (proper_none groupCount)
  have htallied : c.Tallied := hc.tallied (tallied_none groupCount)
  obtain ⟨e, hundo, hback⟩ := hd.extends.undo
  refine ⟨⟨e, hundo, hback.groups, hback.trail, ?_, hback.publish? hproper⟩, htallied,
    hd.tallied htallied⟩
  intro group
  rw [isMatched, startOf, lengthOf, hback.span? group]
  exact ⟨rfl, rfl, rfl⟩

end

/-- A capture of the text `[0, 4)` in a group that captured `[1, 3)` before. -/
def nested : Captures where
  groups := #[Stack.empty, (Stack.empty.push (.captured ⟨1, 2⟩)).push (.captured ⟨0, 4⟩)]
  trail := (Stack.empty.push 1).push 1

/-- Group 0 has taken what follows the latest capture of group 1, which is thereby cancelled. -/
def balancedOff : Captures where
  groups := #[Stack.empty.push (.captured ⟨4, 1⟩),
    ((Stack.empty.push (.captured ⟨1, 2⟩)).push (.captured ⟨0, 4⟩)).push (.cancelled (some 0))]
  trail := ((Stack.empty.push 1).push 1).push 1 |>.push 0
  balanced := true

/-- Undoing the transfer shows the capture again that the transfer had cancelled. -/
theorem undoUntil_balancedOff :
    balancedOff.lengthOf 1 = 2 ∧ nested.lengthOf 1 = 4 ∧
    (∃ e, balancedOff.undoUntil 2 = .ok e ∧ e.groups = nested.groups ∧ e.trail = nested.trail ∧
      (∀ group, e.isMatched group = nested.isMatched group ∧
        e.startOf group = nested.startOf group ∧ e.lengthOf group = nested.lengthOf group) ∧
      e.publish? = nested.publish?) ∧
    nested.Tallied ∧ balancedOff.Tallied := by
  have hnested : Changed 0 (none 2) nested :=
    (Changed.start.make (.capture 1 1 3) rfl (Nat.zero_le _)).make (.capture 1 4 0) rfl
      (Nat.zero_le _)
  have hbalanced : Changed nested.trail.depth nested balancedOff :=
    Changed.start.make (.transfer (some 0) 1 5 6) rfl (by decide)
  exact ⟨rfl, rfl, Changed.undoUntil_restores hnested hbalanced⟩

end Captures

end RegexMachine
