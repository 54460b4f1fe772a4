import Mathlib.Logic.Function.Basic
import RegexMachine.Proofs.Capture.Replay

/-!
# Captures and how they are taken back

What the captures of an attempt amount to is the list of captures that every group is left with.
Captures made later extend those made before: undoing until the old depth of the trail gives the old
captures back, except for the note that something was cancelled.
-/

namespace RegexMachine.Captures

/-- The captures every group is left with, latest first. -/
def left (c : Captures) (group : Nat) : List Span :=
  ((c.groups[group]?).map fun h => History.replay h.items).getD []

/-- Cancellations were made by the captures themselves and were noted. -/
structure Proper (c : Captures) : Prop where
  histories : ∀ (group : Nat) (h : History), c.groups[group]? = some h → History.Proper h.items
  noted : c.balanced = false → ∀ (group : Nat) (h : History), c.groups[group]? = some h →
    ∀ visible, Slot.cancelled visible ∉ h.items

@[simp] theorem left_none (groupCount : Nat) : (none groupCount).left = fun _ => [] := by
  funext group
  by_cases h : group < groupCount
  · simp [left, none, h, Stack.empty, History.replay]
  · simp [left, none, h]

theorem proper_none (groupCount : Nat) : (none groupCount).Proper := by
  have hempty : ∀ (group : Nat) (h : History), (none groupCount).groups[group]? = some h → h.items = [] := by
    intro group h hg
    rw [none, Array.getElem?_replicate] at hg
    split at hg
    · cases hg
      rfl
    · cases hg
  constructor
  · intro group h hg
    rw [hempty group h hg]
    trivial
  · intro _ group h hg visible
    rw [hempty group h hg]
    exact List.not_mem_nil

theorem span?_eq {c : Captures} (hc : c.Proper) (group : Nat) :
    c.span? group = (c.left group).head? := by
  rw [span?, left]
  cases hg : c.groups[group]? with
  | none => rfl
  | some h => exact History.span?_eq (hc.histories group h hg)

theorem isMatched_eq {c : Captures} (hc : c.Proper) (group : Nat) :
    c.isMatched group = !(c.left group).isEmpty := by
  rw [isMatched, span?_eq hc]
  cases c.left group <;> rfl

/-- The spans of a match are what every group is left with, oldest first. -/
theorem publish?_eq {c : Captures} (hc : c.Proper) :
    c.publish? = if (c.left 0).isEmpty then .none
      else some ⟨(Array.range c.groups.size).map fun group => (c.left group).reverse⟩ := by
  have hgroups : c.groups.map (if c.balanced then History.publish else History.captured) =
      (Array.range c.groups.size).map fun group => (c.left group).reverse := by
    apply Array.ext_getElem?
    intro group
    rw [Array.getElem?_map, Array.getElem?_map, Array.getElem?_range]
    cases hg : c.groups[group]? with
    | none =>
      rw [if_neg (Nat.not_lt.2 (Array.getElem?_eq_none_iff.1 hg))]
      rfl
    | some h =>
      rw [if_pos (Array.getElem?_eq_some_iff.1 hg).1]
      cases hb : c.balanced with
      | true => simp [left, hg, History.publish_eq]
      | false => simp [left, hg, History.captured_eq (hc.noted hb group h hg)]
  rw [publish?, isMatched_eq hc, hgroups]
  cases c.left 0 <;> rfl

theorem history_publish {c : Captures} {spans : Spans} (hc : c.Proper)
    (h : c.publish? = some spans) (group : Nat) :
    spans.history group = (c.left group).reverse := by
  rw [publish?_eq hc] at h
  split at h
  · cases h
  · cases h
    rw [Spans.history, Array.getD_eq_getD_getElem?, Array.getElem?_map, Array.getElem?_range]
    split
    · rfl
    · rename_i hg
      rw [left, Array.getElem?_eq_none_iff.2 (Nat.not_lt.1 hg)]
      rfl

theorem publish?_none (groupCount : Nat) : (none groupCount).publish? = .none := by
  rw [publish?_eq (proper_none groupCount), left_none]
  rfl

theorem groupCount_publish {c : Captures} {spans : Spans} (h : c.publish? = some spans) :
    spans.groupCount = c.groups.size := by
  rw [publish?] at h
  split at h
  · cases h
    exact Array.size_map
  · cases h

theorem whole_publish {c : Captures} {span : Span} (hc : c.Proper)
    (h : (c.left 0).head? = some span) : ∃ spans, c.publish? = some spans ∧ spans.whole = span := by
  have hne : (c.left 0).isEmpty = false := by
    cases hleft : c.left 0 with
    | nil =>
      rw [hleft] at h
      cases h
    | cons span' rest => rfl
  have hpublish := publish?_eq hc
  rw [hne] at hpublish
  refine ⟨_, hpublish, ?_⟩
  rw [Spans.whole, Spans.group?, history_publish hc hpublish, List.getLast?_reverse, h]
  rfl

section Record

variable {c d : Captures} {group : Nat} {slot : Slot}

theorem getElem?_of_record (h : c.record group slot = .ok d) (g : Nat) :
    d.groups[g]? =
      if g = group then (c.groups[g]?).map (·.push slot) else c.groups[g]? := by
  obtain ⟨hg, rfl⟩ := record_eq_ok_iff.1 h
  rw [Array.getElem?_modify]
  by_cases he : group = g
  · subst he
    simp
  · have hne : ¬ g = group := fun h => he h.symm
    simp [he, hne]

theorem size_of_record (h : c.record group slot = .ok d) : d.groups.size = c.groups.size := by
  obtain ⟨-, rfl⟩ := record_eq_ok_iff.1 h
  simp

theorem depth_of_record (h : c.record group slot = .ok d) :
    d.trail.depth = c.trail.depth + 1 := by
  obtain ⟨-, rfl⟩ := record_eq_ok_iff.1 h
  rfl

theorem exists_record (c : Captures) (slot : Slot) (h : group < c.groups.size) :
    ∃ d, c.record group slot = .ok d :=
  ⟨_, record_eq_ok_iff.2 ⟨h, rfl⟩⟩

theorem left_of_capture {span : Span} (h : c.record group (.captured span) = .ok d) :
    d.left = Function.update c.left group (span :: c.left group) := by
  obtain ⟨hg, -⟩ := record_eq_ok_iff.1 h
  funext g
  rw [left, getElem?_of_record h]
  by_cases he : g = group
  · subst he
    simp [left, hg, History.replay]
  · simp [he, left]

theorem proper_of_capture {span : Span} (hc : c.Proper)
    (h : c.record group (.captured span) = .ok d) : d.Proper := by
  have hitems : ∀ (g : Nat) (h' : History), d.groups[g]? = some h' →
      ∃ h'', c.groups[g]? = some h'' ∧
        (h'.items = h''.items ∨ h'.items = .captured span :: h''.items) := by
    intro g h' hg
    rw [getElem?_of_record h] at hg
    split at hg
    · obtain ⟨h'', hc', rfl⟩ := Option.map_eq_some_iff.1 hg
      exact ⟨h'', hc', .inr rfl⟩
    · exact ⟨h', hg, .inl rfl⟩
  obtain ⟨-, rfl⟩ := record_eq_ok_iff.1 h
  constructor
  · intro g h' hg
    obtain ⟨h'', hc', he | he⟩ := hitems g h' hg
    · rw [he]
      exact hc.histories g h'' hc'
    · rw [he]
      exact hc.histories g h'' hc'
  · intro hb g h' hg visible
    obtain ⟨h'', hc', he | he⟩ := hitems g h' hg
    · rw [he]
      exact hc.noted hb g h'' hc' visible
    · rw [he]
      have hnone := hc.noted hb g h'' hc' visible
      simpa using hnone

/-- A cancellation takes away the latest capture that its group is left with. -/
theorem exists_cancel (hc : c.Proper) (hg : group < c.groups.size) :
    ∃ d, c.cancel group = .ok d ∧ d.Proper ∧
      d.left = Function.update c.left group (c.left group).tail := by
  obtain ⟨h, hh⟩ : ∃ h, c.groups[group]? = some h := ⟨_, Array.getElem?_eq_getElem hg⟩
  have hproper := hc.histories group h hh
  have hsize : group < ({ c with balanced := true } : Captures).groups.size := hg
  obtain ⟨d, hd⟩ := exists_record _ h.cancellation hsize
  clear hsize
  have hgroups : ∀ g, d.groups[g]? =
      if g = group then (c.groups[g]?).map (·.push h.cancellation) else c.groups[g]? :=
    fun g => getElem?_of_record hd g
  refine ⟨d, ?_, ⟨?_, ?_⟩, ?_⟩
  · rw [cancel, hh]
    exact hd
  · intro g h' hg'
    rw [hgroups] at hg'
    split at hg'
    · next he =>
      subst he
      rw [hh, Option.map_some, Option.some.injEq] at hg'
      subst hg'
      rw [Stack.items_push, History.cancellation_eq hproper]
      exact ⟨rfl, hproper⟩
    · exact hc.histories g h' hg'
  · intro hb
    obtain ⟨-, rfl⟩ := record_eq_ok_iff.1 hd
    cases hb
  · funext g
    rw [left, hgroups]
    by_cases he : g = group
    · subst he
      simp [left, hh, History.cancellation_eq hproper, History.replay]
    · simp [he, left]

end Record

/-- The same captures, except that more may have been noted as cancelled. -/
structure Back (c d : Captures) : Prop where
  groups : c.groups = d.groups
  trail : c.trail = d.trail
  balanced : d.balanced = true → c.balanced = true

theorem Back.refl (c : Captures) : Back c c := ⟨rfl, rfl, id⟩

theorem Back.trans {c d e : Captures} (h : Back c d) (h' : Back d e) : Back c e :=
  ⟨h.groups.trans h'.groups, h.trail.trans h'.trail, h.balanced ∘ h'.balanced⟩

theorem Back.left {c d : Captures} (h : Back c d) : c.left = d.left := by
  funext group
  rw [Captures.left, Captures.left, h.groups]

theorem Back.proper {c d : Captures} (h : Back c d) (hd : d.Proper) : c.Proper := by
  constructor
  · rw [h.groups]
    exact hd.histories
  · intro hb
    rw [h.groups]
    refine hd.noted ?_
    cases hdb : d.balanced with
    | false => rfl
    | true => exact absurd (hb.symm.trans (h.balanced hdb)) Bool.false_ne_true

theorem undoTimes_add (m n : Nat) (c : Captures) :
    undoTimes (m + n) c = undoTimes m c >>= undoTimes n := by
  induction m generalizing c with
  | zero =>
    rw [Nat.zero_add]
    rfl
  | succ m ih =>
    rw [Nat.succ_add, undoTimes, undoTimes]
    cases c.undo with
    | error f => rfl
    | ok d => exact ih d

theorem Back.undo {c d e : Captures} (h : Back c d) (hd : d.undo = .ok e) :
    ∃ e', c.undo = .ok e' ∧ Back e' e := by
  rw [Captures.undo, ← h.trail] at hd
  rw [Captures.undo, h.groups]
  cases hpop : c.trail.pop? with
  | none =>
    rw [hpop] at hd
    cases hd
  | some entry =>
    obtain ⟨group, trail⟩ := entry
    rw [hpop] at hd
    simp only at hd ⊢
    split at hd
    · next hg =>
      cases hd
      rw [if_pos hg]
      exact ⟨_, rfl, ⟨rfl, rfl, h.balanced⟩⟩
    · cases hd

theorem Back.undoTimes {c d e : Captures} {n : Nat} (h : Back c d)
    (hd : Captures.undoTimes n d = .ok e) : ∃ e', Captures.undoTimes n c = .ok e' ∧ Back e' e := by
  induction n generalizing c d with
  | zero =>
    cases hd
    exact ⟨c, rfl, h⟩
  | succ n ih =>
    rw [Captures.undoTimes] at hd
    cases hundo : d.undo with
    | error f =>
      rw [hundo] at hd
      cases hd
    | ok d' =>
      rw [hundo] at hd
      obtain ⟨c', hc', hback⟩ := h.undo hundo
      obtain ⟨e', he', hback'⟩ := ih hback hd
      refine ⟨e', ?_, hback'⟩
      rw [Captures.undoTimes, hc']
      exact he'

/-- Undoing until the depth of `d` gives `d` back. -/
structure Extends (c d : Captures) : Prop where
  size : c.groups.size = d.groups.size
  depth : d.trail.depth ≤ c.trail.depth
  undo : ∃ e, c.undoUntil d.trail.depth = .ok e ∧ Back e d

theorem Extends.of_back {c d : Captures} (h : Back c d) : Extends c d := by
  refine ⟨by rw [h.groups], Nat.le_of_eq (by rw [h.trail]), c, ?_, h⟩
  rw [undoUntil, h.trail, Nat.sub_self]
  rfl

theorem Extends.refl (c : Captures) : Extends c c := .of_back (Back.refl c)

theorem Extends.trans {c d e : Captures} (h : Extends c d) (h' : Extends d e) : Extends c e := by
  refine ⟨h.size.trans h'.size, Nat.le_trans h'.depth h.depth, ?_⟩
  obtain ⟨x, hx, hback⟩ := h.undo
  obtain ⟨y, hy, hback'⟩ := h'.undo
  obtain ⟨z, hz, hback''⟩ := hback.undoTimes hy
  have hd := h.depth
  have hd' := h'.depth
  refine ⟨z, ?_, hback''.trans hback'⟩
  have hsplit : c.trail.depth - e.trail.depth =
      (c.trail.depth - d.trail.depth) + (d.trail.depth - e.trail.depth) := by omega
  rw [undoUntil] at hx
  rw [undoUntil, hsplit, undoTimes_add, hx]
  exact hz

theorem Extends.of_record {c d : Captures} {group : Nat} {slot : Slot}
    (h : c.record group slot = .ok d) : Extends d c := by
  refine ⟨size_of_record h, by rw [depth_of_record h]; omega, c, ?_, Back.refl c⟩
  have hone : d.trail.depth - c.trail.depth = 1 := by
    rw [depth_of_record h]
    omega
  rw [undoUntil, hone, undoTimes, undo_record h]
  rfl

theorem Extends.of_cancel {c d : Captures} {group : Nat} (h : c.cancel group = .ok d) :
    Extends d c :=
  (Extends.of_record h).trans (.of_back ⟨rfl, rfl, fun _ => rfl⟩)

end RegexMachine.Captures
