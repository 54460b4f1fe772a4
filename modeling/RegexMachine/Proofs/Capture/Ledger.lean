import RegexMachine.Proofs.Capture.Changes

/-!
# The ledger of an attempt

A ledger holds the transitions that were not undone, and no pointers: what a group captured, or that
its latest capture was cancelled. Balancing groups are a stack over it. Histories, which do keep
pointers, are read during the match and published after it, and both give what the ledger gives.
-/

namespace RegexMachine

/-- A transition of a group: what it captured, or nothing where a capture was cancelled. -/
structure Ledger.Entry where
  group : Nat
  taken : Option Span
  deriving DecidableEq, Repr

/-- The transitions that were not undone, latest first. -/
abbrev Ledger := List Ledger.Entry

namespace Ledger

/-- The captures left by transitions of one group. A capture pushes, and a cancellation pops if
there is anything to pop. -/
def unwind : List (Option Span) → List Span
  | [] => []
  | some span :: rest => span :: unwind rest
  | none :: rest => (unwind rest).tail

/-- The transitions of one group. -/
def transitionsOf (l : Ledger) (group : Nat) : List (Option Span) :=
  (l.filter (·.group = group)).map (·.taken)

/-- The stack of a group, latest capture first. -/
def stack (l : Ledger) (group : Nat) : List Span := unwind (l.transitionsOf group)

theorem transitionsOf_cons (e : Entry) (l : Ledger) (group : Nat) :
    transitionsOf (e :: l) group =
      if e.group = group then e.taken :: l.transitionsOf group else l.transitionsOf group := by
  by_cases h : e.group = group <;> simp [transitionsOf, h]

end Ledger

/-- What a slot leaves of its transition when the pointer is forgotten. -/
def Slot.taken : Slot → Option Span
  | .captured span => some span
  | .cancelled _ => none

theorem History.replay_eq_unwind (slots : List Slot) :
    History.replay slots = Ledger.unwind (slots.map Slot.taken) := by
  induction slots with
  | nil => rfl
  | cons slot rest ih =>
    cases slot with
    | captured span => exact congrArg (span :: ·) ih
    | cancelled visible => exact congrArg List.tail ih

theorem History.Proper.captured_of_mem {h : History} (hp : History.Proper h.items) {k : Nat}
    (hmem : .cancelled (some k) ∈ h.items) : ∃ span, h.entry? k = some (.captured span) := by
  obtain ⟨later, earlier, hitems⟩ := List.append_of_mem hmem
  rw [hitems] at hp
  have hslot : History.Proper (.cancelled (some k) :: earlier) := by
    simpa using hp.drop later.length
  -- What the cancellation shows stands when it was made, below what it cancels.
  cases hstanding : History.standing earlier with
  | nil => simp [History.Proper, hstanding] at hslot
  | cons j below =>
    cases below with
    | nil => simp [History.Proper, hstanding] at hslot
    | cons i _ =>
      have hk : k = i := by simpa [History.Proper, hstanding] using hslot.1
      subst hk
      have hall := History.standing_replay earlier
      rw [hstanding] at hall
      obtain ⟨_, _, -, hrest, -⟩ := List.forall₂_cons_left_iff.1 hall
      obtain ⟨span, _, hentry, -, -⟩ := List.forall₂_cons_left_iff.1 hrest
      have hlt : k < earlier.reverse.length := (List.getElem?_eq_some_iff.1 hentry).1
      refine ⟨span, ?_⟩
      rw [History.entry?_eq, hitems, List.reverse_append, List.reverse_cons, List.append_assoc,
        List.getElem?_append_left hlt, hentry]

namespace Captures

/-- What a call enters into the ledger or strikes from it. The capture of a balancing group is made
of what stood on the stack of the group it cancels. -/
def Change.enter : Change → Ledger → Except Fault Ledger
  | .capture group start stop, l =>
    .ok (⟨group, some ⟨min start stop, max start stop - min start stop⟩⟩ :: l)
  | .transfer .none uncapture _ _, l => .ok (⟨uncapture, .none⟩ :: l)
  | .transfer (some group) uncapture start stop, l =>
    (between ((l.stack uncapture).head?.getD ⟨0, 0⟩) (min start stop) (max start stop)).map
      fun span => ⟨group, some span⟩ :: ⟨uncapture, .none⟩ :: l
  | .undo, l => .ok l.tail
  | .undoUntil depth, l => .ok (l.drop (l.length - depth))

/-- Calls, one after the other. -/
def makeAll (changes : List Change) (c : Captures) : Except Fault Captures :=
  changes.foldlM (fun c x => x.make c) c

/-- What calls leave in the ledger, one after the other. -/
def enterAll (changes : List Change) (l : Ledger) : Except Fault Ledger :=
  changes.foldlM (fun l x => x.enter l) l

/-- Histories and trail hold the transitions of the ledger. -/
structure Logs (c : Captures) (l : Ledger) : Prop where
  proper : c.Proper
  trail : c.trail.items = l.map (·.group)
  taken : ∀ group, ((c.groups[group]?).map fun h => h.items.map Slot.taken).getD [] =
    l.transitionsOf group

/-- What is read of the captures during the match, and what a match publishes, are the stacks of the
ledger. -/
structure Shows (c : Captures) (l : Ledger) : Prop where
  trail : c.trail.items = l.map (·.group)
  visible : ∀ group, c.span? group = (l.stack group).head?
  isMatched_iff : ∀ group, c.isMatched group = true ↔ l.stack group ≠ []
  startOf_eq : ∀ group, c.startOf group = ((l.stack group).head?.map (·.start)).getD 0
  lengthOf_eq : ∀ group, c.lengthOf group = ((l.stack group).head?.map (·.length)).getD 0
  unpublished : c.publish? = .none ↔ l.stack 0 = []
  published : ∀ spans, c.publish? = some spans → ∀ group,
    spans.history group = (l.stack group).reverse
  seen : ∀ spans, c.publish? = some spans → ∀ group, spans.group? group = c.span? group
  pointers : ∀ (group : Nat) (h : History), c.groups[group]? = some h →
    ∀ k, .cancelled (some k) ∈ h.items → ∃ span, h.entry? k = some (.captured span)

section

variable {c d : Captures} {l : Ledger} {group : Nat}

theorem logs_none (groupCount : Nat) : (none groupCount).Logs [] where
  proper := proper_none groupCount
  trail := rfl
  taken group := by
    rw [none, Array.getElem?_replicate]
    split <;> rfl

/-- What a group is left with is its stack. -/
theorem Logs.left_eq (h : c.Logs l) (group : Nat) : c.left group = l.stack group := by
  rw [Ledger.stack, ← h.taken group, left]
  cases c.groups[group]? with
  | none => rfl
  | some history => exact History.replay_eq_unwind history.items

theorem Logs.span?_eq (h : c.Logs l) (group : Nat) : c.span? group = (l.stack group).head? := by
  rw [Captures.span?_eq h.proper, h.left_eq]

theorem Logs.record {slot : Slot} (h : c.Logs l) (hd : d.Proper)
    (hrecord : c.record group slot = .ok d) : d.Logs (⟨group, slot.taken⟩ :: l) where
  proper := hd
  trail := by
    obtain ⟨-, rfl⟩ := record_eq_ok_iff.1 hrecord
    rw [Stack.items_push, h.trail, List.map_cons]
  taken g := by
    have hsize := (record_eq_ok_iff.1 hrecord).1
    rw [getElem?_of_record hrecord, Ledger.transitionsOf_cons, ← h.taken g]
    by_cases hg : g = group
    · subst hg
      simp [hsize]
    · rw [if_neg hg, if_neg (Ne.symm hg)]

theorem Logs.capture {span : Span} (h : c.Logs l)
    (hrecord : c.record group (.captured span) = .ok d) : d.Logs (⟨group, some span⟩ :: l) :=
  h.record (proper_of_capture h.proper hrecord) hrecord

theorem Logs.cancel (h : c.Logs l) (hcancel : c.cancel group = .ok d) :
    d.Logs (⟨group, .none⟩ :: l) := by
  have hproper : d.Proper := (Transition.cancel hcancel : Transition 0 c d).proper h.proper
  obtain ⟨history, hhistory⟩ : ∃ history, c.groups[group]? = some history :=
    ⟨_, Array.getElem?_eq_getElem (size_of_cancel_lt hcancel)⟩
  -- Noting that something is cancelled touches neither histories nor trail.
  have hnoted : ({ c with balanced := true } : Captures).Logs l :=
    ⟨⟨h.proper.histories, nofun⟩, h.trail, h.taken⟩
  rw [Captures.cancel, hhistory] at hcancel
  have hslot := hnoted.record hproper hcancel
  rwa [Option.map_some, Option.getD_some,
    History.cancellation_eq (h.proper.histories group history hhistory)] at hslot

theorem Logs.undo (h : c.Logs l) (hundo : c.undo = .ok d) : d.Logs l.tail := by
  have hproper : d.Proper :=
    (Transition.undo hundo (Nat.zero_le _) : Transition 0 c d).proper h.proper
  obtain ⟨group, trail, htrail, hgroup, rfl⟩ := exists_of_undo hundo
  have hitems := h.trail
  rw [htrail, Stack.items_push] at hitems
  cases l with
  | nil => cases hitems
  | cons e l =>
    obtain ⟨rfl, hrest⟩ := List.cons.inj hitems
    refine ⟨hproper, hrest, fun g => ?_⟩
    have htaken := h.taken g
    rw [Ledger.transitionsOf_cons] at htaken
    rw [List.tail_cons, Array.getElem?_modify]
    by_cases hg : e.group = g
    · subst hg
      rw [if_pos rfl, getElem?_pos c.groups _ hgroup] at htaken
      rw [if_pos rfl, getElem?_pos c.groups _ hgroup]
      simp only [Option.map_some, Option.getD_some, Stack.items_tail, List.map_tail] at htaken ⊢
      rw [htaken, List.tail_cons]
    · rw [if_neg hg] at htaken ⊢
      exact htaken

theorem Logs.undoTimes {n : Nat} (h : c.Logs l) (hundo : c.undoTimes n = .ok d) :
    d.Logs (l.drop n) := by
  induction n generalizing c l with
  | zero =>
    cases hundo
    exact h
  | succ n ih =>
    obtain ⟨e, hfirst, hrest⟩ := exists_of_undoTimes_succ hundo
    have hlater := ih (h.undo hfirst) hrest
    rwa [← List.drop_one, List.drop_drop, Nat.add_comm] at hlater

theorem Logs.transfer {group : Option Nat} {uncapture start stop : Nat} (h : c.Logs l)
    (htransfer : c.transfer group uncapture start stop = .ok d) :
    ∃ l', (Change.transfer group uncapture start stop).enter l = .ok l' ∧ d.Logs l' := by
  rw [Captures.transfer] at htransfer
  cases hcancel : c.cancel uncapture with
  | error f =>
    rw [hcancel] at htransfer
    cases htransfer
  | ok e =>
    rw [hcancel] at htransfer
    have he := h.cancel hcancel
    cases group with
    | none =>
      cases htransfer
      exact ⟨_, rfl, he⟩
    | some group =>
      rw [h.span?_eq] at htransfer
      rw [Change.enter]
      cases hbetween : between ((l.stack uncapture).head?.getD ⟨0, 0⟩) (min start stop)
          (max start stop) with
      | error f =>
        simp only [hbetween, bind, Except.bind] at htransfer
        cases htransfer
      | ok span =>
        simp only [hbetween, bind, Except.bind] at htransfer
        exact ⟨_, rfl, he.capture htransfer⟩

theorem Logs.make {x : Change} (h : c.Logs l) (hmake : x.make c = .ok d) :
    ∃ l', x.enter l = .ok l' ∧ d.Logs l' := by
  cases x with
  | capture group start stop => exact ⟨_, rfl, Logs.capture h hmake⟩
  | transfer group uncapture start stop => exact h.transfer hmake
  | undo => exact ⟨_, rfl, h.undo hmake⟩
  | undoUntil depth =>
    have hdepth : c.trail.depth = l.length := by
      rw [Stack.depth_eq, h.trail, List.length_map]
    rw [Change.make, undoUntil, hdepth] at hmake
    exact ⟨_, rfl, h.undoTimes hmake⟩

theorem Logs.makeAll {changes : List Change} (h : c.Logs l) (hmake : makeAll changes c = .ok d) :
    ∃ l', enterAll changes l = .ok l' ∧ d.Logs l' := by
  induction changes generalizing c l with
  | nil =>
    cases hmake
    exact ⟨l, rfl, h⟩
  | cons x changes ih =>
    rw [Captures.makeAll, List.foldlM_cons] at hmake
    cases hfirst : x.make c with
    | error f =>
      rw [hfirst] at hmake
      cases hmake
    | ok e =>
      rw [hfirst] at hmake
      obtain ⟨l', henter, he⟩ := h.make hfirst
      obtain ⟨l'', hrest, hd⟩ := ih he hmake
      refine ⟨l'', ?_, hd⟩
      rw [enterAll, List.foldlM_cons, henter]
      exact hrest

theorem Logs.publish?_eq_none_iff (h : c.Logs l) : c.publish? = .none ↔ l.stack 0 = [] := by
  rw [publish?_eq h.proper, h.left_eq]
  cases l.stack 0 with
  | nil => simp
  | cons span rest => simp

theorem Logs.history_publish {spans : Spans} (h : c.Logs l) (hspans : c.publish? = some spans)
    (group : Nat) : spans.history group = (l.stack group).reverse := by
  rw [Captures.history_publish h.proper hspans, h.left_eq]

theorem Logs.shows (h : c.Logs l) : c.Shows l where
  trail := h.trail
  visible := h.span?_eq
  isMatched_iff group := by
    rw [isMatched, h.span?_eq, List.isSome_head?]
  startOf_eq group := by rw [startOf, h.span?_eq]
  lengthOf_eq group := by rw [lengthOf, h.span?_eq]
  unpublished := h.publish?_eq_none_iff
  published spans hspans := h.history_publish hspans
  seen spans hspans group := by
    rw [Spans.group?, h.history_publish hspans, List.getLast?_reverse, h.span?_eq]
  pointers group history hhistory k := (h.proper.histories group history hhistory).captured_of_mem

end

/-- Balancing groups are a stack, during the match and after it. After any calls that return, a group
is matched when its stack in the ledger has a capture, the text of the group is that of the topmost
one, and a match publishes the stack. A pointer in a history leads to a capture, never to another
cancellation, and the capture that is read during the match is the one published. -/
theorem shows_of_makeAll {groupCount : Nat} {changes : List Change} {c : Captures}
    (hmake : makeAll changes (none groupCount) = .ok c) :
    ∃ l, enterAll changes [] = .ok l ∧ c.Shows l := by
  obtain ⟨l, henter, hlogs⟩ := (logs_none groupCount).makeAll hmake
  exact ⟨l, henter, hlogs.shows⟩

/-- Group 1 captures twice and is cancelled three times, the last time for nothing, and only the
transfer that cancelled nothing is undone. -/
theorem shows_cancellations :
    ∃ c, makeAll [.capture 1 1 3, .capture 1 4 0, .transfer (some 2) 1 5 6, .transfer .none 1 6 6,
        .transfer (some 2) 1 6 7, .undoUntil 5, .capture 0 0 7] (none 3) = .ok c ∧
      ∃ l, enterAll [.capture 1 1 3, .capture 1 4 0, .transfer (some 2) 1 5 6,
        .transfer .none 1 6 6, .transfer (some 2) 1 6 7, .undoUntil 5, .capture 0 0 7] [] = .ok l ∧
        c.Shows l :=
  ⟨_, rfl, shows_of_makeAll (show makeAll _ (none 3) = _ from rfl)⟩

end Captures

end RegexMachine
