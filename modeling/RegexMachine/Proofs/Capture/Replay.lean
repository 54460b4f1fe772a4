import Mathlib.Data.List.Forall2
import RegexMachine.Capture.Basic

/-!
# Histories as stacks of captures

A history keeps cancelled captures and points past them. Replaying its slots gives the captures that
are left, latest first, and a cancellation takes the latest of them away. The pointers agree with
that as long as every cancellation was made by the history itself, which is what a proper history
is.
-/

namespace RegexMachine

namespace History

/-- The captures that were not cancelled, latest first. -/
def replay : List Slot → List Span
  | [] => []
  | .captured span :: rest => span :: replay rest
  | .cancelled _ :: rest => (replay rest).tail

/-- The slots of those captures. -/
def standing : List Slot → List Nat
  | [] => []
  | .captured _ :: rest => rest.length :: standing rest
  | .cancelled _ :: rest => (standing rest).tail

/-- Every cancellation shows the capture that is left after it. -/
def Proper : List Slot → Prop
  | [] => True
  | .captured _ :: rest => Proper rest
  | .cancelled visible :: rest => visible = (standing rest).tail.head? ∧ Proper rest

theorem Proper.tail {slot : Slot} {rest : List Slot} (h : Proper (slot :: rest)) :
    Proper rest := by
  cases slot with
  | captured span => exact h
  | cancelled visible => exact h.2

theorem Proper.drop {slots : List Slot} (h : Proper slots) (n : Nat) : Proper (slots.drop n) := by
  induction n generalizing slots with
  | zero => exact h
  | succ n ih =>
    cases slots with
    | nil => exact h
    | cons slot rest => exact ih h.tail

/-- What is below a standing slot is what stood when it was made. -/
theorem standing_below {slots : List Slot} {k : Nat} {ks : List Nat}
    (h : standing slots = k :: ks) :
    k < slots.length ∧ standing (slots.drop (slots.length - k)) = ks := by
  induction hn : slots.length using Nat.strongRecOn generalizing slots k ks with
  | ind n ih =>
    subst hn
    cases slots with
    | nil => cases h
    | cons slot rest =>
      cases slot with
      | captured span =>
        obtain ⟨rfl, rfl⟩ := List.cons.inj h
        have hone : rest.length + 1 - rest.length = 1 := by omega
        simp [hone]
      | cancelled visible =>
        rw [standing] at h
        cases hrest : standing rest with
        | nil =>
          rw [hrest] at h
          cases h
        | cons j js =>
          rw [hrest, List.tail_cons] at h
          subst h
          obtain ⟨hj, hbelow⟩ := ih _ (Nat.lt_succ_self _) hrest rfl
          have hlen : (rest.drop (rest.length - j)).length = j := by
            rw [List.length_drop]
            omega
          obtain ⟨hk, hks⟩ := ih j (by rw [List.length_cons]; omega) hbelow hlen
          rw [List.drop_drop] at hks
          have hdrop : rest.length - j + (j - k) + 1 = rest.length + 1 - k := by omega
          refine ⟨by rw [List.length_cons]; omega, ?_⟩
          rw [List.length_cons, ← hdrop, List.drop_succ_cons, hks]

/-- Standing slots are captures, namely those that are left. -/
theorem standing_replay (slots : List Slot) :
    List.Forall₂ (fun i span => slots.reverse[i]? = some (.captured span)) (standing slots)
      (replay slots) := by
  induction slots with
  | nil => exact .nil
  | cons slot rest ih =>
    have hold : List.Forall₂ (fun i span => (slot :: rest).reverse[i]? = some (.captured span))
        (standing rest) (replay rest) := by
      refine ih.imp fun i span h => ?_
      rw [List.reverse_cons, List.getElem?_append_left, h]
      exact (List.getElem?_eq_some_iff.1 h).1
    cases slot with
    | captured span =>
      refine .cons ?_ hold
      rw [List.reverse_cons, List.getElem?_append_right (by simp)]
      simp
    | cancelled visible =>
      rw [standing, replay]
      generalize standing rest = slots at hold
      generalize replay rest = spans at hold
      cases hold with
      | nil => exact .nil
      | cons _ htail => exact htail

theorem entry?_eq (h : History) (i : Nat) : h.entry? i = h.items.reverse[i]? := by
  rw [Stack.entry?, h.depth_eq]
  by_cases hi : i < h.items.length
  · rw [if_pos hi, List.getElem?_reverse hi]
  · rw [if_neg hi, List.getElem?_eq_none (by simpa using hi)]

theorem visible?_eq {h : History} (hp : Proper h.items) :
    h.visible? = (standing h.items).head? := by
  rw [visible?, Stack.top?, h.depth_eq]
  cases hitems : h.items with
  | nil => rfl
  | cons slot rest =>
    rw [hitems] at hp
    cases slot with
    | captured span => simp [standing]
    | cancelled visible => exact hp.1

/-- The visible capture is the latest that is left. -/
theorem span?_eq {h : History} (hp : Proper h.items) : h.span? = (replay h.items).head? := by
  rw [span?, visible?_eq hp]
  have hall := standing_replay h.items
  cases hstanding : standing h.items with
  | nil =>
    rw [hstanding] at hall
    rw [List.forall₂_nil_left_iff.1 hall]
    rfl
  | cons k ks =>
    rw [hstanding] at hall
    obtain ⟨span, spans, hk, -, hreplay⟩ := List.forall₂_cons_left_iff.1 hall
    rw [hreplay, List.head?_cons, List.head?_cons, Option.bind_some, entry?_eq, hk]

/-- A cancellation shows what stands below the visible capture. -/
theorem cancellation_eq {h : History} (hp : Proper h.items) :
    h.cancellation = .cancelled (standing h.items).tail.head? := by
  rw [cancellation, visible?_eq hp]
  cases hstanding : standing h.items with
  | nil => rfl
  | cons k ks =>
    obtain ⟨hk, hbelow⟩ := standing_below hstanding
    have hlen : (h.items.drop (h.items.length - k)).length = k := by
      rw [List.length_drop]
      omega
    rw [List.head?_cons, List.tail_cons, ← hbelow]
    cases k with
    | zero => rw [List.eq_nil_of_length_eq_zero hlen, standing, List.head?_nil]
    | succ previous =>
      have hproper := hp.drop (h.items.length - (previous + 1))
      have hentry : h.entry? previous = (h.items.drop (h.items.length - (previous + 1))).head? := by
        rw [entry?_eq, List.getElem?_reverse (by omega), List.head?_drop]
        congr 1
        omega
      simp only [hentry]
      cases hdrop : h.items.drop (h.items.length - (previous + 1)) with
      | nil =>
        rw [hdrop] at hlen
        cases hlen
      | cons slot rest =>
        rw [hdrop] at hproper hlen
        cases slot with
        | captured span =>
          have hrest : rest.length = previous := by simpa using hlen
          simp [standing, hrest]
        | cancelled visible => simp [standing, hproper.1]

theorem publish_eq (h : History) : h.publish = (replay h.items).reverse := by
  rw [publish, Stack.toList, List.foldl_reverse]
  congr 1
  induction h.items with
  | nil => rfl
  | cons slot rest ih =>
    rw [List.foldr_cons, ih]
    cases slot <;> rfl

theorem captured_eq {h : History} (hnone : ∀ visible, .cancelled visible ∉ h.items) :
    h.captured = (replay h.items).reverse := by
  rw [captured, Stack.toList, List.filterMap_reverse]
  congr 1
  generalize h.items = slots at hnone
  induction slots with
  | nil => rfl
  | cons slot rest ih =>
    cases slot with
    | captured span =>
      rw [List.filterMap_cons, replay,
        ih fun visible hv => hnone visible (List.mem_cons_of_mem _ hv)]
    | cancelled visible => exact absurd List.mem_cons_self (hnone visible)

end History

end RegexMachine
