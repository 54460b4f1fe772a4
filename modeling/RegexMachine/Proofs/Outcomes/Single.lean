import RegexMachine.Proofs.Outcomes.Thinning
import RegexMachine.Proofs.Tree.Choices

/-!
# Single outcomes

A matcher is single when it never allows more than one outcome. What is sealed is single, and what is
composed of single parts without a choice is. So a node that leaves no choice is single as it is
compiled, but for a loop that must run its body as often as the bound that stands for none: it is
compiled as a loop without a bound, and goes on.
-/

namespace RegexMachine

namespace Matcher

/-- There is at most one outcome from any state. -/
def Single (M : Matcher) : Prop := ∀ s, (M s).length ≤ 1

theorem length_flatMap_le_one {α β : Type} {l : List α} {f : α → List β} (hl : l.length ≤ 1)
    (hf : ∀ a ∈ l, (f a).length ≤ 1) : (l.flatMap f).length ≤ 1 := by
  match l, hl with
  | [], _ => exact Nat.zero_le 1
  | [a], _ =>
    rw [List.flatMap_singleton]
    exact hf a List.mem_cons_self

theorem length_goTo_le_one (s : MatchState) (p? : Option Place) : (goTo s p?).length ≤ 1 := by
  cases p? with
  | none => exact Nat.zero_le 1
  | some p => exact Nat.le_refl 1

theorem single_anchor (textStart : Nat) (anchor : Anchor) :
    Single fun s => if holdsAt textStart s.place anchor then [s] else [] := by
  intro s
  dsimp only
  split
  · exact Nat.le_refl 1
  · exact Nat.zero_le 1

theorem single_backreference (σ : Setting) (options : Options) (group : Nat) :
    Single (backreference σ options group) := by
  intro s
  rw [backreference]
  split
  · split
    · exact Nat.le_refl 1
    · exact Nat.zero_le 1
  · exact length_goTo_le_one s _

section

variable (d : Direction) (test : Char → Bool) (min : Nat) (isLazy : Bool)

theorem single_charLoop_cut (spare : Option Nat) : Single (charLoop d test min spare isLazy true) := by
  intro s
  rw [charLoop]
  split
  · exact Nat.zero_le 1
  · simp only [if_true, List.length_map]
    exact List.length_take_le _ _

theorem single_charLoop_fixed (isCut : Bool) :
    Single (charLoop d test min (some 0) isLazy isCut) := by
  intro s
  cases isCut with
  | true => exact single_charLoop_cut d test min isLazy (some 0) s
  | false =>
    rw [charLoop]
    split
    · exact Nat.zero_le 1
    · cases isLazy <;> exact Nat.le_refl 1

end

variable {body yes no : Matcher}

theorem single_stay : Single stay := fun _ => Nat.le_refl 1

theorem single_sequence {parts : List Matcher} (h : ∀ part ∈ parts, Single part) :
    Single (sequence parts) := by
  induction parts with
  | nil => exact fun _ => Nat.le_refl 1
  | cons part rest ih =>
    have hrest := ih fun part' hpart => h part' (List.mem_cons_of_mem _ hpart)
    exact fun s => length_flatMap_le_one (h part List.mem_cons_self s) fun t _ => hrest t

theorem single_loop_fixed (h : Single body) (d : Direction) (min : Nat) (isLazy : Bool) :
    ∀ done, Single (loop d body min (some 0) isLazy done) := by
  refine loop_induction d min fun done s ih => ?_
  rw [loop_eq]
  split
  · refine length_flatMap_le_one (h s) fun t _ => ?_
    rw [afterRun]
    split
    · next hrun => exact ih t hrun
    · exact Nat.le_refl 1
  · rw [if_neg (by simp)]
    exact Nat.le_refl 1

theorem single_capture (h : Single body) (group uncapture : Option Nat) :
    Single (capture group uncapture body) :=
  fun s => Nat.le_trans (List.length_filterMap_le _ _) (h s)

theorem single_atomic (body : Matcher) : Single (atomic body) := fun _ => List.length_take_le _ _

theorem single_positiveLook (body : Matcher) : Single (positiveLook body) := fun s => by
  rw [positiveLook, List.length_map]
  exact List.length_take_le _ _

theorem single_negativeLook (body : Matcher) : Single (negativeLook body) := by
  intro s
  rw [negativeLook]
  split
  · exact Nat.le_refl 1
  · exact Nat.zero_le 1

theorem single_backreferenceConditional (group : Nat) (hyes : Single yes) (hno : Single no) :
    Single (backreferenceConditional group yes no) := by
  intro s
  rw [backreferenceConditional]
  split
  · exact hno s
  · exact hyes s

theorem single_expressionConditional (condition : Matcher) (hyes : Single yes) (hno : Single no) :
    Single (expressionConditional condition yes no) := by
  intro s
  rw [expressionConditional]
  split
  · exact hyes _
  · exact hno s

end Matcher

open Matcher

/-- A loop runs its body a fixed number of times, unless that is the number that stands for none. -/
theorem compiledSpare_self {count : Nat} (h : count ≠ unbounded) :
    compiledSpare count count = some 0 := by
  have hcounted : Emitter.isCounted count count = true := by
    rw [Emitter.isCounted, Bool.or_eq_true, decide_eq_true_iff, decide_eq_true_iff]
    rw [unbounded] at h ⊢
    omega
  rw [compiledSpare, if_pos hcounted, Emitter.extra, if_neg h, Nat.sub_self]

/-- A node that leaves no choice is single as it is compiled, when no loop in it must run its body
without a bound. -/
theorem Node.single_matcher (analysis : Analysis) (σ : Setting) {n : Node}
    (hleaves : n.leavesChoice false = false)
    (hloops : ∀ x ∈ n.preorder, ∀ isLazy, x.kind ≠ .loop unbounded unbounded isLazy) :
    Single (n.matcher (Reading.compiled analysis) σ) := by
  induction n using Node.induction with
  | step id options kind children ih =>
    obtain ⟨hself, hbelow⟩ := Node.forall_preorder_node.1 hloops
    obtain ⟨hchoice, hchildren⟩ := of_not_leavesChoice hleaves
    have hpart (hkind : kind.isSealed = false) : ∀ c ∈ children,
        Single (c.matcher (Reading.compiled analysis) σ) :=
      fun c hc => ih c hc (hchildren hkind c hc) (hbelow c hc)
    have hparts (hkind : kind.isSealed = false) :
        ∀ part ∈ children.map (Node.matcher (Reading.compiled analysis) σ), Single part :=
      List.forall_mem_map.2 (hpart hkind)
    rw [Node.matcher_node]
    cases kind with
    | empty => exact single_stay
    | nothing => exact fun _ => Nat.zero_le 1
    | char atom => exact fun s => length_goTo_le_one s _
    | multi chars => exact fun s => length_goTo_le_one s _
    | charLoop atom min max isLazy =>
      obtain ⟨hmin, -⟩ := Bool.or_eq_false_iff.1 hchoice
      obtain rfl : min = max := by simpa using hmin
      have hspare : compiledCharSpare min min = 0 := if_neg (Nat.lt_irrefl min)
      simp only [Node.matcherOf, Reading.compiled, hspare]
      exact single_charLoop_fixed _ _ _ _ _
    | anchor anchor => exact single_anchor σ.textStart anchor
    | backreference group => exact single_backreference σ options group
    | concat =>
      simp only [Node.matcherOf]
      cases options.direction with
      | forward => exact single_sequence (hparts rfl)
      | backward =>
        exact single_sequence fun part hpart => hparts rfl part (List.mem_reverse.1 hpart)
    | alternate => cases hchoice
    | loop min max isLazy =>
      obtain ⟨hmin, -⟩ := Bool.or_eq_false_iff.1 hchoice
      obtain rfl : min = max := by simpa using hmin
      have hspare : (Reading.compiled analysis).loopSpare min min = some 0 :=
        compiledSpare_self fun h => hself isLazy (by rw [Node.kind, h])
      rcases children with _ | ⟨body, _ | _⟩
      · exact fun _ => Nat.zero_le 1
      · simp only [List.map_cons, List.map_nil, Node.matcherOf, hspare]
        exact single_loop_fixed (hpart rfl body List.mem_cons_self) _ _ _ 0
      · exact fun _ => Nat.zero_le 1
    | capture group uncapture =>
      rcases children with _ | ⟨body, _ | _⟩
      · exact fun _ => Nat.zero_le 1
      · exact single_capture (hpart rfl body List.mem_cons_self) group uncapture
      · exact fun _ => Nat.zero_le 1
    | atomic =>
      rcases children with _ | ⟨body, _ | _⟩
      · exact fun _ => Nat.zero_le 1
      · exact single_atomic _
      · exact fun _ => Nat.zero_le 1
    | positiveLook =>
      rcases children with _ | ⟨body, _ | _⟩
      · exact fun _ => Nat.zero_le 1
      · exact single_positiveLook _
      · exact fun _ => Nat.zero_le 1
    | negativeLook =>
      rcases children with _ | ⟨body, _ | _⟩
      · exact fun _ => Nat.zero_le 1
      · exact single_negativeLook _
      · exact fun _ => Nat.zero_le 1
    | backreferenceConditional group =>
      rcases children with _ | ⟨yes, _ | ⟨no, _ | _⟩⟩
      · exact fun _ => Nat.zero_le 1
      · exact single_backreferenceConditional group (hpart rfl yes (by simp)) single_stay
      · exact single_backreferenceConditional group (hpart rfl yes (by simp))
          (hpart rfl no (by simp))
      · exact fun _ => Nat.zero_le 1
    | expressionConditional =>
      rcases children with _ | ⟨condition, _ | ⟨yes, _ | ⟨no, _ | _⟩⟩⟩
      · exact fun _ => Nat.zero_le 1
      · exact fun _ => Nat.zero_le 1
      · exact single_expressionConditional _ (hpart rfl yes (by simp)) single_stay
      · exact single_expressionConditional _ (hpart rfl yes (by simp)) (hpart rfl no (by simp))
      · exact fun _ => Nat.zero_le 1

end RegexMachine
