import RegexMachine.Proofs.Tree.Positions

/-!
# Choices

A node leaves a choice when it has one itself and is not in atomic position, or when a choice is left
under it that it does not seal off. The walk rolls this up by number. So a number may be said to
leave a choice because of another occurrence, but no choice is missed.
-/

namespace RegexMachine

namespace Node

mutual

/-- The node leaves a choice to what follows it, when it is in atomic position or is not. -/
def leavesChoice : Node → (atomic : Bool) → Bool
  | node _ options kind children, atomic =>
      (!atomic && kind.hasChoice) ||
        (!kind.isSealed &&
          childrenLeaveChoice options.direction kind (atomic || kind.isSealed) children true)

/-- One of the children that are left does. -/
def childrenLeaveChoice (direction : Direction) (kind : Kind) (atomic : Bool) :
    List Node → (isFirst : Bool) → Bool
  | [], _ => false
  | child :: rest, isFirst =>
      leavesChoice child (atomic && kind.handsDownAtomic direction isFirst rest.isEmpty) ||
        childrenLeaveChoice direction kind atomic rest false

end

theorem not_childrenLeaveChoice {direction : Direction} {kind : Kind} {children : List Node} :
    ∀ {isFirst : Bool}, childrenLeaveChoice direction kind false children isFirst = false →
      ∀ c ∈ children, c.leavesChoice false = false := by
  induction children with
  | nil => exact fun _ c hc => absurd hc List.not_mem_nil
  | cons child rest ih =>
    intro isFirst h c hc
    rw [childrenLeaveChoice, Bool.false_and, Bool.or_eq_false_iff] at h
    rcases List.mem_cons.1 hc with rfl | hc
    · exact h.1
    · exact ih h.2 c hc

/-- Where no choice is left outside atomic position, there is none in the node, and none under it
that it does not seal off. -/
theorem of_not_leavesChoice {id : Nat} {options : Options} {kind : Kind} {children : List Node}
    (h : (node id options kind children).leavesChoice false = false) :
    kind.hasChoice = false ∧
      (kind.isSealed = false → ∀ c ∈ children, c.leavesChoice false = false) := by
  rw [leavesChoice, Bool.not_false, Bool.true_and, Bool.or_eq_false_iff, Bool.false_or] at h
  refine ⟨h.1, fun hkind => ?_⟩
  rw [hkind, Bool.not_false, Bool.true_and] at h
  exact not_childrenLeaveChoice h.2

end Node

/-- Whether a number was found to leave a choice. -/
def Findings.warns (f : Findings) (id : Nat) : Bool := (f.factsOf id).mayBacktrack

theorem Findings.warns_add (f : Findings) (id : Nat) (added : NodeFacts) (j : Nat) :
    (f.add id added).warns j =
      (f.warns j || (decide (j = id ∧ j < f.facts.size) && added.mayBacktrack)) := by
  rw [warns, warns, factsOf_add]
  split
  · next h => rw [decide_eq_true h, Bool.true_and]; rfl
  · next h => rw [decide_eq_false h, Bool.false_and, Bool.or_false]

/-- The later findings have missed no choice: neither one that the earlier ones knew of, nor one of
the occurrences that were met in between. -/
structure Findings.Notes (found : Findings) (met : List (Node × Bool)) (found' : Findings) :
    Prop where
  size_eq : found'.facts.size = found.facts.size
  keeps : ∀ j, found.warns j = true → found'.warns j = true
  warns : ∀ p ∈ met, p.1.leavesChoice p.2 = true → found'.warns p.1.id = true

namespace Findings.Notes

variable {f g h : Findings} {met met' : List (Node × Bool)}

theorem refl (f : Findings) : f.Notes [] f := ⟨rfl, fun _ h => h, nofun⟩

theorem add (f : Findings) (id : Nat) (added : NodeFacts) : f.Notes [] (f.add id added) where
  size_eq := Array.size_modify
  keeps j h := by rw [warns_add, h, Bool.true_or]
  warns := nofun

theorem trans (hfg : f.Notes met g) (hgh : g.Notes met' h) : f.Notes (met ++ met') h where
  size_eq := hgh.size_eq.trans hfg.size_eq
  keeps j hj := hgh.keeps j (hfg.keeps j hj)
  warns p hp hleaves := by
    rcases List.mem_append.1 hp with hp | hp
    · exact hgh.keeps _ (hfg.warns p hp hleaves)
    · exact hgh.warns p hp hleaves

end Findings.Notes

namespace Node

variable {id : Nat} {direction : Direction} {kind : Kind} {atomic inLoop : Bool} {budget : Nat}

/-- The walk of the children misses no choice, and what one of them leaves is rolled up. -/
theorem notes_of_walkChildren {children : List Node}
    (hall : ∀ c ∈ children, ∀ {atomic found found'},
      (∀ x ∈ c.preorder, x.id < found.facts.size) →
        c.walk atomic inLoop budget found = (true, found') →
          found.Notes (c.positions atomic) found') :
    ∀ {isFirst : Bool} {found found' : Findings},
      id < found.facts.size →
      (∀ c ∈ children, ∀ x ∈ c.preorder, x.id < found.facts.size) →
      walkChildren id direction kind atomic inLoop budget children isFirst found = (true, found') →
        found.Notes (childPositions direction kind atomic children isFirst) found' ∧
          (kind.isSealed = false →
            childrenLeaveChoice direction kind atomic children isFirst = true →
              found'.warns id = true) := by
  induction children with
  | nil =>
    rintro isFirst found _ - - ⟨⟩
    exact ⟨.refl found, nofun⟩
  | cons child rest ih =>
    intro isFirst found found' hid hids h
    obtain ⟨between, hwalk, hrest⟩ := walkChildren_cons h
    have hchild := hall child List.mem_cons_self (hids child List.mem_cons_self) hwalk
    have hup := Findings.Notes.add between id (rolledUp kind (between.factsOf child.id))
    have hsize := (hchild.trans hup).size_eq
    obtain ⟨hlater, hleft⟩ := ih (fun c hc => hall c (List.mem_cons_of_mem _ hc))
      (by rwa [hsize]) (by rw [hsize]; exact fun c hc => hids c (List.mem_cons_of_mem _ hc)) hrest
    refine ⟨hchild.trans (hup.trans hlater), fun hkind hleaves => ?_⟩
    rw [childrenLeaveChoice, Bool.or_eq_true] at hleaves
    rcases hleaves with hleaves | hleaves
    · have hwarns : (between.factsOf child.id).mayBacktrack = true :=
        hchild.warns _ (mem_positions_self child _) hleaves
      refine hlater.keeps id ?_
      rw [Findings.warns_add, decide_eq_true ⟨rfl, by rwa [hchild.size_eq]⟩]
      simp [rolledUp, hkind, hwarns]
    · exact hleft hkind hleaves

/-- A walk misses no choice. -/
theorem notes_of_walk {n : Node} : ∀ {atomic inLoop : Bool} {budget : Nat}
    {found found' : Findings}, (∀ x ∈ n.preorder, x.id < found.facts.size) →
      n.walk atomic inLoop budget found = (true, found') →
        found.Notes (n.positions atomic) found' := by
  induction n using Node.induction with
  | step id options kind children ih =>
    intro atomic inLoop budget found found' hids h
    obtain ⟨hid, hbelow⟩ := forall_preorder_node.1 hids
    cases budget with
    | zero => cases h
    | succ budget =>
      rw [walk] at h
      generalize hentered : Findings.mk found.facts _ _ = entered at h
      have hown := Findings.Notes.add entered id (ownFacts kind atomic inLoop)
      have hfacts : entered.facts = found.facts := hentered ▸ rfl
      have hsize : (entered.add id (ownFacts kind atomic inLoop)).facts.size = found.facts.size :=
        hown.size_eq.trans (congrArg Array.size hfacts)
      obtain ⟨hchildren, hup⟩ := notes_of_walkChildren (fun c hc _ _ _ => ih c hc)
        (by rw [hsize]; exact hid) (by rw [hsize]; exact hbelow) h
      refine ⟨hchildren.size_eq.trans hsize, fun j hj => ?_, fun p hp hleaves => ?_⟩
      · refine hchildren.keeps j (hown.keeps j ?_)
        rw [Findings.warns, Findings.factsOf] at hj ⊢
        rwa [hfacts]
      · rw [positions] at hp
        rcases List.mem_cons.1 hp with rfl | hp
        · rw [leavesChoice, Bool.or_eq_true] at hleaves
          rcases hleaves with hchoice | hunder
          · refine hchildren.keeps _ ?_
            rw [Findings.warns_add, decide_eq_true ⟨rfl, by rw [hfacts]; exact hid⟩]
            have hadds : (ownFacts kind atomic inLoop).mayBacktrack = true := hchoice
            rw [hadds, Bool.true_and, Bool.or_true]
          · rw [Bool.and_eq_true, Bool.not_eq_true'] at hunder
            exact hup hunder.1 hunder.2
        · exact hchildren.warns p hp hleaves

end Node

/-- A node that leaves a choice is said to, or the analysis was stopped and every node is. -/
theorem Analysis.mayBacktrack_of_leavesChoice {t : Tree} {depthLimit : Nat}
    (hid : ∀ x ∈ t.root.preorder, x.id < t.nodeCount) {x : Node} {a : Bool}
    (hx : (x, a) ∈ t.root.positions true) (hleaves : x.leavesChoice a = true) :
    (ofTree t depthLimit).mayBacktrack x.id = true := by
  rcases Nat.lt_or_ge depthLimit t.root.height with hhigh | hlow
  · exact ask_of_lt hhigh true x.id _
  · obtain ⟨found, hfound, hask⟩ := exists_findings hlow
    rw [mayBacktrack, hask]
    exact (Node.notes_of_walk (by simpa using hid) hfound).warns _ hx hleaves

end RegexMachine
