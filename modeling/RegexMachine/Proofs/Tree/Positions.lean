import Mathlib.Data.List.Nodup
import RegexMachine.Proofs.Tree.Occurrences
import RegexMachine.Tree.Facts

/-!
# What the analysis answers

The walk meets every occurrence once and keeps what it finds by number. So a number is said to be in
atomic position when one of its occurrences is. The walk is stopped in the trees that are higher than
its limit, and in no other.
-/

namespace RegexMachine

namespace Node

/-- The numbers that occur under a node. -/
abbrev ids (n : Node) : List Nat := n.preorder.map Node.id

theorem ids_node (id : Nat) (options : Options) (kind : Kind) (children : List Node) :
    (node id options kind children).ids = id :: children.flatMap ids := by
  rw [ids, preorder_node, List.map_cons, List.map_flatMap]
  rfl

mutual

/-- Every occurrence, each before its children, with whether it is in atomic position, when the node is
or is not. -/
def positions : Node → (atomic : Bool) → List (Node × Bool)
  | node id options kind children, atomic =>
      (node id options kind children, atomic) ::
        childPositions options.direction kind (atomic || kind.isSealed) children true

/-- The same of the children that are left. -/
def childPositions (direction : Direction) (kind : Kind) (atomic : Bool) :
    List Node → (isFirst : Bool) → List (Node × Bool)
  | [], _ => []
  | child :: rest, isFirst =>
      positions child (atomic && kind.handsDownAtomic direction isFirst rest.isEmpty) ++
        childPositions direction kind atomic rest false

end

theorem map_childPositions {children : List Node}
    (hall : ∀ c ∈ children, ∀ atomic, (c.positions atomic).map Prod.fst = c.preorder)
    (direction : Direction) (kind : Kind) (atomic isFirst : Bool) :
    (childPositions direction kind atomic children isFirst).map Prod.fst =
      children.flatMap preorder := by
  induction children generalizing isFirst with
  | nil => rfl
  | cons child rest ih =>
    rw [childPositions, List.map_append, hall child List.mem_cons_self,
      ih fun c hc => hall c (List.mem_cons_of_mem _ hc), List.flatMap_cons]

theorem map_positions (n : Node) (atomic : Bool) :
    (n.positions atomic).map Prod.fst = n.preorder := by
  induction n using Node.induction generalizing atomic with
  | step id options kind children ih =>
    rw [positions, List.map_cons, map_childPositions ih, preorder_node]

theorem exists_position {n x : Node} (hx : x ∈ n.preorder) (atomic : Bool) :
    ∃ a, (x, a) ∈ n.positions atomic := by
  rw [← map_positions n atomic] at hx
  obtain ⟨⟨y, a⟩, hy, rfl⟩ := List.mem_map.1 hx
  exact ⟨a, hy⟩

theorem mem_preorder_of_position {n x : Node} {atomic a : Bool} (h : (x, a) ∈ n.positions atomic) :
    x ∈ n.preorder := by
  rw [← map_positions n atomic]
  exact List.mem_map_of_mem h

theorem mem_childPositions {direction : Direction} {kind : Kind} {atomic : Bool}
    {children : List Node} {p : Node × Bool} :
    ∀ {isFirst : Bool}, p ∈ childPositions direction kind atomic children isFirst →
      ∃ c ∈ children, ∃ a, p ∈ c.positions a ∧
        ∀ q ∈ c.positions a, q ∈ childPositions direction kind atomic children isFirst := by
  induction children with
  | nil => exact fun h => absurd h List.not_mem_nil
  | cons child rest ih =>
    intro isFirst h
    rw [childPositions] at h ⊢
    rcases List.mem_append.1 h with h | h
    · exact ⟨child, List.mem_cons_self, _, h, fun q hq => List.mem_append_left _ hq⟩
    · obtain ⟨c, hc, a, hp, hall⟩ := ih h
      exact ⟨c, List.mem_cons_of_mem _ hc, a, hp, fun q hq => List.mem_append_right _ (hall q hq)⟩

theorem positions_trans {n x : Node} : ∀ {a b : Bool}, (x, a) ∈ n.positions b →
    ∀ p ∈ x.positions a, p ∈ n.positions b := by
  induction n using Node.induction with
  | step id options kind children ih =>
    intro a b hx p hp
    rw [positions] at hx ⊢
    rcases List.mem_cons.1 hx with hself | hx
    · obtain ⟨rfl, rfl⟩ := Prod.mk.inj hself
      rwa [positions] at hp
    · obtain ⟨c, hc, a', hx, hall⟩ := mem_childPositions hx
      exact List.mem_cons_of_mem _ (hall p (ih c hc hx p hp))

theorem mem_positions_self (n : Node) (atomic : Bool) : (n, atomic) ∈ n.positions atomic := by
  obtain ⟨id, options, kind, children⟩ := n
  rw [positions]
  exact List.mem_cons_self

/-- Where every child is handed the position down, every child is in it. -/
theorem mem_childPositions_handed {direction : Direction} {kind : Kind} {atomic : Bool}
    (hhands : ∀ isFirst isLast, kind.handsDownAtomic direction isFirst isLast = true)
    {children : List Node} {c : Node} (hc : c ∈ children) (isFirst : Bool) :
    (c, atomic) ∈ childPositions direction kind atomic children isFirst := by
  induction children generalizing isFirst with
  | nil => exact absurd hc List.not_mem_nil
  | cons child rest ih =>
    rw [childPositions, hhands, Bool.and_true]
    rcases List.mem_cons.1 hc with rfl | hc
    · exact List.mem_append_left _ (mem_positions_self c atomic)
    · exact List.mem_append_right _ (ih hc false)

theorem mem_positions_body {n x c : Node} (hx : x ∈ n.preorder) (hkind : x.kind = .atomic)
    (hc : c ∈ x.children) (atomic : Bool) : (c, true) ∈ n.positions atomic := by
  obtain ⟨a, ha⟩ := exists_position hx atomic
  refine positions_trans ha _ ?_
  obtain ⟨id, options, kind, children⟩ := x
  obtain rfl : kind = .atomic := hkind
  rw [positions, Kind.isSealed, Bool.or_true]
  exact List.mem_cons_of_mem _ (mem_childPositions_handed (fun _ _ => rfl) hc true)

theorem position_unique {n x y : Node} {atomic a b : Bool} (hnodup : n.ids.Nodup)
    (hx : (x, a) ∈ n.positions atomic) (hy : (y, b) ∈ n.positions atomic) (hid : x.id = y.id) :
    a = b := by
  rw [ids, ← map_positions n atomic, List.map_map] at hnodup
  have heq := List.inj_on_of_nodup_map hnodup hx hy hid
  exact congrArg Prod.snd heq

end Node

/-- What is added is added to one number, if that exists. -/
theorem Findings.factsOf_add (f : Findings) (id : Nat) (added : NodeFacts) (j : Nat) :
    (f.add id added).factsOf j =
      if j = id ∧ j < f.facts.size then (f.factsOf j).union added else f.factsOf j := by
  rw [factsOf, factsOf, add, Array.getD_eq_getD_getElem?, Array.getD_eq_getD_getElem?,
    Array.getElem?_modify]
  by_cases hj : id = j
  · subst hj
    rw [if_pos rfl]
    by_cases hlt : id < f.facts.size
    · simp [hlt]
    · simp [hlt]
  · simp [hj, Ne.symm hj]

/-- Whether a number was found in atomic position. -/
def Findings.marks (f : Findings) (id : Nat) : Bool := (f.factsOf id).atomicByAncestor

theorem Findings.marks_add (f : Findings) (id : Nat) (added : NodeFacts) (j : Nat) :
    (f.add id added).marks j =
      (f.marks j || (decide (j = id ∧ j < f.facts.size) && added.atomicByAncestor)) := by
  rw [marks, marks, factsOf_add]
  split
  · next h => rw [decide_eq_true h, Bool.true_and]; rfl
  · next h => rw [decide_eq_false h, Bool.false_and, Bool.or_false]

theorem Findings.marks_rollUp (f : Findings) (id : Nat) (kind : Kind) (child : NodeFacts) (j : Nat) :
    (f.add id (Node.rolledUp kind child)).marks j = f.marks j := by
  rw [marks_add]
  simp [Node.rolledUp]

/-- The later findings are the earlier ones with the occurrences that were met in between. -/
structure Findings.Meets (found : Findings) (met : List (Node × Bool)) (found' : Findings) :
    Prop where
  size_eq : found'.facts.size = found.facts.size
  marks_eq : ∀ j < found.facts.size,
    found'.marks j = (found.marks j || met.any fun p => p.2 && p.1.id == j)

namespace Findings.Meets

variable {f g h : Findings} {met met' : List (Node × Bool)}

theorem refl (f : Findings) : f.Meets [] f := ⟨rfl, fun j _ => by simp⟩

theorem trans (hfg : f.Meets met g) (hgh : g.Meets met' h) : f.Meets (met ++ met') h where
  size_eq := hgh.size_eq.trans hfg.size_eq
  marks_eq j hj := by
    rw [hgh.marks_eq j (hfg.size_eq ▸ hj), hfg.marks_eq j hj, List.any_append, Bool.or_assoc]

theorem rollUp (f : Findings) (id : Nat) (kind : Kind) (child : NodeFacts) :
    f.Meets [] (f.add id (Node.rolledUp kind child)) where
  size_eq := Array.size_modify
  marks_eq j _ := by simp [Findings.marks_rollUp]

theorem own (f : Findings) (n : Node) (kind : Kind) (atomic inLoop : Bool) :
    f.Meets [(n, atomic)] (f.add n.id (Node.ownFacts kind atomic inLoop)) where
  size_eq := Array.size_modify
  marks_eq j hj := by
    rw [Findings.marks_add]
    by_cases hid : j = n.id
    · simp [← hid, hj, Node.ownFacts]
    · simp [hid, Ne.symm hid]

end Findings.Meets

namespace Node

variable {id : Nat} {direction : Direction} {kind : Kind} {atomic inLoop : Bool} {budget : Nat}

/-- The walk of the first child, and of those that are left. -/
theorem walkChildren_cons {child : Node} {rest : List Node} {isFirst : Bool}
    {found found' : Findings}
    (h : walkChildren id direction kind atomic inLoop budget (child :: rest) isFirst found =
      (true, found')) :
    ∃ between, child.walk (atomic && kind.handsDownAtomic direction isFirst rest.isEmpty) inLoop
        budget found = (true, between) ∧
      walkChildren id direction kind atomic inLoop budget rest false
        (between.add id (rolledUp kind (between.factsOf child.id))) = (true, found') := by
  rw [walkChildren] at h
  split at h
  · cases h
  · next between hwalk => exact ⟨between, hwalk, h⟩

theorem meets_of_walkChildren {children : List Node}
    (hall : ∀ c ∈ children, ∀ {atomic found found'},
      c.walk atomic inLoop budget found = (true, found') →
        found.Meets (c.positions atomic) found') :
    ∀ {isFirst : Bool} {found found' : Findings},
      walkChildren id direction kind atomic inLoop budget children isFirst found =
          (true, found') →
        found.Meets (childPositions direction kind atomic children isFirst) found' := by
  induction children with
  | nil =>
    intro isFirst found found' h
    cases h
    exact .refl found
  | cons child rest ih =>
    intro isFirst found found' h
    obtain ⟨between, hwalk, hrest⟩ := walkChildren_cons h
    have hchild := hall child List.mem_cons_self hwalk
    have hlater := ih (fun c hc => hall c (List.mem_cons_of_mem _ hc)) hrest
    exact hchild.trans ((Findings.Meets.rollUp between id kind _).trans hlater)

/-- A walk that gets through meets every occurrence in its position. -/
theorem meets_of_walk {n : Node} : ∀ {atomic inLoop : Bool} {budget : Nat}
    {found found' : Findings}, n.walk atomic inLoop budget found = (true, found') →
      found.Meets (n.positions atomic) found' := by
  induction n using Node.induction with
  | step id options kind children ih =>
    intro atomic inLoop budget found found' h
    cases budget with
    | zero => cases h
    | succ budget =>
      rw [walk] at h
      have hchildren := meets_of_walkChildren (fun c hc _ _ _ => ih c hc) h
      have hown := Findings.Meets.own
        { found with
          hasIgnoreCase := found.hasIgnoreCase || options.ignoreCase
          hasRightToLeft := found.hasRightToLeft || options.rightToLeft }
        (node id options kind children) kind atomic inLoop
      obtain ⟨hsize, hmarks⟩ := hown.trans hchildren
      exact ⟨hsize, hmarks⟩

theorem fst_walkChildren {children : List Node}
    (hall : ∀ c ∈ children, ∀ atomic found,
      (c.walk atomic inLoop budget found).1 = decide (c.height ≤ budget)) :
    ∀ (isFirst : Bool) (found : Findings),
      (walkChildren id direction kind atomic inLoop budget children isFirst found).1 =
        decide (forestHeight children ≤ budget) := by
  induction children with
  | nil => exact fun _ _ => (decide_eq_true (Nat.zero_le budget)).symm
  | cons child rest ih =>
    intro isFirst found
    have hchild := hall child List.mem_cons_self
      (atomic && kind.handsDownAtomic direction isFirst rest.isEmpty) found
    rw [walkChildren, forestHeight]
    split
    · next hwalk =>
      rw [hwalk] at hchild
      have hhigh := of_decide_eq_false hchild.symm
      exact (decide_eq_false fun hle => hhigh (Nat.le_trans (Nat.le_max_left _ _) hle)).symm
    · next hwalk =>
      rw [hwalk] at hchild
      have hlow := of_decide_eq_true hchild.symm
      rw [ih fun c hc => hall c (List.mem_cons_of_mem _ hc), decide_eq_decide, Nat.max_le]
      exact (and_iff_right hlow).symm

theorem fst_walk (n : Node) : ∀ (atomic inLoop : Bool) (budget : Nat) (found : Findings),
    (n.walk atomic inLoop budget found).1 = decide (n.height ≤ budget) := by
  induction n using Node.induction with
  | step id options kind children ih =>
    intro atomic inLoop budget found
    cases budget with
    | zero => rfl
    | succ budget =>
      rw [walk, fst_walkChildren fun c hc a f => ih c hc a _ budget f, height]
      simp

end Node

namespace Analysis

theorem isComplete_ofTree (t : Tree) (depthLimit : Nat) :
    (ofTree t depthLimit).isComplete = decide (t.root.height ≤ depthLimit) :=
  t.root.fst_walk true false depthLimit _

/-- Nothing that the walk of a tree that is too high has found shows in an answer. -/
theorem ask_of_lt {t : Tree} {depthLimit : Nat} (hhigh : depthLimit < t.root.height)
    (cautious : Bool) (id : Nat) (fact : NodeFacts → Bool) :
    (ofTree t depthLimit).ask cautious id fact = cautious := by
  rw [ask, isComplete_ofTree, decide_eq_false (Nat.not_le.2 hhigh)]
  exact if_neg Bool.false_ne_true

theorem exists_findings {t : Tree} {depthLimit : Nat} (hlow : t.root.height ≤ depthLimit) :
    ∃ found, t.root.walk true false depthLimit { facts := Array.replicate t.nodeCount {} } =
        (true, found) ∧
      ∀ cautious id fact, (ofTree t depthLimit).ask cautious id fact = fact (found.factsOf id) := by
  have hdone := isComplete_ofTree t depthLimit
  rw [decide_eq_true hlow] at hdone
  refine ⟨(ofTree t depthLimit).findings, Prod.ext hdone rfl, fun cautious id fact => ?_⟩
  rw [ask, if_pos hdone]

theorem isAtomicByAncestor_of_lt {t : Tree} {depthLimit : Nat} (hhigh : depthLimit < t.root.height)
    (id : Nat) : (ofTree t depthLimit).isAtomicByAncestor id = false :=
  ask_of_lt hhigh false id _

/-- In any other tree a number is said to be in atomic position when one occurrence of it is. -/
theorem isAtomicByAncestor_iff {t : Tree} {depthLimit : Nat} (hlow : t.root.height ≤ depthLimit)
    {id : Nat} (hid : id < t.nodeCount) :
    (ofTree t depthLimit).isAtomicByAncestor id = true ↔
      ∃ x, (x, true) ∈ t.root.positions true ∧ x.id = id := by
  obtain ⟨found, hfound, hask⟩ := exists_findings hlow
  have hmarks := (Node.meets_of_walk hfound).marks_eq id (by rwa [Array.size_replicate])
  have hfresh : Findings.marks { facts := Array.replicate t.nodeCount {} } id = false := by
    simp [Findings.marks, Findings.factsOf, hid]
  rw [isAtomicByAncestor, hask]
  change found.marks id = true ↔ _
  rw [hmarks, hfresh, Bool.false_or, List.any_eq_true]
  constructor
  · rintro ⟨⟨x, a⟩, hx, h⟩
    obtain ⟨rfl, hid⟩ := Bool.and_eq_true_iff.1 h
    exact ⟨x, hx, eq_of_beq hid⟩
  · rintro ⟨x, hx, rfl⟩
    exact ⟨(x, true), hx, by simp⟩

/-- Where no number occurs twice, the answer is the position of the occurrence. -/
theorem isAtomicByAncestor_of_nodup {t : Tree} {depthLimit : Nat}
    (hlow : t.root.height ≤ depthLimit) (hid : ∀ x ∈ t.root.preorder, x.id < t.nodeCount)
    (hnodup : t.root.ids.Nodup) {x : Node} {a : Bool} (hx : (x, a) ∈ t.root.positions true) :
    (ofTree t depthLimit).isAtomicByAncestor x.id = a := by
  rw [Bool.eq_iff_iff, isAtomicByAncestor_iff hlow (hid x (Node.mem_preorder_of_position hx))]
  constructor
  · rintro ⟨y, hy, hsame⟩
    exact Node.position_unique hnodup hx hy hsame.symm
  · rintro rfl
    exact ⟨x, hx, rfl⟩

end Analysis

end RegexMachine
