import Mathlib.Data.List.Forall2
import RegexMachine.Proofs.Tree.Positions

/-!
# Unfolding

A tree in which nodes occur in several places can be unfolded: every occurrence is then a node of its
own, with a number that no other has. The unfolded tree differs from the tree in its numbers alone.
-/

namespace RegexMachine

namespace Node

section

variable (R : Node → Node → Prop)

mutual

/-- The nodes differ in their numbers alone, and `R` relates the two occurrences at every place. -/
def Alike : Node → Node → Prop
  | node id options kind children, node id' options' kind' children' =>
      options = options' ∧ kind = kind' ∧
        R (node id options kind children) (node id' options' kind' children') ∧
        forestAlike children children'

def forestAlike : List Node → List Node → Prop
  | [], [] => True
  | n :: rest, n' :: rest' => Alike n n' ∧ forestAlike rest rest'
  | _, _ => False

end

/-- The nodes differ in their numbers alone. -/
abbrev SameShape : Node → Node → Prop := Alike fun _ _ => True

end

variable {R : Node → Node → Prop}

theorem forestAlike_iff {ns ns' : List Node} :
    forestAlike R ns ns' ↔ List.Forall₂ (Alike R) ns ns' := by
  induction ns generalizing ns' with
  | nil => cases ns' <;> simp [forestAlike]
  | cons n rest ih => cases ns' <;> simp [forestAlike, ih]

theorem alike_iff {id id' : Nat} {options options' : Options} {kind kind' : Kind}
    {children children' : List Node} :
    Alike R (node id options kind children) (node id' options' kind' children') ↔
      options = options' ∧ kind = kind' ∧
        R (node id options kind children) (node id' options' kind' children') ∧
        List.Forall₂ (Alike R) children children' := by
  rw [Alike, forestAlike_iff]

theorem alike_self {n : Node} (hR : ∀ x ∈ n.preorder, R x x) : Alike R n n := by
  induction n using Node.induction with
  | step id options kind children ih =>
    obtain ⟨hself, hchildren⟩ := forall_preorder_node.1 hR
    exact alike_iff.2 ⟨rfl, rfl, hself, List.forall₂_same.2 fun c hc => ih c hc (hchildren c hc)⟩

/-- What passes from the children of two nodes to the nodes holds of nodes that are alike. -/
theorem Alike.induction {P : Node → Node → Prop}
    (step : ∀ id id' options kind children children',
      R (node id options kind children) (node id' options kind children') →
      List.Forall₂ (fun c c' => Alike R c c' ∧ P c c') children children' →
      P (node id options kind children) (node id' options kind children')) :
    ∀ {n n' : Node}, Alike R n n' → P n n' := by
  intro n
  induction n using Node.induction with
  | step id options kind children ih =>
    rintro ⟨id', options', kind', children'⟩ h
    obtain ⟨rfl, rfl, hR, hchildren⟩ := alike_iff.1 h
    refine step id id' options kind children children' hR ?_
    clear h hR
    induction hchildren with
    | nil => exact .nil
    | cons hc _ ihrest =>
      exact .cons ⟨hc, ih _ List.mem_cons_self hc⟩
        (ihrest fun d hd => ih d (List.mem_cons_of_mem _ hd))

theorem isEmpty_eq_of_forall₂ {S : Node → Node → Prop} {ns ns' : List Node}
    (h : List.Forall₂ S ns ns') : ns.isEmpty = ns'.isEmpty := by
  cases h <;> rfl

namespace Alike

theorem kind_eq {n n' : Node} (h : Alike R n n') : n.kind = n'.kind := by
  obtain ⟨id, options, kind, children⟩ := n
  obtain ⟨id', options', kind', children'⟩ := n'
  exact (alike_iff.1 h).2.1

theorem height_eq {n n' : Node} (h : Alike R n n') : n.height = n'.height := by
  refine Alike.induction (P := fun n n' => n.height = n'.height) ?_ h
  rintro id id' options kind children children' - hchildren
  rw [height, height]
  refine congrArg (· + 1) ?_
  induction hchildren with
  | nil => rfl
  | cons hc _ ih => rw [forestHeight, forestHeight, hc.2, ih]

/-- What the places of nodes of one shape have in common. -/
theorem positions_eq {n n' : Node} (h : Alike R n n') (atomic : Bool) :
    (n.positions atomic).map (fun p => (p.1.kind, p.2)) =
      (n'.positions atomic).map fun p => (p.1.kind, p.2) := by
  refine Alike.induction (P := fun n n' => ∀ atomic,
    (n.positions atomic).map (fun p => (p.1.kind, p.2)) =
      (n'.positions atomic).map fun p => (p.1.kind, p.2)) ?_ h atomic
  rintro id id' options kind children children' - hchildren atomic
  rw [positions, positions, List.map_cons, List.map_cons]
  refine congrArg (_ :: ·) ?_
  generalize true = isFirst
  induction hchildren generalizing isFirst with
  | nil => rfl
  | cons hc hrest ih =>
    rw [childPositions, childPositions, List.map_append, List.map_append, hc.2, ih,
      isEmpty_eq_of_forall₂ hrest]

/-- Nodes of one shape are related at every place when their occurrences of one shape and in one
position are. -/
theorem of_positions {n n' : Node} (h : SameShape n n') (atomic : Bool)
    (hR : ∀ x x' a, (x, a) ∈ n.positions atomic → (x', a) ∈ n'.positions atomic →
      SameShape x x' → R x x') : Alike R n n' := by
  refine Alike.induction (P := fun n n' => ∀ {atomic},
    (∀ x x' a, (x, a) ∈ n.positions atomic → (x', a) ∈ n'.positions atomic →
      SameShape x x' → R x x') → Alike R n n') ?_ h hR
  rintro id id' options kind children children' - hchildren atomic hR
  have hshape : SameShape (node id options kind children) (node id' options kind children') :=
    alike_iff.2 ⟨rfl, rfl, trivial, hchildren.imp fun _ _ hc => hc.1⟩
  have hself := hR _ _ atomic (mem_positions_self _ _) (mem_positions_self _ _) hshape
  refine alike_iff.2 ⟨rfl, rfl, hself, ?_⟩
  have hunder : ∀ x x' a,
      (x, a) ∈ childPositions options.direction kind (atomic || kind.isSealed) children true →
      (x', a) ∈ childPositions options.direction kind (atomic || kind.isSealed) children' true →
      SameShape x x' → R x x' := by
    intro x x' a hx hx'
    rw [positions, positions] at hR
    exact hR x x' a (List.mem_cons_of_mem _ hx) (List.mem_cons_of_mem _ hx')
  clear hR hself hshape
  generalize true = isFirst at hunder
  induction hchildren generalizing isFirst with
  | nil => exact .nil
  | cons hc hrest ih =>
    rw [childPositions, childPositions, isEmpty_eq_of_forall₂ hrest] at hunder
    have hchild := hc.2 fun x x' a hx hx' =>
      hunder x x' a (List.mem_append_left _ hx) (List.mem_append_left _ hx')
    have hlater := ih false fun x x' a hx hx' =>
      hunder x x' a (List.mem_append_right _ hx) (List.mem_append_right _ hx')
    exact .cons hchild hlater

end Alike

mutual

/-- The node with its occurrences numbered anew from `next` on, each before its children. -/
def numberedFrom : Node → (next : Nat) → Node
  | node _ options kind children, next =>
      node next options kind (forestNumberedFrom children (next + 1))

def forestNumberedFrom : List Node → (next : Nat) → List Node
  | [], _ => []
  | n :: rest, next => numberedFrom n next :: forestNumberedFrom rest (next + n.preorder.length)

end

theorem sameShape_numberedFrom (n : Node) (next : Nat) : SameShape n (n.numberedFrom next) := by
  induction n using Node.induction generalizing next with
  | step id options kind children ih =>
    rw [numberedFrom]
    refine alike_iff.2 ⟨rfl, rfl, trivial, ?_⟩
    generalize next + 1 = next
    induction children generalizing next with
    | nil => exact .nil
    | cons c rest ihrest =>
      exact .cons (ih c List.mem_cons_self next)
        (ihrest (fun d hd => ih d (List.mem_cons_of_mem _ hd)) _)

theorem ids_numberedFrom (n : Node) (next : Nat) :
    (n.numberedFrom next).ids = List.range' next n.preorder.length := by
  induction n using Node.induction generalizing next with
  | step id options kind children ih =>
    rw [numberedFrom, ids_node, preorder_node, List.length_cons, List.range'_succ]
    refine congrArg (next :: ·) ?_
    generalize next + 1 = next
    induction children generalizing next with
    | nil => rfl
    | cons c rest ihrest =>
      rw [forestNumberedFrom, List.flatMap_cons, List.flatMap_cons, ih c List.mem_cons_self,
        ihrest fun d hd => ih d (List.mem_cons_of_mem _ hd), List.length_append]
      exact List.range'_append_1

end Node

namespace Tree

/-- The tree with every occurrence built by itself. -/
def unfolded (t : Tree) : Tree :=
  { t with root := t.root.numberedFrom 0, nodeCount := t.root.preorder.length }

theorem sameShape_unfolded (t : Tree) : t.root.SameShape t.unfolded.root :=
  t.root.sameShape_numberedFrom 0

theorem nodup_unfolded (t : Tree) : t.unfolded.root.ids.Nodup := by
  rw [unfolded, Node.ids_numberedFrom]
  exact List.nodup_range'

theorem id_lt_unfolded (t : Tree) : ∀ x ∈ t.unfolded.root.preorder, x.id < t.unfolded.nodeCount := by
  intro x hx
  have hid := List.mem_map_of_mem (f := Node.id) hx
  rw [unfolded, ← Node.ids, Node.ids_numberedFrom, List.mem_range'_1, Nat.zero_add] at hid
  exact hid.2

end Tree

end RegexMachine
