import Mathlib.Data.List.Basic
import RegexMachine.Tree.Basic

/-!
# Occurrences

Induction over trees, and what holds at every occurrence under a node.
-/

namespace RegexMachine.Node

/-- What passes from children to their parent holds of every node. -/
theorem induction {P : Node → Prop}
    (step : ∀ id options kind children, (∀ c ∈ children, P c) →
      P (.node id options kind children)) : ∀ n, P n
  | .node id options kind children => step id options kind children (go children)
where
  go : ∀ children : List Node, ∀ c ∈ children, P c
    | [], _, hc => absurd hc List.not_mem_nil
    | n :: rest, c, hc => by
      rcases List.mem_cons.1 hc with h | h
      · rw [h]
        exact induction step n
      · exact go rest c h

theorem preorderOnto_eq (n : Node) (rest : List Node) :
    n.preorderOnto rest = n.preorder ++ rest := by
  have hforest : ∀ (ns rest : List Node),
      (∀ n ∈ ns, ∀ rest, n.preorderOnto rest = n.preorder ++ rest) →
      forestOnto ns rest = forestOnto ns [] ++ rest := by
    intro ns
    induction ns with
    | nil =>
      intro rest _
      rfl
    | cons n ns ih =>
      intro rest h
      have hn := h n List.mem_cons_self
      have hns := fun m hm => h m (List.mem_cons_of_mem n hm)
      rw [forestOnto, forestOnto, hn, hn (forestOnto ns []), ih rest hns, List.append_assoc]
  induction n using induction generalizing rest with
  | step id options kind children ih =>
    rw [preorder, preorderOnto, preorderOnto, hforest children rest fun c hc rest => ih c hc rest]
    rfl

theorem forestOnto_eq (ns : List Node) (rest : List Node) :
    forestOnto ns rest = ns.flatMap preorder ++ rest := by
  induction ns with
  | nil => rfl
  | cons n ns ih => rw [forestOnto, preorderOnto_eq, ih, List.flatMap_cons, List.append_assoc]

theorem preorder_node (id : Nat) (options : Options) (kind : Kind) (children : List Node) :
    (node id options kind children).preorder =
      node id options kind children :: children.flatMap preorder := by
  rw [preorder, preorderOnto, forestOnto_eq, List.append_nil]

/-- A fact about all occurrences is one about the node and all occurrences under its children. -/
theorem forall_preorder_node {P : Node → Prop} {id : Nat} {options : Options} {kind : Kind}
    {children : List Node} :
    (∀ x ∈ (node id options kind children).preorder, P x) ↔
      P (node id options kind children) ∧ ∀ c ∈ children, ∀ x ∈ c.preorder, P x := by
  rw [preorder_node]
  constructor
  · intro h
    refine ⟨h _ List.mem_cons_self, fun c hc x hx => h x ?_⟩
    exact List.mem_cons_of_mem _ (List.mem_flatMap.2 ⟨c, hc, hx⟩)
  · rintro ⟨hself, hchildren⟩ x hx
    rcases List.mem_cons.1 hx with rfl | hx
    · exact hself
    · obtain ⟨c, hc, hx⟩ := List.mem_flatMap.1 hx
      exact hchildren c hc x hx

theorem mem_preorder_self (n : Node) : n ∈ n.preorder := by
  obtain ⟨id, options, kind, children⟩ := n
  rw [preorder_node]
  exact List.mem_cons_self

theorem mem_preorder_child {n c : Node} (hc : c ∈ n.children) : c ∈ n.preorder := by
  obtain ⟨id, options, kind, children⟩ := n
  rw [preorder_node]
  exact List.mem_cons_of_mem _ (List.mem_flatMap.2 ⟨c, hc, c.mem_preorder_self⟩)

theorem preorder_trans {n x y : Node} (hx : x ∈ n.preorder) (hy : y ∈ x.preorder) :
    y ∈ n.preorder := by
  induction n using Node.induction with
  | step id options kind children ih =>
    rw [preorder_node] at hx
    rcases List.mem_cons.1 hx with rfl | hx
    · exact hy
    · obtain ⟨c, hc, hx⟩ := List.mem_flatMap.1 hx
      rw [preorder_node]
      exact List.mem_cons_of_mem _ (List.mem_flatMap.2 ⟨c, hc, ih c hc hx⟩)

end RegexMachine.Node
