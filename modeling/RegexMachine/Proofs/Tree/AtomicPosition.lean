import RegexMachine.Proofs.Tree.Finished
import RegexMachine.Proofs.Tree.Positions

/-!
# Atomic positions

A node is in atomic position when nothing that runs after it can send the match back into it. The
analysis passes this down as it walks the tree and keeps it by number. In a tree where no number
occurs twice, what it says of a number it has found out at the one occurrence.
-/

namespace RegexMachine

namespace Node

variable (isCut : Nat → Bool)

mutual

/-- What is cut under a node is in atomic position, when the node is or is not. -/
def CutsAtomic : Node → (atomic : Bool) → Prop
  | node id options kind children, atomic =>
      (isCut id = true → atomic = true) ∧
        childrenCutAtomic options.direction kind (atomic || kind.isSealed) children true

/-- So is what is cut under the children that are left. -/
def childrenCutAtomic (direction : Direction) (kind : Kind) (atomic : Bool) :
    List Node → (isFirst : Bool) → Prop
  | [], _ => True
  | child :: rest, isFirst =>
      CutsAtomic child (atomic && kind.handsDownAtomic direction isFirst rest.isEmpty) ∧
        childrenCutAtomic direction kind atomic rest false

end

section

variable {isCut : Nat → Bool} {kind : Kind} {atomic : Bool}

theorem childrenCutAtomic_of_positions {direction : Direction} {children : List Node}
    (hall : ∀ c ∈ children, ∀ {atomic : Bool},
      (∀ x a, (x, a) ∈ c.positions atomic → isCut x.id = true → a = true) →
        c.CutsAtomic isCut atomic) :
    ∀ {isFirst : Bool},
      (∀ x a, (x, a) ∈ childPositions direction kind atomic children isFirst →
        isCut x.id = true → a = true) →
        childrenCutAtomic isCut direction kind atomic children isFirst := by
  induction children with
  | nil => exact fun _ => trivial
  | cons c rest ih =>
    intro isFirst h
    rw [childPositions] at h
    exact ⟨hall c List.mem_cons_self fun x a hx => h x a (List.mem_append_left _ hx),
      ih (fun d hd => hall d (List.mem_cons_of_mem _ hd)) fun x a hx =>
        h x a (List.mem_append_right _ hx)⟩

/-- It is enough that every occurrence that is cut is in atomic position. -/
theorem cutsAtomic_of_positions {n : Node} : ∀ {atomic : Bool},
    (∀ x a, (x, a) ∈ n.positions atomic → isCut x.id = true → a = true) →
      n.CutsAtomic isCut atomic := by
  induction n using Node.induction with
  | step id options kind children ih =>
    intro atomic h
    rw [positions] at h
    exact ⟨h _ _ List.mem_cons_self, childrenCutAtomic_of_positions ih fun x a hx =>
      h x a (List.mem_cons_of_mem _ hx)⟩

theorem cuts_of_unsealed {direction : Direction} {children : List Node} {isFirst : Bool}
    (hkind : kind.isSealed = false)
    (h : childrenCutAtomic isCut direction kind (atomic || kind.isSealed) children isFirst) :
    childrenCutAtomic isCut direction kind atomic children isFirst := by
  rwa [hkind, Bool.or_false] at h

theorem cuts_of_sealed {direction : Direction} {children : List Node} {isFirst : Bool}
    (hkind : kind.isSealed = true)
    (h : childrenCutAtomic isCut direction kind (atomic || kind.isSealed) children isFirst) :
    childrenCutAtomic isCut direction kind true children isFirst := by
  rwa [hkind, Bool.or_true] at h

/-- Where every child is handed the same, every child is in that position. -/
theorem cutsAtomic_of_children {direction : Direction} {children : List Node} (handed : Bool)
    (hhands : ∀ isFirst isLast, kind.handsDownAtomic direction isFirst isLast = handed) :
    ∀ {isFirst : Bool}, childrenCutAtomic isCut direction kind atomic children isFirst →
      ∀ c ∈ children, c.CutsAtomic isCut (atomic && handed) := by
  induction children with
  | nil => exact fun _ c hc => absurd hc List.not_mem_nil
  | cons child rest ih =>
    intro isFirst h c hc
    obtain ⟨hchild, hrest⟩ := h
    rw [hhands] at hchild
    rcases List.mem_cons.1 hc with rfl | hc
    · exact hchild
    · exact ih hrest c hc

/-- Where every child is handed the position down, every child is in it. -/
theorem cutsAtomic_handed {direction : Direction} {children : List Node} {isFirst : Bool}
    (hhands : ∀ isFirst isLast, kind.handsDownAtomic direction isFirst isLast = true)
    (h : childrenCutAtomic isCut direction kind atomic children isFirst) :
    ∀ c ∈ children, c.CutsAtomic isCut atomic := by
  intro c hc
  have hchild := cutsAtomic_of_children _ hhands h c hc
  rwa [Bool.and_true] at hchild

/-- Of a sequence that runs forward, the last child is in the position of the sequence. -/
theorem cutsAtomic_forward {last : Node} {children : List Node} : ∀ {isFirst : Bool},
    childrenCutAtomic isCut .forward .concat atomic (children ++ [last]) isFirst →
      (∀ c ∈ children, c.CutsAtomic isCut false) ∧ last.CutsAtomic isCut atomic := by
  induction children with
  | nil =>
    rintro isFirst ⟨hlast, -⟩
    refine ⟨fun c hc => absurd hc List.not_mem_nil, ?_⟩
    simpa [Kind.handsDownAtomic] using hlast
  | cons child rest ih =>
    rintro isFirst ⟨hchild, hrest⟩
    obtain ⟨hall, hlast⟩ := ih hrest
    refine ⟨fun c hc => ?_, hlast⟩
    rcases List.mem_cons.1 hc with rfl | hc
    · have hmore : (rest ++ [last]).isEmpty = false := by cases rest <;> rfl
      simpa [Kind.handsDownAtomic, hmore] using hchild
    · exact hall c hc

/-- Of a sequence that runs backward, the first child is. -/
theorem cutsAtomic_backward {first : Node} {children : List Node}
    (h : childrenCutAtomic isCut .backward .concat atomic (first :: children) true) :
    first.CutsAtomic isCut atomic ∧ ∀ c ∈ children, c.CutsAtomic isCut false := by
  obtain ⟨hfirst, hrest⟩ := h
  have hlater : ∀ children : List Node,
      childrenCutAtomic isCut .backward .concat atomic children false →
        ∀ c ∈ children, c.CutsAtomic isCut false := by
    intro children
    induction children with
    | nil => exact fun _ c hc => absurd hc List.not_mem_nil
    | cons child rest ih =>
      rintro ⟨hchild, hrest⟩ c hc
      rcases List.mem_cons.1 hc with rfl | hc
      · simpa [Kind.handsDownAtomic] using hchild
      · exact ih hrest c hc
  exact ⟨by simpa [Kind.handsDownAtomic] using hfirst, hlater children hrest⟩

theorem exists_cutsAtomic_child {direction : Direction} {children : List Node} :
    ∀ {isFirst : Bool}, childrenCutAtomic isCut direction kind atomic children isFirst →
      ∀ c ∈ children, ∃ a, c.CutsAtomic isCut a := by
  induction children with
  | nil => exact fun _ c hc => absurd hc List.not_mem_nil
  | cons child rest ih =>
    rintro isFirst ⟨hchild, hrest⟩ c hc
    rcases List.mem_cons.1 hc with rfl | hc
    · exact ⟨_, hchild⟩
    · exact ih hrest c hc

theorem exists_cutsAtomic {n : Node} : ∀ {atomic : Bool},
    n.CutsAtomic isCut atomic → ∀ x ∈ n.preorder, ∃ a, x.CutsAtomic isCut a := by
  induction n using Node.induction with
  | step id options kind children ih =>
    intro atomic h x hx
    rw [preorder_node] at hx
    rcases List.mem_cons.1 hx with rfl | hx
    · exact ⟨atomic, h⟩
    · obtain ⟨c, hc, hx⟩ := List.mem_flatMap.1 hx
      obtain ⟨a, ha⟩ := exists_cutsAtomic_child h.2 c hc
      exact ih c hc ha x hx

end

end Node

theorem Tree.Sound.cutsAtomic {t : Tree} {body : Node} (h : t.Sound body) (depthLimit : Nat) :
    t.root.CutsAtomic (Analysis.ofTree t depthLimit).isAtomicByAncestor true := by
  rcases Nat.lt_or_ge depthLimit t.root.height with hhigh | hlow
  · refine Node.cutsAtomic_of_positions fun x a _ hcut => ?_
    rw [Analysis.isAtomicByAncestor_of_lt hhigh] at hcut
    cases hcut
  · refine Node.cutsAtomic_of_positions fun x a hx hcut => ?_
    exact (Analysis.isAtomicByAncestor_of_nodup hlow h.id_lt h.nodup hx).symm.trans hcut

end RegexMachine
