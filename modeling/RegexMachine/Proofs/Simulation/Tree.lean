import RegexMachine.Proofs.Outcomes.Single
import RegexMachine.Proofs.Simulation.CharLoop
import RegexMachine.Proofs.Simulation.Conditional
import RegexMachine.Proofs.Simulation.Loop
import RegexMachine.Proofs.Tree.Occurrences

/-!
# Trees

The block of a tree delivers the outcomes of the tree, read as it was compiled: what the analysis
has marked is cut, and a bound is a bound however large it is.
-/

namespace RegexMachine

open Status Machine Matcher

/-- What the block of a node relies on: its groups are there, the body of a loop is matched in one
direction, and what could go wrong in its loops and groups is accepted or cannot happen. -/
structure Node.Sound (env : Surroundings) (reading : Reading) (A : Status → Prop) (n : Node) :
    Prop where
  oriented : ∀ min max isLazy, n.kind = .loop min max isLazy → ∀ x ∈ n.preorder, x.Oriented
  groups : ∀ group uncapture, n.kind = .capture group uncapture →
    (∀ g, group = some g → g < env.program.groupCount) ∧
      ∀ u, uncapture = some u → u < env.program.groupCount
  /-- A run through a lazy loop without a count spills only where that is accepted. -/
  lazyLoop : ∀ min max, n.kind = .loop min max true → Emitter.isCounted min max = false →
    (∀ m : Machine, m.Spills env → A (.running m)) ∨
      ∀ body ∈ n.children, (body.matcher reading env.setting).Moves env.text
  /-- A group that captures between two spans finds them in order, or the fault is accepted. -/
  balanced : ∀ g u, n.kind = .capture (some g) (some u) → ∀ m, A (.faulted .invertedSpan m)

section

variable {env : Surroundings} {A : Status → Prop} {ctx : LayoutContext}

theorem single_of_bare {n : Node} (hbare : ctx.needsFrame n = false) (σ : Setting) :
    Single (n.matcher (Reading.compiled ctx.analysis) σ) := by
  obtain ⟨id, options, kind, children⟩ := n
  rw [Node.matcher_node]
  cases kind with
  | empty => exact single_stay
  | nothing => exact fun _ => Nat.zero_le 1
  | char atom => exact fun s => length_goTo_le_one s _
  | multi chars => exact fun s => length_goTo_le_one s _
  | charLoop atom min max isLazy =>
    have hnot : (!ctx.analysis.isAtomicByAncestor id) = false := hbare
    have hcut : ctx.analysis.isAtomicByAncestor id = true := by simpa using hnot
    simp only [Node.matcherOf, Reading.compiled, hcut]
    exact single_charLoop_cut _ _ _ _ _
  | anchor anchor => exact single_anchor σ.textStart anchor
  | backreference group => exact single_backreference σ options group
  | _ => cases hbare

theorem realizes_nowhere (M : Matcher) : Realizes env A (fun _ _ => False) M :=
  fun _ _ h => h.elim

theorem realizes_node (hculture : ctx.culture = env.culture)
    (hsize : env.text.size < lastPosition) {n : Node}
    (h : ∀ x ∈ n.preorder, x.Sound env (Reading.compiled ctx.analysis) A) :
    Realizes env A (ctx.block env.program n)
      (n.matcher (Reading.compiled ctx.analysis) env.setting) := by
  induction n using Node.induction with
  | step id options kind children ih =>
    obtain ⟨hself, hchildren⟩ := Node.forall_preorder_node.1 h
    have hpart : ∀ c ∈ children, Realizes env A (ctx.block env.program c)
        (c.matcher (Reading.compiled ctx.analysis) env.setting) :=
      fun c hc => ih c hc (hchildren c hc)
    have hparts : List.Forall₂ (Realizes env A) (children.map (ctx.block env.program))
        (children.map (Node.matcher (Reading.compiled ctx.analysis) env.setting)) := by
      rw [List.forall₂_map_left_iff, List.forall₂_map_right_iff, List.forall₂_same]
      exact hpart
    rw [LayoutContext.block_node, Node.matcher_node]
    cases kind with
    | empty =>
      rcases children with _ | _
      · exact realizes_nothing
      · exact realizes_nowhere _
    | nothing =>
      rcases children with _ | _
      · exact realizes_fail
      · exact realizes_nowhere _
    | char atom =>
      rcases children with _ | _
      · exact realizes_char hculture options atom
      · exact realizes_nowhere _
    | multi chars =>
      rcases children with _ | _
      · simp only [LayoutContext.blockOf, hculture]
        exact realizes_multi options _
      · exact realizes_nowhere _
    | charLoop atom min max isLazy =>
      rcases children with _ | _
      · exact realizes_charLoopBlock hculture id options atom min max isLazy
      · exact realizes_nowhere _
    | anchor anchor =>
      rcases children with _ | _
      · exact realizes_anchor anchor fun _ => hsize
      · exact realizes_nowhere _
    | backreference group =>
      rcases children with _ | _
      · exact realizes_backreference options group
      · exact realizes_nowhere _
    | concat =>
      rcases children with _ | ⟨c, rest⟩
      · exact realizes_nowhere _
      · simp only [LayoutContext.blockOf, Node.matcherOf]
        cases options.direction with
        | forward => exact realizes_sequence hparts
        | backward => exact realizes_sequence (List.forall₂_reverse_iff.2 hparts)
    | alternate =>
      rcases children with _ | ⟨c, rest⟩
      · exact realizes_nowhere _
      · exact realizes_choice hparts (List.cons_ne_nil _ _)
    | loop min max isLazy =>
      rcases children with _ | ⟨body, _ | _⟩
      · exact realizes_nowhere _
      · have honward := Node.onward_child (Reading.compiled ctx.analysis) env.setting
          (hself.oriented min max isLazy rfl) body List.mem_cons_self
        refine realizes_loop (hpart _ List.mem_cons_self) honward hsize ?_
        cases isLazy with
        | false => exact .inl (.inl (.inl rfl))
        | true =>
          cases hcounted : Emitter.isCounted min max with
          | true => exact .inl (.inl (.inr rfl))
          | false =>
            rcases hself.lazyLoop min max rfl hcounted with hA | hne
            · exact .inl (.inr hA)
            · exact .inr (hne body List.mem_cons_self)
      · exact realizes_nowhere _
    | capture group uncapture =>
      rcases children with _ | ⟨body, _ | _⟩
      · exact realizes_nowhere _
      · obtain ⟨hgroup, huncapture⟩ := hself.groups group uncapture rfl
        refine realizes_capture hgroup huncapture ?_ (hpart _ List.mem_cons_self)
        cases group with
        | none => exact .inl (.inl rfl)
        | some g =>
          cases uncapture with
          | none => exact .inl (.inr rfl)
          | some u => exact .inr (hself.balanced g u rfl)
      · exact realizes_nowhere _
    | atomic =>
      rcases children with _ | ⟨body, _ | _⟩
      · exact realizes_nowhere _
      · exact realizes_atomic (hpart _ List.mem_cons_self) _ fun hbare => single_of_bare hbare _
      · exact realizes_nowhere _
    | positiveLook =>
      rcases children with _ | ⟨body, _ | _⟩
      · exact realizes_nowhere _
      · exact realizes_positiveLook (hpart _ List.mem_cons_self)
      · exact realizes_nowhere _
    | negativeLook =>
      rcases children with _ | ⟨body, _ | _⟩
      · exact realizes_nowhere _
      · exact realizes_negativeLook (hpart _ List.mem_cons_self)
      · exact realizes_nowhere _
    | backreferenceConditional group =>
      rcases children with _ | ⟨yes, _ | ⟨no, _ | _⟩⟩
      · exact realizes_nowhere _
      · exact realizes_backreferenceConditional group (hpart _ (by simp)) realizes_nothing
      · exact realizes_backreferenceConditional group (hpart _ (by simp)) (hpart _ (by simp))
      · exact realizes_nowhere _
    | expressionConditional =>
      rcases children with _ | ⟨condition, _ | ⟨yes, _ | ⟨no, _ | _⟩⟩⟩
      · exact realizes_nowhere _
      · exact realizes_nowhere _
      · exact realizes_expressionConditional (hpart _ (by simp)) (hpart _ (by simp))
          realizes_nothing
      · exact realizes_expressionConditional (hpart _ (by simp)) (hpart _ (by simp))
          (hpart _ (by simp))
      · exact realizes_nowhere _

end

end RegexMachine
