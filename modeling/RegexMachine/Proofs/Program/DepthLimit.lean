import RegexMachine.Proofs.Program.Sharing
import RegexMachine.Proofs.Program.WellFormed

/-!
# The depth limit

A walk that meets its limit stops in the middle of the tree, with facts that depend on where it stopped.
The limit still chooses between two programs and no more. A walk that gets through finds the same under
every limit, and of a walk that was stopped no answer shows what it has found. The layout asks nothing
else of an analysis, so an incomplete one leaves every repetition all its counts.
-/

namespace RegexMachine

namespace Node

theorem forestHeight_le_iff {ns : List Node} {limit : Nat} :
    forestHeight ns ≤ limit ↔ ∀ n ∈ ns, n.height ≤ limit := by
  induction ns with
  | nil => simp [forestHeight]
  | cons n rest ih => rw [forestHeight, Nat.max_le, ih, List.forall_mem_cons]

theorem height_le_iff {n : Node} {limit : Nat} : n.height ≤ limit ↔
    ∀ path x, n.occurrence? path = some x → path.length + 1 ≤ limit := by
  induction n using Node.induction generalizing limit with
  | step id options kind children ih =>
    rw [height]
    constructor
    · intro h path x hx
      cases path with
      | nil => exact Nat.le_trans (Nat.le_add_left 1 _) h
      | cons i path =>
        obtain ⟨c, hi, hx⟩ := Option.bind_eq_some_iff.1 hx
        have hc : c ∈ children := List.mem_of_getElem? hi
        have hlow : c.height ≤ limit - 1 := forestHeight_le_iff.1 (by omega) c hc
        have hdown := (ih c hc).1 hlow path x hx
        rw [List.length_cons]
        omega
    · intro h
      have hself : 0 + 1 ≤ limit := h [] _ rfl
      have hforest : forestHeight children ≤ limit - 1 := by
        refine forestHeight_le_iff.2 fun c hc => (ih c hc).2 fun path x hx => ?_
        obtain ⟨i, hi⟩ := List.getElem?_of_mem hc
        have hdown := h (i :: path) x (Option.bind_eq_some_iff.2 ⟨c, hi, hx⟩)
        rw [List.length_cons] at hdown
        omega
      omega

section

variable {id : Nat} {direction : Direction} {kind : Kind} {inLoop : Bool} {budget budget' : Nat}

theorem walkChildren_eq {children : List Node}
    (hall : ∀ c ∈ children, ∀ atomic found,
      c.walk atomic inLoop budget found = c.walk atomic inLoop budget' found)
    (atomic isFirst : Bool) (found : Findings) :
    walkChildren id direction kind atomic inLoop budget children isFirst found =
      walkChildren id direction kind atomic inLoop budget' children isFirst found := by
  induction children generalizing isFirst found with
  | nil => rw [walkChildren, walkChildren]
  | cons child rest ih =>
    rw [walkChildren, walkChildren, hall child List.mem_cons_self]
    split
    · rfl
    · exact ih (fun c hc => hall c (List.mem_cons_of_mem _ hc)) false _

/-- A walk that gets through finds the same under every budget. -/
theorem walk_eq_of_height_le {n : Node} (h : n.height ≤ budget) (h' : n.height ≤ budget')
    (atomic inLoop : Bool) (found : Findings) :
    n.walk atomic inLoop budget found = n.walk atomic inLoop budget' found := by
  induction n using Node.induction generalizing atomic inLoop budget budget' found with
  | step id options kind children ih =>
    rw [height] at h h'
    obtain ⟨budget, rfl⟩ := Nat.exists_eq_add_one_of_ne_zero (Nat.ne_zero_of_lt h)
    obtain ⟨budget', rfl⟩ := Nat.exists_eq_add_one_of_ne_zero (Nat.ne_zero_of_lt h')
    have hlow := forestHeight_le_iff.1 (Nat.le_of_succ_le_succ h)
    have hlow' := forestHeight_le_iff.1 (Nat.le_of_succ_le_succ h')
    rw [walk, walk]
    exact walkChildren_eq (fun c hc atomic found => ih c hc (hlow c hc) (hlow' c hc) atomic _ found)
      _ _ _

end

end Node

namespace Analysis

variable {t : Tree} {limit limit' : Nat}

/-- An analysis is complete unless a way down from the root passes more nodes than its limit. -/
theorem isComplete_iff : (ofTree t limit).isComplete = true ↔
    ∀ path x, t.root.occurrence? path = some x → path.length + 1 ≤ limit := by
  rw [isComplete_ofTree, decide_eq_true_iff, Node.height_le_iff]

theorem ofTree_eq_of_isComplete (h : (ofTree t limit).isComplete = true)
    (h' : (ofTree t limit').isComplete = true) :
    ofTree t limit' = { ofTree t limit with depthLimit := limit' } := by
  rw [isComplete_ofTree, decide_eq_true_iff] at h h'
  rw [ofTree, ofTree, Node.walk_eq_of_height_le h h']

/-- Every question is answered in the way that promises nothing. -/
structure Cautious (a : Analysis) : Prop where
  isAtomicByAncestor : ∀ id, a.isAtomicByAncestor id = false
  mayBacktrack : ∀ id, a.mayBacktrack id = true
  mayContainCapture : ∀ id, a.mayContainCapture id = true
  isInLoop : ∀ id, a.isInLoop id = true
  hasIgnoreCase : a.hasIgnoreCase = true
  hasRightToLeft : a.hasRightToLeft = true

/-- Whatever a walk that was stopped has found, its analysis is cautious. -/
theorem cautious_of_stopped {a : Analysis} (h : a.isComplete = false) : a.Cautious := by
  have hask : ∀ cautious id fact, a.ask cautious id fact = cautious := by
    intro cautious id fact
    rw [ask, h, if_neg Bool.false_ne_true]
  constructor
  · exact fun id => hask false id _
  · exact fun id => hask true id _
  · exact fun id => hask true id _
  · exact fun id => hask true id _
  · rw [hasIgnoreCase, h, Bool.not_false, Bool.true_or]
  · rw [hasRightToLeft, h, Bool.not_false, Bool.true_or]

theorem isAtomicByAncestor_eq (h : (ofTree t limit').isComplete = (ofTree t limit).isComplete)
    (id : Nat) : (ofTree t limit').isAtomicByAncestor id = (ofTree t limit).isAtomicByAncestor id := by
  cases hcomplete : (ofTree t limit).isComplete with
  | true =>
    rw [ofTree_eq_of_isComplete hcomplete (h.trans hcomplete)]
    rfl
  | false =>
    rw [(cautious_of_stopped hcomplete).isAtomicByAncestor,
      (cautious_of_stopped (h.trans hcomplete)).isAtomicByAncestor]

end Analysis

/-- A lazy repetition of a character with an optional part. -/
def Kind.isLazyRun : Kind → Bool
  | .charLoop _ min max isLazy => isLazy && decide (min < max)
  | _ => false

namespace Analysis

variable {a : Analysis} {x : Node}

theorem any_charLoopAtomic_tail? (h : a.isAtomicByAncestor x.id = false) :
    (a.tail? x).any (· == .charLoopAtomic) = false := by
  rw [tail?, h]
  cases x.kind with
  | charLoop atom min max isLazy =>
    by_cases hlt : min < max
    · cases isLazy <;> simp only [if_pos hlt] <;> rfl
    · simp only [if_neg hlt]
      rfl
  | _ => rfl

theorem any_charLazy_tail? (h : a.isAtomicByAncestor x.id = false) :
    (a.tail? x).any (· == .charLazy) = x.kind.isLazyRun := by
  rw [tail?, h]
  cases x.kind with
  | charLoop atom min max isLazy =>
    rw [Kind.isLazyRun]
    by_cases hlt : min < max
    · cases isLazy <;> simp only [if_pos hlt, decide_eq_true hlt] <;> rfl
    · cases isLazy <;> simp only [if_neg hlt, decide_eq_false hlt] <;> rfl
  | _ => rfl

end Analysis

/-- What a program keeps when its tree was laid out without the facts of an analysis. -/
structure Program.Uncut (program : Program) (ctx : LayoutContext) (root : Node) : Prop where
  noAtomic : ∀ i ∈ program.instructions, i.opcode ≠ .charLoopAtomic
  /-- There are as many lazy instructions as occurrences of lazy repetitions. -/
  count_lazy : (program.instructions.map (·.opcode)).countP (· == .charLazy) =
    root.preorder.countP (·.kind.isLazyRun)
  /-- The stretch of each of these occurrences ends with its own. -/
  placed_lazy : ∃ ends, ctx.Places program root ends ∧
    ∀ path x atom min max, root.occurrence? path = some x →
      x.kind = .charLoop atom min max true → min < max → ∃ test address,
        ctx.Tests program x.options.ignoreCase atom test ∧ (ends path).2 = address + 1 ∧
          program.instructions[address]? = some (LayoutContext.consuming x.options .charLazy
            (.atomCount test (Emitter.extra min max)))

namespace LayoutContext

variable {ctx : LayoutContext} {program : Program}

/-- The stretch of a lazy repetition ends with its optional part, unless that is in atomic position. -/
theorem exists_charLazy {id : Nat} {options : Options} {atom : Atom} {min max : Nat}
    {children : List Node} {parts : List Block} {first last : Nat}
    (h : ctx.blockOf program id options (.charLoop atom min max true) children parts first last)
    (hlt : min < max) (hanswer : ctx.analysis.isAtomicByAncestor id = false) :
    ∃ test address, ctx.Tests program options.ignoreCase atom test ∧ last = address + 1 ∧
      program.instructions[address]? =
        some (consuming options .charLazy (.atomCount test (Emitter.extra min max))) := by
  cases children with
  | nil =>
    obtain ⟨test, middle, htest, -, htail⟩ := h
    rw [charTail, if_pos hlt, hanswer] at htail
    exact ⟨test, middle, htest, htail.2, htail.1⟩
  | cons _ _ => exact h.elim

end LayoutContext

namespace Program

variable {t : Tree} {culture : Culture} {config : CompileConfig} {program : Program}

/-- No repetition is cut by an analysis that is incomplete. -/
theorem uncut_of_compile (ht : t.Compilable) (h : compile t culture config = .ok program)
    (hstopped : (Analysis.ofTree t config.analysisDepthLimit).isComplete = false) :
    program.Uncut { analysis := Analysis.ofTree t config.analysisDepthLimit, culture } t.root := by
  have hanswer := (Analysis.cautious_of_stopped hstopped).isAtomicByAncestor
  refine ⟨?_, ?_, ?_⟩
  · have hnone : (program.instructions.map (·.opcode)).countP (· == .charLoopAtomic) = 0 := by
      rw [countP_tails_of_compile (by intro opcode; cases opcode <;> decide) h, List.countP_eq_zero]
      exact fun x _ => Bool.eq_false_iff.1 (Analysis.any_charLoopAtomic_tail? (hanswer x.id))
    intro i hi heq
    refine Array.countP_eq_zero.1 hnone i.opcode (Array.mem_map_of_mem hi) ?_
    rw [heq]
    rfl
  · rw [countP_tails_of_compile (by intro opcode; cases opcode <;> decide) h]
    exact List.countP_congr fun x _ => Bool.eq_iff_iff.1 (Analysis.any_charLazy_tail? (hanswer x.id))
  · obtain ⟨ends, -, hplaces⟩ := (ht.wellFormed_of_compile h).placed
    refine ⟨ends, hplaces, fun path x atom min max hx hkind hlt => ?_⟩
    have haround := hplaces.around path x hx
    rw [hkind] at haround
    exact LayoutContext.exists_charLazy haround hlt (hanswer x.id)

/-- Of two analyses that are both complete, or both not, the programs differ in nothing but the
analysis that they carry. -/
theorem compile_eq_of_isComplete_eq (harity : ∀ x ∈ t.root.preorder, x.Arity) (culture : Culture)
    {limit limit' : Nat}
    (h : (Analysis.ofTree t limit').isComplete = (Analysis.ofTree t limit).isComplete) :
    compile t culture { analysisDepthLimit := limit' } =
      (compile t culture { analysisDepthLimit := limit }).map
        fun p => { p with analysis := Analysis.ofTree t limit' } := by
  have hanswer := Analysis.isAtomicByAncestor_eq h
  have halike : t.root.Alike ((Analysis.ofTree t limit').Concurs (Analysis.ofTree t limit)) t.root := by
    refine Node.alike_self fun x hx => ⟨fun _ => hanswer x.id, fun hkind c hc c' hc' => ?_⟩
    have hone : x.kind.Allows x.children.length := harity x hx
    rw [hkind] at hone
    obtain ⟨body, hbody⟩ := List.length_eq_one_iff.1 hone
    rw [hbody] at hc hc'
    rw [List.mem_singleton.1 hc, List.mem_singleton.1 hc', hanswer]
  have hemit : LayoutContext.emitPattern { analysis := Analysis.ofTree t limit', culture } t.root =
      LayoutContext.emitPattern { analysis := Analysis.ofTree t limit, culture } t.root := by
    unfold LayoutContext.emitPattern
    rw [LayoutContext.emitNode_eq culture halike harity]
  simp only [compile_eq, hemit, Bool.and_false]
  cases LayoutContext.emitPattern { analysis := Analysis.ofTree t limit, culture } t.root {} <;> rfl

/-- A tree that had to be analysed completely is refused when it was not, and compiled as ever when it
was. -/
theorem compile_strict (t : Tree) (culture : Culture) (limit : Nat) :
    compile t culture { analysisDepthLimit := limit, strictAnalysis := true } =
      if (Analysis.ofTree t limit).isComplete then compile t culture { analysisDepthLimit := limit }
      else .error (.analysisIncomplete limit) := by
  cases hcomplete : (Analysis.ofTree t limit).isComplete with
  | true => simp only [compile, hcomplete, Bool.not_true, Bool.false_and, if_true]
  | false => simp only [compile, hcomplete]; rfl

end Program

namespace Tree

variable {t : Tree}

/-- The depth limit is all or nothing. The analysis is complete when every way down from the root
passes at most as many nodes as the limit. A strict compilation is refused when it is not, and is the
lenient one when it is. Lenient compilations always succeed; all limits under which the analysis is
complete give one program, and all others another, in which nothing is cut and about which every
question is answered with caution. -/
theorem Built.depthLimit_all_or_nothing (h : t.Built) (culture : Culture) (limit : Nat) :
    ((Analysis.ofTree t limit).isComplete = true ↔
      ∀ path x, t.root.occurrence? path = some x → path.length + 1 ≤ limit) ∧
    (Program.compile t culture { analysisDepthLimit := limit, strictAnalysis := true } =
        .error (.analysisIncomplete limit) ↔ (Analysis.ofTree t limit).isComplete = false) ∧
    ∃ program, Program.compile t culture { analysisDepthLimit := limit } = .ok program ∧
      program.analysis = Analysis.ofTree t limit ∧
      ((Analysis.ofTree t limit).isComplete = true →
        Program.compile t culture { analysisDepthLimit := limit, strictAnalysis := true } =
          .ok program) ∧
      (∀ limit', (Analysis.ofTree t limit').isComplete = (Analysis.ofTree t limit).isComplete →
        Program.compile t culture { analysisDepthLimit := limit' } =
          .ok { program with analysis := Analysis.ofTree t limit' }) ∧
      ((Analysis.ofTree t limit).isComplete = false →
        program.Uncut { analysis := Analysis.ofTree t limit, culture } t.root ∧
          (Analysis.ofTree t limit).Cautious) := by
  have harity := h.compilable.arity
  obtain ⟨program, hprogram⟩ :=
    Program.compile_total harity culture { analysisDepthLimit := limit } rfl
  have hstrict := Program.compile_strict t culture limit
  have hlimits : ∀ limit', (Analysis.ofTree t limit').isComplete = (Analysis.ofTree t limit).isComplete →
      Program.compile t culture { analysisDepthLimit := limit' } =
        .ok { program with analysis := Analysis.ofTree t limit' } := by
    intro limit' hsame
    rw [Program.compile_eq_of_isComplete_eq harity culture hsame, hprogram]
    rfl
  have hcarried : program.analysis = Analysis.ofTree t limit := by
    have hself := hlimits limit rfl
    rw [hprogram] at hself
    exact congrArg Program.analysis (Except.ok.inj hself)
  refine ⟨Analysis.isComplete_iff, ?_, program, hprogram, hcarried, ?_, hlimits, ?_⟩
  · cases hcomplete : (Analysis.ofTree t limit).isComplete with
    | true =>
      rw [hstrict, if_pos hcomplete, hprogram]
      exact ⟨nofun, nofun⟩
    | false =>
      rw [hstrict, hcomplete, if_neg Bool.false_ne_true]
      exact ⟨fun _ => rfl, fun _ => rfl⟩
  · intro hcomplete
    rw [hstrict, if_pos hcomplete, hprogram]
  · intro hstopped
    exact ⟨Program.uncut_of_compile h.compilable hprogram hstopped,
      Analysis.cautious_of_stopped hstopped⟩

end Tree

/-- The pattern `a{1,2}?a{1,2}?` with both repetitions one node. -/
def sharedLazyRun : Tree :=
  Tree.build {} do
    let a ← Builder.one 'a'
    let run ← Builder.repeatedLazy a 1 2
    Builder.concat [run, run]

theorem built_sharedLazyRun : sharedLazyRun.Built := by
  have hstart : Builder.Built {} { options := {} } := .start
  have hone := hstart.call (.atom (.one 'a')) nofun
  have hrun := hone.call (.quantify 0 1 2 true) (by decide)
  exact ⟨{}, _, 2, hrun.call (.concat [1, 1]) (by decide), by decide, rfl⟩

/-- Three nodes stand on the longest way down. Under a limit of two, both occurrences of the repetition
keep their lazy instructions, and the limits of zero and one give the same program. -/
theorem depthLimit_sharedLazyRun :
    (Analysis.ofTree sharedLazyRun 2).isComplete = false ∧
    ∃ program, Program.compile sharedLazyRun .invariant { analysisDepthLimit := 2 } = .ok program ∧
      (program.instructions.map (·.opcode)).countP (· == .charLazy) = 2 ∧
      ∀ limit < 2, Program.compile sharedLazyRun .invariant { analysisDepthLimit := limit } =
        .ok { program with analysis := Analysis.ofTree sharedLazyRun limit } := by
  obtain ⟨-, -, program, hprogram, -, -, hlimits, huncut⟩ :=
    built_sharedLazyRun.depthLimit_all_or_nothing .invariant 2
  have hstopped : (Analysis.ofTree sharedLazyRun 2).isComplete = false := by decide +kernel
  refine ⟨hstopped, program, hprogram, ?_, fun limit hlimit => hlimits limit ?_⟩
  · rw [(huncut hstopped).1.count_lazy]
    decide +kernel
  · rw [hstopped, Analysis.isComplete_ofTree, decide_eq_false_iff_not]
    have hheight : sharedLazyRun.root.height = 3 := by decide +kernel
    omega

/-- The walk that was stopped had found the sequence in atomic position, which no answer shows. -/
example : ((Analysis.ofTree sharedLazyRun 2).findings.factsOf 2).atomicByAncestor = true := by
  decide +kernel

end RegexMachine
