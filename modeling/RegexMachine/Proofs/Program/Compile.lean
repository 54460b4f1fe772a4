import RegexMachine.Proofs.Program.Writer

/-!
# Compiled programs

A tree whose constructs have the number of children they need compiles, and its program is a choice
between the block of the root and the final stop.
-/

namespace RegexMachine

/-- How many children a construct may have. -/
def Kind.Allows (kind : Kind) (n : Nat) : Prop :=
  match kind with
  | .empty | .nothing | .char _ | .multi _ | .charLoop _ _ _ _ | .backreference _ | .anchor _ =>
      n = 0
  | .loop _ _ _ | .capture _ _ | .atomic | .positiveLook | .negativeLook => n = 1
  | .concat | .alternate => 0 < n
  | .backreferenceConditional _ => n = 1 ∨ n = 2
  | .expressionConditional => n = 2 ∨ n = 3

/-- The node has as many children as its construct may have. -/
def Node.Arity (n : Node) : Prop := n.kind.Allows n.children.length

namespace Emitter

/-- The emitter never fails. -/
def Total (e : Emitter) : Prop := ∀ a, ∃ b, e a = .ok b

theorem total_sequence {es : List Emitter} (h : ∀ e ∈ es, Total e) : Total (sequence es) := by
  induction es with
  | nil => exact fun a => ⟨a, rfl⟩
  | cons e es ih =>
    intro a
    obtain ⟨m, hm⟩ := h e List.mem_cons_self a
    obtain ⟨b, hb⟩ := ih (fun e' he' => h e' (List.mem_cons_of_mem _ he')) m
    exact ⟨b, by rw [sequence, hm]; exact hb⟩

theorem total_choice {es : List Emitter} (h : ∀ e ∈ es, Total e) : Total (choice es) := by
  induction es with
  | nil => exact fun a => ⟨a, rfl⟩
  | cons e es ih =>
    cases es with
    | nil => exact h e List.mem_cons_self
    | cons e' es =>
      intro a
      obtain ⟨m, hm⟩ := h e List.mem_cons_self (a.jumpAhead .lazybranch)
      obtain ⟨b, hb⟩ := ih (fun f hf => h f (List.mem_cons_of_mem _ hf))
        ((m.jumpAhead .goto).land a.here)
      exact ⟨b.land m.here, by simp only [choice, hm, Except.bind, bind] at hb ⊢; rw [hb]; rfl⟩

variable {e : Emitter} (he : Total e)

include he

theorem total_loop (min max : Nat) (isLazy : Bool) : Total (loop min max isLazy e) := by
  intro a
  simp only [loop]
  obtain ⟨m, hm⟩ := he (if min = 0 then (a.emit (loopOpener min max)).jumpAhead .goto
    else a.emit (loopOpener min max))
  rw [hm]
  exact ⟨_, rfl⟩

theorem total_capture (group uncapture : Option Nat) : Total (capture group uncapture e) := by
  intro a
  obtain ⟨m, hm⟩ := he (a.op .setmark)
  exact ⟨_, by rw [capture, hm]; rfl⟩

theorem total_atomic (needsFrame : Bool) : Total (atomic needsFrame e) := by
  intro a
  cases needsFrame with
  | false => exact he a
  | true =>
    obtain ⟨m, hm⟩ := he (a.op .setjump)
    exact ⟨m.op .forejump, by simp only [atomic, if_true, hm]; rfl⟩

theorem total_positiveLook : Total (positiveLook e) := by
  intro a
  obtain ⟨m, hm⟩ := he ((a.op .setjump).op .setmark)
  exact ⟨_, by rw [positiveLook, hm]; rfl⟩

theorem total_negativeLook : Total (negativeLook e) := by
  intro a
  obtain ⟨m, hm⟩ := he ((a.op .setjump).jumpAhead .lazybranch)
  exact ⟨_, by rw [negativeLook, hm]; rfl⟩

omit he in
theorem total_backreferenceConditional (group : Nat) {yes no : Emitter} (hyes : Total yes)
    (hno : Total no) : Total (backreferenceConditional group yes no) := by
  intro a
  simp only [backreferenceConditional]
  obtain ⟨m, hm⟩ := hyes ((((a.op .setjump).jumpAhead .lazybranch).emit
    { opcode := .testBackreference, payload := .group group }).op .forejump)
  obtain ⟨b, hb⟩ := hno (((m.jumpAhead .goto).land (a.op .setjump).here).op .forejump)
  rw [hm]
  simp only [bind, Except.bind]
  rw [hb]
  exact ⟨_, rfl⟩

omit he in
theorem total_expressionConditional {condition yes no : Emitter} (hcondition : Total condition)
    (hyes : Total yes) (hno : Total no) : Total (expressionConditional condition yes no) := by
  intro a
  simp only [expressionConditional]
  obtain ⟨l, hl⟩ := hcondition (((a.op .setjump).op .setmark).jumpAhead .lazybranch)
  obtain ⟨m, hm⟩ := hyes ((l.op .getmark).op .forejump)
  obtain ⟨b, hb⟩ := hno ((((m.jumpAhead .goto).land ((a.op .setjump).op .setmark).here).op
    .getmark).op .forejump)
  rw [hl]
  simp only [bind, Except.bind]
  rw [hm]
  simp only
  rw [hb]
  exact ⟨_, rfl⟩

end Emitter

namespace LayoutContext

open Emitter

variable (ctx : LayoutContext)

theorem total_leaf (id : Nat) (options : Options) {kind : Kind} (h : kind.Allows 0) :
    Total (ctx.leaf id options kind) := by
  intro a
  cases kind with
  | charLoop atom min max isLazy =>
    simp only [leaf, charLoop]
    by_cases hlt : min < max
    · cases tailOpcode isLazy (ctx.analysis.isAtomicByAncestor id) <;> simp [hlt]
    · simp [hlt]
  | empty | nothing | char _ | multi _ | backreference _ | anchor _ => exact ⟨_, rfl⟩
  | concat | alternate => exact absurd h (Nat.lt_irrefl 0)
  | loop | capture | atomic | positiveLook | negativeLook => cases h
  | backreferenceConditional | expressionConditional =>
    rcases h with h | h
    · cases h
    · cases h

theorem total_construct (id : Nat) (options : Options) {kind : Kind} {children : List Node}
    {es : List Emitter} (hes : ∀ e ∈ es, Total e) (hlen : es.length = children.length)
    (hne : children ≠ []) (h : kind.Allows children.length) :
    Total (ctx.construct id options kind children es) := by
  have hpos : 0 < children.length := List.length_pos_of_ne_nil hne
  rw [← hlen] at h
  cases kind with
  | concat =>
    intro a
    cases hd : options.direction with
    | forward =>
      obtain ⟨b, hb⟩ := total_sequence hes a
      exact ⟨b, by simpa [construct, hd] using hb⟩
    | backward =>
      have hreversed : ∀ e ∈ es.reverse, Total e := fun e he => hes e (List.mem_reverse.1 he)
      obtain ⟨b, hb⟩ := total_sequence hreversed a
      exact ⟨b, by simpa [construct, hd] using hb⟩
  | alternate => exact total_choice hes
  | loop min max isLazy =>
    obtain ⟨e, rfl⟩ := List.length_eq_one_iff.1 h
    exact total_loop (hes e List.mem_cons_self) min max isLazy
  | capture group uncapture =>
    obtain ⟨e, rfl⟩ := List.length_eq_one_iff.1 h
    exact total_capture (hes e List.mem_cons_self) group uncapture
  | atomic =>
    obtain ⟨e, rfl⟩ := List.length_eq_one_iff.1 h
    obtain ⟨child, rfl⟩ := List.length_eq_one_iff.1 (hlen.symm.trans h)
    exact total_atomic (hes e List.mem_cons_self) (ctx.needsFrame child)
  | positiveLook =>
    obtain ⟨e, rfl⟩ := List.length_eq_one_iff.1 h
    exact total_positiveLook (hes e List.mem_cons_self)
  | negativeLook =>
    obtain ⟨e, rfl⟩ := List.length_eq_one_iff.1 h
    exact total_negativeLook (hes e List.mem_cons_self)
  | backreferenceConditional group =>
    rcases h with h | h
    · obtain ⟨yes, rfl⟩ := List.length_eq_one_iff.1 h
      exact total_backreferenceConditional group (hes yes (by simp)) (fun a => ⟨a, rfl⟩)
    · obtain ⟨yes, no, rfl⟩ := List.length_eq_two.1 h
      exact total_backreferenceConditional group (hes yes (by simp)) (hes no (by simp))
  | expressionConditional =>
    rcases h with h | h
    · obtain ⟨condition, yes, rfl⟩ := List.length_eq_two.1 h
      exact total_expressionConditional (hes condition (by simp)) (hes yes (by simp))
        (fun a => ⟨a, rfl⟩)
    · obtain ⟨condition, yes, no, rfl⟩ := List.length_eq_three.1 h
      exact total_expressionConditional (hes condition (by simp)) (hes yes (by simp))
        (hes no (by simp))
  | empty | nothing | char _ | multi _ | charLoop _ _ _ _ | backreference _ | anchor _ =>
    have hzero : children.length = 0 := hlen.symm.trans h
    omega

theorem total_node {n : Node} (h : ∀ x ∈ n.preorder, x.Arity) : Total (ctx.emitNode n) := by
  induction n using Node.induction with
  | step id options kind children ih =>
    obtain ⟨hself, hchildren⟩ := Node.forall_preorder_node.1 h
    cases children with
    | nil => exact ctx.total_leaf id options hself
    | cons child rest =>
      refine ctx.total_construct id options ?_ ?_ (List.cons_ne_nil child rest) hself
      · rw [emitters_eq_map]
        intro e he
        obtain ⟨c, hc, rfl⟩ := List.mem_map.1 he
        exact ih c hc (hchildren c hc)
      · rw [emitters_eq_map, List.length_map]

end LayoutContext

/-- The program of a tree is made of its composed layout. -/
theorem Program.compile_eq (t : Tree) (culture : Culture) (config : CompileConfig) :
    Program.compile t culture config =
      let analysis := Analysis.ofTree t config.analysisDepthLimit
      if !analysis.isComplete && config.strictAnalysis then
        .error (.analysisIncomplete config.analysisDepthLimit)
      else do
        let a ← LayoutContext.emitPattern { analysis, culture } t.root {}
        return {
          instructions := a.instructions
          classes := a.classes
          groupCount := t.groupCount
          names := t.names
          options := t.options
          filter := StartFilter.ofTree t culture
          analysis } := by
  rw [Program.compile]
  dsimp only
  rw [LayoutContext.write_eq]
  split
  · rfl
  · cases LayoutContext.emitPattern { analysis := Analysis.ofTree t config.analysisDepthLimit, culture }
      t.root {} <;> rfl

/-- A compiled program is what the writer wrote, and the writer left no address behind. -/
theorem Program.exists_write_of_compile {t : Tree} {culture : Culture} {config : CompileConfig}
    {program : Program} (h : Program.compile t culture config = .ok program) :
    ∃ w, LayoutContext.write
        { analysis := Analysis.ofTree t config.analysisDepthLimit, culture } t.root =
        .ok w ∧ w.patches = [] ∧ program.instructions = w.assembly.instructions ∧
      program.classes = w.assembly.classes := by
  rw [Program.compile] at h
  dsimp only at h
  split at h
  · cases h
  obtain ⟨w, hw, h⟩ := exists_of_bind h
  obtain ⟨a, -, ha⟩ := exists_of_bind ((LayoutContext.write_eq _ _).symm.trans hw)
  cases ha
  cases h
  exact ⟨_, hw, rfl, rfl, rfl⟩

/-- A tree compiles unless its analysis had to be complete. -/
theorem Program.compile_total {t : Tree} (h : ∀ x ∈ t.root.preorder, x.Arity) (culture : Culture)
    (config : CompileConfig) (hstrict : config.strictAnalysis = false) :
    ∃ program, Program.compile t culture config = .ok program := by
  simp only [Program.compile_eq, hstrict, Bool.and_false]
  obtain ⟨b, hb⟩ := LayoutContext.total_node
    { analysis := Analysis.ofTree t config.analysisDepthLimit, culture } h
    (Assembly.jumpAhead {} .lazybranch)
  simp only [LayoutContext.emitPattern]
  rw [hb]
  exact ⟨_, rfl⟩

/-- What a compiled program is made of. -/
structure Program.Compiled (t : Tree) (culture : Culture) (config : CompileConfig)
    (program : Program) (last : Nat) : Prop where
  opening : program.instructions[0]? = some (Block.jumping .lazybranch last)
  root : LayoutContext.block
    { analysis := Analysis.ofTree t config.analysisDepthLimit, culture } program t.root 1 last
  stop : program.instructions[last]? = some { opcode := .stop }
  size_eq : program.instructions.size = last + 1
  groupCount : program.groupCount = t.groupCount
  names : program.names = t.names
  options : program.options = t.options
  filter : program.filter = StartFilter.ofTree t culture

theorem Program.Compiled.direction_eq {t : Tree} {culture : Culture} {config : CompileConfig}
    {program : Program} {last : Nat} (h : program.Compiled t culture config last) :
    program.direction = t.direction :=
  congrArg Options.direction h.options

theorem Program.compiled_of_compile {t : Tree} {culture : Culture} {config : CompileConfig}
    {program : Program} (h : Program.compile t culture config = .ok program) :
    ∃ last, program.Compiled t culture config last := by
  rw [Program.compile_eq] at h
  dsimp only at h
  split at h
  · cases h
  obtain ⟨a, ha, h⟩ := exists_of_bind h
  have hp := Except.ok.inj h
  obtain ⟨m, hm, hma⟩ := exists_of_bind ha
  cases hma
  have hcode : program.instructions = ((m.land 0).op .stop).instructions := by
    rw [← hp]
    rfl
  have hclasses : program.classes = ((m.land 0).op .stop).classes := by
    rw [← hp]
    rfl
  have hhas : program.Has (fun _ => True) ((m.land 0).op .stop) :=
    ⟨fun i _ _ => by rw [hcode], fun i k hk => by rw [hclasses]; exact hk⟩
  obtain ⟨hext, hblock⟩ := LayoutContext.writes_node _ program t.root _ m hm
  have hsize : program.instructions.size = m.here + 1 := by
    rw [hcode]
    exact (Assembly.here_op (m.land 0) .stop).trans (congrArg (· + 1) (Assembly.here_land m 0))
  refine ⟨m.here, ?_, ?_, ?_, hsize, by rw [← hp], by rw [← hp], by rw [← hp],
    by rw [← hp]⟩
  · have hjump : (m.instructions)[0]? = some (Block.jumping .lazybranch 0) := hext.at_jump
    exact hhas.of_emit.at_jump hjump trivial
  · exact hblock (hhas.of_emit.of_land.mono fun i _ hi => ⟨trivial, by
      have h1 : (1 : Nat) ≤ i := hi
      omega⟩)
  · simpa using hhas.at_emit trivial

end RegexMachine
