import RegexMachine.Proofs.Program.Compile
import RegexMachine.Proofs.Scan.Candidates

/-!
# Programs that cannot see case

A program cannot see case when all its instructions that compare characters fold them first, none asks
for word characters, and its filter looks only at folded characters. The program of a tree is one when
every node of the tree ignores case and none looks for word boundaries.
-/

namespace RegexMachine

/-- Compares characters of the text with others. -/
def Opcode.comparesChars : Opcode → Bool
  | .char | .multi | .backreference | .charRep | .charLoop | .charLoopAtomic | .charLazy => true
  | _ => false

/-- Asks which characters are word characters. -/
def Opcode.asksForWords : Opcode → Bool
  | .boundary | .nonBoundary | .ecmaBoundary | .nonEcmaBoundary => true
  | _ => false

/-- Asks which characters are word characters. -/
def Kind.asksForWords : Kind → Bool
  | .anchor .boundary | .anchor .nonBoundary | .anchor .ecmaBoundary | .anchor .nonEcmaBoundary => true
  | _ => false

structure Instruction.CaseBlind (i : Instruction) : Prop where
  folds : i.opcode.comparesChars = true → i.ignoreCase = true
  wordless : i.opcode.asksForWords = false

def FilterMode.CaseBlind : FilterMode → Prop
  | .leadingString _ | .leadingChar _ | .trailingChar _ => False
  | .leadingSet _ ignoreCase => ignoreCase = true
  | _ => True

structure Program.CaseBlind (program : Program) : Prop where
  instructions : ∀ i ∈ program.instructions, i.CaseBlind
  filter : program.filter.mode.CaseBlind

/-- The node ignores case and does not look for word boundaries. -/
structure Node.CaseBlind (n : Node) : Prop where
  ignoreCase : n.options.ignoreCase = true
  wordless : n.kind.asksForWords = false

instance (n : Node) : Decidable n.CaseBlind :=
  decidable_of_iff (n.options.ignoreCase = true ∧ n.kind.asksForWords = false)
    ⟨fun h => ⟨h.1, h.2⟩, fun h => ⟨h.1, h.2⟩⟩

theorem Instruction.CaseBlind.withTarget {i : Instruction} (h : i.CaseBlind) (address : Nat) :
    (i.withTarget address).CaseBlind := by
  rw [Instruction.withTarget]
  split
  · exact ⟨h.folds, h.wordless⟩
  · exact ⟨h.folds, h.wordless⟩
  · exact h

theorem Instruction.caseBlind_of_opcode {i : Instruction} (hcompares : i.opcode.comparesChars = false)
    (hasks : i.opcode.asksForWords = false) : i.CaseBlind :=
  ⟨fun hc => absurd (hcompares.symm.trans hc) Bool.false_ne_true, hasks⟩

namespace Assembly

def CaseBlind (a : Assembly) : Prop := ∀ i ∈ a.instructions, i.CaseBlind

namespace CaseBlind

variable {a : Assembly} (h : a.CaseBlind)

include h

theorem emit {i : Instruction} (hi : i.CaseBlind) : (a.emit i).CaseBlind := by
  intro j hj
  rcases Array.mem_push.1 hj with hj | rfl
  · exact h j hj
  · exact hi

theorem op (opcode : Opcode) (hcompares : opcode.comparesChars = false)
    (hasks : opcode.asksForWords = false) : (a.op opcode).CaseBlind :=
  h.emit (Instruction.caseBlind_of_opcode hcompares hasks)

theorem jumpAhead (opcode : Opcode) (hcompares : opcode.comparesChars = false)
    (hasks : opcode.asksForWords = false) : (a.jumpAhead opcode).CaseBlind :=
  h.emit (Instruction.caseBlind_of_opcode hcompares hasks)

theorem land (address : Nat) : (a.land address).CaseBlind := by
  intro i hi
  obtain ⟨index, hget⟩ := Array.mem_iff_getElem?.1 hi
  rw [Assembly.land, Assembly.patch, Array.getElem?_modify] at hget
  split at hget
  · obtain ⟨j, hj, rfl⟩ := Option.map_eq_some_iff.1 hget
    exact (h j (Array.mem_of_getElem? hj)).withTarget _
  · exact h i (Array.mem_of_getElem? hget)

end CaseBlind

end Assembly

namespace Emitter

/-- Nothing is written that sees case. -/
def CaseBlind (e : Emitter) : Prop := ∀ a b, a.CaseBlind → e a = .ok b → b.CaseBlind

theorem caseBlind_sequence {es : List Emitter} (h : ∀ e ∈ es, CaseBlind e) :
    CaseBlind (sequence es) := by
  induction es with
  | nil =>
    rintro a _ ha ⟨⟩
    exact ha
  | cons e es ih =>
    intro a b ha hb
    obtain ⟨m, hm, hb⟩ := exists_of_bind hb
    exact ih (fun e' he' => h e' (List.mem_cons_of_mem _ he')) m b (h e List.mem_cons_self a m ha hm) hb

theorem caseBlind_choice {es : List Emitter} (h : ∀ e ∈ es, CaseBlind e) :
    CaseBlind (choice es) := by
  induction es with
  | nil =>
    rintro a _ ha ⟨⟩
    exact ha
  | cons e es ih =>
    cases es with
    | nil => exact h e List.mem_cons_self
    | cons e' es =>
      intro a b ha hb
      obtain ⟨m, hm, hb⟩ := exists_of_bind hb
      obtain ⟨n, hn, hb⟩ := exists_of_bind hb
      cases hb
      have hpart := h e List.mem_cons_self _ m (ha.jumpAhead .lazybranch rfl rfl) hm
      have hrest := ih fun e'' he'' => h e'' (List.mem_cons_of_mem _ he'')
      exact (hrest _ n ((hpart.jumpAhead .goto rfl rfl).land _) hn).land _

variable {e : Emitter} (he : CaseBlind e)

section

include he

theorem caseBlind_loop (min max : Nat) (isLazy : Bool) : CaseBlind (loop min max isLazy e) := by
  intro a b ha hb
  obtain ⟨m, hm, hb⟩ := exists_of_bind hb
  cases hb
  have hopened : (a.emit (loopOpener min max)).CaseBlind := by
    apply ha.emit
    unfold loopOpener
    split <;> split <;> exact Instruction.caseBlind_of_opcode rfl rfl
  have hskipped : (if min = 0 then (a.emit (loopOpener min max)).jumpAhead .goto
      else a.emit (loopOpener min max)).CaseBlind := by
    split
    · exact hopened.jumpAhead .goto rfl rfl
    · exact hopened
  have hbody := he _ m hskipped hm
  apply Assembly.CaseBlind.emit
  · split
    · exact hbody.land _
    · exact hbody
  · unfold loopCloser
    split <;> cases isLazy <;> exact Instruction.caseBlind_of_opcode rfl rfl

theorem caseBlind_capture (group uncapture : Option Nat) :
    CaseBlind (capture group uncapture e) := by
  intro a b ha hb
  obtain ⟨m, hm, hb⟩ := exists_of_bind hb
  cases hb
  exact (he _ m (ha.op .setmark rfl rfl) hm).emit (Instruction.caseBlind_of_opcode rfl rfl)

theorem caseBlind_atomic (needsFrame : Bool) : CaseBlind (atomic needsFrame e) := by
  cases needsFrame with
  | false => exact he
  | true =>
    intro a b ha hb
    obtain ⟨m, hm, hb⟩ := exists_of_bind hb
    cases hb
    exact (he _ m (ha.op .setjump rfl rfl) hm).op .forejump rfl rfl

theorem caseBlind_positiveLook : CaseBlind (positiveLook e) := by
  intro a b ha hb
  obtain ⟨m, hm, hb⟩ := exists_of_bind hb
  cases hb
  have hbody := he _ m ((ha.op .setjump rfl rfl).op .setmark rfl rfl) hm
  exact (hbody.op .getmark rfl rfl).op .forejump rfl rfl

theorem caseBlind_negativeLook : CaseBlind (negativeLook e) := by
  intro a b ha hb
  obtain ⟨m, hm, hb⟩ := exists_of_bind hb
  cases hb
  have hbody := he _ m ((ha.op .setjump rfl rfl).jumpAhead .lazybranch rfl rfl) hm
  exact ((hbody.op .backjump rfl rfl).land _).op .forejump rfl rfl

end

theorem caseBlind_backreferenceConditional (group : Nat) {yes no : Emitter} (hyes : CaseBlind yes)
    (hno : CaseBlind no) : CaseBlind (backreferenceConditional group yes no) := by
  intro a b ha hb
  obtain ⟨m, hm, hb⟩ := exists_of_bind hb
  obtain ⟨n, hn, hb⟩ := exists_of_bind hb
  cases hb
  have hbranch := (ha.op .setjump rfl rfl).jumpAhead .lazybranch rfl rfl
  have htest := hbranch.emit (i := { opcode := .testBackreference, payload := .group group })
    (Instruction.caseBlind_of_opcode rfl rfl)
  have hfirst := (hyes _ m (htest.op .forejump rfl rfl) hm).jumpAhead .goto rfl rfl
  exact (hno _ n ((hfirst.land _).op .forejump rfl rfl) hn).land _

theorem caseBlind_expressionConditional {condition yes no : Emitter} (hcondition : CaseBlind condition)
    (hyes : CaseBlind yes) (hno : CaseBlind no) :
    CaseBlind (expressionConditional condition yes no) := by
  intro a b ha hb
  obtain ⟨m, hm, hb⟩ := exists_of_bind hb
  obtain ⟨n, hn, hb⟩ := exists_of_bind hb
  obtain ⟨k, hk, hb⟩ := exists_of_bind hb
  cases hb
  have hbranch := ((ha.op .setjump rfl rfl).op .setmark rfl rfl).jumpAhead .lazybranch rfl rfl
  have htest := (hcondition _ m hbranch hm).op .getmark rfl rfl
  have hfirst := (hyes _ n (htest.op .forejump rfl rfl) hn).jumpAhead .goto rfl rfl
  exact (hno _ k (((hfirst.land _).op .getmark rfl rfl).op .forejump rfl rfl) hk).land _

theorem caseBlind_nothing : CaseBlind .ok := by
  rintro a _ ha ⟨⟩
  exact ha

end Emitter

namespace LayoutContext

variable (ctx : LayoutContext)

theorem instructions_test (ignoreCase : Bool) (atom : Atom) (a : Assembly) :
    (ctx.test ignoreCase atom a).2.instructions = a.instructions := by
  cases atom <;> rfl

variable {options : Options} (hfolds : options.ignoreCase = true)

include hfolds

theorem caseBlind_consuming {opcode : Opcode} (hasks : opcode.asksForWords = false)
    (payload : Payload) : (consuming options opcode payload).CaseBlind := ⟨fun _ => hfolds, hasks⟩

theorem caseBlind_charLoop (id : Nat) (atom : Atom) (min max : Nat) (isLazy : Bool) :
    Emitter.CaseBlind (ctx.charLoop id options atom min max isLazy) := by
  intro a b ha hb
  have htest : (ctx.test options.ignoreCase atom a).2.CaseBlind := by
    intro i hi
    rw [instructions_test] at hi
    exact ha i hi
  rw [charLoop] at hb
  have hmin : (if 0 < min then (ctx.test options.ignoreCase atom a).2.emit
      (consuming options .charRep (.atomCount (ctx.test options.ignoreCase atom a).1 min))
      else (ctx.test options.ignoreCase atom a).2).CaseBlind := by
    split
    · exact htest.emit (caseBlind_consuming hfolds rfl _)
    · exact htest
  dsimp only at hb
  split at hb
  · split at hb
    · next opcode htail =>
      cases hb
      refine hmin.emit (caseBlind_consuming hfolds ?_ _)
      unfold tailOpcode at htail
      split at htail <;> cases htail <;> rfl
    · cases hb
      exact hmin
  · cases hb
    exact hmin

theorem caseBlind_leaf (id : Nat) {kind : Kind}
    (hwordless : kind.asksForWords = false) :
    Emitter.CaseBlind (ctx.leaf id options kind) := by
  intro a b ha hb
  cases kind with
  | empty =>
    cases hb
    exact ha
  | nothing =>
    cases hb
    exact ha.op .nothing rfl rfl
  | char atom =>
    simp only [leaf, Except.ok.injEq] at hb
    subst hb
    refine Assembly.CaseBlind.emit (fun i hi => ?_) (caseBlind_consuming hfolds rfl _)
    rw [instructions_test] at hi
    exact ha i hi
  | multi chars =>
    cases hb
    exact ha.emit (caseBlind_consuming hfolds rfl _)
  | charLoop atom min max isLazy => exact ctx.caseBlind_charLoop hfolds id atom min max isLazy a b ha hb
  | backreference group =>
    cases hb
    exact ha.emit (caseBlind_consuming hfolds rfl _)
  | anchor anchor =>
    cases hb
    cases anchor <;> first | exact ha.op _ rfl rfl | cases hwordless
  | _ => cases hb

omit hfolds in
theorem caseBlind_construct (id : Nat) (kind : Kind) (children : List Node) {parts : List Emitter}
    (hparts : ∀ part ∈ parts, part.CaseBlind) :
    Emitter.CaseBlind (ctx.construct id options kind children parts) := by
  intro a b ha hb
  unfold construct at hb
  split at hb
  case h_1 =>
    split at hb
    · exact Emitter.caseBlind_sequence hparts a b ha hb
    · exact Emitter.caseBlind_sequence (fun e he => hparts e (List.mem_reverse.1 he)) a b ha hb
  case h_2 => exact Emitter.caseBlind_choice hparts a b ha hb
  case h_3 => exact Emitter.caseBlind_loop (hparts _ (by simp)) _ _ _ a b ha hb
  case h_4 => exact Emitter.caseBlind_capture (hparts _ (by simp)) _ _ a b ha hb
  case h_5 => exact Emitter.caseBlind_atomic (hparts _ (by simp)) _ a b ha hb
  case h_6 => exact Emitter.caseBlind_positiveLook (hparts _ (by simp)) a b ha hb
  case h_7 => exact Emitter.caseBlind_negativeLook (hparts _ (by simp)) a b ha hb
  case h_8 =>
    exact Emitter.caseBlind_backreferenceConditional _ (hparts _ (by simp))
      Emitter.caseBlind_nothing a b ha hb
  case h_9 =>
    exact Emitter.caseBlind_backreferenceConditional _ (hparts _ (by simp)) (hparts _ (by simp))
      a b ha hb
  case h_10 =>
    exact Emitter.caseBlind_expressionConditional (hparts _ (by simp)) (hparts _ (by simp))
      Emitter.caseBlind_nothing a b ha hb
  case h_11 =>
    exact Emitter.caseBlind_expressionConditional (hparts _ (by simp)) (hparts _ (by simp))
      (hparts _ (by simp)) a b ha hb
  case h_12 => cases hb

omit hfolds in
theorem caseBlind_node {n : Node} (h : ∀ x ∈ n.preorder, x.CaseBlind) :
    Emitter.CaseBlind (ctx.emitNode n) := by
  induction n using Node.induction with
  | step id options kind children ih =>
    obtain ⟨⟨hfolds, hwordless⟩, hchildren⟩ := Node.forall_preorder_node.1 h
    cases children with
    | nil => exact ctx.caseBlind_leaf hfolds id hwordless
    | cons child rest =>
      refine ctx.caseBlind_construct id kind (child :: rest) fun part hpart => ?_
      rw [emitters_eq_map] at hpart
      obtain ⟨c, hc, rfl⟩ := List.mem_map.1 hpart
      exact ih c hc (hchildren c hc)

end LayoutContext

namespace FilterMode

theorem caseBlind_ofAtom {culture : Culture} {atom : Atom} {mode : FilterMode}
    (h : ofAtom culture true atom = some mode) : mode.CaseBlind := by
  cases atom with
  | one c =>
    cases h
    trivial
  | set k =>
    unfold ofAtom at h
    dsimp only at h
    split at h
    · next heq => cases heq
    · cases h
      rfl
  | notOne c => cases h

theorem caseBlind_leading {culture : Culture} {n : Node} (hn : ∀ x ∈ n.preorder, x.CaseBlind)
    {mode : FilterMode} (h : leading culture n = some mode) : mode.CaseBlind := by
  induction n using Node.induction with
  | step id options kind children ih =>
    obtain ⟨⟨hfolds, -⟩, hchildren⟩ := Node.forall_preorder_node.1 hn
    have hfolds : options.ignoreCase = true := hfolds
    have hin : leadingIn culture children = some mode → mode.CaseBlind := by
      intro h
      rw [leadingIn_eq] at h
      obtain ⟨c, hc, hmode⟩ := Option.bind_eq_some_iff.1 h
      have hmem := List.mem_of_find?_eq_some hc
      exact ih c hmem (hchildren c hmem) hmode
    unfold leading at h
    rw [hfolds] at h
    split at h
    · cases h
    · split at h
      case h_1 | h_2 | h_3 => exact hin h
      case h_4 =>
        split at h
        · exact hin h
        · cases h
      case h_5 | h_6 =>
        cases h
        trivial
      case h_7 =>
        obtain ⟨c, -, rfl⟩ := Option.map_eq_some_iff.1 h
        trivial
      case h_8 => exact caseBlind_ofAtom h
      case h_9 =>
        split at h
        · exact caseBlind_ofAtom h
        · cases h
      case h_10 => cases h

theorem caseBlind_trailing {n : Node} (hn : ∀ x ∈ n.preorder, x.CaseBlind) {mode : FilterMode}
    (h : trailing n = some mode) : mode.CaseBlind := by
  induction n using Node.induction with
  | step id options kind children ih =>
    obtain ⟨⟨hfolds, -⟩, hchildren⟩ := Node.forall_preorder_node.1 hn
    have hfolds : options.ignoreCase = true := hfolds
    have hin : (trailingIn children).join = some mode → mode.CaseBlind := by
      intro h
      rw [join_trailingIn] at h
      obtain ⟨c, hc, hmode⟩ := Option.bind_eq_some_iff.1 h
      have hmem := List.mem_reverse.1 (List.mem_of_find?_eq_some hc)
      exact ih c hmem (hchildren c hmem) hmode
    unfold trailing at h
    rw [hfolds] at h
    split at h
    · cases h
    · split at h
      case h_1 | h_2 | h_3 => exact hin h
      case h_4 =>
        split at h
        · exact hin h
        · cases h
      case h_5 =>
        cases h
        trivial
      case h_6 | h_7 | h_9 => cases h
      case h_8 => simp at h

end FilterMode

/-- The program of a tree whose nodes are blind to case is blind to case. -/
theorem Program.caseBlind_of_compile {t : Tree} (h : ∀ x ∈ t.root.preorder, x.CaseBlind)
    {culture : Culture} {config : CompileConfig} {program : Program}
    (hcompile : Program.compile t culture config = .ok program) : program.CaseBlind := by
  rw [Program.compile_eq] at hcompile
  dsimp only at hcompile
  split at hcompile
  · cases hcompile
  obtain ⟨a, ha, hcompile⟩ := exists_of_bind hcompile
  cases hcompile
  obtain ⟨m, hm, ha⟩ := exists_of_bind ha
  cases ha
  constructor
  · have hempty : Assembly.CaseBlind {} := fun i hi => absurd hi (Array.not_mem_empty i)
    have hroot := LayoutContext.caseBlind_node _ h _ m (hempty.jumpAhead .lazybranch rfl rfl) hm
    exact (hroot.land _).op .stop rfl rfl
  · rw [StartFilter.ofTree]
    cases t.direction with
    | forward =>
      dsimp only
      cases hmode : FilterMode.leading culture t.root with
      | none => trivial
      | some mode => exact FilterMode.caseBlind_leading h hmode
    | backward =>
      dsimp only
      cases hmode : FilterMode.trailing t.root with
      | none => trivial
      | some mode => exact FilterMode.caseBlind_trailing h hmode

end RegexMachine
