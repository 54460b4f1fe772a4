import Mathlib.Algebra.Ring.Nat
import RegexMachine.Proofs.Program.Compile

/-!
# Tails

The optional part of a repeated character is laid out as an instruction that leaves the counts it did
not take to go back to, or in atomic position as one that does not, or as nothing. A program has as
many instructions of each of these kinds as there are occurrences that are laid out so: nothing else
writes one.
-/

namespace RegexMachine

/-- Whether a repeated character has a part whose layout depends on its position. -/
def Kind.hasTail : Kind → Bool
  | .charLoop _ min max _ => decide (min < max)
  | _ => false

/-- Executes the optional part of a repeated character. -/
def Opcode.isTail : Opcode → Bool
  | .charLoop | .charLoopAtomic | .charLazy => true
  | _ => false

/-- Executes a repetition that can later be taken up again with another count. -/
def Opcode.isOpenTail : Opcode → Bool
  | .charLoop | .charLazy => true
  | _ => false

theorem Opcode.not_isOpenTail {opcode : Opcode} (h : ¬ opcode.isTail) : ¬ opcode.isOpenTail := by
  revert h
  cases opcode <;> decide

theorem Instruction.opcode_withTarget (i : Instruction) (address : Nat) :
    (i.withTarget address).opcode = i.opcode := by
  rw [Instruction.withTarget]
  split <;> rfl

namespace Assembly

/-- How many instructions of a program have an opcode of this kind. -/
def tally (p : Opcode → Bool) (a : Assembly) : Nat := (a.instructions.map (·.opcode)).countP p

variable (p : Opcode → Bool) (a : Assembly)

@[simp] theorem tally_emit (i : Instruction) :
    (a.emit i).tally p = a.tally p + if p i.opcode then 1 else 0 := by
  rw [tally, emit, Array.map_push, Array.countP_push]
  rfl

variable {p} in
theorem tally_emit_of_not {i : Instruction} (h : ¬ p i.opcode) :
    (a.emit i).tally p = a.tally p := by
  rw [tally_emit, if_neg h, Nat.add_zero]

@[simp] theorem tally_op (opcode : Opcode) :
    (a.op opcode).tally p = a.tally p + if p opcode then 1 else 0 := tally_emit p a _

@[simp] theorem tally_jumpAhead (opcode : Opcode) :
    (a.jumpAhead opcode).tally p = a.tally p + if p opcode then 1 else 0 := tally_emit p a _

@[simp] theorem tally_land (address : Nat) : (a.land address).tally p = a.tally p := by
  have hopcodes : (a.land address).instructions.map (·.opcode) = a.instructions.map (·.opcode) := by
    refine Array.ext_getElem? fun i => ?_
    rw [land, patch, Array.getElem?_map, Array.getElem?_map, Array.getElem?_modify]
    split
    · cases a.instructions[i]? with
      | none => rfl
      | some j => exact congrArg some (j.opcode_withTarget _)
    · rfl
  rw [tally, tally, hopcodes]

end Assembly

namespace Emitter

/-- So many instructions with an opcode of this kind are written. -/
def Adds (p : Opcode → Bool) (k : Nat) (e : Emitter) : Prop :=
  ∀ a b, e a = .ok b → b.tally p = a.tally p + k

variable {p : Opcode → Bool}

theorem adds_nothing : Adds p 0 .ok := by
  rintro a _ ⟨⟩
  rfl

theorem adds_sequence {ks : List Nat} {es : List Emitter} (h : List.Forall₂ (Adds p) ks es) :
    Adds p ks.sum (sequence es) := by
  induction h with
  | nil => exact adds_nothing
  | cons he _ ih =>
    intro a b hb
    obtain ⟨m, hm, hb⟩ := exists_of_bind hb
    rw [ih m b hb, he a m hm, List.sum_cons, Nat.add_assoc]

variable (hp : ∀ opcode : Opcode, ¬ opcode.isTail → ¬ p opcode)

include hp

theorem adds_choice {ks : List Nat} {es : List Emitter} (h : List.Forall₂ (Adds p) ks es) :
    Adds p ks.sum (choice es) := by
  induction h with
  | nil => exact adds_nothing
  | @cons k e ks es he hrest ih =>
    cases hrest with
    | nil => exact he
    | cons he' hrest =>
      intro a b hb
      obtain ⟨m, hm, hb⟩ := exists_of_bind hb
      obtain ⟨n, hn, hb⟩ := exists_of_bind hb
      cases hb
      have hpart := he _ m hm
      have hlater := ih _ n hn
      simp [hp, Opcode.isTail] at hpart hlater ⊢
      omega

section

variable {k : Nat} {e : Emitter} (he : Adds p k e)

include he

theorem adds_loop (min max : Nat) (isLazy : Bool) : Adds p k (loop min max isLazy e) := by
  intro a b hb
  obtain ⟨m, hm, hb⟩ := exists_of_bind hb
  cases hb
  have hopener : (a.emit (loopOpener min max)).tally p = a.tally p := by
    apply Assembly.tally_emit_of_not
    apply hp
    unfold loopOpener
    split <;> split <;> exact Bool.false_ne_true
  have hcloser : ∀ (c : Assembly) (body : Nat),
      (c.emit (loopCloser min max isLazy body)).tally p = c.tally p := by
    intro c body
    apply Assembly.tally_emit_of_not
    apply hp
    unfold loopCloser
    split <;> cases isLazy <;> exact Bool.false_ne_true
  have hbody := he _ m hm
  rw [hcloser]
  by_cases hmin : min = 0
  · rw [if_pos hmin] at hbody ⊢
    rw [Assembly.tally_land, hbody, Assembly.tally_jumpAhead, hopener, if_neg (hp .goto Bool.false_ne_true),
      Nat.add_zero]
  · rw [if_neg hmin] at hbody ⊢
    rw [hbody, hopener]

theorem adds_capture (group uncapture : Option Nat) : Adds p k (capture group uncapture e) := by
  intro a b hb
  obtain ⟨m, hm, hb⟩ := exists_of_bind hb
  cases hb
  simpa [hp, Opcode.isTail] using he _ m hm

theorem adds_atomic (needsFrame : Bool) : Adds p k (atomic needsFrame e) := by
  cases needsFrame with
  | false => exact he
  | true =>
    intro a b hb
    obtain ⟨m, hm, hb⟩ := exists_of_bind hb
    cases hb
    simpa [hp, Opcode.isTail] using he _ m hm

theorem adds_positiveLook : Adds p k (positiveLook e) := by
  intro a b hb
  obtain ⟨m, hm, hb⟩ := exists_of_bind hb
  cases hb
  simpa [hp, Opcode.isTail] using he _ m hm

theorem adds_negativeLook : Adds p k (negativeLook e) := by
  intro a b hb
  obtain ⟨m, hm, hb⟩ := exists_of_bind hb
  cases hb
  simpa [hp, Opcode.isTail] using he _ m hm

end

theorem adds_backreferenceConditional (group : Nat) {k k' : Nat} {yes no : Emitter}
    (hyes : Adds p k yes) (hno : Adds p k' no) :
    Adds p (k + k') (backreferenceConditional group yes no) := by
  intro a b hb
  obtain ⟨m, hm, hb⟩ := exists_of_bind hb
  obtain ⟨n, hn, hb⟩ := exists_of_bind hb
  cases hb
  have hfirst := hyes _ m hm
  have hsecond := hno _ n hn
  simp [hp, Opcode.isTail] at hfirst hsecond ⊢
  omega

theorem adds_expressionConditional {k k' k'' : Nat} {condition yes no : Emitter}
    (hcondition : Adds p k condition) (hyes : Adds p k' yes) (hno : Adds p k'' no) :
    Adds p (k + (k' + k'')) (expressionConditional condition yes no) := by
  intro a b hb
  obtain ⟨m, hm, hb⟩ := exists_of_bind hb
  obtain ⟨n, hn, hb⟩ := exists_of_bind hb
  obtain ⟨l, hl, hb⟩ := exists_of_bind hb
  cases hb
  have htest := hcondition _ m hm
  have hfirst := hyes _ n hn
  have hsecond := hno _ l hl
  simp [hp, Opcode.isTail] at htest hfirst hsecond ⊢
  omega

end Emitter

namespace Analysis

/-- What executes the optional part of this occurrence, if it has one and an instruction is laid out
for it. -/
def tail? (a : Analysis) (x : Node) : Option Opcode :=
  match x.kind with
  | .charLoop _ min max isLazy =>
      if min < max then LayoutContext.tailOpcode isLazy (a.isAtomicByAncestor x.id) else none
  | _ => none

/-- At this occurrence the layout leaves counts to go back to. -/
def leavesTail (a : Analysis) (x : Node) : Bool :=
  x.kind.hasTail && !a.isAtomicByAncestor x.id

theorem any_tail? (a : Analysis) (x : Node) : (a.tail? x).any (·.isOpenTail) = a.leavesTail x := by
  rw [tail?, leavesTail]
  cases x.kind with
  | charLoop atom min max isLazy =>
    rw [Kind.hasTail]
    by_cases hlt : min < max
    · simp only [if_pos hlt, decide_eq_true hlt, Bool.true_and]
      cases isLazy <;> cases a.isAtomicByAncestor x.id <;> rfl
    · simp only [if_neg hlt, decide_eq_false hlt, Bool.false_and]
      rfl
  | _ => rfl

end Analysis

namespace LayoutContext

variable (ctx : LayoutContext) {p : Opcode → Bool}

theorem tally_test (ignoreCase : Bool) (atom : Atom) (a : Assembly) :
    (ctx.test ignoreCase atom a).2.tally p = a.tally p := by
  cases atom <;> rfl

variable (hp : ∀ opcode : Opcode, ¬ opcode.isTail → ¬ p opcode)

include hp

theorem adds_charLoop (id : Nat) (options : Options) (atom : Atom) (min max : Nat) (isLazy : Bool) :
    Emitter.Adds p
      (if (ctx.analysis.tail? (.node id options (.charLoop atom min max isLazy) [])).any p then 1 else 0)
      (ctx.charLoop id options atom min max isLazy) := by
  intro a b hb
  have hmin : (if 0 < min then (ctx.test options.ignoreCase atom a).2.emit
      (consuming options .charRep (.atomCount (ctx.test options.ignoreCase atom a).1 min))
      else (ctx.test options.ignoreCase atom a).2).tally p = a.tally p := by
    split
    · rw [Assembly.tally_emit_of_not _ (hp .charRep Bool.false_ne_true), tally_test]
    · exact tally_test ctx _ _ a
  rw [charLoop] at hb
  dsimp only at hb
  rw [Analysis.tail?, Node.kind, Node.id]
  by_cases hlt : min < max
  · rw [if_pos hlt] at hb
    simp only [if_pos hlt]
    cases htail : tailOpcode isLazy (ctx.analysis.isAtomicByAncestor id) with
    | none =>
      rw [htail] at hb
      cases hb
      exact hmin
    | some opcode =>
      rw [htail] at hb
      cases hb
      rw [Assembly.tally_emit, hmin]
      rfl
  · rw [if_neg hlt] at hb
    simp only [if_neg hlt]
    cases hb
    exact hmin

theorem adds_leaf (id : Nat) (options : Options) (kind : Kind) :
    Emitter.Adds p (if (ctx.analysis.tail? (.node id options kind [])).any p then 1 else 0)
      (ctx.leaf id options kind) := by
  intro a b hb
  cases kind with
  | empty =>
    cases hb
    rfl
  | nothing | multi _ | backreference _ =>
    cases hb
    exact a.tally_emit_of_not (hp _ Bool.false_ne_true)
  | anchor anchor =>
    cases hb
    cases anchor <;> exact a.tally_emit_of_not (hp _ Bool.false_ne_true)
  | char atom =>
    simp only [leaf, Except.ok.injEq] at hb
    rw [← hb, Assembly.tally_emit_of_not _ (hp .char Bool.false_ne_true), tally_test]
    rfl
  | charLoop atom min max isLazy =>
    exact ctx.adds_charLoop hp id options atom min max isLazy a b hb
  | _ => cases hb

theorem adds_construct (id : Nat) (options : Options) (kind : Kind) (children : List Node)
    {ks : List Nat} {parts : List Emitter} (hparts : List.Forall₂ (Emitter.Adds p) ks parts) :
    Emitter.Adds p ks.sum (ctx.construct id options kind children parts) := by
  intro a b hb
  unfold construct at hb
  split at hb
  case h_1 =>
    split at hb
    · exact Emitter.adds_sequence hparts a b hb
    · rw [← List.sum_reverse]
      exact Emitter.adds_sequence (List.rel_reverse hparts) a b hb
  case h_2 => exact Emitter.adds_choice hp hparts a b hb
  case h_3 =>
    rcases hparts with _ | ⟨hbody, _ | _⟩
    exact Emitter.adds_loop hp hbody _ _ _ a b hb
  case h_4 =>
    rcases hparts with _ | ⟨hbody, _ | _⟩
    exact Emitter.adds_capture hp hbody _ _ a b hb
  case h_5 =>
    rcases hparts with _ | ⟨hbody, _ | _⟩
    exact Emitter.adds_atomic hp hbody _ a b hb
  case h_6 =>
    rcases hparts with _ | ⟨hbody, _ | _⟩
    exact Emitter.adds_positiveLook hp hbody a b hb
  case h_7 =>
    rcases hparts with _ | ⟨hbody, _ | _⟩
    exact Emitter.adds_negativeLook hp hbody a b hb
  case h_8 =>
    rcases hparts with _ | ⟨hyes, _ | _⟩
    exact Emitter.adds_backreferenceConditional hp _ hyes Emitter.adds_nothing a b hb
  case h_9 =>
    rcases hparts with _ | ⟨hyes, _ | ⟨hno, _ | _⟩⟩
    exact Emitter.adds_backreferenceConditional hp _ hyes hno a b hb
  case h_10 =>
    rcases hparts with _ | ⟨hcondition, _ | ⟨hyes, _ | _⟩⟩
    exact Emitter.adds_expressionConditional hp hcondition hyes Emitter.adds_nothing a b hb
  case h_11 =>
    rcases hparts with _ | ⟨hcondition, _ | ⟨hyes, _ | ⟨hno, _ | _⟩⟩⟩
    exact Emitter.adds_expressionConditional hp hcondition hyes hno a b hb
  case h_12 => cases hb

/-- An instruction for an optional part is written for every occurrence that it is laid out for, and
nowhere else. -/
theorem adds_node (n : Node) :
    Emitter.Adds p (n.preorder.countP fun x => (ctx.analysis.tail? x).any p) (ctx.emitNode n) := by
  induction n using Node.induction with
  | step id options kind children ih =>
    cases children with
    | nil =>
      rw [Node.preorder_node, List.flatMap_nil, List.countP_singleton]
      exact ctx.adds_leaf hp id options kind
    | cons child rest =>
      intro a b hb
      have hself : (ctx.analysis.tail? (.node id options kind (child :: rest))).any p = false := by
        cases kind with
        | charLoop _ _ _ _ => cases hb
        | _ => rfl
      rw [Node.preorder_node, List.countP_cons_of_neg (p := fun x => (ctx.analysis.tail? x).any p)
        (Bool.eq_false_iff.1 hself), List.countP_flatMap]
      refine ctx.adds_construct hp id options kind (child :: rest) ?_ a b hb
      rw [emitters_eq_map, List.forall₂_map_left_iff, List.forall₂_map_right_iff, List.forall₂_same]
      exact ih

end LayoutContext

namespace Program

variable {t : Tree} {culture : Culture} {config : CompileConfig} {program : Program}

/-- A compiled program has as many instructions for optional parts of a kind as there are occurrences
that they are laid out for. -/
theorem countP_tails_of_compile {p : Opcode → Bool}
    (hp : ∀ opcode : Opcode, ¬ opcode.isTail → ¬ p opcode)
    (h : compile t culture config = .ok program) :
    (program.instructions.map (·.opcode)).countP p = t.root.preorder.countP fun x =>
      ((Analysis.ofTree t config.analysisDepthLimit).tail? x).any p := by
  rw [compile_eq] at h
  dsimp only at h
  split at h
  · cases h
  obtain ⟨a, ha, h⟩ := exists_of_bind h
  cases h
  obtain ⟨m, hm, ha⟩ := exists_of_bind ha
  cases ha
  have hadds := LayoutContext.adds_node _ hp t.root _ m hm
  rw [Assembly.tally_jumpAhead] at hadds
  change ((m.land _).op .stop).tally p = _
  rw [Assembly.tally_op, Assembly.tally_land, hadds]
  have hempty : Assembly.tally p {} = 0 := by simp [Assembly.tally]
  simp [hempty, hp, Opcode.isTail]

/-- So many instructions of a compiled program leave counts to go back to. -/
theorem countP_of_compile (h : compile t culture config = .ok program) :
    (program.instructions.map (·.opcode)).countP (·.isOpenTail) =
      t.root.preorder.countP (Analysis.ofTree t config.analysisDepthLimit).leavesTail := by
  rw [countP_tails_of_compile (fun _ => Opcode.not_isOpenTail) h]
  simp only [Analysis.any_tail?]

end Program

end RegexMachine
