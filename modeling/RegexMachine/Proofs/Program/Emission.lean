import Mathlib.Data.List.Forall2
import RegexMachine.Proofs.Program.Block
import RegexMachine.Proofs.Tree.Occurrences

/-!
# What the layout puts into a program

An emitter keeps what was written before it, and a program that has what it wrote has the block of
its part. Jumps that are filled in later are read backward: the program has the final instruction,
and the emission before the landing is known everywhere else.
-/

namespace RegexMachine

namespace Assembly

/-- What stands in `a` still stands in `b`. -/
structure Extends (a b : Assembly) : Prop where
  here_le : a.here ≤ b.here
  code : ∀ i : Nat, i < a.here → b.instructions[i]? = a.instructions[i]?
  classes : ∀ (i : Nat) (k : CharClass), a.classes[i]? = some k → b.classes[i]? = some k

theorem Extends.refl (a : Assembly) : Extends a a :=
  ⟨Nat.le_refl _, fun _ _ => rfl, fun _ _ h => h⟩

theorem Extends.trans {a b c : Assembly} (h : Extends a b) (h' : Extends b c) : Extends a c where
  here_le := Nat.le_trans h.here_le h'.here_le
  code i hi := (h'.code i (Nat.lt_of_lt_of_le hi h.here_le)).trans (h.code i hi)
  classes i k hk := h'.classes i k (h.classes i k hk)

@[simp, grind =] theorem here_emit (a : Assembly) (i : Instruction) : (a.emit i).here = a.here + 1 := by
  simp [here, emit]

@[simp, grind =] theorem here_op (a : Assembly) (opcode : Opcode) : (a.op opcode).here = a.here + 1 :=
  here_emit _ _

@[simp, grind =] theorem here_jumpAhead (a : Assembly) (opcode : Opcode) :
    (a.jumpAhead opcode).here = a.here + 1 := here_emit _ _

@[simp, grind =] theorem here_land (a : Assembly) (address : Nat) : (a.land address).here = a.here := by
  simp [here, land, patch]

theorem Extends.emit {a b : Assembly} (h : Extends a b) (i : Instruction) :
    Extends a (b.emit i) := by
  refine ⟨Nat.le_trans h.here_le (by simp), fun j hj => ?_, h.classes⟩
  have hlt : j < b.instructions.size := Nat.lt_of_lt_of_le hj h.here_le
  rw [Assembly.emit, Array.getElem?_push_lt hlt, ← Array.getElem?_eq_getElem hlt, h.code j hj]

theorem Extends.op {a b : Assembly} (h : Extends a b) (opcode : Opcode) :
    Extends a (b.op opcode) := h.emit _

theorem Extends.jumpAhead {a b : Assembly} (h : Extends a b) (opcode : Opcode) :
    Extends a (b.jumpAhead opcode) := h.emit _

theorem Extends.land {a b : Assembly} (h : Extends a b) {x : Nat} (hle : a.here ≤ x) :
    Extends a (b.land x) := by
  refine ⟨by simpa using h.here_le, fun j hj => ?_, h.classes⟩
  have hne : ¬ x = j := by omega
  rw [Assembly.land, Assembly.patch, Array.getElem?_modify, if_neg hne, h.code j hj]

theorem Extends.at_jump {a b : Assembly} {opcode : Opcode} (h : (a.jumpAhead opcode).Extends b) :
    b.instructions[a.here]? = some (Block.jumping opcode 0) := by
  rw [h.code a.here (by simp), Assembly.jumpAhead, Assembly.jump, Assembly.emit, Assembly.here,
    Array.getElem?_push_size]
  rfl

theorem getElem?_land {a : Assembly} {address i : Nat} (hne : i ≠ address) :
    (a.land address).instructions[i]? = a.instructions[i]? := by
  rw [land, patch, Array.getElem?_modify, if_neg fun h => hne h.symm]

theorem Extends.addClass {a b : Assembly} (h : Extends a b) (k : CharClass) :
    Extends a (b.addClass k) := by
  refine ⟨h.here_le, h.code, fun i k' hk => ?_⟩
  have hi : i < b.classes.size := (Array.getElem?_eq_some_iff.1 (h.classes i k' hk)).1
  rw [Assembly.addClass, Array.getElem?_push_lt hi, ← Array.getElem?_eq_getElem hi]
  exact h.classes i k' hk

end Assembly

namespace Program

/-- The program has the classes of `b` and, at the addresses in `S`, its instructions. -/
structure Has (program : Program) (S : Nat → Prop) (b : Assembly) : Prop where
  code : ∀ i : Nat, i < b.here → S i → program.instructions[i]? = b.instructions[i]?
  classes : ∀ (i : Nat) (k : CharClass), b.classes[i]? = some k → program.classes[i]? = some k

variable {program : Program} {S : Nat → Prop} {a b : Assembly}

theorem Has.mono {S' : Nat → Prop} (h : program.Has S b) (hS : ∀ i, i < b.here → S' i → S i) :
    program.Has S' b :=
  ⟨fun i hi hs => h.code i hi (hS i hi hs), h.classes⟩

theorem Has.of_extends (h : program.Has S b) (hab : a.Extends b) : program.Has S a :=
  ⟨fun i hi hs => (h.code i (Nat.lt_of_lt_of_le hi hab.here_le) hs).trans (hab.code i hi),
    fun i k hk => h.classes i k (hab.classes i k hk)⟩

theorem Has.of_emit {i : Instruction} (h : program.Has S (a.emit i)) : program.Has S a :=
  h.of_extends ((Assembly.Extends.refl a).emit i)

theorem Has.at_emit {i : Instruction} (h : program.Has S (a.emit i)) (hs : S a.here) :
    program.instructions[a.here]? = some i := by
  rw [h.code a.here (by simp) hs, Assembly.emit, Assembly.here, Array.getElem?_push_size]

theorem Has.of_land {address : Nat} (h : program.Has S (a.land address)) :
    program.Has (fun i => S i ∧ i ≠ address) a := by
  refine ⟨fun i hi hs => ?_, h.classes⟩
  have hne : ¬ address = i := fun he => hs.2 he.symm
  rw [h.code i (by simpa using hi) hs.1, Assembly.land, Assembly.patch, Array.getElem?_modify, if_neg hne]

theorem Has.at_jump {address : Nat} {opcode : Opcode} (h : program.Has S (b.land address))
    (hat : b.instructions[address]? = some (Block.jumping opcode 0)) (hs : S address) :
    program.instructions[address]? = some (Block.jumping opcode b.here) := by
  have hlt : address < b.here := (Array.getElem?_eq_some_iff.1 hat).1
  rw [h.code address (by simpa using hlt) hs, Assembly.land, Assembly.patch, Array.getElem?_modify, if_pos rfl, hat]
  rfl

end Program

/-- The emitter keeps what was written before it and writes the block. -/
def Emitter.Writes (program : Program) (e : Emitter) (B : Block) : Prop :=
  ∀ a b, e a = .ok b → a.Extends b ∧ (program.Has (a.here ≤ ·) b → B a.here b.here)

namespace Emitter

variable {program : Program}

theorem writes_nothing : Writes program .ok Block.nothing := by
  intro a b h
  cases h
  exact ⟨.refl a, fun _ => rfl⟩

theorem writes_emit (i : Instruction) :
    Writes program (fun a => .ok (a.emit i)) (Block.one program.instructions i) := by
  intro a b h
  cases h
  exact ⟨(Assembly.Extends.refl a).emit i, fun hp => ⟨hp.at_emit (Nat.le_refl _), by simp⟩⟩

theorem writes_sequence {es : List Emitter} {Bs : List Block}
    (h : List.Forall₂ (Writes program) es Bs) :
    Writes program (sequence es) (Block.sequence Bs) := by
  induction h with
  | nil => exact writes_nothing
  | @cons e B es Bs he _ ih =>
    intro a b hab
    obtain ⟨m, hm, hmb⟩ := exists_of_bind hab
    obtain ⟨ham, hB⟩ := he a m hm
    obtain ⟨hmb', hBs⟩ := ih m b hmb
    refine ⟨ham.trans hmb', fun hp => ⟨m.here, hB (hp.of_extends hmb'), hBs (hp.mono ?_)⟩⟩
    intro i _ hi
    exact Nat.le_trans ham.here_le hi

theorem writes_choice {es : List Emitter} {Bs : List Block}
    (h : List.Forall₂ (Writes program) es Bs) :
    Writes program (choice es) (Block.choice program.instructions Bs) := by
  induction h with
  | nil => exact writes_nothing
  | @cons e B es Bs he hes ih =>
    cases hes with
    | nil => exact he
    | cons he' hes' =>
      intro a b hab
      obtain ⟨m, hm, hmb⟩ := exists_of_bind hab
      obtain ⟨n, hn, hnb⟩ := exists_of_bind hmb
      cases hnb
      obtain ⟨ham, hB⟩ := he _ m hm
      obtain ⟨hmn, hBs⟩ := ih _ n hn
      have hbranch : a.here + 1 ≤ m.here := by
        have h := ham.here_le
        grind
      have hexit : m.here + 1 ≤ n.here := by
        have h := hmn.here_le
        grind
      refine ⟨?_, fun hp => ⟨m.here, ?_, ?_, ?_, ?_⟩⟩
      · refine (Assembly.Extends.trans (b := (m.jumpAhead .goto).land a.here) ?_ hmn).land ?_
        · have ha := ((Assembly.Extends.refl a).jumpAhead .lazybranch).trans ham
          exact (ha.jumpAhead .goto).land (Nat.le_refl _)
        · omega
      · have h := (hp.of_land.of_extends hmn).at_jump (ham.jumpAhead .goto).at_jump
          ⟨Nat.le_refl _, by omega⟩
        simpa using h
      · have h := hB ((hp.of_land.of_extends hmn).of_land.of_emit.mono fun i hi hle => by
          simp only [Assembly.here_jumpAhead] at hle
          exact ⟨⟨by omega, by omega⟩, by omega⟩)
        simpa using h
      · have hgoto : n.instructions[m.here]? = some (Block.jumping .goto 0) := by
          rw [hmn.code _ (by simp), Assembly.getElem?_land (by omega)]
          exact (Assembly.Extends.refl _).at_jump
        simpa using hp.at_jump hgoto (by omega)
      · have h := hBs (hp.of_land.mono fun i hi hle => by
          simp only [Assembly.here_land, Assembly.here_jumpAhead] at hle
          exact ⟨by omega, by omega⟩)
        simpa using h

theorem writes_loop (min max : Nat) (isLazy : Bool) {e : Emitter} {B : Block}
    (he : Writes program e B) :
    Writes program (loop min max isLazy e) (Block.loop program.instructions min max isLazy B) := by
  intro a b hab
  by_cases hmin : min = 0
  · simp only [loop, hmin, if_true] at hab
    obtain ⟨m, hm, hmb⟩ := exists_of_bind hab
    cases hmb
    obtain ⟨ham, hB⟩ := he _ m hm
    have hle : a.here + 2 ≤ m.here := by
      have h := ham.here_le
      grind
    refine ⟨?_, fun hp => ⟨m.here, ?_, fun _ => ?_, ?_, ?_, by simp⟩⟩
    · exact (((((Assembly.Extends.refl a).emit _).jumpAhead .goto).trans ham).land
        (by simp)).emit _
    · have h := (hp.of_emit.of_land.of_extends ham).of_emit.at_emit ⟨Nat.le_refl _, by simp⟩
      rw [h, hmin]
    · have h := hp.of_emit.at_jump ham.at_jump (by simp)
      simpa using h
    · have h := hB (hp.of_emit.of_land.mono fun i _ hle => by
        simp only [Assembly.here_jumpAhead, Assembly.here_emit] at hle
        exact ⟨by omega, by grind⟩)
      simpa [Block.loopStart, hmin] using h
    · have h := hp.at_emit (by grind)
      simpa [Block.loopStart, hmin] using h
  · simp only [loop, hmin, if_false] at hab
    obtain ⟨m, hm, hmb⟩ := exists_of_bind hab
    cases hmb
    obtain ⟨ham, hB⟩ := he _ m hm
    have hle : a.here + 1 ≤ m.here := by
      have h := ham.here_le
      grind
    refine ⟨?_, fun hp => ⟨m.here, ?_, fun h => absurd h hmin, ?_, ?_, by simp⟩⟩
    · exact (((Assembly.Extends.refl a).emit _).trans ham).emit _
    · exact (hp.of_emit.of_extends ham).at_emit (Nat.le_refl _)
    · have h := hB (hp.of_emit.mono fun i _ hle => by
        simp only [Assembly.here_emit] at hle
        omega)
      simpa [Block.loopStart, hmin] using h
    · have h := hp.at_emit (by omega)
      simpa [Block.loopStart, hmin] using h

theorem writes_capture (group uncapture : Option Nat) {e : Emitter} {B : Block}
    (he : Writes program e B) :
    Writes program (capture group uncapture e)
      (Block.capture program.instructions group uncapture B) := by
  intro a b hab
  obtain ⟨m, hm, hmb⟩ := exists_of_bind hab
  cases hmb
  obtain ⟨ham, hB⟩ := he _ m hm
  have hle : a.here + 1 ≤ m.here := by
    have h := ham.here_le
    grind
  refine ⟨(((Assembly.Extends.refl a).op .setmark).trans ham).emit _, fun hp =>
    ⟨m.here, ?_, ?_, hp.at_emit (by omega), by simp⟩⟩
  · exact (hp.of_emit.of_extends ham).at_emit (Nat.le_refl _)
  · have h := hB (hp.of_emit.mono fun i _ hle => by
      simp only [Assembly.here_op] at hle
      omega)
    simpa using h

theorem writes_atomic (needsFrame : Bool) {e : Emitter} {B : Block} (he : Writes program e B) :
    Writes program (atomic needsFrame e) (Block.atomic program.instructions needsFrame B) := by
  intro a b hab
  cases needsFrame with
  | false => exact he a b hab
  | true =>
    obtain ⟨m, hm, hmb⟩ := exists_of_bind hab
    cases hmb
    obtain ⟨ham, hB⟩ := he _ m hm
    have hle : a.here + 1 ≤ m.here := by
      have h := ham.here_le
      grind
    refine ⟨(((Assembly.Extends.refl a).op .setjump).trans ham).op _, fun hp =>
      ⟨m.here, ?_, ?_, hp.at_emit (by omega), by simp⟩⟩
    · exact (hp.of_emit.of_extends ham).at_emit (Nat.le_refl _)
    · have h := hB (hp.of_emit.mono fun i _ hle => by
        simp only [Assembly.here_op] at hle
        omega)
      simpa using h

theorem writes_positiveLook {e : Emitter} {B : Block} (he : Writes program e B) :
    Writes program (positiveLook e) (Block.positiveLook program.instructions B) := by
  intro a b hab
  obtain ⟨m, hm, hmb⟩ := exists_of_bind hab
  cases hmb
  obtain ⟨ham, hB⟩ := he _ m hm
  have hle : a.here + 2 ≤ m.here := by
    have h := ham.here_le
    grind
  refine ⟨((((Assembly.Extends.refl a).op .setjump).op .setmark).trans ham).op _ |>.op _,
    fun hp => ⟨m.here, ?_, ?_, ?_, ?_, ?_, by simp⟩⟩
  · exact (hp.of_emit.of_emit.of_extends ham).of_emit.at_emit (Nat.le_refl _)
  · simpa using (hp.of_emit.of_emit.of_extends ham).at_emit (by simp)
  · have h := hB (hp.of_emit.of_emit.mono fun i _ hle => by
      simp only [Assembly.here_op] at hle
      omega)
    simpa using h
  · exact hp.of_emit.at_emit (by omega)
  · simpa using hp.at_emit (by grind)

theorem writes_negativeLook {e : Emitter} {B : Block} (he : Writes program e B) :
    Writes program (negativeLook e) (Block.negativeLook program.instructions B) := by
  intro a b hab
  obtain ⟨m, hm, hmb⟩ := exists_of_bind hab
  cases hmb
  obtain ⟨ham, hB⟩ := he _ m hm
  have hle : a.here + 2 ≤ m.here := by
    have h := ham.here_le
    grind
  refine ⟨?_, fun hp => ⟨m.here, ?_, ?_, ?_, ?_, ?_, by simp⟩⟩
  · exact (((((Assembly.Extends.refl a).op .setjump).jumpAhead .lazybranch).trans ham).op
      _ |>.land (by simp)).op _
  · exact (hp.of_emit.of_land.of_emit.of_extends ham).of_emit.at_emit
      ⟨Nat.le_refl _, by simp⟩
  · have h := hp.of_emit.at_jump (ham.op .backjump).at_jump (by simp)
    simpa using h
  · have h := hB (hp.of_emit.of_land.of_emit.mono fun i _ hle => by
      simp only [Assembly.here_jumpAhead, Assembly.here_op] at hle
      exact ⟨by omega, by grind⟩)
    simpa using h
  · exact hp.of_emit.of_land.at_emit ⟨by omega, by grind⟩
  · simpa using hp.at_emit (by grind)

theorem writes_backreferenceConditional (group : Nat) {yes no : Emitter} {Y N : Block}
    (hyes : Writes program yes Y) (hno : Writes program no N) :
    Writes program (backreferenceConditional group yes no)
      (Block.backreferenceConditional program.instructions group Y N) := by
  intro a b hab
  obtain ⟨m, hm, hmb⟩ := exists_of_bind hab
  obtain ⟨n, hn, hnb⟩ := exists_of_bind hmb
  cases hnb
  obtain ⟨ham, hY⟩ := hyes _ m hm
  obtain ⟨hmn, hN⟩ := hno _ n hn
  have hle : a.here + 4 ≤ m.here := by
    have h := ham.here_le
    grind
  have hle' : m.here + 2 ≤ n.here := by
    have h := hmn.here_le
    grind
  have hgoto : n.instructions[m.here]? = some (Block.jumping .goto 0) := by
    rw [hmn.code _ (by grind), Assembly.op,
      ((Assembly.Extends.refl _).emit _).code _ (by simp), Assembly.getElem?_land (by grind)]
    exact (Assembly.Extends.refl _).at_jump
  refine ⟨?_, fun hp => ⟨m.here, ?_, ?_, ?_, ?_, ?_, ?_, ?_, ?_⟩⟩
  · refine (Assembly.Extends.trans
      (b := (((m.jumpAhead .goto).land (a.here + 1)).op .forejump)) ?_ (by simpa using hmn)).land
        (by omega)
    exact ((((((Assembly.Extends.refl a).op .setjump).jumpAhead .lazybranch).emit _).op
      .forejump |>.trans ham).jumpAhead .goto |>.land (by omega)).op _
  · exact ((hp.of_land.of_extends hmn).of_emit.of_land.of_emit.of_extends
      ham).of_emit.of_emit.of_emit.at_emit ⟨⟨Nat.le_refl _, by omega⟩, by simp⟩
  · have h := (hp.of_land.of_extends hmn).of_emit.at_jump
      ((((Assembly.Extends.refl ((a.op .setjump).jumpAhead .lazybranch)).emit _).op
        .forejump |>.trans ham).jumpAhead .goto).at_jump ⟨by simp, by grind⟩
    simpa using h
  · have h := ((hp.of_land.of_extends hmn).of_emit.of_land.of_emit.of_extends
      ham).of_emit.at_emit ⟨⟨by grind, by grind⟩, by simp⟩
    simpa using h
  · have h := ((hp.of_land.of_extends hmn).of_emit.of_land.of_emit.of_extends
      ham).at_emit ⟨⟨by grind, by grind⟩, by grind⟩
    simpa using h
  · have h := hY ((hp.of_land.of_extends hmn).of_emit.of_land.of_emit.mono fun i hi hle => by
      simp only [Assembly.here_jumpAhead, Assembly.here_op, Assembly.here_emit] at hle
      exact ⟨⟨by omega, by omega⟩, by grind⟩)
    simpa using h
  · simpa using hp.at_jump hgoto (by omega)
  · simpa using (hp.of_land.of_extends hmn).at_emit ⟨by grind, by simp⟩
  · have h := hN (hp.of_land.mono fun i hi hle => by
      simp only [Assembly.here_land, Assembly.here_jumpAhead, Assembly.here_op] at hle
      exact ⟨by omega, by omega⟩)
    simpa using h

theorem writes_expressionConditional {condition yes no : Emitter} {C Y N : Block}
    (hcondition : Writes program condition C) (hyes : Writes program yes Y)
    (hno : Writes program no N) :
    Writes program (expressionConditional condition yes no)
      (Block.expressionConditional program.instructions C Y N) := by
  intro a b hab
  obtain ⟨l, hl, hlb⟩ := exists_of_bind hab
  obtain ⟨m, hm, hmb⟩ := exists_of_bind hlb
  obtain ⟨n, hn, hnb⟩ := exists_of_bind hmb
  cases hnb
  obtain ⟨hal, hC⟩ := hcondition _ l hl
  obtain ⟨hlm, hY⟩ := hyes _ m hm
  obtain ⟨hmn, hN⟩ := hno _ n hn
  have hle : a.here + 3 ≤ l.here := by
    have h := hal.here_le
    grind
  have hle' : l.here + 2 ≤ m.here := by
    have h := hlm.here_le
    grind
  have hle'' : m.here + 3 ≤ n.here := by
    have h := hmn.here_le
    grind
  have hgoto : n.instructions[m.here]? = some (Block.jumping .goto 0) := by
    rw [hmn.code _ (by grind), Assembly.op, Assembly.op,
      (((Assembly.Extends.refl _).emit _).emit _).code _ (by simp),
      Assembly.getElem?_land (by grind)]
    exact (Assembly.Extends.refl _).at_jump
  refine ⟨?_, fun hp => ⟨l.here, m.here, ?_, ?_, ?_, ?_, ?_, ?_, ?_, ?_, ?_, ?_, ?_⟩⟩
  · have h := ((((((((Assembly.Extends.refl a).op .setjump).op .setmark).jumpAhead
      .lazybranch).trans hal).op .getmark).op .forejump).trans hlm).jumpAhead .goto
    refine Assembly.Extends.land (.trans (((h.land (x := a.here + 2) ?_).op .getmark).op
      .forejump) (by simpa using hmn)) (by omega)
    omega
  · exact (((hp.of_land.of_extends hmn).of_emit.of_emit.of_land.of_emit.of_extends
      hlm).of_emit.of_emit.of_extends hal).of_emit.of_emit.at_emit
        ⟨⟨Nat.le_refl _, by omega⟩, by grind⟩
  · have h := (((hp.of_land.of_extends hmn).of_emit.of_emit.of_land.of_emit.of_extends
      hlm).of_emit.of_emit.of_extends hal).of_emit.at_emit
        ⟨⟨by simp, by grind⟩, by simp⟩
    simpa using h
  · have h := (hp.of_land.of_extends hmn).of_emit.of_emit.at_jump
      ((((hal.op .getmark).op .forejump).trans hlm).jumpAhead .goto).at_jump
        ⟨by grind, by grind⟩
    simpa using h
  · have h := hC (((hp.of_land.of_extends hmn).of_emit.of_emit.of_land.of_emit.of_extends
      hlm).of_emit.of_emit.mono fun i hi hle => by
        simp only [Assembly.here_jumpAhead, Assembly.here_op] at hle
        exact ⟨⟨by omega, by omega⟩, by grind⟩)
    simpa using h
  · exact ((hp.of_land.of_extends hmn).of_emit.of_emit.of_land.of_emit.of_extends
      hlm).of_emit.at_emit ⟨⟨by omega, by omega⟩, by grind⟩
  · have h := ((hp.of_land.of_extends hmn).of_emit.of_emit.of_land.of_emit.of_extends
      hlm).at_emit ⟨⟨by grind, by grind⟩, by grind⟩
    simpa using h
  · have h := hY ((hp.of_land.of_extends hmn).of_emit.of_emit.of_land.of_emit.mono
      fun i hi hle => by
        simp only [Assembly.here_op] at hle
        exact ⟨⟨by omega, by omega⟩, by grind⟩)
    simpa using h
  · simpa using hp.at_jump hgoto (by omega)
  · simpa using (hp.of_land.of_extends hmn).of_emit.at_emit ⟨by grind, by simp⟩
  · simpa using (hp.of_land.of_extends hmn).at_emit ⟨by grind, by grind⟩
  · have h := hN (hp.of_land.mono fun i hi hle => by
      simp only [Assembly.here_land, Assembly.here_jumpAhead, Assembly.here_op] at hle
      exact ⟨by omega, by omega⟩)
    simpa using h

end Emitter

namespace LayoutContext

open Emitter

variable (ctx : LayoutContext) (program : Program)

/-- Writing a test may add a class, and a program that has it tests what was asked for. -/
theorem test_extends (ignoreCase : Bool) (atom : Atom) (a : Assembly) :
    a.Extends (ctx.test ignoreCase atom a).2 ∧
      (ctx.test ignoreCase atom a).2.here = a.here ∧
      ∀ S, program.Has S (ctx.test ignoreCase atom a).2 →
        ctx.Tests program ignoreCase atom (ctx.test ignoreCase atom a).1 := by
  cases atom with
  | one c => exact ⟨.refl a, rfl, fun _ _ => rfl⟩
  | notOne c => exact ⟨.refl a, rfl, fun _ _ => rfl⟩
  | set k =>
    refine ⟨(Assembly.Extends.refl a).addClass _, rfl, fun S hp => ⟨a.classes.size, rfl, ?_⟩⟩
    refine hp.classes _ _ ?_
    simp [test, Assembly.addClass]

theorem writes_char (options : Options) (atom : Atom) :
    Writes program (fun a => .ok ((ctx.test options.ignoreCase atom a).2.emit
        (consuming options .char (.atom (ctx.test options.ignoreCase atom a).1))))
      (fun first last => ∃ test, ctx.Tests program options.ignoreCase atom test ∧
        Block.one program.instructions (consuming options .char (.atom test)) first last) := by
  intro a b hab
  cases hab
  obtain ⟨hext, hhere, htest⟩ := ctx.test_extends program options.ignoreCase atom a
  refine ⟨hext.emit _, fun hp => ⟨_, htest _ hp.of_emit, ?_, by simp [hhere]⟩⟩
  have h := hp.at_emit (Nat.le_of_eq hhere.symm)
  rwa [hhere] at h

theorem writes_charTail (id : Nat) (options : Options) (test : CharTest) (min max : Nat)
    (isLazy : Bool) :
    Writes program
      (fun a =>
        if min < max then
          match tailOpcode isLazy (ctx.analysis.isAtomicByAncestor id) with
          | some opcode =>
              .ok (a.emit (consuming options opcode (.atomCount test (Emitter.extra min max))))
          | none => .ok a
        else .ok a)
      (fun first last =>
        match ctx.charTail id min max isLazy with
        | some opcode => Block.one program.instructions
            (consuming options opcode (.atomCount test (Emitter.extra min max))) first last
        | none => first = last) := by
  rw [charTail]
  by_cases hlt : min < max
  · simp only [if_pos hlt]
    cases tailOpcode isLazy (ctx.analysis.isAtomicByAncestor id) with
    | none => exact writes_nothing
    | some opcode => exact writes_emit _
  · simp only [if_neg hlt]
    exact writes_nothing

theorem writes_charLoop (id : Nat) (options : Options) (atom : Atom) (min max : Nat)
    (isLazy : Bool) :
    Writes program (ctx.charLoop id options atom min max isLazy)
      (ctx.charLoopBlock program id options atom min max isLazy) := by
  intro a b hab
  obtain ⟨hext, hhere, htest⟩ := ctx.test_extends program options.ignoreCase atom a
  simp only [charLoop] at hab
  generalize ctx.test options.ignoreCase atom a = r at hab hext hhere htest
  obtain ⟨test, a'⟩ := r
  by_cases hmin : 0 < min
  · simp only [if_pos hmin] at hab
    obtain ⟨hmb, hblock⟩ := ctx.writes_charTail program id options test min max isLazy
      _ b hab
    refine ⟨(hext.emit _).trans hmb, fun hp => ⟨test, a.here + 1, ?_, ?_, ?_⟩⟩
    · exact htest _ (hp.of_extends hmb).of_emit
    · rw [if_pos hmin]
      have h := (hp.of_extends hmb).at_emit (Nat.le_of_eq hhere.symm)
      rw [hhere] at h
      exact ⟨h, rfl⟩
    · have h := hblock (hp.mono fun i _ hle => by
        simp only [Assembly.here_emit, hhere] at hle
        omega)
      rwa [Assembly.here_emit, hhere] at h
  · simp only [if_neg hmin] at hab
    obtain ⟨hmb, hblock⟩ := ctx.writes_charTail program id options test min max isLazy
      _ b hab
    refine ⟨hext.trans hmb, fun hp => ⟨test, a.here, htest _ (hp.of_extends hmb), ?_, ?_⟩⟩
    · rw [if_neg hmin]
    · have h := hblock (hp.mono fun i _ hle => by rwa [hhere] at hle)
      rwa [hhere] at h

theorem writes_leaf (id : Nat) (options : Options) (kind : Kind) :
    Writes program (ctx.leaf id options kind) (ctx.blockOf program id options kind [] []) := by
  cases kind with
  | empty => exact writes_nothing
  | nothing => exact writes_emit _
  | char atom => exact ctx.writes_char program options atom
  | multi chars =>
    have hleaf : ctx.leaf id options (.multi chars) = fun a => .ok (a.emit (consuming options .multi
        (.multi (chars.map fun c => if options.ignoreCase then ctx.culture.fold c else c)))) := by
      funext a
      cases hi : options.ignoreCase <;> simp [leaf, hi]
    rw [hleaf]
    exact writes_emit _
  | charLoop atom min max isLazy => exact ctx.writes_charLoop program id options atom min max isLazy
  | backreference group => exact writes_emit _
  | anchor anchor => exact writes_emit _
  | _ =>
    intro a b hab
    cases hab

theorem writes_construct (id : Nat) (options : Options) (kind : Kind) (child : Node)
    (rest : List Node) {es : List Emitter} {Bs : List Block}
    (h : List.Forall₂ (Writes program) es Bs) (hlen : es.length = rest.length + 1) :
    Writes program (ctx.construct id options kind (child :: rest) es)
      (ctx.blockOf program id options kind (child :: rest) Bs) := by
  have hno : ∀ {e : Emitter} {B : Block}, (∀ a b, e a ≠ .ok b) → Writes program e B :=
    fun hne a b hab => absurd hab (hne a b)
  cases kind with
  | concat =>
    cases hd : options.direction with
    | forward =>
      have he : ctx.construct id options .concat (child :: rest) es = sequence es := by
        funext a
        simp [construct, hd]
      simpa [he, blockOf, hd] using writes_sequence h
    | backward =>
      have he : ctx.construct id options .concat (child :: rest) es = sequence es.reverse := by
        funext a
        simp [construct, hd]
      simpa [he, blockOf, hd] using writes_sequence (List.rel_reverse h)
  | alternate => exact writes_choice h
  | loop min max isLazy =>
    rcases h with _ | ⟨he, _ | ⟨-, -⟩⟩
    · cases hlen
    · exact writes_loop min max isLazy he
    · exact hno fun a b => by simp [construct]
  | capture group uncapture =>
    rcases h with _ | ⟨he, _ | ⟨-, -⟩⟩
    · cases hlen
    · exact writes_capture group uncapture he
    · exact hno fun a b => by simp [construct]
  | atomic =>
    rcases h with _ | ⟨he, _ | ⟨-, -⟩⟩
    · cases hlen
    · have hrest : rest = [] := List.eq_nil_of_length_eq_zero (by simpa using hlen.symm)
      subst hrest
      exact writes_atomic (ctx.needsFrame child) he
    · exact hno fun a b => by simp [construct]
  | positiveLook =>
    rcases h with _ | ⟨he, _ | ⟨-, -⟩⟩
    · cases hlen
    · exact writes_positiveLook he
    · exact hno fun a b => by simp [construct]
  | negativeLook =>
    rcases h with _ | ⟨he, _ | ⟨-, -⟩⟩
    · cases hlen
    · exact writes_negativeLook he
    · exact hno fun a b => by simp [construct]
  | backreferenceConditional group =>
    rcases h with _ | ⟨hyes, _ | ⟨hno', _ | ⟨-, -⟩⟩⟩
    · cases hlen
    · exact writes_backreferenceConditional group hyes writes_nothing
    · exact writes_backreferenceConditional group hyes hno'
    · exact hno fun a b => by simp [construct]
  | expressionConditional =>
    rcases h with _ | ⟨hcondition, _ | ⟨hyes, _ | ⟨hno', _ | ⟨-, -⟩⟩⟩⟩
    · cases hlen
    · exact hno fun a b => by simp [construct]
    · exact writes_expressionConditional hcondition hyes writes_nothing
    · exact writes_expressionConditional hcondition hyes hno'
    · exact hno fun a b => by simp [construct]
  | _ => exact hno fun a b => by simp [construct]

/-- The layout of a node writes the block of the node. -/
theorem writes_node (n : Node) : Writes program (ctx.emitNode n) (ctx.block program n) := by
  induction n using Node.induction with
  | step id options kind children ih =>
    rw [block_node]
    cases children with
    | nil => exact ctx.writes_leaf program id options kind
    | cons child rest =>
      have hparts : List.Forall₂ (Writes program) (ctx.emitters (child :: rest))
          ((child :: rest).map (ctx.block program)) := by
        rw [emitters_eq_map, List.forall₂_map_left_iff, List.forall₂_map_right_iff,
          List.forall₂_same]
        exact ih
      refine ctx.writes_construct program id options kind child rest hparts ?_
      rw [emitters_eq_map, List.length_map, List.length_cons]

end LayoutContext

end RegexMachine
