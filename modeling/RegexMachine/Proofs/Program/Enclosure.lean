import RegexMachine.Proofs.Program.Operands
import RegexMachine.Proofs.Tree.Construction

/-!
# Stretches of fit instructions

The block of a node is closed in itself: its instructions carry what their opcodes ask for, speak of
classes and groups that exist, and jump nowhere but inside the block or right behind it.
-/

namespace RegexMachine

/-- The class that a test asks for. -/
def CharTest.classIndex? : CharTest → Option Nat
  | .set index => some index
  | _ => none

namespace Payload

/-- The address that is jumped to. -/
def target? : Payload → Option Nat
  | .jump address | .countedJump address _ => some address
  | _ => Option.none

def classIndex? : Payload → Option Nat
  | .atom test | .atomCount test _ => test.classIndex?
  | _ => Option.none

/-- The groups that are captured, cancelled or asked for. -/
def groups : Payload → List Nat
  | .group number => [number]
  | .capture captured cancelled => captured.toList ++ cancelled.toList
  | _ => []

end Payload

namespace Program

/-- The instruction carries what its opcode asks for, and what it speaks of exists. -/
structure Fits (program : Program) (i : Instruction) : Prop where
  equipped : i.Equipped
  classes : ∀ index, i.payload.classIndex? = some index → index < program.classes.size
  groups : ∀ g ∈ i.payload.groups, g < program.groupCount

/-- From `start` up to `stop` stand instructions that are fit, jump nowhere but between `first` and
`last`, and do not stop. -/
structure Closed (program : Program) (first last start stop : Nat) : Prop where
  le : start ≤ stop
  holds : ∀ address, start ≤ address → address < stop →
    ∃ i, program.instructions[address]? = some i ∧ program.Fits i ∧ i.opcode ≠ .stop ∧
      ∀ target, i.payload.target? = some target → first ≤ target ∧ target ≤ last

variable {program : Program} {first last start middle stop : Nat}

namespace Closed

theorem nil : program.Closed first last start start :=
  ⟨Nat.le_refl _, fun _ hle hlt => absurd hlt (Nat.not_lt.2 hle)⟩

theorem append (h : program.Closed first last start middle)
    (h' : program.Closed first last middle stop) : program.Closed first last start stop := by
  refine ⟨Nat.le_trans h.le h'.le, fun address hle hlt => ?_⟩
  by_cases hmiddle : address < middle
  · exact h.holds address hle hmiddle
  · exact h'.holds address (Nat.le_of_not_lt hmiddle) hlt

theorem widen {first' last' : Nat} (h : program.Closed first last start stop)
    (hfirst : first' ≤ first) (hlast : last ≤ last') : program.Closed first' last' start stop := by
  refine ⟨h.le, fun address hle hlt => ?_⟩
  obtain ⟨i, hi, hfits, hstop, htarget⟩ := h.holds address hle hlt
  refine ⟨i, hi, hfits, hstop, fun target ht => ?_⟩
  obtain ⟨hle', hlt'⟩ := htarget target ht
  exact ⟨Nat.le_trans hfirst hle', Nat.le_trans hlt' hlast⟩

theorem one {i : Instruction} (hi : program.instructions[start]? = some i) (hfits : program.Fits i)
    (hstop : i.opcode ≠ .stop)
    (htarget : ∀ target, i.payload.target? = some target → first ≤ target ∧ target ≤ last) :
    program.Closed first last start (start + 1) := by
  refine ⟨Nat.le_succ _, fun address hle hlt => ?_⟩
  obtain rfl : address = start := by omega
  exact ⟨i, hi, hfits, hstop, htarget⟩

/-- An instruction without operands. -/
theorem op {opcode : Opcode} (hi : program.instructions[start]? = some { opcode })
    (hoperands : opcode.operands = []) (hstop : opcode ≠ .stop) :
    program.Closed first last start (start + 1) := by
  apply one hi ?_ hstop
  · intro target ht
    cases ht
  · exact ⟨hoperands.symm, nofun, nofun⟩

/-- A jump. -/
theorem jump {opcode : Opcode} {target : Nat}
    (hi : program.instructions[start]? = some (Block.jumping opcode target))
    (hoperands : opcode.operands = [.jump]) (hfirst : first ≤ target) (hlast : target ≤ last) :
    program.Closed first last start (start + 1) := by
  apply one hi
  · exact ⟨hoperands.symm, nofun, nofun⟩
  · intro hstop
    have h : opcode = .stop := hstop
    rw [h] at hoperands
    cases hoperands
  · rintro _ ⟨⟩
    exact ⟨hfirst, hlast⟩

end Closed

/-- Whatever stretch the block describes is closed in itself. -/
def Encloses (program : Program) (B : Block) : Prop :=
  ∀ first last, B first last → program.Closed first last first last

theorem encloses_nothing : program.Encloses Block.nothing := by
  rintro first _ rfl
  exact .nil

theorem encloses_sequence {Bs : List Block} (h : ∀ B ∈ Bs, program.Encloses B) :
    program.Encloses (Block.sequence Bs) := by
  induction Bs with
  | nil =>
    rintro first _ rfl
    exact .nil
  | cons B Bs ih =>
    rintro first last ⟨middle, hB, hBs⟩
    have hpart := h B List.mem_cons_self first middle hB
    have hrest := ih (fun B' hB' => h B' (List.mem_cons_of_mem _ hB')) middle last hBs
    exact (hpart.widen (Nat.le_refl _) hrest.le).append (hrest.widen hpart.le (Nat.le_refl _))

theorem encloses_choice {Bs : List Block} (h : ∀ B ∈ Bs, program.Encloses B) :
    program.Encloses (Block.choice program.instructions Bs) := by
  induction Bs with
  | nil =>
    rintro first _ rfl
    exact .nil
  | cons B Bs ih =>
    cases Bs with
    | nil => exact h B List.mem_cons_self
    | cons B' Bs =>
      rintro first last ⟨exit, hbranch, hB, hexit, hBs⟩
      have hpart := h B List.mem_cons_self (first + 1) exit hB
      have hrest := ih (fun C hC => h C (List.mem_cons_of_mem _ hC)) (exit + 1) last hBs
      have hle := hpart.le
      have hle' := hrest.le
      have h₁ : program.Closed first last first (first + 1) :=
        .jump hbranch rfl (by omega) (by omega)
      have h₂ : program.Closed first last exit (exit + 1) :=
        .jump hexit rfl (by omega) (Nat.le_refl _)
      exact ((h₁.append (hpart.widen (by omega) (by omega))).append h₂).append
        (hrest.widen (by omega) (Nat.le_refl _))

theorem closed_opener {min max : Nat}
    (hi : program.instructions[start]? = some (Emitter.loopOpener min max)) :
    program.Closed first last start (start + 1) := by
  have hfits : program.Fits (Emitter.loopOpener min max) := by
    unfold Emitter.loopOpener
    split
    · split
      · exact ⟨rfl, nofun, nofun⟩
      · exact ⟨rfl, nofun, nofun⟩
    · split
      · exact ⟨rfl, nofun, nofun⟩
      · exact ⟨rfl, nofun, nofun⟩
  have hno : (Emitter.loopOpener min max).opcode ≠ .stop ∧
      (Emitter.loopOpener min max).payload.target? = none := by
    unfold Emitter.loopOpener
    split <;> split <;> exact ⟨nofun, rfl⟩
  apply Closed.one hi hfits hno.1
  intro target ht
  rw [hno.2] at ht
  cases ht

/-- The instruction that closes a loop leads back to its body. -/
theorem closed_closer {min max : Nat} {isLazy : Bool} {body : Nat}
    (hi : program.instructions[start]? = some (Emitter.loopCloser min max isLazy body))
    (hfirst : first ≤ body) (hlast : body ≤ last) :
    program.Closed first last start (start + 1) := by
  have hpayload : (Emitter.loopCloser min max isLazy body).payload.target? = some body := by
    unfold Emitter.loopCloser
    split <;> rfl
  apply Closed.one hi
  · unfold Emitter.loopCloser
    split
    · cases isLazy <;>
        exact ⟨rfl, nofun, nofun⟩
    · cases isLazy <;>
        exact ⟨rfl, nofun, nofun⟩
  · unfold Emitter.loopCloser
    split <;> cases isLazy <;> nofun
  · intro target ht
    rw [hpayload] at ht
    cases ht
    exact ⟨hfirst, hlast⟩

variable {B : Block}

theorem encloses_loop (min max : Nat) (isLazy : Bool) (hB : program.Encloses B) :
    program.Encloses (Block.loop program.instructions min max isLazy B) := by
  rintro first _ ⟨closer, hopener, hskip, hbody, hcloser, rfl⟩
  have hclosed := hB _ closer hbody
  have hle := hclosed.le
  have hopen : program.Closed first (closer + 1) first (Block.loopStart min first) := by
    have hone : program.Closed first (closer + 1) first (first + 1) := closed_opener hopener
    by_cases hmin : min = 0
    · rw [Block.loopStart, if_pos hmin] at hle ⊢
      exact hone.append (.jump (hskip hmin) rfl (by omega) (Nat.le_succ _))
    · rw [Block.loopStart, if_neg hmin]
      exact hone
  exact (hopen.append (hclosed.widen hopen.le (Nat.le_succ _))).append
    (closed_closer hcloser hopen.le (Nat.le_succ_of_le hle))

theorem encloses_capture {group uncapture : Option Nat} (hB : program.Encloses B)
    (hgroups : ∀ g ∈ group.toList ++ uncapture.toList, g < program.groupCount) :
    program.Encloses (Block.capture program.instructions group uncapture B) := by
  rintro first _ ⟨closer, hopener, hbody, hcloser, rfl⟩
  have hclosed := hB _ closer hbody
  have hopen : program.Closed first (closer + 1) first (first + 1) := .op hopener rfl (by decide)
  have hclose : program.Closed first (closer + 1) closer (closer + 1) := by
    apply Closed.one hcloser ⟨rfl, nofun, hgroups⟩ nofun
    intro target ht
    cases ht
  exact (hopen.append (hclosed.widen hopen.le (Nat.le_succ _))).append hclose

theorem encloses_atomic (needsFrame : Bool) (hB : program.Encloses B) :
    program.Encloses (Block.atomic program.instructions needsFrame B) := by
  cases needsFrame with
  | false => exact hB
  | true =>
    rintro first _ ⟨closer, hopener, hbody, hcloser, rfl⟩
    have hclosed := hB _ closer hbody
    have hopen : program.Closed first (closer + 1) first (first + 1) := .op hopener rfl (by decide)
    exact (hopen.append (hclosed.widen hopen.le (Nat.le_succ _))).append
      (.op hcloser rfl (by decide))

theorem encloses_positiveLook (hB : program.Encloses B) :
    program.Encloses (Block.positiveLook program.instructions B) := by
  rintro first _ ⟨closer, hjump, hmark, hbody, hgetmark, hforejump, rfl⟩
  have hclosed := hB _ closer hbody
  have hopen : program.Closed first (closer + 2) first (first + 2) :=
    (Closed.op hjump rfl (by decide)).append (.op hmark rfl (by decide))
  exact ((hopen.append (hclosed.widen hopen.le (Nat.le_add_right _ _))).append
    (.op hgetmark rfl (by decide))).append (.op hforejump rfl (by decide))

theorem encloses_negativeLook (hB : program.Encloses B) :
    program.Encloses (Block.negativeLook program.instructions B) := by
  rintro first _ ⟨closer, hjump, hbranch, hbody, hbackjump, hforejump, rfl⟩
  have hclosed := hB _ closer hbody
  have hle := hclosed.le
  have hopen : program.Closed first (closer + 2) first (first + 2) :=
    (Closed.op hjump rfl (by decide)).append (.jump hbranch rfl (by omega) (by omega))
  exact ((hopen.append (hclosed.widen hopen.le (Nat.le_add_right _ _))).append
    (.op hbackjump rfl (by decide))).append (.op hforejump rfl (by decide))

theorem encloses_backreferenceConditional {group : Nat} {Y N : Block}
    (hgroup : group < program.groupCount) (hY : program.Encloses Y) (hN : program.Encloses N) :
    program.Encloses (Block.backreferenceConditional program.instructions group Y N) := by
  rintro first last ⟨exit, hjump, hbranch, htest, hforejump, hyes, hgoto, hforejump', hno⟩
  have hyes := hY _ exit hyes
  have hno := hN _ last hno
  have hle := hyes.le
  have hle' := hno.le
  have htested : program.Closed first last (first + 2) (first + 3) := by
    apply Closed.one htest ⟨rfl, nofun, ?_⟩ nofun
    · intro target ht
      cases ht
    · intro g hg
      rw [List.mem_singleton.1 hg]
      exact hgroup
  have hopen : program.Closed first last first (first + 4) :=
    (((Closed.op hjump rfl (by decide)).append
      (.jump hbranch rfl (by omega) (by omega))).append htested).append (.op hforejump rfl (by decide))
  have hexit : program.Closed first last exit (exit + 2) :=
    (Closed.jump hgoto rfl (by omega) (Nat.le_refl _)).append (.op hforejump' rfl (by decide))
  exact ((hopen.append (hyes.widen (by omega) (by omega))).append hexit).append
    (hno.widen (by omega) (Nat.le_refl _))

theorem encloses_expressionConditional {C Y N : Block} (hC : program.Encloses C)
    (hY : program.Encloses Y) (hN : program.Encloses N) :
    program.Encloses (Block.expressionConditional program.instructions C Y N) := by
  rintro first last ⟨closer, exit, hjump, hmark, hbranch, hcondition, hgetmark, hforejump, hyes,
    hgoto, hgetmark', hforejump', hno⟩
  have hcondition := hC _ closer hcondition
  have hyes := hY _ exit hyes
  have hno := hN _ last hno
  have hle := hcondition.le
  have hle' := hyes.le
  have hle'' := hno.le
  have hopen : program.Closed first last first (first + 3) :=
    ((Closed.op hjump rfl (by decide)).append (.op hmark rfl (by decide))).append
      (.jump hbranch rfl (by omega) (by omega))
  have hheld : program.Closed first last closer (closer + 2) :=
    (Closed.op hgetmark rfl (by decide)).append (.op hforejump rfl (by decide))
  have hexit : program.Closed first last exit (exit + 3) :=
    ((Closed.jump hgoto rfl (by omega) (Nat.le_refl _)).append
      (.op hgetmark' rfl (by decide))).append (.op hforejump' rfl (by decide))
  exact ((((hopen.append (hcondition.widen (by omega) (by omega))).append hheld).append
    (hyes.widen (by omega) (by omega))).append hexit).append (hno.widen (by omega) (Nat.le_refl _))

end Program

namespace LayoutContext

open Program

variable (ctx : LayoutContext) {program : Program}

theorem Tests.classIndex_lt {ctx : LayoutContext} {ignoreCase : Bool} {atom : Atom}
    {test : CharTest} (h : ctx.Tests program ignoreCase atom test) {index : Nat}
    (hindex : test.classIndex? = some index) : index < program.classes.size := by
  cases atom with
  | one c | notOne c =>
    rw [h] at hindex
    cases hindex
  | set k =>
    obtain ⟨index', rfl, hk⟩ := h
    cases hindex
    exact (Array.getElem?_eq_some_iff.1 hk).1

/-- An instruction that consumes text. -/
theorem encloses_consuming {options : Options} {opcode : Opcode} {payload : Payload}
    (hoperands : payload.operands = opcode.operands)
    (hclasses : ∀ index, payload.classIndex? = some index → index < program.classes.size)
    (hgroups : ∀ g ∈ payload.groups, g < program.groupCount) (hstop : opcode ≠ .stop)
    (htarget : payload.target? = none) :
    program.Encloses (Block.one program.instructions (consuming options opcode payload)) := by
  rintro first _ ⟨hi, rfl⟩
  apply Closed.one hi ⟨hoperands, hclasses, hgroups⟩ hstop
  intro target ht
  have hnone : payload.target? = some target := ht
  rw [htarget] at hnone
  cases hnone

theorem encloses_charLoopBlock (id : Nat) (options : Options) (atom : Atom) (min max : Nat)
    (isLazy : Bool) :
    program.Encloses (ctx.charLoopBlock program id options atom min max isLazy) := by
  rintro first last ⟨test, middle, htest, hrep, htail⟩
  have hpart : ∀ (opcode : Opcode) (count : Int), opcode.operands = [.atom, .count] →
      opcode ≠ .stop → program.Encloses (Block.one program.instructions
        (consuming options opcode (.atomCount test count))) := fun _ _ hoperands hstop =>
    encloses_consuming hoperands.symm (fun _ hindex => htest.classIndex_lt hindex) nofun hstop rfl
  have hfirst : program.Closed first middle first middle := by
    split at hrep
    · exact hpart .charRep min rfl nofun first middle hrep
    · rw [hrep]
      exact .nil
  have hlast : program.Closed middle last middle last := by
    split at htail
    · next opcode hopcode =>
      have htailed : opcode.operands = [.atom, .count] ∧ opcode ≠ .stop := by
        unfold charTail at hopcode
        split at hopcode
        · unfold tailOpcode at hopcode
          split at hopcode <;> cases hopcode <;> exact ⟨rfl, nofun⟩
        · cases hopcode
      exact hpart opcode _ htailed.1 htailed.2 middle last htail
    · rw [htail]
      exact .nil
  exact (hfirst.widen (Nat.le_refl _) hlast.le).append (hlast.widen hfirst.le (Nat.le_refl _))

theorem encloses_anchor (anchor : Anchor) : program.Encloses
    (Block.one program.instructions { opcode := anchorOpcode anchor }) := by
  rintro first _ ⟨hi, rfl⟩
  apply Closed.op hi
  · cases anchor <;> rfl
  · cases anchor <;> nofun

/-- The block of a node is closed in itself when those of its children are. -/
theorem encloses_blockOf (id : Nat) (options : Options) {kind : Kind} (children : List Node)
    {parts : List Block} (hgroups : ∀ g ∈ kind.groups, g < program.groupCount)
    (hparts : ∀ B ∈ parts, program.Encloses B) :
    program.Encloses (ctx.blockOf program id options kind children parts) := by
  have hno : program.Encloses fun _ _ => False := fun _ _ h => h.elim
  cases kind with
  | empty =>
    rcases children with _ | _
    · exact encloses_nothing
    · exact hno
  | nothing =>
    rcases children with _ | _
    · rintro first _ ⟨hi, rfl⟩
      exact .op hi rfl nofun
    · exact hno
  | char atom =>
    rcases children with _ | _
    · rintro first last ⟨test, htest, hone⟩
      have hchar : program.Encloses (Block.one program.instructions
          (consuming options .char (.atom test))) :=
        encloses_consuming rfl (fun _ hindex => htest.classIndex_lt hindex) nofun nofun rfl
      exact hchar first last hone
    · exact hno
  | multi chars =>
    rcases children with _ | _
    · exact encloses_consuming rfl nofun nofun nofun rfl
    · exact hno
  | charLoop atom min max isLazy =>
    rcases children with _ | _
    · exact ctx.encloses_charLoopBlock id options atom min max isLazy
    · exact hno
  | backreference group =>
    rcases children with _ | _
    · exact encloses_consuming rfl nofun hgroups nofun rfl
    · exact hno
  | anchor anchor =>
    rcases children with _ | _
    · exact encloses_anchor anchor
    · exact hno
  | concat =>
    rcases children with _ | _
    · exact hno
    · simp only [blockOf]
      cases options.direction with
      | forward => exact encloses_sequence hparts
      | backward => exact encloses_sequence fun B hB => hparts B (List.mem_reverse.1 hB)
  | alternate =>
    rcases children with _ | _
    · exact hno
    · exact encloses_choice hparts
  | loop min max isLazy =>
    rcases parts with _ | ⟨body, _ | _⟩
    · exact hno
    · exact encloses_loop min max isLazy (hparts body List.mem_cons_self)
    · exact hno
  | capture group uncapture =>
    rcases parts with _ | ⟨body, _ | _⟩
    · exact hno
    · exact encloses_capture (hparts body List.mem_cons_self) hgroups
    · exact hno
  | atomic =>
    rcases children with _ | ⟨child, _ | _⟩
    · exact hno
    · rcases parts with _ | ⟨body, _ | _⟩
      · exact hno
      · exact encloses_atomic _ (hparts body List.mem_cons_self)
      · exact hno
    · exact hno
  | positiveLook =>
    rcases parts with _ | ⟨body, _ | _⟩
    · exact hno
    · exact encloses_positiveLook (hparts body List.mem_cons_self)
    · exact hno
  | negativeLook =>
    rcases parts with _ | ⟨body, _ | _⟩
    · exact hno
    · exact encloses_negativeLook (hparts body List.mem_cons_self)
    · exact hno
  | backreferenceConditional group =>
    have hgroup := hgroups group List.mem_cons_self
    rcases parts with _ | ⟨yes, _ | ⟨no, _ | _⟩⟩
    · exact hno
    · exact encloses_backreferenceConditional hgroup (hparts yes (by simp)) encloses_nothing
    · exact encloses_backreferenceConditional hgroup (hparts yes (by simp)) (hparts no (by simp))
    · exact hno
  | expressionConditional =>
    rcases parts with _ | ⟨condition, _ | ⟨yes, _ | ⟨no, _ | _⟩⟩⟩
    · exact hno
    · exact hno
    · exact encloses_expressionConditional (hparts condition (by simp)) (hparts yes (by simp))
        encloses_nothing
    · exact encloses_expressionConditional (hparts condition (by simp)) (hparts yes (by simp))
        (hparts no (by simp))
    · exact hno

/-- The block of every node whose groups exist is closed in itself. -/
theorem encloses_block {n : Node}
    (hgroups : ∀ x ∈ n.preorder, ∀ g ∈ x.kind.groups, g < program.groupCount) :
    program.Encloses (ctx.block program n) := by
  induction n using Node.induction with
  | step id options kind children ih =>
    obtain ⟨hself, hchildren⟩ := Node.forall_preorder_node.1 hgroups
    rw [block_node]
    apply ctx.encloses_blockOf id options children hself
    intro B hB
    obtain ⟨c, hc, rfl⟩ := List.mem_map.1 hB
    exact ih c hc (hchildren c hc)

end LayoutContext

end RegexMachine
