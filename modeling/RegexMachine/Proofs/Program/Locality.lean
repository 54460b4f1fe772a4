import Mathlib.Data.List.Forall2
import RegexMachine.Proofs.Program.Block
import RegexMachine.Proofs.Tree.Occurrences

/-!
# Blocks are local

Whether the block of a node stands between two addresses is decided by the instructions between them.
So it stands there in every program that has these instructions, whatever it has elsewhere.
-/

namespace RegexMachine

namespace Block

/-- The same instructions stand from `first` up to `last`. -/
def SameBetween (code code' : Array Instruction) (first last : Nat) : Prop :=
  ∀ address, first ≤ address → address < last → code'[address]? = code[address]?

variable {code code' : Array Instruction}

namespace SameBetween

variable {first last : Nat}

theorem narrow {start stop : Nat} (h : SameBetween code code' first last) (hstart : first ≤ start)
    (hstop : stop ≤ last) : SameBetween code code' start stop :=
  fun address hle hlt => h address (by omega) (by omega)

theorem carry {address : Nat} {i : Instruction} (h : SameBetween code code' first last)
    (hi : code[address]? = some i) (hle : first ≤ address) (hlt : address < last) :
    code'[address]? = some i :=
  (h address hle hlt).trans hi

end SameBetween

/-- Wherever the first block stands in `code`, the second stands in a code that is the same there. -/
def Carries (code code' : Array Instruction) (B B' : Block) : Prop :=
  ∀ first last, B first last →
    first ≤ last ∧ (SameBetween code code' first last → B' first last)

theorem carries_nothing : Carries code code' nothing nothing := by
  rintro first _ rfl
  exact ⟨Nat.le_refl _, fun _ => rfl⟩

theorem carries_one (i : Instruction) : Carries code code' (one code i) (one code' i) := by
  rintro first _ ⟨hi, rfl⟩
  exact ⟨Nat.le_succ _, fun h => ⟨h.carry hi (Nat.le_refl _) (Nat.lt_succ_self _), rfl⟩⟩

theorem carries_sequence {Bs Bs' : List Block} (h : List.Forall₂ (Carries code code') Bs Bs') :
    Carries code code' (sequence Bs) (sequence Bs') := by
  induction h with
  | nil => exact carries_nothing
  | cons hB _ ih =>
    rintro first last ⟨middle, hpart, hrest⟩
    obtain ⟨hle, hpart⟩ := hB first middle hpart
    obtain ⟨hle', hrest⟩ := ih middle last hrest
    exact ⟨Nat.le_trans hle hle', fun h => ⟨middle, hpart (h.narrow (Nat.le_refl _) hle'),
      hrest (h.narrow hle (Nat.le_refl _))⟩⟩

theorem carries_choice {Bs Bs' : List Block} (h : List.Forall₂ (Carries code code') Bs Bs') :
    Carries code code' (choice code Bs) (choice code' Bs') := by
  induction h with
  | nil => exact carries_nothing
  | @cons B B' Bs Bs' hB hBs ih =>
    cases hBs with
    | nil => exact hB
    | cons _ _ =>
      rintro first last ⟨exit, hbranch, hpart, hexit, hrest⟩
      obtain ⟨hle, hpart⟩ := hB (first + 1) exit hpart
      obtain ⟨hle', hrest⟩ := ih (exit + 1) last hrest
      refine ⟨by omega, fun h => ⟨exit, h.carry hbranch (by omega) (by omega),
        hpart (h.narrow (by omega) (by omega)), h.carry hexit (by omega) (by omega),
        hrest (h.narrow (by omega) (Nat.le_refl _))⟩⟩

section

variable {B B' C C' D D' : Block} (hB : Carries code code' B B')

include hB

theorem carries_loop (min max : Nat) (isLazy : Bool) :
    Carries code code' (loop code min max isLazy B) (loop code' min max isLazy B') := by
  rintro first _ ⟨closer, hopener, hjump, hbody, hcloser, rfl⟩
  obtain ⟨hle, hbody⟩ := hB _ closer hbody
  have hstart : first + 1 ≤ loopStart min first ∧ (min = 0 → first + 2 ≤ loopStart min first) := by
    rw [loopStart]
    split <;> omega
  refine ⟨by omega, fun h => ⟨closer, h.carry hopener (by omega) (by omega), fun hmin => ?_,
    hbody (h.narrow (by omega) (by omega)), h.carry hcloser (by omega) (by omega), rfl⟩⟩
  have hsecond := hstart.2 hmin
  exact h.carry (hjump hmin) (by omega) (by omega)

theorem carries_capture (group uncapture : Option Nat) :
    Carries code code' (capture code group uncapture B) (capture code' group uncapture B') := by
  rintro first _ ⟨closer, hopener, hbody, hcloser, rfl⟩
  obtain ⟨hle, hbody⟩ := hB _ closer hbody
  exact ⟨by omega, fun h => ⟨closer, h.carry hopener (by omega) (by omega),
    hbody (h.narrow (by omega) (by omega)), h.carry hcloser (by omega) (by omega), rfl⟩⟩

theorem carries_atomic (needsFrame : Bool) :
    Carries code code' (atomic code needsFrame B) (atomic code' needsFrame B') := by
  cases needsFrame with
  | false => exact hB
  | true =>
    rintro first _ ⟨closer, hopener, hbody, hcloser, rfl⟩
    obtain ⟨hle, hbody⟩ := hB _ closer hbody
    exact ⟨by omega, fun h => ⟨closer, h.carry hopener (by omega) (by omega),
      hbody (h.narrow (by omega) (by omega)), h.carry hcloser (by omega) (by omega), rfl⟩⟩

theorem carries_positiveLook :
    Carries code code' (positiveLook code B) (positiveLook code' B') := by
  rintro first _ ⟨closer, hjump, hmark, hbody, hget, hcloser, rfl⟩
  obtain ⟨hle, hbody⟩ := hB _ closer hbody
  exact ⟨by omega, fun h => ⟨closer, h.carry hjump (by omega) (by omega),
    h.carry hmark (by omega) (by omega), hbody (h.narrow (by omega) (by omega)),
    h.carry hget (by omega) (by omega), h.carry hcloser (by omega) (by omega), rfl⟩⟩

theorem carries_negativeLook :
    Carries code code' (negativeLook code B) (negativeLook code' B') := by
  rintro first _ ⟨closer, hjump, hbranch, hbody, hback, hcloser, rfl⟩
  obtain ⟨hle, hbody⟩ := hB _ closer hbody
  exact ⟨by omega, fun h => ⟨closer, h.carry hjump (by omega) (by omega),
    h.carry hbranch (by omega) (by omega), hbody (h.narrow (by omega) (by omega)),
    h.carry hback (by omega) (by omega), h.carry hcloser (by omega) (by omega), rfl⟩⟩

theorem carries_backreferenceConditional (group : Nat) (hC : Carries code code' C C') :
    Carries code code' (backreferenceConditional code group B C)
      (backreferenceConditional code' group B' C') := by
  rintro first last ⟨exit, hjump, hbranch, htest, hclose, hyes, hexit, hclose', hno⟩
  obtain ⟨hle, hyes⟩ := hB _ exit hyes
  obtain ⟨hle', hno⟩ := hC _ last hno
  exact ⟨by omega, fun h => ⟨exit, h.carry hjump (by omega) (by omega),
    h.carry hbranch (by omega) (by omega), h.carry htest (by omega) (by omega),
    h.carry hclose (by omega) (by omega), hyes (h.narrow (by omega) (by omega)),
    h.carry hexit (by omega) (by omega), h.carry hclose' (by omega) (by omega),
    hno (h.narrow (by omega) (by omega))⟩⟩

theorem carries_expressionConditional (hC : Carries code code' C C')
    (hD : Carries code code' D D') :
    Carries code code' (expressionConditional code B C D)
      (expressionConditional code' B' C' D') := by
  rintro first last
    ⟨closer, exit, hjump, hmark, hbranch, hcond, hget, hclose, hyes, hexit, hget', hclose', hno⟩
  obtain ⟨hle, hcond⟩ := hB _ closer hcond
  obtain ⟨hle', hyes⟩ := hC _ exit hyes
  obtain ⟨hle'', hno⟩ := hD _ last hno
  exact ⟨by omega, fun h => ⟨closer, exit, h.carry hjump (by omega) (by omega),
    h.carry hmark (by omega) (by omega), h.carry hbranch (by omega) (by omega),
    hcond (h.narrow (by omega) (by omega)), h.carry hget (by omega) (by omega),
    h.carry hclose (by omega) (by omega), hyes (h.narrow (by omega) (by omega)),
    h.carry hexit (by omega) (by omega), h.carry hget' (by omega) (by omega),
    h.carry hclose' (by omega) (by omega), hno (h.narrow (by omega) (by omega))⟩⟩

end

theorem carries_of_nowhere {B' : Block} : Carries code code' (fun _ _ => False) B' :=
  fun _ _ h => h.elim

end Block

/-- The program with other instructions. -/
def Program.withInstructions (program : Program) (code : Array Instruction) : Program :=
  { program with instructions := code }

namespace LayoutContext

open Block

variable (ctx : LayoutContext) (program : Program) (code : Array Instruction)

theorem carries_char (options : Options) (atom : Atom) :
    Carries program.instructions code
      (fun first last => ∃ test, ctx.Tests program options.ignoreCase atom test ∧
        one program.instructions (consuming options .char (.atom test)) first last)
      (fun first last => ∃ test,
        ctx.Tests (program.withInstructions code) options.ignoreCase atom test ∧
          one code (consuming options .char (.atom test)) first last) := by
  rintro first last ⟨test, htest, hone⟩
  obtain ⟨hle, hone⟩ := carries_one _ first last hone
  exact ⟨hle, fun h => ⟨test, htest, hone h⟩⟩

theorem carries_charLoopBlock (id : Nat) (options : Options) (atom : Atom) (min max : Nat)
    (isLazy : Bool) :
    Carries program.instructions code (ctx.charLoopBlock program id options atom min max isLazy)
      (ctx.charLoopBlock (program.withInstructions code) id options atom min max isLazy) := by
  rintro first last ⟨test, middle, htest, hhead, htail⟩
  have hhead : first ≤ middle ∧ (SameBetween program.instructions code first middle →
      if 0 < min then one code (consuming options .charRep (.atomCount test min)) first middle
      else first = middle) := by
    split at hhead
    · next hmin =>
      simp only [if_pos hmin]
      exact carries_one _ first middle hhead
    · next hmin =>
      simp only [if_neg hmin]
      exact ⟨Nat.le_of_eq hhead, fun _ => hhead⟩
  cases htailed : ctx.charTail id min max isLazy with
  | none =>
    rw [htailed] at htail
    obtain rfl : middle = last := htail
    refine ⟨hhead.1, fun h => ⟨test, middle, htest, hhead.2 h, ?_⟩⟩
    rw [htailed]
  | some opcode =>
    rw [htailed] at htail
    obtain ⟨hle, htail⟩ := carries_one _ middle last htail
    refine ⟨Nat.le_trans hhead.1 hle, fun h =>
      ⟨test, middle, htest, hhead.2 (h.narrow (Nat.le_refl _) hle), ?_⟩⟩
    rw [htailed]
    exact htail (h.narrow hhead.1 (Nat.le_refl _))

theorem carries_block (n : Node) : Carries program.instructions code (ctx.block program n)
    (ctx.block (program.withInstructions code) n) := by
  induction n using Node.induction with
  | step id options kind children ih =>
    have hparts : List.Forall₂ (Carries program.instructions code)
        (children.map (ctx.block program))
        (children.map (ctx.block (program.withInstructions code))) := by
      rw [List.forall₂_map_left_iff, List.forall₂_map_right_iff, List.forall₂_same]
      exact ih
    rw [block_node, block_node]
    cases kind with
    | empty =>
      rcases children with _ | _
      · exact carries_nothing
      · exact carries_of_nowhere
    | nothing =>
      rcases children with _ | _
      · exact carries_one _
      · exact carries_of_nowhere
    | char atom =>
      rcases children with _ | _
      · exact ctx.carries_char program code options atom
      · exact carries_of_nowhere
    | multi chars =>
      rcases children with _ | _
      · exact carries_one _
      · exact carries_of_nowhere
    | charLoop atom min max isLazy =>
      rcases children with _ | _
      · exact ctx.carries_charLoopBlock program code id options atom min max isLazy
      · exact carries_of_nowhere
    | anchor anchor =>
      rcases children with _ | _
      · exact carries_one _
      · exact carries_of_nowhere
    | backreference group =>
      rcases children with _ | _
      · exact carries_one _
      · exact carries_of_nowhere
    | concat =>
      rcases children with _ | ⟨c, rest⟩
      · exact carries_of_nowhere
      · simp only [blockOf]
        cases options.direction with
        | forward => exact carries_sequence hparts
        | backward => exact carries_sequence (List.forall₂_reverse_iff.2 hparts)
    | alternate =>
      rcases children with _ | ⟨c, rest⟩
      · exact carries_of_nowhere
      · exact carries_choice hparts
    | loop min max isLazy =>
      rcases children with _ | ⟨body, _ | _⟩
      · exact carries_of_nowhere
      · exact carries_loop (ih body List.mem_cons_self) min max isLazy
      · exact carries_of_nowhere
    | capture group uncapture =>
      rcases children with _ | ⟨body, _ | _⟩
      · exact carries_of_nowhere
      · exact carries_capture (ih body List.mem_cons_self) group uncapture
      · exact carries_of_nowhere
    | atomic =>
      rcases children with _ | ⟨body, _ | _⟩
      · exact carries_of_nowhere
      · exact carries_atomic (ih body List.mem_cons_self) _
      · exact carries_of_nowhere
    | positiveLook =>
      rcases children with _ | ⟨body, _ | _⟩
      · exact carries_of_nowhere
      · exact carries_positiveLook (ih body List.mem_cons_self)
      · exact carries_of_nowhere
    | negativeLook =>
      rcases children with _ | ⟨body, _ | _⟩
      · exact carries_of_nowhere
      · exact carries_negativeLook (ih body List.mem_cons_self)
      · exact carries_of_nowhere
    | backreferenceConditional group =>
      rcases children with _ | ⟨yes, _ | ⟨no, _ | _⟩⟩
      · exact carries_of_nowhere
      · exact carries_backreferenceConditional (ih yes (by simp)) group carries_nothing
      · exact carries_backreferenceConditional (ih yes (by simp)) group (ih no (by simp))
      · exact carries_of_nowhere
    | expressionConditional =>
      rcases children with _ | ⟨condition, _ | ⟨yes, _ | ⟨no, _ | _⟩⟩⟩
      · exact carries_of_nowhere
      · exact carries_of_nowhere
      · exact carries_expressionConditional (ih condition (by simp)) (ih yes (by simp))
          carries_nothing
      · exact carries_expressionConditional (ih condition (by simp)) (ih yes (by simp))
          (ih no (by simp))
      · exact carries_of_nowhere

end LayoutContext

end RegexMachine
