import RegexMachine.Machine.Step

/-!
# Operands

Which operands the machine asks for at each opcode, and that an instruction that carries them never
lacks one, whatever the machine looks like when it is executed.
-/

namespace RegexMachine

/-- The operands that a payload holds. -/
def Payload.operands : Payload → List Operand
  | .none => []
  | .atom _ => [.atom]
  | .atomCount _ _ => [.atom, .count]
  | .multi _ => [.string]
  | .group _ => [.group]
  | .jump _ => [.jump]
  | .countedJump _ _ => [.jump, .limit]
  | .count _ => [.count]
  | .capture _ _ => [.capture]

/-- The operands that the machine asks for when it executes the opcode. -/
def Opcode.operands : Opcode → List Operand
  | .char => [.atom]
  | .multi => [.string]
  | .charRep | .charLoop | .charLoopAtomic | .charLazy => [.atom, .count]
  | .backreference | .testBackreference => [.group]
  | .goto | .lazybranch | .branchmark | .lazybranchmark => [.jump]
  | .branchcount | .lazybranchcount => [.jump, .limit]
  | .setcount | .nullcount => [.count]
  | .capturemark => [.capture]
  | _ => []

namespace Instruction

/-- The instruction carries what its opcode asks for, and nothing else. -/
def Equipped (i : Instruction) : Prop := i.payload.operands = i.opcode.operands

instance (i : Instruction) : Decidable i.Equipped :=
  inferInstanceAs (Decidable (i.payload.operands = i.opcode.operands))

variable {i : Instruction}

theorem exists_jump (h : .jump ∈ i.payload.operands) : ∃ address, i.jump = .ok address := by
  unfold jump
  cases hp : i.payload <;> simp_all [Payload.operands]

theorem exists_limit (h : .limit ∈ i.payload.operands) : ∃ limit, i.limit = .ok limit := by
  unfold limit
  cases hp : i.payload <;> simp_all [Payload.operands]

theorem exists_atom (h : .atom ∈ i.payload.operands) : ∃ test, i.atom = .ok test := by
  unfold atom
  cases hp : i.payload <;> simp_all [Payload.operands]

theorem exists_count (h : .count ∈ i.payload.operands) : ∃ count, i.count = .ok count := by
  unfold count
  cases hp : i.payload <;> simp_all [Payload.operands]

theorem exists_group (h : .group ∈ i.payload.operands) : ∃ group, i.group = .ok group := by
  unfold group
  cases hp : i.payload <;> simp_all [Payload.operands]

theorem exists_string (h : .string ∈ i.payload.operands) : ∃ chars, i.string = .ok chars := by
  unfold string
  cases hp : i.payload <;> simp_all [Payload.operands]

theorem exists_capture (h : .capture ∈ i.payload.operands) : ∃ groups, i.capture = .ok groups := by
  unfold capture
  cases hp : i.payload <;> simp_all [Payload.operands]

end Instruction

/-- Whatever this comes to, it is not the want of an operand. -/
def Supplied {α : Type} (r : Except Fault α) : Prop :=
  ∀ opcode operand, r ≠ .error (.missingOperand opcode operand)

namespace Supplied

variable {α β : Type}

theorem ok (a : α) : Supplied (.ok a : Except Fault α) := fun _ _ h => by cases h

theorem of_ok {x : Except Fault α} (h : ∃ a, x = .ok a) : Supplied x := by
  obtain ⟨a, rfl⟩ := h
  exact ok a

theorem outOfBounds : Supplied (.error .outOfBounds : Except Fault α) := fun _ _ h => by cases h

theorem bind {x : Except Fault α} {f : α → Except Fault β} (hx : Supplied x)
    (hf : ∀ a, Supplied (f a)) : Supplied (x >>= f) := by
  cases x with
  | error e =>
    intro opcode operand h
    exact hx opcode operand (congrArg Except.error (Except.error.inj h))
  | ok a => exact hf a

theorem ite {c : Prop} [Decidable c] {x y : Except Fault α} (hx : Supplied x) (hy : Supplied y) :
    Supplied (if c then x else y) := by
  split
  · exact hx
  · exact hy

end Supplied

namespace Captures

open Supplied

theorem supplied_record (c : Captures) (group : Nat) (slot : Slot) :
    Supplied (c.record group slot) := .ite (.ok _) .outOfBounds

theorem supplied_transfer (c : Captures) (group : Option Nat) (uncapture start stop : Nat) :
    Supplied (c.transfer group uncapture start stop) := by
  unfold transfer
  refine .bind (supplied_record _ _ _) fun d => ?_
  cases group with
  | none => exact .ok _
  | some group =>
    refine .bind ?_ fun _ => supplied_record _ _ _
    unfold between
    exact .ite (.ok _) (.ite (fun _ _ h => by cases h) (.ok _))

theorem supplied_undoUntil (c : Captures) (depth : Nat) : Supplied (c.undoUntil depth) := by
  unfold undoUntil
  generalize c.trail.depth - depth = n
  induction n generalizing c with
  | zero => exact .ok _
  | succ n ih =>
    refine .bind ?_ ih
    unfold undo
    split
    · exact .ite (.ok _) .outOfBounds
    · exact fun _ _ h => by cases h

end Captures

namespace Text

theorem supplied_read (t : Text) (direction : Direction) (pos : Nat) :
    Supplied (t.read direction pos) := by
  unfold read
  split
  · cases direction <;> exact .ok _
  · exact .outOfBounds

theorem supplied_bump (t : Text) (direction : Direction) (pos : Nat) :
    Supplied (t.bump direction pos) := by
  refine .bind (t.supplied_read direction pos) fun r => ?_
  cases r <;> exact .ok _

theorem supplied_charsBetween (t : Text) (first last : Nat) :
    Supplied (t.charsBetween first last) := .ite (.ok _) .outOfBounds

end Text

namespace Surroundings

variable (env : Surroundings)

theorem supplied_passes (test : CharTest) (ignoreCase : Bool) (c : Char) :
    Supplied (env.passes test ignoreCase c) := by
  unfold passes
  cases test with
  | one x => exact .ok _
  | notOne x => exact .ok _
  | set index =>
    dsimp only
    split
    · exact .ok _
    · exact .outOfBounds

theorem supplied_readChars (direction : Direction) (ignoreCase : Bool) (chars : List Char)
    (pos : Nat) : Supplied (env.readChars direction ignoreCase chars pos) := by
  induction chars generalizing pos with
  | nil => exact .ok _
  | cons expected rest ih =>
    refine .bind (env.text.supplied_read direction pos) fun r => ?_
    cases r with
    | none => exact .ok _
    | some r => exact .ite (ih r.2) (.ok _)

theorem supplied_takeExactly (i : Instruction) (test : CharTest) (n pos : Nat) :
    Supplied (env.takeExactly i test n pos) := by
  induction n generalizing pos with
  | zero => exact .ok _
  | succ n ih =>
    refine .bind (env.text.supplied_read i.direction pos) fun r => ?_
    cases r with
    | none => exact .ok _
    | some r => exact .bind (env.supplied_passes _ _ _) fun _ => .ite (ih r.2) (.ok _)

theorem supplied_takeUpTo (i : Instruction) (test : CharTest) (n taken pos : Nat) :
    Supplied (env.takeUpTo i test n taken pos) := by
  induction n generalizing taken pos with
  | zero => exact .ok _
  | succ n ih =>
    refine .bind (env.text.supplied_read i.direction pos) fun r => ?_
    cases r with
    | none => exact .ok _
    | some r => exact .bind (env.supplied_passes _ _ _) fun _ => .ite (ih (taken + 1) r.2) (.ok _)

theorem supplied_isWordBoundary (isWord : Char → Bool) (pos : Nat) :
    Supplied (env.isWordBoundary isWord pos) := by
  unfold isWordBoundary
  split
  · exact .ok _
  · exact .outOfBounds

end Surroundings

namespace Machine

open Instruction

variable (env : Surroundings) (i : Instruction) (m : Machine)

theorem supplied_popValue : Supplied m.popValue := by
  unfold popValue
  split
  · exact .ok _
  · exact fun _ _ h => by cases h

theorem supplied_popPair : Supplied m.popPair :=
  .bind m.supplied_popValue fun r => .bind r.2.supplied_popValue fun _ => .ok _

theorem supplied_unexpected : Supplied (m.unexpected i : Except Fault Move) :=
  fun _ _ h => by cases h

theorem supplied_makeCaptures (group uncapture : Option Nat) (start stop : Nat) (c : Captures) :
    Supplied (makeCaptures group uncapture start stop c) := by
  cases uncapture with
  | some u =>
    have htransfer := c.supplied_transfer group u start stop
    cases group <;> exact htransfer
  | none =>
    cases group with
    | some g => exact c.supplied_record _ _
    | none => exact .ok _

theorem supplied_lazybranch (h : .jump ∈ i.payload.operands) : Supplied (lazybranch i m) := by
  unfold lazybranch
  split
  · exact .ok _
  · exact .bind (.of_ok (exists_jump h)) fun _ => .ok _
  · exact m.supplied_unexpected i

theorem supplied_openMark (v : Int) : Supplied (openMark i v m) := by
  unfold openMark
  split
  · exact .ok _
  · exact .bind m.supplied_popValue fun _ => .ok _
  · exact m.supplied_unexpected i

theorem supplied_getmark : Supplied (getmark i m) := by
  unfold getmark
  split
  · exact .bind m.supplied_popValue fun _ => .ok _
  · exact .ok _
  · exact m.supplied_unexpected i

theorem supplied_capturemark (h : .capture ∈ i.payload.operands) :
    Supplied (capturemark i m) := by
  unfold capturemark
  split
  · refine .bind (.of_ok (exists_capture h)) fun _ => .ite (.ok _) ?_
    exact .bind m.supplied_popValue fun _ => .bind (supplied_makeCaptures _ _ _ _ _) fun _ => .ok _
  · exact .bind (m.captures.supplied_undoUntil _) fun _ => .ok _
  · exact m.supplied_unexpected i

theorem supplied_branchmark (h : .jump ∈ i.payload.operands) : Supplied (branchmark i m) := by
  unfold branchmark
  split
  · refine .bind m.supplied_popValue fun _ => .ite ?_ (.ok _)
    exact .bind (.of_ok (exists_jump h)) fun _ => .ok _
  · exact .bind m.supplied_popValue fun _ => .ok _
  · exact .ok _

theorem supplied_lazybranchmark (h : .jump ∈ i.payload.operands) :
    Supplied (lazybranchmark i m) := by
  unfold lazybranchmark
  split
  · exact .bind m.supplied_popValue fun _ => .ite (.ok _) (.ok _)
  · exact .bind (.of_ok (exists_jump h)) fun _ => .ok _
  · exact .bind m.supplied_popValue fun _ => .ok _

theorem supplied_openCount (v : Int) (h : .count ∈ i.payload.operands) :
    Supplied (openCount i v m) := by
  unfold openCount
  split
  · exact .bind (.of_ok (exists_count h)) fun _ => .ok _
  · exact .bind m.supplied_popPair fun _ => .ok _
  · exact m.supplied_unexpected i

theorem supplied_branchcount (h : .jump ∈ i.payload.operands) (h' : .limit ∈ i.payload.operands) :
    Supplied (branchcount i m) := by
  unfold branchcount
  split
  · refine .bind m.supplied_popPair fun _ => .bind (.of_ok (exists_limit h')) fun _ => ?_
    exact .ite (.ok _) (.bind (.of_ok (exists_jump h)) fun _ => .ok _)
  · exact .bind m.supplied_popPair fun _ => .ite (.ok _) (.ok _)
  · exact .ok _

theorem supplied_lazybranchcount (h : .jump ∈ i.payload.operands)
    (h' : .limit ∈ i.payload.operands) : Supplied (lazybranchcount i m) := by
  unfold lazybranchcount
  split
  · refine .bind m.supplied_popPair fun _ => .ite ?_ (.ok _)
    exact .bind (.of_ok (exists_jump h)) fun _ => .ok _
  · refine .bind (.of_ok (exists_limit h')) fun _ => .ite ?_ (.ok _)
    exact .bind (.of_ok (exists_jump h)) fun _ => .ok _
  · exact .bind m.supplied_popPair fun _ => .ok _

theorem supplied_setjump : Supplied (setjump i m) := by
  unfold setjump
  split
  · exact .ok _
  · exact .bind m.supplied_popPair fun _ => .ok _
  · exact m.supplied_unexpected i

theorem supplied_backjump : Supplied (backjump i m) := by
  unfold backjump
  split
  · exact .bind m.supplied_popPair fun r => .bind (r.2.captures.supplied_undoUntil _) fun _ => .ok _
  · exact m.supplied_unexpected i

theorem supplied_forejump : Supplied (forejump i m) := by
  unfold forejump
  split
  · exact .bind m.supplied_popPair fun _ => .ok _
  · exact .bind (m.captures.supplied_undoUntil _) fun _ => .ok _
  · exact m.supplied_unexpected i

theorem supplied_char (h : .atom ∈ i.payload.operands) : Supplied (char env i m) := by
  unfold char
  split
  · refine .bind (env.text.supplied_read _ _) fun r => ?_
    cases r with
    | none => exact .ok _
    | some r =>
      refine .bind (.of_ok (exists_atom h)) fun _ => ?_
      exact .bind (env.supplied_passes _ _ _) fun _ => .ite (.ok _) (.ok _)
  · exact m.supplied_unexpected i

theorem supplied_multi (h : .string ∈ i.payload.operands) : Supplied (multi env i m) := by
  unfold multi
  split
  · refine .bind (.of_ok (exists_string h)) fun _ => ?_
    exact .bind (env.supplied_readChars _ _ _ _) fun _ => .ok _
  · exact m.supplied_unexpected i

theorem supplied_backreference (h : .group ∈ i.payload.operands) :
    Supplied (backreference env i m) := by
  unfold backreference
  split
  · refine .bind (.of_ok (exists_group h)) fun _ => ?_
    split
    · refine .bind (env.text.supplied_charsBetween _ _) fun _ => ?_
      exact .bind (env.supplied_readChars _ _ _ _) fun _ => .ok _
    · exact .ok _
  · exact m.supplied_unexpected i

theorem supplied_charRep (h : .atom ∈ i.payload.operands) (h' : .count ∈ i.payload.operands) :
    Supplied (charRep env i m) := by
  unfold charRep
  split
  · refine .bind (.of_ok (exists_atom h)) fun _ => .bind (.of_ok (exists_count h')) fun _ => ?_
    exact .bind (env.supplied_takeExactly _ _ _ _) fun _ => .ok _
  · exact m.supplied_unexpected i

theorem supplied_charLoop (givesBack : Bool) (h : .atom ∈ i.payload.operands)
    (h' : .count ∈ i.payload.operands) : Supplied (charLoop env i givesBack m) := by
  unfold charLoop
  split
  · refine .bind (.of_ok (exists_atom h)) fun _ => .bind (.of_ok (exists_count h')) fun _ => ?_
    refine .bind (env.supplied_takeUpTo _ _ _ _ _) fun _ => .ite (.ite ?_ (.ok _)) (.ok _)
    exact .bind (env.text.supplied_bump _ _) fun _ => .ok _
  · refine .ite (.ite ?_ (.ok _)) (m.supplied_unexpected i)
    exact .bind (env.text.supplied_bump _ _) fun _ => .ok _
  · exact m.supplied_unexpected i

theorem supplied_charLazy (h : .atom ∈ i.payload.operands) (h' : .count ∈ i.payload.operands) :
    Supplied (charLazy env i m) := by
  unfold charLazy
  split
  · refine .bind (.of_ok (exists_count h')) fun _ => .ite ?_ (.ok _)
    refine .bind (env.text.supplied_read _ _) fun r => ?_
    cases r <;> exact .ok _
  · refine .bind (env.text.supplied_read _ _) fun r => ?_
    cases r with
    | none => exact .ok _
    | some r =>
      refine .bind (.of_ok (exists_atom h)) fun _ => .bind (env.supplied_passes _ _ _) fun _ => ?_
      exact .ite (.ite (.ok _) (.ok _)) (.ok _)
  · exact m.supplied_unexpected i

theorem supplied_assertion : Supplied (assertion env i m) := by
  have hboundary : ∀ {isWord : Char → Bool} {f : Bool → Bool},
      Supplied (do return f (← env.isWordBoundary isWord m.position)) :=
    .bind (env.supplied_isWordBoundary _ _) fun _ => .ok _
  unfold assertion
  split
  · unfold assertion?
    cases i.opcode
    case bol =>
      refine .bind (.ite (.ok _) (.bind ?_ fun _ => .ok _)) fun _ => .ok _
      exact .ite (.ok _) .outOfBounds
    case endZ =>
      exact .bind (.ite (.ok _) (.ite .outOfBounds (.ok _))) fun _ => .ok _
    case boundary | ecmaBoundary =>
      exact .bind (env.supplied_isWordBoundary _ _) fun _ => .ok _
    case nonBoundary | nonEcmaBoundary => exact .bind hboundary fun _ => .ok _
    case eol | beginning | start | «end» => exact .ok _
    all_goals exact m.supplied_unexpected i
  · exact m.supplied_unexpected i

theorem supplied_testBackreference (h : .group ∈ i.payload.operands) :
    Supplied (testBackreference i m) := by
  unfold testBackreference
  split
  · exact .bind (.of_ok (exists_group h)) fun _ => .ok _
  · exact m.supplied_unexpected i

/-- An instruction that carries what its opcode asks for never lacks an operand. -/
theorem supplied_execute (h : i.Equipped) : Supplied (m.execute env i) := by
  rw [Equipped] at h
  unfold execute
  split <;> rename_i hopcode <;> rw [hopcode] at h
  case h_1 | h_2 => exact .ok _
  case h_3 => exact .bind (.of_ok (exists_jump (by simp [h, Opcode.operands]))) fun _ => .ok _
  case h_4 => exact supplied_testBackreference i m (by simp [h, Opcode.operands])
  case h_5 => exact supplied_lazybranch i m (by simp [h, Opcode.operands])
  case h_6 | h_7 => exact supplied_openMark i m _
  case h_8 => exact supplied_getmark i m
  case h_9 => exact supplied_capturemark i m (by simp [h, Opcode.operands])
  case h_10 => exact supplied_branchmark i m (by simp [h, Opcode.operands])
  case h_11 => exact supplied_lazybranchmark i m (by simp [h, Opcode.operands])
  case h_12 | h_13 => exact supplied_openCount i m _ (by simp [h, Opcode.operands])
  case h_14 =>
    exact supplied_branchcount i m (by simp [h, Opcode.operands]) (by simp [h, Opcode.operands])
  case h_15 =>
    exact supplied_lazybranchcount i m (by simp [h, Opcode.operands])
      (by simp [h, Opcode.operands])
  case h_16 => exact supplied_setjump i m
  case h_17 => exact supplied_backjump i m
  case h_18 => exact supplied_forejump i m
  case h_19 => exact supplied_char env i m (by simp [h, Opcode.operands])
  case h_20 => exact supplied_multi env i m (by simp [h, Opcode.operands])
  case h_21 => exact supplied_backreference env i m (by simp [h, Opcode.operands])
  case h_22 =>
    exact supplied_charRep env i m (by simp [h, Opcode.operands]) (by simp [h, Opcode.operands])
  case h_23 | h_24 =>
    exact supplied_charLoop env i m _ (by simp [h, Opcode.operands]) (by simp [h, Opcode.operands])
  case h_25 =>
    exact supplied_charLazy env i m (by simp [h, Opcode.operands]) (by simp [h, Opcode.operands])
  all_goals exact supplied_assertion env i m

end Machine

end RegexMachine
