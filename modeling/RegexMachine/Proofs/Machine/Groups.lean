import RegexMachine.Machine.Run
import RegexMachine.Proofs.Capture.Undo

/-!
# The groups of a run

However a run goes and ends, the machine keeps as many groups as it started with.
-/

namespace RegexMachine

namespace Captures

variable {c d : Captures}

theorem size_of_undo (h : c.undo = .ok d) : d.groups.size = c.groups.size := by
  rw [undo] at h
  split at h
  · split at h
    · cases h
      exact Array.size_modify
    · cases h
  · cases h

theorem size_of_undoTimes {n : Nat} (h : undoTimes n c = .ok d) :
    d.groups.size = c.groups.size := by
  induction n generalizing c with
  | zero =>
    cases h
    rfl
  | succ n ih =>
    rw [undoTimes] at h
    cases hundo : c.undo with
    | error f =>
      rw [hundo] at h
      cases h
    | ok e =>
      rw [hundo] at h
      exact (ih h).trans (size_of_undo hundo)

theorem size_of_undoUntil {depth : Nat} (h : c.undoUntil depth = .ok d) :
    d.groups.size = c.groups.size := size_of_undoTimes h

theorem size_of_cancel {group : Nat} (h : c.cancel group = .ok d) :
    d.groups.size = c.groups.size := by
  have hsize := size_of_record h
  exact hsize

theorem size_of_transfer {group : Option Nat} {uncapture start stop : Nat}
    (h : c.transfer group uncapture start stop = .ok d) : d.groups.size = c.groups.size := by
  rw [transfer] at h
  cases hcancel : c.cancel uncapture with
  | error f =>
    rw [hcancel] at h
    cases h
  | ok e =>
    have hsize := size_of_cancel hcancel
    rw [hcancel] at h
    cases group with
    | none =>
      cases h
      exact hsize
    | some g =>
      simp only [bind, Except.bind] at h
      split at h
      · cases h
      · exact (size_of_record h).trans hsize

end Captures

namespace Machine

variable {m : Machine}

theorem size_of_popValue {r : Int × Machine} (h : m.popValue = .ok r) :
    r.2.captures.groups.size = m.captures.groups.size := by
  rw [popValue] at h
  split at h
  · cases h
    rfl
  · cases h

theorem size_of_popPair {r : (Int × Int) × Machine} (h : m.popPair = .ok r) :
    r.2.captures.groups.size = m.captures.groups.size := by
  rw [popPair] at h
  cases hsecond : m.popValue with
  | error f =>
    rw [hsecond] at h
    cases h
  | ok second =>
    rw [hsecond] at h
    simp only [bind, Except.bind] at h
    cases hfirst : second.2.popValue with
    | error f =>
      rw [hfirst] at h
      cases h
    | ok first =>
      rw [hfirst] at h
      cases h
      exact (size_of_popValue hfirst).trans (size_of_popValue hsecond)

theorem size_of_makeCaptures {group uncapture : Option Nat} {start stop : Nat} {c d : Captures}
    (h : makeCaptures group uncapture start stop c = .ok d) : d.groups.size = c.groups.size := by
  cases uncapture with
  | some u =>
    have htransfer : c.transfer group u start stop = .ok d := by cases group <;> exact h
    exact Captures.size_of_transfer htransfer
  | none =>
    cases group with
    | some g => exact Captures.size_of_record h
    | none =>
      cases h
      rfl

end Machine

/-- The machine that a move leads to. -/
def Move.machine : Move → Machine
  | .next m | .jump _ m | .backtrack m | .stop m => m

/-- A move, if there is one, leads to a machine with `n` groups. -/
def Keeps (n : Nat) (r : Except Fault Move) : Prop :=
  ∀ move, r = .ok move → move.machine.captures.groups.size = n

namespace Keeps

variable {n : Nat}

theorem ok {move : Move} (h : move.machine.captures.groups.size = n) : Keeps n (.ok move) := by
  rintro _ ⟨⟩
  exact h

theorem error (f : Fault) : Keeps n (.error f) := fun _ h => by cases h

theorem bind {α : Type} {x : Except Fault α} {f : α → Except Fault Move}
    (h : ∀ a, x = .ok a → Keeps n (f a)) : Keeps n (x >>= f) := by
  cases x with
  | error e => exact error e
  | ok a => exact h a rfl

end Keeps

namespace Machine

section

variable (env : Surroundings) (i : Instruction) (m : Machine)

theorem keeps_lazybranch : Keeps m.captures.groups.size (lazybranch i m) := by
  unfold lazybranch
  split
  · exact .ok rfl
  · exact .bind fun _ _ => .ok rfl
  · exact .error _

theorem keeps_openMark (v : Int) : Keeps m.captures.groups.size (openMark i v m) := by
  unfold openMark
  split
  · exact .ok rfl
  · refine .bind fun _ hpop => .ok ?_
    exact size_of_popValue hpop
  · exact .error _

theorem keeps_getmark : Keeps m.captures.groups.size (getmark i m) := by
  unfold getmark
  split
  · refine .bind fun _ hpop => .ok ?_
    exact size_of_popValue hpop
  · exact .ok rfl
  · exact .error _

theorem keeps_capturemark : Keeps m.captures.groups.size (capturemark i m) := by
  unfold capturemark
  split
  · refine .bind fun _ _ => ?_
    dsimp only
    split
    · exact .ok rfl
    · refine .bind fun _ hpop => .bind fun _ hmake => .ok ?_
      exact (size_of_makeCaptures hmake).trans (size_of_popValue hpop)
  · refine .bind fun _ hundo => .ok ?_
    exact Captures.size_of_undoUntil hundo
  · exact .error _

theorem keeps_branchmark : Keeps m.captures.groups.size (branchmark i m) := by
  unfold branchmark
  split
  · refine .bind fun _ hpop => ?_
    have hsize := size_of_popValue hpop
    dsimp only
    split
    · exact .bind fun _ _ => .ok hsize
    · exact .ok hsize
  · refine .bind fun _ hpop => .ok ?_
    exact size_of_popValue hpop
  · exact .ok rfl

theorem keeps_lazybranchmark : Keeps m.captures.groups.size (lazybranchmark i m) := by
  unfold lazybranchmark
  split
  · refine .bind fun _ hpop => ?_
    have hsize := size_of_popValue hpop
    dsimp only
    split
    · exact .ok hsize
    · exact .ok hsize
  · exact .bind fun _ _ => .ok rfl
  · refine .bind fun _ hpop => .ok ?_
    exact size_of_popValue hpop

theorem keeps_openCount (v : Int) : Keeps m.captures.groups.size (openCount i v m) := by
  unfold openCount
  split
  · exact .bind fun _ _ => .ok rfl
  · refine .bind fun _ hpop => .ok ?_
    exact size_of_popPair hpop
  · exact .error _

theorem keeps_branchcount : Keeps m.captures.groups.size (branchcount i m) := by
  unfold branchcount
  split
  · refine .bind fun _ hpop => .bind fun _ _ => ?_
    have hsize := size_of_popPair hpop
    dsimp only
    split
    · exact .ok hsize
    · exact .bind fun _ _ => .ok hsize
  · refine .bind fun _ hpop => ?_
    have hsize := size_of_popPair hpop
    dsimp only
    split
    · exact .ok hsize
    · exact .ok hsize
  · exact .ok rfl

theorem keeps_lazybranchcount : Keeps m.captures.groups.size (lazybranchcount i m) := by
  unfold lazybranchcount
  split
  · refine .bind fun _ hpop => ?_
    have hsize := size_of_popPair hpop
    dsimp only
    split
    · exact .bind fun _ _ => .ok hsize
    · exact .ok hsize
  · refine .bind fun _ _ => ?_
    split
    · exact .bind fun _ _ => .ok rfl
    · exact .ok rfl
  · refine .bind fun _ hpop => .ok ?_
    exact size_of_popPair hpop

theorem keeps_setjump : Keeps m.captures.groups.size (setjump i m) := by
  unfold setjump
  split
  · exact .ok rfl
  · refine .bind fun _ hpop => .ok ?_
    exact size_of_popPair hpop
  · exact .error _

theorem keeps_backjump : Keeps m.captures.groups.size (backjump i m) := by
  unfold backjump
  split
  · refine .bind fun _ hpop => .bind fun _ hundo => .ok ?_
    exact (Captures.size_of_undoUntil hundo).trans (size_of_popPair hpop)
  · exact .error _

theorem keeps_forejump : Keeps m.captures.groups.size (forejump i m) := by
  unfold forejump
  split
  · refine .bind fun _ hpop => .ok ?_
    exact size_of_popPair hpop
  · refine .bind fun _ hundo => .ok ?_
    exact Captures.size_of_undoUntil hundo
  · exact .error _

theorem keeps_check (holds : Bool) : Keeps m.captures.groups.size (.ok (m.check holds)) := by
  cases holds <;> exact .ok rfl

theorem keeps_moveOn (next : Option Nat) : Keeps m.captures.groups.size (.ok (m.moveOn next)) := by
  cases next <;> exact .ok rfl

theorem keeps_char : Keeps m.captures.groups.size (char env i m) := by
  unfold char
  split
  · refine .bind fun r _ => ?_
    cases r with
    | none => exact .ok rfl
    | some r =>
      refine .bind fun _ _ => .bind fun _ _ => ?_
      split
      · exact .ok rfl
      · exact .ok rfl
  · exact .error _

theorem keeps_multi : Keeps m.captures.groups.size (multi env i m) := by
  unfold multi
  split
  · exact .bind fun _ _ => .bind fun next _ => keeps_moveOn m next
  · exact .error _

theorem keeps_backreference : Keeps m.captures.groups.size (backreference env i m) := by
  unfold backreference
  split
  · refine .bind fun _ _ => ?_
    split
    · exact .bind fun _ _ => .bind fun next _ => keeps_moveOn m next
    · exact keeps_check m _
  · exact .error _

theorem keeps_charRep : Keeps m.captures.groups.size (charRep env i m) := by
  unfold charRep
  split
  · exact .bind fun _ _ => .bind fun _ _ => .bind fun next _ => keeps_moveOn m next
  · exact .error _

theorem keeps_charLoop (givesBack : Bool) :
    Keeps m.captures.groups.size (charLoop env i givesBack m) := by
  unfold charLoop
  split
  · refine .bind fun _ _ => .bind fun _ _ => .bind fun _ _ => ?_
    dsimp only
    split
    · cases givesBack with
      | true => exact .bind fun _ _ => .ok rfl
      | false => exact .ok rfl
    · exact .ok rfl
  · cases givesBack with
    | true =>
      dsimp only
      split
      · split
        · exact .bind fun _ _ => .ok rfl
        · exact .ok rfl
      · exact .error _
    | false => exact .error _
  · exact .error _

theorem keeps_charLazy : Keeps m.captures.groups.size (charLazy env i m) := by
  unfold charLazy
  split
  · refine .bind fun _ _ => ?_
    split
    · refine .bind fun r _ => ?_
      cases r <;> exact .ok rfl
    · exact .ok rfl
  · refine .bind fun r _ => ?_
    cases r with
    | none => exact .ok rfl
    | some r =>
      refine .bind fun _ _ => .bind fun _ _ => ?_
      split
      · dsimp only
        split
        · exact .ok rfl
        · exact .ok rfl
      · exact .ok rfl
  · exact .error _

theorem keeps_assertion : Keeps m.captures.groups.size (assertion env i m) := by
  unfold assertion
  split
  · split
    · exact .bind fun holds _ => keeps_check m holds
    · exact .error _
  · exact .error _

theorem keeps_testBackreference : Keeps m.captures.groups.size (testBackreference i m) := by
  unfold testBackreference
  split
  · exact .bind fun _ _ => keeps_check m _
  · exact .error _

/-- An instruction keeps the groups. -/
theorem keeps_execute : Keeps m.captures.groups.size (m.execute env i) := by
  unfold execute
  split
  case h_1 | h_2 => exact .ok rfl
  case h_3 => exact .bind fun _ _ => .ok rfl
  case h_4 => exact keeps_testBackreference i m
  case h_5 => exact keeps_lazybranch i m
  case h_6 | h_7 => exact keeps_openMark i m _
  case h_8 => exact keeps_getmark i m
  case h_9 => exact keeps_capturemark i m
  case h_10 => exact keeps_branchmark i m
  case h_11 => exact keeps_lazybranchmark i m
  case h_12 | h_13 => exact keeps_openCount i m _
  case h_14 => exact keeps_branchcount i m
  case h_15 => exact keeps_lazybranchcount i m
  case h_16 => exact keeps_setjump i m
  case h_17 => exact keeps_backjump i m
  case h_18 => exact keeps_forejump i m
  case h_19 => exact keeps_char env i m
  case h_20 => exact keeps_multi env i m
  case h_21 => exact keeps_backreference env i m
  case h_22 => exact keeps_charRep env i m
  case h_23 | h_24 => exact keeps_charLoop env i m _
  case h_25 => exact keeps_charLazy env i m
  all_goals exact keeps_assertion env i m

end

theorem size_run (env : Surroundings) (fuel : Nat) (m : Machine) (w : Watch) :
    (run env fuel m w).machine.captures.groups.size = m.captures.groups.size := by
  induction fuel generalizing m w with
  | zero => rfl
  | succ fuel ih =>
    rw [run]
    split
    · rfl
    · split
      · rfl
      · next i _ =>
        have hkeeps := keeps_execute env i m
        split
        · rfl
        · next m' hm' => exact hkeeps _ hm'
        · next m' hm' => exact (ih _ _).trans (hkeeps _ hm')
        · next address m' hm' => exact (ih _ _).trans (hkeeps _ hm')
        · next m' hm' =>
          split
          · exact hkeeps _ hm'
          · split
            · exact (ih _ _).trans (hkeeps _ hm')
            · exact hkeeps _ hm'

end Machine

end RegexMachine
