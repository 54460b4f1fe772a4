import RegexMachine.Proofs.Program.Compile
import RegexMachine.Proofs.Simulation.Tree

/-!
# Attempts

An attempt enters the block of the root and stops behind it, with the first outcome or with what it
started from. In the latter case it has its stacks back.
-/

namespace RegexMachine

open Status Machine

variable {env : Surroundings} {A : Status → Prop}

/-- Where an attempt from a state ends: in the first outcome, or where it started. -/
def Matcher.settled (M : Matcher) (s : MatchState) : MatchState := (M s).head?.getD s

/-- A program that runs a block between its first instruction and its last ends its attempts as the
matcher of the block does, unless they are given up. Without an outcome it stops with the stacks that it
started with. -/
theorem reaches_end {B : Block} {M : Matcher} {last : Nat} (hM : Realizes env A B M)
    (hopening : env.program.instructions[0]? = some (Block.jumping .lazybranch last))
    (hB : B 1 last) (hstop : env.program.instructions[last]? = some { opcode := .stop })
    {m : Machine} {s : MatchState} (hm : m.Enters env 0 s) :
    (∃ t, Reaches env (.running m) t ∧ A t) ∨
      ∃ m' : Machine, Reaches env (.running m) (.ended (m'.captures.isMatched 0) m') ∧
        m'.Enters env last (M.settled s) ∧ (M s = [] → m'.Stands m.frame) := by
  have hi := hopening
  rw [← hm.address_eq] at hi
  have hreach := reaches_lazybranch hm.entry_eq hi
  have hend : ∀ {x : Machine} {t : MatchState}, x.Enters env last t →
      Reaches env (.running x) (.ended (x.captures.isMatched 0) x) := by
    intro x t hx
    rw [← hx.address_eq] at hstop
    exact .execute hstop rfl
  let entered := (m.leave m.cursor).continueAt (m.address + 1)
  have hentered : entered.Enters env 1 s :=
    hm.stay (congrArg (· + 1) hm.address_eq) rfl rfl (.refl _)
  have hd := hM 1 last hB entered s hentered
  rw [Matcher.settled]
  generalize M s = outcomes at hd
  cases hd with
  | aborted reach hA => exact .inl ⟨_, hreach.trans reach, hA⟩
  | @failed _ x reach stands =>
    have hbranched : x.Stands
        { m.frame with choices := m.choices.push (branchPoint 0 m.cursor) } := by
      rw [← hm.address_eq]
      exact stands
    obtain ⟨y, hreach', hy, hstands⟩ := enters_branch hopening hm hbranched
    exact .inr ⟨y, hreach.trans (reach.trans (hreach'.trans (hend hy))), hy, fun _ => hstands⟩
  | @arrived _ x o outcomes reach arrives more =>
    exact .inr ⟨x, hreach.trans (reach.trans (hend arrives.toEnters)), arrives.toEnters, nofun⟩

end RegexMachine
