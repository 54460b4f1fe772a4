import RegexMachine.Proofs.Simulation.Leaf

/-!
# Blocks in sequence, choices and sealed parts

Each construct realizes the matcher of its kind when its parts realize theirs. Openers leave a
choice point that takes back what they pushed, and closers leave one that puts back what they
popped, so that a block fails with the stacks it was entered with.
-/

namespace RegexMachine

open Status Machine Matcher

variable {env : Surroundings} {A : Status → Prop}

/-- Two blocks one after the other. -/
theorem Realizes.andThen {B C : Block} {M N : Matcher} (hM : Realizes env A B M)
    (hN : Realizes env A C N) :
    Realizes env A (fun first last => ∃ middle, B first middle ∧ C middle last)
      (fun s => (M s).flatMap N) := by
  rintro first last ⟨middle, hB, hC⟩ m s hm
  refine (hM first middle hB m s hm).flatMap fun o _ m' hm' => ?_
  have hd := hN middle last hC m' o hm'.toEnters
  rwa [hm'.values_eq] at hd

theorem realizes_sequence {Bs : List Block} {Ms : List Matcher}
    (h : List.Forall₂ (Realizes env A) Bs Ms) :
    Realizes env A (Block.sequence Bs) (Matcher.sequence Ms) := by
  induction h with
  | nil => exact realizes_nothing
  | cons hpart _ ih => exact hpart.andThen ih

/-- A machine that has jumped from where it arrived has arrived where it jumped to. -/
theorem Machine.Arrives.goto {m : Machine} {at_ last : Nat} {values : Stack Int} {f : Frame}
    {o : MatchState} (h : m.Arrives env at_ values f o)
    (hi : env.program.instructions[at_]? = some (Block.jumping .goto last)) :
    Delivers env A last values m.frame (.running m) [o] := by
  rw [← h.address_eq] at hi
  refine .single (.execute hi rfl) ⟨⟨?_, h.values_eq, .refl _⟩, fun x hx => ⟨x, .refl _, hx⟩⟩
  exact h.stay rfl rfl rfl (.refl _)

/-- The choice point of a `Lazybranch` that was left at an address with a cursor. -/
def branchPoint (address : Nat) (cursor : Int) : ChoicePoint := ⟨address, .backtracking ⟨cursor, 0, 0⟩⟩

/-- A `Lazybranch` goes on to its first alternative, with the choice point for the second. -/
theorem reaches_lazybranch {m : Machine} {target : Nat} (hentry : m.entry = .forward)
    (hi : env.program.instructions[m.address]? = some (Block.jumping .lazybranch target)) :
    Reaches env (.running m) (.running ((m.leave m.cursor).continueAt (m.address + 1))) := by
  have hexecute : m.execute env (Block.jumping .lazybranch target) =
      .ok (.next (m.leave m.cursor)) := by
    change lazybranch _ m = _
    rw [lazybranch, hentry]
  exact Reaches.execute hi hexecute

/-- When the first alternative has failed, the second is entered from the same state. -/
theorem enters_branch {m m' : Machine} {s : MatchState} {address target : Nat}
    (hi : env.program.instructions[address]? = some (Block.jumping .lazybranch target))
    (hm : m.Enters env address s)
    (hm' : m'.Stands
      { m.frame with choices := m.choices.push (branchPoint address m.cursor) }) :
    ∃ m'' : Machine, Reaches env (.failing m') (.running m'') ∧ m''.Enters env target s ∧
      m''.Stands m.frame := by
  let after : Machine :=
    { m'.resume (branchPoint address m.cursor) m.choices with cursor := m.cursor }
  have hreach : Reaches env (.failing m') (.running (after.continueAt target)) :=
    .backtrack hm'.choices hi rfl
  exact ⟨_, hreach, hm.stay rfl rfl rfl hm'.captures, ⟨hm'.values, rfl, hm'.captures⟩⟩

theorem realizes_choice {Bs : List Block} {Ms : List Matcher}
    (h : List.Forall₂ (Realizes env A) Bs Ms) (hne : Ms ≠ []) :
    Realizes env A (Block.choice env.program.instructions Bs) (Matcher.choice Ms) := by
  induction h with
  | nil => exact absurd rfl hne
  | @cons B M Bs Ms hpart hrest ih =>
    cases hrest with
    | nil =>
      intro first last hB m s hm
      have hd := hpart first last hB m s hm
      simpa [Matcher.choice] using hd
    | @cons B' M' Bs' Ms' hpart' hrest' =>
      rintro first last ⟨exit, hbranch, hB, hgoto, hBs⟩ m s hm
      have hi := hbranch
      rw [← hm.address_eq] at hi
      have hfirst : ((m.leave m.cursor).continueAt (m.address + 1)).Enters env (first + 1) s :=
        hm.stay (congrArg (· + 1) hm.address_eq) rfl rfl (.refl _)
      have hd := hpart (first + 1) exit hB _ s hfirst
      have hrun : Delivers env A last m.values m.frame (.running m)
          ((M s).flatMap (fun o => [o]) ++ Matcher.choice (M' :: Ms') s) := by
        refine .prepend (reaches_lazybranch hm.entry_eq hi) (hd.bind (f := m.frame)
          ⟨List.suffix_cons _ _, .refl _⟩
          (fun o _ m' hm' => hm'.goto hgoto) fun m' hm' => ?_)
        have hbranched : m'.Stands
            { m.frame with choices := m.choices.push (branchPoint first m.cursor) } := by
          rw [← hm.address_eq]
          exact hm'
        obtain ⟨m'', hreach, henters, hstands⟩ := enters_branch hbranch hm hbranched
        exact ((ih (List.cons_ne_nil _ _)).run hBs henters hstands).prepend hreach
      simpa [Matcher.choice] using hrun

end RegexMachine
