import RegexMachine.Proofs.Simulation.Sealed

/-!
# Conditionals

The test of a conditional is sealed: once it is decided, the branch that was taken runs over the
stacks from before the conditional, and nothing sends it to the other branch.
-/

namespace RegexMachine

open Status Machine Matcher

variable {env : Surroundings} {A : Status → Prop}

/-- A branch that ends with a jump behind the conditional. -/
theorem Realizes.jumping {B : Block} {M : Matcher} (h : Realizes env A B M) {first exit last : Nat}
    (hB : B first exit)
    (hgoto : env.program.instructions[exit]? = some (Block.jumping .goto last)) {m : Machine}
    {s : MatchState} (hm : m.Enters env first s) :
    Delivers env A last m.values m.frame (.running m) (M s) := by
  have hd : Delivers env A last m.values m.frame (.running m) ((M s).flatMap fun o => [o]) :=
    (h first exit hB m s hm).flatMap fun o _ m' hm' => hm'.goto hgoto
  simpa using hd

theorem realizes_backreferenceConditional (group : Nat) {Y N : Block} {yes no : Matcher}
    (hyes : Realizes env A Y yes) (hno : Realizes env A N no) :
    Realizes env A (Block.backreferenceConditional env.program.instructions group Y N)
      (Matcher.backreferenceConditional group yes no) := by
  rintro first last ⟨exit, hseal, hbranch, htest, hfore, hY, hgoto, hfore', hN⟩ m s hm
  obtain ⟨m₁, hreach₁, hm₁, hvalues₁, habove₁, hbranched⟩ :=
    reaches_sealedBranch hm hseal hbranch
  have hexecute : m₁.execute env { opcode := .testBackreference, payload := .group group } =
      .ok (m₁.check (!(s.captured group).isEmpty)) := by
    rw [← hm₁.left_eq, ← Captures.isMatched_eq hm₁.proper]
    change testBackreference { opcode := .testBackreference, payload := .group group } m₁ = _
    rw [testBackreference, hm₁.entry_eq]
    rfl
  rw [← hm₁.address_eq] at htest
  have hreach₂ := Reaches.execute htest hexecute
  rw [Matcher.backreferenceConditional]
  refine .prepend hreach₁ ?_
  cases hempty : (s.captured group).isEmpty with
  | true =>
    rw [hempty] at hreach₂
    obtain ⟨m₂, hreach₃, hm₂, hstands₂⟩ := hbranched m₁ (.refl m₁)
    obtain ⟨m₃, hreach₄, hleaves⟩ := reaches_forejump m.frame _ hm₂ hfore' hstands₂.values
      (hstands₂.above.trans (m.frame.opened_above _ _))
    have hd := hno (exit + 2) last hN m₃ s hleaves.toEnters
    exact .prepend (hreach₂.trans (hreach₃.trans hreach₄)) (hleaves.run hd)
  | false =>
    rw [hempty] at hreach₂
    let m₂ := m₁.continueAt (m₁.address + 1)
    have hm₂ : m₂.Enters env (first + 3) s :=
      hm₁.stay (congrArg (· + 1) hm₁.address_eq) rfl rfl (.refl _)
    obtain ⟨m₃, hreach₃, hleaves⟩ := reaches_forejump m.frame _ hm₂ hfore hvalues₁ habove₁
    have hd := hyes.jumping hY hgoto hleaves.toEnters
    exact .prepend (hreach₂.trans hreach₃) (hleaves.run hd)

theorem realizes_expressionConditional {C Y N : Block} {condition yes no : Matcher}
    (hcondition : Realizes env A C condition) (hyes : Realizes env A Y yes)
    (hno : Realizes env A N no) :
    Realizes env A (Block.expressionConditional env.program.instructions C Y N)
      (Matcher.expressionConditional condition yes no) := by
  rintro first last ⟨closer, exit, hseal, hmark, hbranch, hC, hget, hfore, hY, hgoto, hget', hfore',
    hN⟩ m s hm
  have hi := hseal
  rw [← hm.address_eq] at hi
  have hreach₁ : Reaches env (.running m) (.running m.sealed) := reaches_setjump hm.entry_eq hi
  have hm₁ : m.sealed.Enters env (first + 1) s :=
    hm.stay (congrArg (· + 1) hm.address_eq) rfl rfl (.refl _)
  have hi₁ := hmark
  rw [← hm₁.address_eq] at hi₁
  let m₂ := (m.sealed.pushValue m.cursor).leave.continueAt (m.sealed.address + 1)
  have hreach₂ : Reaches env (.running m.sealed) (.running m₂) :=
    reaches_mark m.cursor rfl (.inl ⟨rfl, rfl⟩) hi₁
  have hm₂ : m₂.Enters env (first + 2) s :=
    hm.stay (congrArg (· + 2) hm.address_eq) rfl rfl (.refl _)
  have habove₂ : m₂.frame.Above m.frame :=
    .trans (g := m.sealed.frame) (m.sealed.frame.opened_above _ _) m.sealed_above
  have hvalues₂ : m₂.values = (m.frame.sealed m.address).values.push (markOf s.place.offset) := by
    rw [← hm.cursor_eq]
    rfl
  have hi₂ := hbranch
  rw [← hm₂.address_eq] at hi₂
  let m₃ := (m₂.leave m₂.cursor).continueAt (m₂.address + 1)
  have hreach₃ : Reaches env (.running m₂) (.running m₃) := reaches_lazybranch rfl hi₂
  have hm₃ : m₃.Enters env (first + 3) s :=
    hm.stay (congrArg (· + 3) hm.address_eq) rfl rfl (.refl _)
  have habove₃ : m₃.frame.Above m.frame :=
    .trans (g := m₂.frame) ⟨List.suffix_cons _ _, .refl _⟩ habove₂
  have hd := hcondition (first + 3) closer hC m₃ s hm₃
  rw [Matcher.expressionConditional]
  refine .prepend (hreach₁.trans (hreach₂.trans hreach₃)) ?_
  generalize condition s = outcomes at hd
  cases hd with
  | aborted reach hA => exact .aborted reach hA
  | @failed _ x reach stands =>
    have hbranched : x.Stands
        { m₂.frame with choices := m₂.choices.push (branchPoint (first + 2) m₂.cursor) } := by
      rw [← hm₂.address_eq]
      exact stands
    obtain ⟨m₄, hreach₄, hm₄, hstands₄⟩ := enters_branch hbranch hm₂ hbranched
    obtain ⟨m₅, hreach₅, hleaves⟩ := reaches_getmark (f := m.frame) hm₄ hm.sound.place_in hget'
      hfore' (hstands₄.values.trans hvalues₂) (hstands₄.above.trans habove₂)
    have hd' := hno (exit + 3) last hN m₅ s hleaves.toEnters
    exact .prepend (reach.trans (hreach₄.trans hreach₅)) (hleaves.run hd')
  | @arrived _ m₄ o outcomes reach arrives more =>
    obtain ⟨m₅, hreach₅, hleaves⟩ := reaches_getmark (f := m.frame) arrives.toEnters
      hm.sound.place_in hget hfore (arrives.values_eq.trans hvalues₂)
      (arrives.above.trans habove₃)
    have hd' := hyes.jumping hY hgoto hleaves.toEnters
    exact .prepend (reach.trans hreach₅) (hleaves.run hd')

end RegexMachine
