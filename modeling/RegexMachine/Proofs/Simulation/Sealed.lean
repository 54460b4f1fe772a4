import RegexMachine.Proofs.Simulation.Capture

/-!
# Sealed parts

A `Setjump` notes how deep the choice points and the trail are. A `Forejump` cuts the choice points
back to that depth, which leaves nothing of the part to backtrack into, and a `Backjump` takes the
captures back too. Atomic groups, lookarounds and conditionals are made of these.
-/

namespace RegexMachine

open Status Machine Matcher

theorem Stack.truncate_of_suffix {α : Type} {s t : Stack α} (h : s.items <:+ t.items) :
    t.truncate s.depth = s := by
  obtain ⟨above, habove⟩ := h
  have hdepth : t.depth = above.length + s.depth := by
    rw [t.depth_eq, ← habove, List.length_append, s.depth_eq]
  apply Stack.ext
  by_cases hlt : s.depth < t.depth
  · rw [truncate, dif_pos hlt]
    change t.items.drop (t.depth - s.depth) = s.items
    have he : t.depth - s.depth = above.length := by omega
    rw [he, ← habove, List.drop_left]
  · have hnil : above = [] := List.eq_nil_of_length_eq_zero (by omega)
    rw [truncate, dif_neg hlt, ← habove, hnil, List.nil_append]

/-- The stacks after a `Setjump` at an address. -/
def Frame.sealed (f : Frame) (address : Nat) : Frame :=
  f.opened address ((f.values.push f.choices.depth).push f.captures.trail.depth)

variable {env : Surroundings} {A : Status → Prop}

theorem reaches_setjump {m : Machine} (hentry : m.entry = .forward)
    (hi : env.program.instructions[m.address]? = some { opcode := .setjump }) :
    Reaches env (.running m) (.running
      ((m.pushPair m.choices.depth m.captures.trail.depth).leave.continueAt (m.address + 1))) := by
  have hexecute : m.execute env { opcode := .setjump } =
      .ok (.next (m.pushPair m.choices.depth m.captures.trail.depth).leave) := by
    change setjump { opcode := .setjump } m = _
    rw [setjump, hentry]
  exact .execute hi hexecute

theorem unwind_setjump {f : Frame} {address : Nat} {m : Machine}
    (hi : env.program.instructions[address]? = some { opcode := .setjump })
    (hm : m.Stands (f.sealed address)) :
    ∃ m' : Machine, Reaches env (.failing m) (.failing m') ∧ m'.Stands f := by
  let resumed := m.resume ⟨address, .backtracking {}⟩ f.choices
  have hpop : resumed.popPair = .ok (_, { resumed with values := f.values }) :=
    popPair_of_push (m := resumed) hm.values
  have hexecute : resumed.execute env { opcode := .setjump } =
      .ok (.backtrack { resumed with values := f.values }) := by
    change setjump { opcode := .setjump } resumed = _
    simp only [setjump, hpop, bind, Except.bind]
    rfl
  exact ⟨_, .backtrack hm.choices hi hexecute, rfl, rfl, hm.captures⟩

/-- A `Forejump` drops the choice points of the sealed part and takes the depths back. Sent back, it
takes the captures of the part back. -/
theorem reaches_forejump (f : Frame) (opener : Nat) {address : Nat} {t : MatchState} {m : Machine}
    (hm : m.Enters env address t)
    (hi : env.program.instructions[address]? = some { opcode := .forejump })
    (hvalues : m.values = (f.sealed opener).values) (habove : m.frame.Above f) :
    ∃ m' : Machine, Reaches env (.running m) (.running m') ∧ m'.Leaves env (address + 1) f.values f t := by
  rw [← hm.address_eq] at hi
  have hpop := popPair_of_push (m := m) hvalues
  have hcut : m.choices.truncate f.choices.depth = f.choices :=
    Stack.truncate_of_suffix habove.choices
  let after : Machine := ({ m with
    values := f.values, choices := f.choices }).leave f.captures.trail.depth
  have hexecute : m.execute env { opcode := .forejump } = .ok (.next after) := by
    change forejump { opcode := .forejump } m = _
    rw [forejump, hm.entry_eq]
    simp only [hpop, bind, Except.bind, positionOf_natCast, hcut]
    rfl
  refine ⟨_, .execute hi hexecute, ⟨⟨?_, rfl, ⟨List.suffix_cons _ _, habove.captures⟩⟩,
    fun x hx => ?_⟩⟩
  · exact hm.stay (congrArg (· + 1) hm.address_eq) rfl rfl (.refl _)
  · let point : ChoicePoint := ⟨m.address, .backtracking ⟨f.captures.trail.depth, 0, 0⟩⟩
    obtain ⟨e, he, hback⟩ := ((Captures.Extends.of_back hx.captures).trans habove.captures).undo
    have hexecute' : (x.resume point f.choices).execute env { opcode := .forejump } =
        .ok (.backtrack { x.resume point f.choices with captures := e }) := by
      have hundo : (x.resume point f.choices).captures.undoUntil
          (positionOf (f.captures.trail.depth : Int)) = .ok e := by
        rw [positionOf_natCast]
        exact he
      exact congrArg (fun r : Except Fault Captures => r >>= fun captures =>
        pure (Move.backtrack { x.resume point f.choices with captures })) hundo
    exact ⟨_, .backtrack (p := point) hx.choices hi hexecute', hx.values, rfl, hback⟩

/-- A `Backjump` drops the choice points and the captures of the sealed part, and fails. -/
theorem reaches_backjump {f : Frame} {opener address : Nat} {t : MatchState} {m : Machine}
    (hm : m.Enters env address t)
    (hi : env.program.instructions[address]? = some { opcode := .backjump })
    (hvalues : m.values = (f.sealed opener).values) (habove : m.frame.Above f) :
    ∃ m' : Machine, Reaches env (.running m) (.failing m') ∧ m'.Stands f := by
  rw [← hm.address_eq] at hi
  have hpop := popPair_of_push (m := m) hvalues
  have hcut : m.choices.truncate f.choices.depth = f.choices :=
    Stack.truncate_of_suffix habove.choices
  obtain ⟨e, he, hback⟩ := habove.captures.undo
  have he' : m.captures.undoUntil f.captures.trail.depth = .ok e := he
  have hexecute : m.execute env { opcode := .backjump } =
      .ok (.backtrack { m with values := f.values, choices := f.choices, captures := e }) := by
    change backjump { opcode := .backjump } m = _
    simp only [backjump, hm.entry_eq, hpop, bind, Except.bind, positionOf_natCast, hcut, he']
    rfl
  exact ⟨_, .execute hi hexecute, rfl, rfl, hback⟩

/-- A `Getmark` goes back to the place of its mark, and a `Forejump` behind it leaves the part. -/
theorem reaches_getmark {f : Frame} {opener address : Nat} {t : MatchState} {p : Place}
    {m : Machine} (hm : m.Enters env address t) (hp : p.In env.text)
    (hget : env.program.instructions[address]? = some { opcode := .getmark })
    (hfore : env.program.instructions[address + 1]? = some { opcode := .forejump })
    (hvalues : m.values = (f.sealed opener).values.push (markOf p.offset))
    (habove : m.frame.Above f) :
    ∃ m' : Machine, Reaches env (.running m) (.running m') ∧
      m'.Leaves env (address + 2) f.values f (t.moveTo p) := by
  rw [← hm.address_eq] at hget
  let after : Machine := { ({ m with values := (f.sealed opener).values } : Machine).leave
    (markOf p.offset) with cursor := markOf p.offset }
  have hexecute : m.execute env { opcode := .getmark } = .ok (.next after) := by
    change getmark { opcode := .getmark } m = _
    rw [getmark, hm.entry_eq]
    simp only [popValue_of_push hvalues, bind, Except.bind]
    rfl
  have hafter : (after.continueAt (after.address + 1)).Enters env (address + 1) (t.moveTo p) :=
    hm.goTo (congrArg (· + 1) hm.address_eq) rfl rfl (.refl _) hp
  obtain ⟨m', hreach, hleaves⟩ := reaches_forejump f opener hafter hfore rfl
    (.trans (g := m.frame) ⟨List.suffix_cons _ _, .refl _⟩ habove)
  exact ⟨m', (Reaches.execute hget hexecute).trans hreach, hleaves⟩

/-- A block that is entered behind a sealed part. -/
theorem Machine.Leaves.run {m : Machine} {address last : Nat} {t : MatchState} {f : Frame}
    {outcomes : List MatchState} (h : m.Leaves env address f.values f t)
    (hd : Delivers env A last m.values m.frame (.running m) outcomes) :
    Delivers env A last f.values f (.running m) outcomes := by
  rw [h.values_eq] at hd
  exact hd.unwind h.above h.unwinds

/-- The machine behind a `Setjump`. -/
def Machine.sealed (m : Machine) : Machine :=
  (m.pushPair m.choices.depth m.captures.trail.depth).leave.continueAt (m.address + 1)

theorem Machine.sealed_above (m : Machine) : m.sealed.frame.Above m.frame :=
  m.frame.opened_above _ _

theorem realizes_atomic {B : Block} {M : Matcher} (h : Realizes env A B M) (needsFrame : Bool)
    (hbare : needsFrame = false → ∀ s, (M s).length ≤ 1) :
    Realizes env A (Block.atomic env.program.instructions needsFrame B) (Matcher.atomic M) := by
  intro first last hB m s hm
  rw [Matcher.atomic]
  cases needsFrame with
  | false =>
    rw [List.take_of_length_le (hbare rfl s)]
    exact h first last hB m s hm
  | true =>
    obtain ⟨closer, hopen, hB, hclose, rfl⟩ := hB
    have hi := hopen
    rw [← hm.address_eq] at hi
    have hreach : Reaches env (.running m) (.running m.sealed) := reaches_setjump hm.entry_eq hi
    have hbody : m.sealed.Enters env (first + 1) s :=
      hm.stay (congrArg (· + 1) hm.address_eq) rfl rfl (.refl _)
    have hd := h (first + 1) closer hB m.sealed s hbody
    refine .prepend hreach ?_
    generalize M s = outcomes at hd
    cases hd with
    | aborted reach hA => exact .aborted reach hA
    | failed reach stands =>
      obtain ⟨m', hreach', hstands⟩ := unwind_setjump (f := m.frame) hi stands
      exact .failed (reach.trans hreach') hstands
    | @arrived _ m₁ o outcomes reach arrives more =>
      obtain ⟨m₂, hreach', hleaves⟩ := reaches_forejump m.frame m.address
        arrives.toEnters hclose arrives.values_eq (arrives.above.trans m.sealed_above)
      exact .single (reach.trans hreach') hleaves

theorem realizes_positiveLook {B : Block} {M : Matcher} (h : Realizes env A B M) :
    Realizes env A (Block.positiveLook env.program.instructions B) (Matcher.positiveLook M) := by
  rintro first last ⟨closer, hseal, hmark, hB, hget, hfore, rfl⟩ m s hm
  have hi := hseal
  rw [← hm.address_eq] at hi
  have hreach₁ : Reaches env (.running m) (.running m.sealed) := reaches_setjump hm.entry_eq hi
  have hm₁ : m.sealed.Enters env (first + 1) s :=
    hm.stay (congrArg (· + 1) hm.address_eq) rfl rfl (.refl _)
  have hi₁ := hmark
  rw [← hm₁.address_eq] at hi₁
  let m₂ := (m.sealed.pushValue m.cursor).leave.continueAt (m.sealed.address + 1)
  have hreach₂ : Reaches env (.running m.sealed) (.running m₂) :=
    reaches_mark m.cursor rfl (.inl ⟨rfl, rfl⟩) hi₁
  have habove₂ : m₂.frame.Above m.sealed.frame := m.sealed.frame.opened_above _ _
  have hm₂ : m₂.Enters env (first + 2) s :=
    hm.stay (congrArg (· + 2) hm.address_eq) rfl rfl (.refl _)
  have hd := h (first + 2) closer hB m₂ s hm₂
  rw [Matcher.positiveLook]
  refine .prepend (hreach₁.trans hreach₂) ?_
  generalize M s = outcomes at hd
  cases hd with
  | aborted reach hA => exact .aborted reach hA
  | failed reach stands =>
    obtain ⟨m', hreach', hstands'⟩ := unwind_mark (f := m.sealed.frame) (.inl rfl) hi₁ stands
    obtain ⟨m'', hreach'', hstands''⟩ := unwind_setjump (f := m.frame) hi hstands'
    exact .failed (reach.trans (hreach'.trans hreach'')) hstands''
  | @arrived _ m₃ o outcomes reach arrives more =>
    have hvalues : m₃.values = (m.frame.sealed m.address).values.push (markOf s.place.offset) := by
      rw [arrives.values_eq, ← hm.cursor_eq]
      rfl
    obtain ⟨m₄, hreach', hleaves⟩ := reaches_getmark (f := m.frame) arrives.toEnters
      hm.sound.place_in hget hfore hvalues (arrives.above.trans (habove₂.trans m.sealed_above))
    exact .single (reach.trans hreach') hleaves

/-- A sealed part with two alternatives starts in the first. -/
theorem reaches_sealedBranch {m : Machine} {s : MatchState} {first target : Nat}
    (hm : m.Enters env first s)
    (hseal : env.program.instructions[first]? = some { opcode := .setjump })
    (hbranch : env.program.instructions[first + 1]? = some (Block.jumping .lazybranch target)) :
    ∃ m' : Machine, Reaches env (.running m) (.running m') ∧ m'.Enters env (first + 2) s ∧
      m'.values = (m.frame.sealed first).values ∧ m'.frame.Above m.frame ∧
      ∀ x : Machine, x.Stands m'.frame → ∃ y : Machine, Reaches env (.failing x) (.running y) ∧
        y.Enters env target s ∧ y.Stands (m.frame.sealed first) := by
  have hi := hseal
  rw [← hm.address_eq] at hi
  have hreach₁ : Reaches env (.running m) (.running m.sealed) := reaches_setjump hm.entry_eq hi
  have hm₁ : m.sealed.Enters env (first + 1) s :=
    hm.stay (congrArg (· + 1) hm.address_eq) rfl rfl (.refl _)
  have hi₁ := hbranch
  rw [← hm₁.address_eq] at hi₁
  have hreach₂ : Reaches env (.running m.sealed) _ := reaches_lazybranch hm₁.entry_eq hi₁
  refine ⟨_, hreach₁.trans hreach₂, hm.stay (congrArg (· + 2) hm.address_eq) rfl rfl (.refl _), rfl,
    .trans (g := m.sealed.frame) ⟨List.suffix_cons _ _, .refl _⟩ m.sealed_above, fun x hx => ?_⟩
  have hbranched : x.Stands { m.sealed.frame with
      choices := m.sealed.choices.push (branchPoint (first + 1) m.sealed.cursor) } := by
    rw [← hm₁.address_eq]
    exact hx
  obtain ⟨y, hreach, hy, hstands⟩ := enters_branch hbranch hm₁ hbranched
  refine ⟨y, hreach, hy, ?_⟩
  rw [← hm.address_eq]
  exact hstands

theorem realizes_negativeLook {B : Block} {M : Matcher} (h : Realizes env A B M) :
    Realizes env A (Block.negativeLook env.program.instructions B) (Matcher.negativeLook M) := by
  rintro first last ⟨closer, hseal, hbranch, hB, hback, hfore, rfl⟩ m s hm
  obtain ⟨m₁, hreach₁, hm₁, hvalues₁, habove₁, hbranched⟩ :=
    reaches_sealedBranch hm hseal hbranch
  have hd := h (first + 2) closer hB m₁ s hm₁
  rw [Matcher.negativeLook]
  refine .prepend hreach₁ ?_
  generalize M s = outcomes at hd
  cases hd with
  | aborted reach hA => exact .aborted reach hA
  | @failed _ x reach stands =>
    obtain ⟨m₂, hreach₂, hm₂, hstands₂⟩ := hbranched x stands
    obtain ⟨m₃, hreach₃, hleaves⟩ := reaches_forejump m.frame _ hm₂ hfore hstands₂.values
      (hstands₂.above.trans (m.frame.opened_above _ _))
    exact .single (reach.trans (hreach₂.trans hreach₃)) hleaves
  | @arrived _ m₂ o outcomes reach arrives more =>
    obtain ⟨m₃, hreach₃, hstands₃⟩ := reaches_backjump (f := m.frame) arrives.toEnters hback
      (arrives.values_eq.trans hvalues₁) (arrives.above.trans habove₁)
    exact .failed (reach.trans hreach₃) hstands₃

end RegexMachine
