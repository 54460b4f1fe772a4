import RegexMachine.Proofs.Outcomes.Thinning
import RegexMachine.Proofs.Simulation.Sealed

/-!
# Loops

The closer of a loop stands where every run of the body arrives. It finds the place where that run
started and, in a counted loop, how many runs there were. It runs the body again or leaves the loop,
and when it is sent back it does what it has not done yet.

The four closers keep their books in different ways, so what each of them does is said once, in the
terms in which outcomes are delivered. What a whole loop delivers follows from that alone.
-/

namespace RegexMachine

open Status Machine Matcher

/-- The values at the closer of a loop after `done` runs of the body, the last one from `mark`. -/
def loopValues (counted : Bool) (min : Nat) (values : Stack Int) (mark : Int) (done : Nat) :
    Stack Int :=
  if counted then (values.push mark).push ((done : Int) - min) else values.push mark

/-- The machine is at the closer of a lazy loop whose body has matched empty. The closer then keeps
the mark on the stack and leaves the loop. -/
def Machine.Spills (env : Surroundings) (m : Machine) : Prop :=
  m.entry = .forward ∧ m.values.top? = some m.cursor ∧
    ∃ i, env.program.instructions[m.address]? = some i ∧ i.opcode = .lazybranchmark

/-- What the closer of a loop delivers. The mark of a loop that has not run is not always put back
as it was. -/
structure Closes (env : Surroundings) (A : Status → Prop) (start closer : Nat) (values : Stack Int)
    (min : Nat) (spare : Option Nat) (isLazy : Bool) (top : Int → Nat → Stack Int) : Prop where
  /-- Runs the body again, and ends the loop before or after that beyond the minimum. -/
  again : ∀ {m : Machine} {s : MatchState} {done : Nat} {mark : Int} {outcomes : List MatchState},
    m.Enters env closer s → m.values = top mark done → (0 < min → 0 < done) →
    (done < min ∨ spare.all (done - min < ·) = true ∧ m.cursor ≠ mark) →
    (∀ y : Machine, y.Enters env start s → y.values = top m.cursor (done + 1) →
      Delivers env A (closer + 1) values y.frame (.running y) outcomes) →
    ∃ back, (mark ≠ -1 → back = mark) ∧
      Delivers env A (closer + 1) values { m.frame with values := top back done } (.running m)
        (if done < min then outcomes else if isLazy then s :: outcomes else outcomes ++ [s])
  /-- Leaves the loop when the runs beyond the minimum are used up. -/
  spent : ∀ {m : Machine} {s : MatchState} {done : Nat} {mark : Int},
    m.Enters env closer s → m.values = top mark done → min ≤ done →
    spare.all (done - min < ·) = false →
    Delivers env A (closer + 1) values m.frame (.running m) [s]

/-- The closer leaves the loop when the last run of the body has matched empty. -/
def LeavesEmpty (env : Surroundings) (A : Status → Prop) (closer : Nat) (values : Stack Int)
    (min : Nat) (top : Int → Nat → Stack Int) : Prop :=
  ∀ {m : Machine} {s : MatchState} {done : Nat}, m.Enters env closer s →
    m.values = top m.cursor done → min ≤ done →
    Delivers env A (closer + 1) values m.frame (.running m) [s]

section

variable {env : Surroundings} {A : Status → Prop}

theorem Machine.Enters.cursor_ne {m : Machine} {address : Nat} {s : MatchState}
    (h : m.Enters env address s) (hsize : env.text.size < lastPosition) : m.cursor ≠ -1 := by
  intro hcursor
  have hposition := h.position_eq
  rw [position, hcursor] at hposition
  have hle := Text.offset_le_size h.sound.place_in
  have hlast : positionOf (-1) = lastPosition := by decide
  omega

theorem Place.eq_of_mark {t : Text} {p q : Place} (hp : p.In t) (hq : q.In t)
    (h : markOf p.offset = markOf q.offset) : p = q := by
  have hoffset := congrArg positionOf h
  rw [positionOf_markOf, positionOf_markOf] at hoffset
  exact eq_of_offset (hp.trans hq.symm) hoffset

variable {d : Direction} {B : Block} {body : Matcher} {start closer min : Nat} {values : Stack Int}
  {spare : Option Nat} {isLazy : Bool} {top : Int → Nat → Stack Int}
  (hbody : Realizes env A B body) (hB : B start closer) (honward : Onward d body)
  (hcloses : Closes env A start closer values min spare isLazy top)
  (hempty : LeavesEmpty env A closer values min top ∨ body.Moves env.text)
  (hsize : env.text.size < lastPosition)

include hbody hB honward hempty hsize

/-- A run of the body, and what follows it. -/
theorem delivers_again (done : Nat) {s : MatchState}
    (hloop : ∀ t, done + 1 < min ∨ t.place.ahead d < s.place.ahead d →
      ∀ (m : Machine) (mark : Int), m.Enters env closer t → m.values = top mark (done + 1) →
        (done + 1 < min ∨ m.cursor ≠ mark) → ∃ back, (mark ≠ -1 → back = mark) ∧
          Delivers env A (closer + 1) values { m.frame with values := top back (done + 1) }
            (.running m) (loop d body min spare isLazy (done + 1) t))
    {m : Machine} (hm : m.Enters env start s) (hvalues : m.values = top m.cursor (done + 1)) :
    Delivers env A (closer + 1) values m.frame (.running m)
      (again d body min spare isLazy done s) := by
  refine (hbody start closer hB m s hm).flatMap fun t ht m' hm' => ?_
  have hvalues' := hm'.values_eq.trans hvalues
  rw [afterRun]
  split
  · next hrun =>
    have hmoved : done + 1 < min ∨ m'.cursor ≠ m.cursor := by
      refine hrun.imp_right fun hlt heq => ?_
      rw [hm'.cursor_eq, hm.cursor_eq] at heq
      rw [Place.eq_of_mark hm'.sound.place_in hm.sound.place_in heq] at hlt
      exact Nat.lt_irrefl _ hlt
    obtain ⟨back, hback, hd⟩ := hloop t hrun m' m.cursor hm'.toEnters hvalues' hmoved
    rw [hback (hm.cursor_ne hsize), ← hvalues'] at hd
    exact hd
  · next hrun =>
    have hle := honward s t ht
    have hplace : t.place = s.place :=
      Place.eq_of_ahead (d := d) (hm'.sound.place_in.trans hm.sound.place_in.symm) (by omega)
    rcases hempty with hleaves | hne
    · refine @hleaves _ _ (done + 1) hm'.toEnters ?_ (by omega)
      rw [hm'.cursor_eq, hplace, ← hm.cursor_eq]
      exact hvalues'
    · exact absurd hplace (hne s t ht hm.sound)

include hcloses

/-- At the closer, the loop goes on as its matcher does. -/
theorem delivers_closer : ∀ (done : Nat) (s : MatchState), (0 < min → 0 < done) →
    ∀ (m : Machine) (mark : Int), m.Enters env closer s → m.values = top mark done →
      (done < min ∨ m.cursor ≠ mark) → ∃ back, (mark ≠ -1 → back = mark) ∧
        Delivers env A (closer + 1) values { m.frame with values := top back done } (.running m)
          (loop d body min spare isLazy done s) := by
  refine loop_induction d min fun done s ih hdone m mark hm hvalues hmark => ?_
  have hagain : ∀ y : Machine, y.Enters env start s → y.values = top m.cursor (done + 1) →
      Delivers env A (closer + 1) values y.frame (.running y)
        (again d body min spare isLazy done s) := by
    intro y hy hyvalues
    rw [hm.cursor_eq, ← hy.cursor_eq] at hyvalues
    exact delivers_again hbody hB honward hempty hsize done
      (fun t hrun => ih t hrun fun _ => Nat.succ_pos done) hy hyvalues
  rw [loop_eq]
  by_cases hlt : done < min
  · have h := hcloses.again hm hvalues hdone (.inl hlt) hagain
    rwa [if_pos hlt] at h ⊢
  · rw [if_neg hlt]
    by_cases hspare : spare.all (done - min < ·) = true
    · have h := hcloses.again hm hvalues hdone
        (.inr ⟨hspare, hmark.resolve_left hlt⟩) hagain
      rw [if_neg hlt] at h
      rwa [if_pos hspare]
    · rw [if_neg hspare]
      refine ⟨mark, fun _ => rfl, ?_⟩
      rw [← hvalues]
      exact hcloses.spent hm hvalues (by omega) (Bool.not_eq_true _ ▸ hspare)

end

section

variable {env : Surroundings} {A : Status → Prop} {start closer min : Nat} {values : Stack Int}

/-- The values at a closer that keeps no count. -/
private abbrev markOnly (values : Stack Int) (mark : Int) (_ : Nat) : Stack Int := values.push mark

/-- What a greedy loop leaves behind puts its mark back when it is sent back. -/
theorem leaves_branchmark {m x : Machine} {s : MatchState} {mark : Int}
    (hi : env.program.instructions[closer]? = some (Block.jumping .branchmark start))
    (hm : m.Enters env closer s) (hvalues : m.values = values.push mark)
    (haddress : x.address = closer) (hcursor : x.cursor = m.cursor)
    (hx : x.Stands { m.frame with values }) :
    ((x.leaveSecond mark).continueAt (x.address + 1)).Leaves env (closer + 1) values m.frame s := by
  have hchoices : x.choices = m.choices := hx.choices
  have hback : x.captures.Back m.captures := hx.captures
  refine ⟨⟨hm.stay (congrArg (· + 1) haddress) rfl hcursor hback, hx.values, ?_, .of_back hback⟩,
    fun y hy => ?_⟩
  · change m.choices.items <:+ (x.choices.push _).items
    rw [hchoices]
    exact List.suffix_cons _ _
  · rw [← haddress] at hi
    let resumed := y.resume ⟨x.address, .backtrackingSecond ⟨mark, 0, 0⟩⟩ x.choices
    have hexecute : resumed.execute env (Block.jumping .branchmark start) =
        .ok (.backtrack (resumed.pushValue mark)) := rfl
    refine ⟨_, .backtrack hy.choices hi hexecute, ?_, hchoices, hy.captures.trans hback⟩
    change y.values.push mark = m.values
    rw [hvalues]
    exact congrArg (·.push mark) (hy.values.trans hx.values)

theorem leavesEmpty_branchmark
    (hi : env.program.instructions[closer]? = some (Block.jumping .branchmark start)) :
    LeavesEmpty env A closer values min (markOnly values) := by
  intro m s done hm hvalues _
  have hi' := hi
  rw [← hm.address_eq] at hi'
  have hexecute : m.execute env (Block.jumping .branchmark start) =
      .ok (.next (({ m with values } : Machine).leaveSecond m.cursor)) := by
    change branchmark _ m = _
    simp only [branchmark, hm.entry_eq, popValue_of_push hvalues, bind, Except.bind,
      bne_self_eq_false, Bool.false_eq_true, if_false]
    rfl
  exact .single (.execute hi' hexecute) (leaves_branchmark (x := { m with values }) hi hm hvalues
    hm.address_eq rfl ⟨rfl, rfl, .refl _⟩)

theorem closes_branchmark (hmin : min ≤ 1)
    (hi : env.program.instructions[closer]? = some (Block.jumping .branchmark start)) :
    Closes env A start closer values min none false (markOnly values) where
  again := by
    intro m s done mark outcomes hm hvalues hdone hmore hbody
    obtain ⟨-, hne⟩ := hmore.resolve_left (by omega)
    have hi' := hi
    rw [← hm.address_eq] at hi'
    let after : Machine :=
      (({ m with entry := .forward, values } : Machine).leave mark m.cursor).pushValue m.cursor
    have hmoved : (m.cursor != mark) = true := bne_iff_ne.2 hne
    have hexecute : m.execute env (Block.jumping .branchmark start) = .ok (.jump start after) := by
      change branchmark _ m = _
      simp only [branchmark, hm.entry_eq, popValue_of_push hvalues, bind, Except.bind, hmoved,
        if_true]
      rfl
    refine ⟨mark, fun _ => rfl, ?_⟩
    rw [if_neg (by omega), if_neg Bool.false_ne_true, ← hvalues]
    have hd := hbody (after.continueAt start) (hm.stay rfl rfl rfl (.refl _)) rfl
    refine .prepend (.execute hi' hexecute)
      (hd.append ⟨List.suffix_cons _ _, .refl _⟩ fun x hx => ?_)
    -- The body has nothing left, so the loop ends where it was before this run.
    let resumed := x.resume ⟨m.address, .backtracking ⟨mark, m.cursor, 0⟩⟩ m.choices
    have hpop : resumed.popValue = .ok (m.cursor, { resumed with values }) :=
      popValue_of_push (m := resumed) hx.values
    have hexecute' : resumed.execute env (Block.jumping .branchmark start) =
        .ok (.next (({ resumed with values, cursor := m.cursor } : Machine).leaveSecond mark)) := by
      change branchmark (Block.jumping .branchmark start) resumed = _
      simp only [branchmark, hpop, bind, Except.bind]
      rfl
    exact .single (.backtrack hx.choices hi' hexecute')
      (leaves_branchmark hi hm hvalues hm.address_eq rfl ⟨rfl, rfl, hx.captures⟩)
  spent := by
    intro m s done mark hm hvalues hle hspare
    cases hspare

/-- At the closer of a lazy loop whose body has matched empty, the run spills. -/
theorem leavesEmpty_lazybranchmark (hA : ∀ m : Machine, m.Spills env → A (.running m))
    (hi : env.program.instructions[closer]? = some (Block.jumping .lazybranchmark start)) :
    LeavesEmpty env A closer values min (markOnly values) := by
  intro m s done hm hvalues _
  refine .aborted (.refl _) (hA m ⟨hm.entry_eq, ?_, _, hm.address_eq ▸ hi, rfl⟩)
  rw [hvalues]
  rfl

theorem closes_lazybranchmark (hmin : min ≤ 1)
    (hi : env.program.instructions[closer]? = some (Block.jumping .lazybranchmark start)) :
    Closes env A start closer values min none true (markOnly values) where
  again := by
    intro m s done mark outcomes hm hvalues hdone hmore hbody
    obtain ⟨-, hne⟩ := hmore.resolve_left (by omega)
    have hi' := hi
    rw [← hm.address_eq] at hi'
    let back : Int := if mark != -1 then mark else m.cursor
    let after : Machine := ({ m with entry := .forward, values } : Machine).leave back m.cursor
    have hmoved : (m.cursor != mark) = true := bne_iff_ne.2 hne
    have hexecute : m.execute env (Block.jumping .lazybranchmark start) = .ok (.next after) := by
      change lazybranchmark _ m = _
      simp only [lazybranchmark, hm.entry_eq, popValue_of_push hvalues, bind, Except.bind,
        hmoved, if_true]
      rfl
    refine ⟨back, fun hmark => ?_, ?_⟩
    · exact if_pos (bne_iff_ne.2 hmark)
    rw [if_neg (by omega), if_pos rfl]
    refine .arrived (.execute hi' hexecute) ⟨hm.stay (congrArg (· + 1) hm.address_eq) rfl rfl
      (.refl _), rfl, List.suffix_cons _ _, .refl _⟩ fun x hx => ?_
    let resumed := x.resume ⟨m.address, .backtracking ⟨back, m.cursor, 0⟩⟩ m.choices
    let again : Machine :=
      { (resumed.leaveSecond back).pushValue m.cursor with cursor := m.cursor }
    have hexecute' : resumed.execute env (Block.jumping .lazybranchmark start) =
        .ok (.jump start again) := rfl
    have hd := hbody (again.continueAt start) (hm.stay rfl rfl rfl hx.captures)
      (congrArg (·.push m.cursor) hx.values)
    refine .prepend (.backtrack hx.choices hi' hexecute')
      (hd.unwind ⟨List.suffix_cons _ _, .of_back hx.captures⟩ fun y hy => ?_)
    let resumed' := y.resume ⟨m.address, .backtrackingSecond ⟨back, 0, 0⟩⟩ m.choices
    have hpop : resumed'.popValue = .ok (m.cursor, { resumed' with values }) :=
      popValue_of_push (m := resumed') (hy.values.trans (congrArg (·.push m.cursor) hx.values))
    have hexecute'' : resumed'.execute env (Block.jumping .lazybranchmark start) =
        .ok (.backtrack (({ resumed' with values } : Machine).pushValue back)) := by
      change lazybranchmark (Block.jumping .lazybranchmark start) resumed' = _
      simp only [lazybranchmark, hpop, bind, Except.bind]
      rfl
    exact ⟨_, .backtrack hy.choices hi' hexecute'', rfl, rfl, hy.captures.trans hx.captures⟩
  spent := by
    intro m s done mark hm hvalues hle hspare
    cases hspare

end

/-- The closer of a counted loop. -/
def Block.counting (opcode : Opcode) (start limit : Nat) : Instruction :=
  { opcode, payload := .countedJump start limit }

section

variable {env : Surroundings} {A : Status → Prop} {start closer min limit : Nat}
  {values : Stack Int}

/-- The values at a closer that keeps a count, which is negative below the minimum. -/
private abbrev markAndCount (values : Stack Int) (min : Nat) (mark : Int) (done : Nat) : Stack Int :=
  (values.push mark).push ((done : Int) - min)

/-- What a counted greedy loop leaves behind puts its mark and its count back when it is sent
back. -/
theorem leaves_branchcount {m x : Machine} {s : MatchState} {mark count : Int}
    (hi : env.program.instructions[closer]? = some (Block.counting .branchcount start limit))
    (hm : m.Enters env closer s) (hvalues : m.values = (values.push mark).push count)
    (haddress : x.address = closer) (hcursor : x.cursor = m.cursor)
    (hx : x.Stands { m.frame with values }) :
    ((x.leaveSecond mark count).continueAt (x.address + 1)).Leaves env (closer + 1) values m.frame
      s := by
  have hchoices : x.choices = m.choices := hx.choices
  have hback : x.captures.Back m.captures := hx.captures
  refine ⟨⟨hm.stay (congrArg (· + 1) haddress) rfl hcursor hback, hx.values, ?_, .of_back hback⟩,
    fun y hy => ?_⟩
  · change m.choices.items <:+ (x.choices.push _).items
    rw [hchoices]
    exact List.suffix_cons _ _
  · rw [← haddress] at hi
    let resumed := y.resume ⟨x.address, .backtrackingSecond ⟨mark, count, 0⟩⟩ x.choices
    have hexecute : resumed.execute env (Block.counting .branchcount start limit) =
        .ok (.backtrack (resumed.pushPair mark count)) := rfl
    refine ⟨_, .backtrack hy.choices hi hexecute, ?_, hchoices, hy.captures.trans hback⟩
    change (y.values.push mark).push count = m.values
    rw [hvalues]
    exact congrArg (fun v : Stack Int => (v.push mark).push count) (hy.values.trans hx.values)

/-- A counted greedy loop is left when its runs are used up or its last run was empty. -/
theorem delivers_branchcount_end {m : Machine} {s : MatchState} {done : Nat} {mark : Int}
    (hi : env.program.instructions[closer]? = some (Block.counting .branchcount start limit))
    (hm : m.Enters env closer s) (hvalues : m.values = markAndCount values min mark done)
    (hle : min ≤ done) (hends : limit ≤ done - min ∨ m.cursor = mark) :
    Delivers env A (closer + 1) values m.frame (.running m) [s] := by
  have hi' := hi
  rw [← hm.address_eq] at hi'
  have hstop : (decide ((limit : Int) ≤ (done : Int) - min) ||
      (m.cursor == mark && decide (0 ≤ (done : Int) - min))) = true := by
    rcases hends with hlimit | hcursor
    · have hint : (limit : Int) ≤ (done : Int) - min := by omega
      rw [decide_eq_true hint, Bool.true_or]
    · have hint : 0 ≤ (done : Int) - min := by omega
      rw [hcursor, beq_self_eq_true, decide_eq_true hint, Bool.and_self, Bool.or_true]
  have hexecute : m.execute env (Block.counting .branchcount start limit) = .ok (.next
      (({ m with entry := .forward, values } : Machine).leaveSecond mark ((done : Int) - min))) := by
    change branchcount (Block.counting .branchcount start limit) m = _
    simp only [branchcount, hm.entry_eq, popPair_of_push hvalues, bind, Except.bind,
      Instruction.limit, Block.counting, hstop, if_true]
    rfl
  exact .single (.execute hi' hexecute) (leaves_branchcount
    (x := { m with entry := .forward, values }) hi hm hvalues hm.address_eq rfl ⟨rfl, rfl, .refl _⟩)

/-- A counted greedy loop runs its body again while its runs are not used up, unless the last one was
empty and not forced. -/
theorem execute_branchcount {m : Machine} {mark count : Int} (hentry : m.entry = .forward)
    (hvalues : m.values = (values.push mark).push count) (hlimit : count < limit)
    (hforced : m.cursor = mark → count < 0) :
    m.execute env (Block.counting .branchcount start limit) = .ok (.jump start
      ((({ m with entry := .forward, values } : Machine).leave mark).pushPair m.cursor
        (count + 1))) := by
  have hgo : (decide ((limit : Int) ≤ count) || (m.cursor == mark && decide (0 ≤ count))) =
      false := by
    have hmore : ¬ (limit : Int) ≤ count := by omega
    rw [decide_eq_false hmore, Bool.false_or]
    by_cases hmark : m.cursor = mark
    · rw [decide_eq_false (Int.not_le.2 (hforced hmark)), Bool.and_false]
    · rw [beq_eq_false_iff_ne.2 hmark, Bool.false_and]
  change branchcount (Block.counting .branchcount start limit) m = _
  simp only [branchcount, hentry, popPair_of_push hvalues, bind, Except.bind, Instruction.limit,
    Block.counting]
  rw [if_neg (Bool.eq_false_iff.1 hgo)]
  rfl

theorem closes_branchcount
    (hi : env.program.instructions[closer]? = some (Block.counting .branchcount start limit)) :
    Closes env A start closer values min (some limit) false (markAndCount values min) where
  again := by
    intro m s done mark outcomes hm hvalues hdone hmore hbody
    have hi' := hi
    rw [← hm.address_eq] at hi'
    let count : Int := (done : Int) - min
    have hgo : count < limit ∧ (m.cursor = mark → count < 0) := by
      rcases hmore with hlt | ⟨hspare, hne⟩
      · exact ⟨by omega, fun _ => by omega⟩
      · simp only [Option.all_some, decide_eq_true_eq] at hspare
        exact ⟨by omega, fun heq => absurd heq hne⟩
    let after : Machine := (({ m with entry := .forward, values } : Machine).leave mark).pushPair
      m.cursor (count + 1)
    have hexecute : m.execute env (Block.counting .branchcount start limit) =
        .ok (.jump start after) :=
      execute_branchcount hm.entry_eq hvalues hgo.1 hgo.2
    have hsucc : count + 1 = ((done + 1 : Nat) : Int) - min := by omega
    have hd := hbody (after.continueAt start) (hm.stay rfl rfl rfl (.refl _))
      (congrArg (values.push m.cursor).push hsucc)
    refine ⟨mark, fun _ => rfl, ?_⟩
    rw [if_neg Bool.false_ne_true, ← hvalues]
    refine .prepend (.execute hi' hexecute) ?_
    have habove : (after.continueAt start).frame.Above m.frame := ⟨List.suffix_cons _ _, .refl _⟩
    split
    · next hlt =>
      refine hd.unwind habove fun x hx => ?_
      let resumed := x.resume ⟨m.address, .backtracking ⟨mark, 0, 0⟩⟩ m.choices
      have hpop : resumed.popPair = .ok ((m.cursor, count + 1), { resumed with values }) :=
        popPair_of_push (m := resumed) hx.values
      have hexecute' : resumed.execute env (Block.counting .branchcount start limit) = .ok
          (.backtrack (({ resumed with values } : Machine).pushPair mark count)) := by
        change branchcount (Block.counting .branchcount start limit) resumed = _
        have hneg : ¬ 0 < count + 1 := by omega
        simp only [branchcount, hpop, bind, Except.bind, hneg, if_false, Int.add_sub_cancel]
        rfl
      exact ⟨_, .backtrack hx.choices hi' hexecute', hvalues.symm, rfl, hx.captures⟩
    · next hlt =>
      refine hd.append habove fun x hx => ?_
      let resumed := x.resume ⟨m.address, .backtracking ⟨mark, 0, 0⟩⟩ m.choices
      have hpop : resumed.popPair = .ok ((m.cursor, count + 1), { resumed with values }) :=
        popPair_of_push (m := resumed) hx.values
      have hexecute' : resumed.execute env (Block.counting .branchcount start limit) = .ok (.next
          (({ resumed with values, cursor := m.cursor } : Machine).leaveSecond mark count)) := by
        change branchcount (Block.counting .branchcount start limit) resumed = _
        have hpos : 0 < count + 1 := by omega
        simp only [branchcount, hpop, bind, Except.bind, hpos, if_true, Int.add_sub_cancel]
        rfl
      exact .single (.backtrack hx.choices hi' hexecute')
        (leaves_branchcount hi hm hvalues hm.address_eq rfl ⟨rfl, rfl, hx.captures⟩)
  spent := by
    intro m s done mark hm hvalues hle hspare
    simp only [Option.all_some, decide_eq_false_iff_not, Nat.not_lt] at hspare
    exact delivers_branchcount_end hi hm hvalues hle (.inl hspare)

/-- Sent back, a counted lazy loop takes back what it pushed for another run. -/
theorem unwind_lazybranchcount {f : Frame} {address : Nat} {m : Machine} {mark cursor count : Int}
    (hi : env.program.instructions[address]? = some (Block.counting .lazybranchcount start limit))
    (hvalues : m.values = (values.push cursor).push (count + 1))
    (hf : f.values = (values.push mark).push count)
    (hchoices : m.choices = f.choices.push ⟨address, .backtrackingSecond ⟨mark, 0, 0⟩⟩)
    (hcaptures : m.captures.Back f.captures) :
    ∃ y : Machine, Reaches env (.failing m) (.failing y) ∧ y.Stands f := by
  let resumed := m.resume ⟨address, .backtrackingSecond ⟨mark, 0, 0⟩⟩ f.choices
  have hpop : resumed.popPair = .ok ((cursor, count + 1), { resumed with values }) :=
    popPair_of_push (m := resumed) hvalues
  have hexecute : resumed.execute env (Block.counting .lazybranchcount start limit) = .ok
      (.backtrack (({ resumed with values } : Machine).pushPair mark count)) := by
    change lazybranchcount (Block.counting .lazybranchcount start limit) resumed = _
    simp only [lazybranchcount, hpop, bind, Except.bind, Int.add_sub_cancel]
    rfl
  exact ⟨_, .backtrack hchoices hi hexecute, hf.symm, rfl, hcaptures⟩

/-- Beyond the minimum, a counted lazy loop is left, and `outcomes` follow when it is sent back. -/
theorem delivers_lazybranchcount_end {m : Machine} {s : MatchState} {done : Nat} {mark : Int}
    {outcomes : List MatchState}
    (hi : env.program.instructions[closer]? = some (Block.counting .lazybranchcount start limit))
    (hm : m.Enters env closer s) (hvalues : m.values = markAndCount values min mark done)
    (hle : min ≤ done)
    (hmore : ∀ x : Machine, x.Stands { m.frame with
        values, choices := m.choices.push
          ⟨closer, .backtracking ⟨mark, (done : Int) - min, m.cursor⟩⟩ } →
      Delivers env A (closer + 1) values m.frame (.failing x) outcomes) :
    Delivers env A (closer + 1) values m.frame (.running m) (s :: outcomes) := by
  have haddress := hm.address_eq
  subst haddress
  have hcount : ¬ (done : Int) - min < 0 := by omega
  have hexecute : m.execute env (Block.counting .lazybranchcount start limit) = .ok (.next
      (({ m with entry := .forward, values } : Machine).leave mark ((done : Int) - min)
        m.cursor)) := by
    change lazybranchcount (Block.counting .lazybranchcount start limit) m = _
    simp only [lazybranchcount, hm.entry_eq, popPair_of_push hvalues, bind, Except.bind, hcount,
      if_false]
    rfl
  exact .arrived (.execute hi hexecute) ⟨hm.stay rfl rfl rfl
    (.refl _), rfl, List.suffix_cons _ _, .refl _⟩ fun x hx => hmore x hx

/-- A counted lazy loop that was left has no other run when its runs are used up or its last run was
empty. -/
theorem delivers_lazybranchcount_spent {m : Machine} {s : MatchState} {done : Nat} {mark : Int}
    (hi : env.program.instructions[closer]? = some (Block.counting .lazybranchcount start limit))
    (hm : m.Enters env closer s) (hvalues : m.values = markAndCount values min mark done)
    (hle : min ≤ done) (hends : limit ≤ done - min ∨ m.cursor = mark) :
    Delivers env A (closer + 1) values m.frame (.running m) [s] := by
  refine delivers_lazybranchcount_end hi hm hvalues hle fun x hx => ?_
  let count : Int := (done : Int) - min
  have hstop : (decide (count < (limit : Int)) && m.cursor != mark) = false := by
    rcases hends with hlimit | hcursor
    · have hint : ¬ count < (limit : Int) := by omega
      rw [decide_eq_false hint, Bool.false_and]
    · rw [hcursor, bne_self_eq_false, Bool.and_false]
  let resumed := x.resume ⟨closer, .backtracking ⟨mark, count, m.cursor⟩⟩ m.choices
  have hexecute : resumed.execute env (Block.counting .lazybranchcount start limit) =
      .ok (.backtrack (resumed.pushPair mark count)) := by
    change lazybranchcount (Block.counting .lazybranchcount start limit) resumed = _
    simp only [lazybranchcount, Instruction.limit, Block.counting, bind, Except.bind]
    exact if_neg (Bool.eq_false_iff.1 hstop)
  refine .failed (.backtrack hx.choices hi hexecute) ⟨?_, rfl, hx.captures⟩
  exact (congrArg (fun v : Stack Int => (v.push mark).push count) hx.values).trans hvalues.symm

theorem closes_lazybranchcount
    (hi : env.program.instructions[closer]? = some (Block.counting .lazybranchcount start limit)) :
    Closes env A start closer values min (some limit) true (markAndCount values min) where
  again := by
    intro m s done mark outcomes hm hvalues hdone hmore hbody
    let count : Int := (done : Int) - min
    have hsucc : count + 1 = ((done + 1 : Nat) : Int) - min := by omega
    refine ⟨mark, fun _ => rfl, ?_⟩
    rw [if_pos rfl, ← hvalues]
    split
    · next hlt =>
      have hi' := hi
      rw [← hm.address_eq] at hi'
      let after : Machine := (({ m with entry := .forward, values } : Machine).leaveSecond
        mark).pushPair m.cursor (count + 1)
      have hexecute : m.execute env (Block.counting .lazybranchcount start limit) =
          .ok (.jump start after) := by
        change lazybranchcount (Block.counting .lazybranchcount start limit) m = _
        have hneg : (done : Int) - min < 0 := by omega
        simp only [lazybranchcount, hm.entry_eq, popPair_of_push hvalues, bind, Except.bind, hneg,
          if_true]
        rfl
      have hd := hbody (after.continueAt start) (hm.stay rfl rfl rfl (.refl _))
        (congrArg (values.push m.cursor).push hsucc)
      refine .prepend (.execute hi' hexecute)
        (hd.unwind ⟨List.suffix_cons _ _, .refl _⟩ fun x hx => ?_)
      exact unwind_lazybranchcount (f := m.frame) hi' hx.values hvalues hx.choices hx.captures
    · next hlt =>
      obtain ⟨hspare, hne⟩ := hmore.resolve_left hlt
      simp only [Option.all_some, decide_eq_true_eq] at hspare
      refine delivers_lazybranchcount_end hi hm hvalues (by omega) fun x hx => ?_
      have hgo : (decide (count < (limit : Int)) && m.cursor != mark) = true := by
        have hint : count < (limit : Int) := by omega
        rw [decide_eq_true hint, bne_iff_ne.2 hne, Bool.and_self]
      let resumed := x.resume ⟨closer, .backtracking ⟨mark, count, m.cursor⟩⟩ m.choices
      let after : Machine := (({ resumed with cursor := m.cursor } : Machine).pushPair m.cursor
        (count + 1)).leaveSecond mark
      have hexecute : resumed.execute env (Block.counting .lazybranchcount start limit) =
          .ok (.jump start after) := by
        change lazybranchcount (Block.counting .lazybranchcount start limit) resumed = _
        simp only [lazybranchcount, Instruction.limit, Block.counting, bind, Except.bind]
        exact if_pos hgo
      have hvalues' : (after.continueAt start).values =
          (values.push m.cursor).push (count + 1) :=
        congrArg (fun v : Stack Int => (v.push m.cursor).push (count + 1)) hx.values
      have hd := hbody (after.continueAt start) (hm.stay rfl rfl rfl hx.captures)
        (hvalues'.trans (congrArg (values.push m.cursor).push hsucc))
      refine .prepend (.backtrack hx.choices hi hexecute)
        (hd.unwind ⟨List.suffix_cons _ _, .of_back hx.captures⟩ fun y hy => ?_)
      exact unwind_lazybranchcount (f := m.frame) hi (hy.values.trans hvalues') hvalues hy.choices
        (hy.captures.trans hx.captures)
  spent := by
    intro m s done mark hm hvalues hle hspare
    simp only [Option.all_some, decide_eq_false_iff_not, Nat.not_lt] at hspare
    exact delivers_lazybranchcount_spent hi hm hvalues hle (.inl hspare)

end

section

variable {env : Surroundings} {A : Status → Prop} {closer min max start : Nat} {values : Stack Int}
  {isLazy : Bool}

/-- The opener of a loop leaves the values that its closer finds when the body arrives there, or
when the body is skipped. -/
theorem reaches_opener {m : Machine} (hentry : m.entry = .forward)
    (hi : env.program.instructions[m.address]? = some (Emitter.loopOpener min max)) :
    Reaches env (.running m) (.running (({ m with
      values := loopValues (Emitter.isCounted min max) min m.values
        (if min = 0 then -1 else m.cursor) (if min = 0 then 0 else 1) } : Machine).leave.continueAt
          (m.address + 1))) := by
  have hexecute : m.execute env (Emitter.loopOpener min max) = .ok (.next ({ m with
      values := loopValues (Emitter.isCounted min max) min m.values
        (if min = 0 then -1 else m.cursor) (if min = 0 then 0 else 1) } : Machine).leave) := by
    obtain ⟨address, entry, cursor, vs, choices, captures⟩ := m
    simp only at hentry
    subst hentry
    rw [Emitter.loopOpener, loopValues]
    cases Emitter.isCounted min max with
    | true =>
      by_cases hmin : min = 0
      · subst hmin
        rfl
      · simp only [if_true, hmin, if_false]
        rfl
    | false =>
      by_cases hmin : min = 0
      · subst hmin
        rfl
      · simp only [Bool.false_eq_true, if_false, hmin]
        rfl
  exact .execute hi hexecute

/-- Sent back, the opener of a loop takes its values back, whatever they are by then. -/
theorem unwind_opener {f : Frame} {address done : Nat} {mark : Int} {m : Machine}
    (hi : env.program.instructions[address]? = some (Emitter.loopOpener min max))
    (hm : m.Stands (f.opened address
      (loopValues (Emitter.isCounted min max) min f.values mark done))) :
    ∃ m' : Machine, Reaches env (.failing m) (.failing m') ∧ m'.Stands f := by
  cases hcounted : Emitter.isCounted min max with
  | false =>
    have hopcode : ∃ opcode, (opcode = .setmark ∨ opcode = .nullmark) ∧
        Emitter.loopOpener min max = { opcode } := by
      simp only [Emitter.loopOpener, hcounted, Bool.false_eq_true, if_false]
      split
      · exact ⟨_, .inr rfl, rfl⟩
      · exact ⟨_, .inl rfl, rfl⟩
    obtain ⟨opcode, hop, hopener⟩ := hopcode
    rw [hcounted] at hm
    exact unwind_mark hop (hopener ▸ hi) hm
  | true =>
    rw [hcounted] at hm
    let resumed := m.resume ⟨address, .backtracking {}⟩ f.choices
    have hpop : resumed.popPair =
        .ok ((mark, (done : Int) - min), { resumed with values := f.values }) :=
      popPair_of_push (m := resumed) hm.values
    have hexecute : resumed.execute env (Emitter.loopOpener min max) =
        .ok (.backtrack { resumed with values := f.values }) := by
      simp only [Emitter.loopOpener, hcounted, if_true]
      split
      · change openCount { opcode := .nullcount, payload := .count 0 } (-1) resumed = _
        simp only [openCount, hpop, bind, Except.bind]
        rfl
      · change openCount { opcode := .setcount, payload := .count (1 - min) } resumed.cursor
          resumed = _
        simp only [openCount, hpop, bind, Except.bind]
        rfl
    exact ⟨_, .backtrack hm.choices hi hexecute, rfl, rfl, hm.captures⟩

theorem closes_closer
    (hi : env.program.instructions[closer]? = some (Emitter.loopCloser min max isLazy start)) :
    Closes env A start closer values min (compiledSpare min max) isLazy
      (loopValues (Emitter.isCounted min max) min values) := by
  rw [Emitter.loopCloser] at hi
  rw [compiledSpare]
  cases hcounted : Emitter.isCounted min max with
  | true =>
    simp only [hcounted, if_true] at hi ⊢
    cases isLazy with
    | true => exact closes_lazybranchcount hi
    | false => exact closes_branchcount hi
  | false =>
    simp only [hcounted, Bool.false_eq_true, if_false] at hi ⊢
    have hmin : min ≤ 1 := by
      simp only [Emitter.isCounted, Bool.or_eq_false_iff, decide_eq_false_iff_not] at hcounted
      omega
    cases isLazy with
    | true => exact closes_lazybranchmark hmin hi
    | false => exact closes_branchmark hmin hi

/-- Every closer leaves the loop after an empty run, or spills. -/
theorem leavesEmpty_closer
    (hA : (isLazy = false ∨ Emitter.isCounted min max = true) ∨
      ∀ m : Machine, m.Spills env → A (.running m))
    (hi : env.program.instructions[closer]? = some (Emitter.loopCloser min max isLazy start)) :
    LeavesEmpty env A closer values min (loopValues (Emitter.isCounted min max) min values) := by
  rw [Emitter.loopCloser] at hi
  cases hcounted : Emitter.isCounted min max with
  | true =>
    simp only [hcounted, if_true] at hi ⊢
    intro m s done hm hvalues hle
    cases isLazy with
    | true => exact delivers_lazybranchcount_spent hi hm hvalues hle (.inr rfl)
    | false => exact delivers_branchcount_end hi hm hvalues hle (.inr rfl)
  | false =>
    simp only [hcounted, Bool.false_eq_true, if_false] at hi ⊢
    cases isLazy with
    | true =>
      refine leavesEmpty_lazybranchmark (hA.resolve_left ?_) hi
      rw [hcounted]
      exact fun h => h.elim (Bool.noConfusion ·) (Bool.noConfusion ·)
    | false => exact leavesEmpty_branchmark hi

theorem realizes_loop {d : Direction} {B : Block} {body : Matcher} (hbody : Realizes env A B body)
    (honward : Onward d body) (hsize : env.text.size < lastPosition)
    (hempty : ((isLazy = false ∨ Emitter.isCounted min max = true) ∨
        ∀ m : Machine, m.Spills env → A (.running m)) ∨ body.Moves env.text) :
    Realizes env A (Block.loop env.program.instructions min max isLazy B)
      (loop d body min (compiledSpare min max) isLazy 0) := by
  rintro first last ⟨closer, hopen, hskip, hB, hclose, rfl⟩ m s hm
  have hi := hopen
  rw [← hm.address_eq] at hi
  have hopened := reaches_opener hm.entry_eq hi
  have hcloses : Closes env A _ closer m.values min _ isLazy _ := closes_closer hclose
  have hleaves : LeavesEmpty env A closer m.values min
      (loopValues (Emitter.isCounted min max) min m.values) ∨ body.Moves env.text :=
    hempty.imp_left fun hA => leavesEmpty_closer hA hclose
  by_cases hmin : min = 0
  · rw [if_pos hmin, if_pos hmin] at hopened
    let opened : Machine := ({ m with
      values := loopValues (Emitter.isCounted min max) min m.values (-1) 0 } :
        Machine).leave.continueAt (m.address + 1)
    have hgoto := hskip hmin
    rw [← hm.address_eq] at hgoto
    have hskipped : Reaches env (.running opened) (ofMove (.jump closer opened)) :=
      .execute hgoto rfl
    obtain ⟨back, -, hd⟩ := delivers_closer hbody hB honward hcloses hleaves hsize 0 s (by omega)
      (opened.continueAt closer) (-1) (hm.stay rfl rfl rfl (.refl _)) rfl
      (.inr (hm.cursor_ne hsize))
    refine .prepend (hopened.trans hskipped)
      (hd.unwind ⟨List.suffix_cons _ _, .refl _⟩ fun x hx => ?_)
    exact unwind_opener (f := m.frame) hi hx
  · rw [if_neg hmin, if_neg hmin] at hopened
    let opened : Machine := ({ m with
      values := loopValues (Emitter.isCounted min max) min m.values m.cursor 1 } :
        Machine).leave.continueAt (m.address + 1)
    have hstart : Block.loopStart min first = first + 1 := if_neg hmin
    have hentered : opened.Enters env (Block.loopStart min first) s :=
      hm.stay (hstart ▸ congrArg (· + 1) hm.address_eq) rfl rfl (.refl _)
    have hd := delivers_again hbody hB honward hleaves hsize 0
      (fun t _ => delivers_closer hbody hB honward hcloses hleaves hsize 1 t fun _ => Nat.one_pos)
      hentered rfl
    rw [loop_eq, if_pos (Nat.pos_of_ne_zero hmin)]
    refine .prepend hopened (hd.unwind (m.frame.opened_above m.address _) fun x hx => ?_)
    exact unwind_opener (f := m.frame) hi hx

end

end RegexMachine
