import RegexMachine.Proofs.Attempts.Balance

/-!
# Idle loops

A lazy loop over nothing is left with its mark still on the stack, so it does not give back the
values. What closes around it takes that mark for its own: a group captures from there on, and a
counted loop takes it for its count and goes round for ever.
-/

namespace RegexMachine

open Status Machine Matcher

variable {env : Surroundings}

/-- The closer of a lazy loop whose body has matched empty goes on with the values it has found, the
mark of the loop among them. -/
theorem Machine.Spills.next {m : Machine} (h : m.Spills env) :
    (running m).next env = running ((m.leaveSecond m.cursor).continueAt (m.address + 1)) := by
  obtain ⟨hentry, htop, i, hi, hopcode⟩ := h
  obtain ⟨values, hvalues⟩ := Stack.exists_push_of_top? htop
  have hexecute : m.execute env i = .ok (.next (m.leaveSecond m.cursor)) := by
    rw [execute, hopcode]
    simp only [lazybranchmark, hentry, popValue_of_push hvalues, bind, Except.bind, bne_self_eq_false,
      Bool.false_eq_true, if_false]
    rw [← hentry, pushValue, ← hvalues]
    rfl
  exact next_running hi hexecute

/-- Matches empty, lazily, once or more often. -/
def Node.idle (id : Nat) : Node :=
  .node (id + 1) {} (.loop 1 unbounded true) [.node id {} .empty []]

/-- The machine behind an idle loop. -/
def Machine.idled (m : Machine) : Machine :=
  let opened := (m.pushValue m.cursor).leave.continueAt (m.address + 1)
  (opened.leaveSecond m.cursor).continueAt (m.address + 2)

section

variable {ctx : LayoutContext} {id first last : Nat} {m : Machine} {s : MatchState}

theorem LayoutContext.block_idle {program : Program}
    (h : ctx.block program (Node.idle id) first last) :
    program.instructions[first]? = some { opcode := .setmark } ∧
      program.instructions[first + 1]? = some (Block.jumping .lazybranchmark (first + 1)) ∧
      last = first + 2 := by
  rw [Node.idle, block_node] at h
  obtain ⟨closer, hopen, -, hbody, hclose, rfl⟩ := h
  obtain rfl : first + 1 = closer := hbody
  exact ⟨hopen, hclose, rfl⟩

variable (hblock : ctx.block env.program (Node.idle id) first last) (hm : m.Enters env first s)

include hblock hm

theorem Machine.Enters.next_idle :
    ∃ opened : Machine, opened.address ≠ last ∧ (running m).next env = running opened ∧
      (running opened).next env = running m.idled := by
  obtain ⟨hopen, hclose, rfl⟩ := LayoutContext.block_idle hblock
  obtain rfl := hm.address_eq
  let opened := (m.pushValue m.cursor).leave.continueAt (m.address + 1)
  have hspills : opened.Spills env := ⟨rfl, rfl, _, hclose, rfl⟩
  exact ⟨opened, Nat.ne_of_lt (Nat.lt_succ_self _),
    next_mark m.cursor hm.entry_eq (.inl ⟨rfl, rfl⟩) hopen, hspills.next⟩

theorem Machine.Enters.idled : m.idled.Enters env last s := by
  obtain ⟨-, -, rfl⟩ := LayoutContext.block_idle hblock
  exact hm.stay (congrArg (· + 2) hm.address_eq) rfl rfl (.refl _)

theorem Machine.Enters.reaches_idled : Reaches env (.running m) (.running m.idled) := by
  obtain ⟨opened, -, hopen, hclose⟩ := hm.next_idle hblock
  exact (Reaches.single hopen).trans (.single hclose)

/-- An idle loop does not give back the values that it was entered with. -/
theorem Machine.Enters.idle_unbalanced :
    ¬ (running m).Balances env (fun _ => False) last m.frame := by
  intro hbalances
  obtain ⟨opened, hne, hopen, hclose⟩ := hm.next_idle hblock
  have hlast : last ≠ m.address := by
    obtain ⟨-, -, rfl⟩ := LayoutContext.block_idle hblock
    rw [hm.address_eq]
    omega
  have hinside : ∀ k < 2, ∃ y : Machine,
      (next env)^[k] (running m) = running y ∧ y.address ≠ last := by
    intro k hk
    obtain rfl | rfl : k = 0 ∨ k = 1 := by omega
    · exact ⟨m, rfl, hlast.symm⟩
    · exact ⟨opened, hopen, hne⟩
  have hidled : (next env)^[2] (running m) = running m.idled := by
    rw [Function.iterate_succ_apply, hopen]
    exact hclose
  have hvalues : m.idled.values = m.values := by
    refine hbalances.values_eq hidled (hm.idled hblock).address_eq ?_ ?_
    · rintro k hk ⟨x, hx, haddress⟩
      obtain ⟨y, hy, hne⟩ := hinside k hk
      cases hy.symm.trans hx
      exact hne haddress
    · intro k hk x hx
      obtain ⟨y, hy, -⟩ := hinside k hk
      cases hy.symm.trans hx
  have hdepth : m.values.depth + 1 = m.values.depth := congrArg Stack.depth hvalues
  omega

end

section

variable {ctx : LayoutContext} {id start closer limit : Nat} {s : MatchState}

/-- The closer of a counted loop takes the mark of an idle loop for the count, and the count below it
for the mark. As long as the cursor is below the limit, it runs the body again, and finds the same. -/
theorem Machine.Enters.goesOn_idle (hblock : ctx.block env.program (Node.idle id) start closer)
    (hclose : env.program.instructions[closer]? = some (Block.counting .branchcount start limit))
    {m : Machine} (hm : m.Enters env start s) {values : Stack Int} {count : Int}
    (hvalues : m.values = values.push count) (hcount : m.cursor ≠ count)
    (hlimit : m.cursor < limit) : (running m).GoesOn env := by
  let P (m : Machine) : Prop := m.Enters env start s ∧
    ∃ (values : Stack Int) (count : Int), m.values = values.push count ∧ m.cursor ≠ count
  refine GoesOn.of_progress (P := P) ?_ ⟨hm, values, count, hvalues, hcount⟩
  rintro y ⟨hy, values, count, hvalues, hcount⟩
  have hcursor : y.cursor = m.cursor := hy.cursor_eq.trans hm.cursor_eq.symm
  obtain ⟨opened, -, hopen, hidle⟩ := hy.next_idle hblock
  have hidled := hy.idled hblock
  let after := (({ y.idled with entry := .forward, values } : Machine).leave count).pushPair y.cursor
    (y.cursor + 1)
  have hexecute : y.idled.execute env (Block.counting .branchcount start limit) =
      .ok (.jump start after) :=
    execute_branchcount hidled.entry_eq (congrArg (·.push y.cursor) hvalues) (hcursor ▸ hlimit)
      fun heq => absurd heq hcount
  have hback : (running y.idled).next env = running (after.continueAt start) :=
    next_running (hidled.address_eq ▸ hclose) hexecute
  refine ⟨2, after.continueAt start, ?_, hidled.stay rfl rfl rfl (.refl _), _, _, rfl, ?_⟩
  · rw [Function.iterate_succ_apply, Function.iterate_succ_apply, hopen, hidle]
    exact hback
  · exact Int.ne_of_lt (Int.lt_succ y.cursor)

end

section

variable {ctx : LayoutContext} {id outer first last min max : Nat} {options : Options}
  {m : Machine} {s : MatchState}

/-- A counted loop that must run twice goes round for ever when its body is an idle loop. -/
theorem Machine.Enters.goesOn_idle_repeated
    (hblock : ctx.block env.program
      (.node outer options (.loop min max false) [Node.idle id]) first last)
    (hmin : 2 ≤ min) (hmax : max ≤ unbounded) (hm : m.Enters env first s)
    (hlimit : s.place.offset < Emitter.extra min max) : (running m).GoesOn env := by
  rw [LayoutContext.block_node] at hblock
  obtain ⟨closer, hopen, -, hbody, hclose, -⟩ := hblock
  have hcounted : Emitter.isCounted min max = true := by
    rw [Emitter.isCounted, decide_eq_true (Nat.lt_of_succ_le hmin), Bool.or_true]
  have hne : min ≠ 0 := by omega
  obtain rfl := hm.address_eq
  have hstart : Block.loopStart min m.address = m.address + 1 := if_neg hne
  rw [hstart] at hbody hclose
  rw [Emitter.loopCloser, hcounted, if_pos rfl] at hclose
  have hopened := reaches_opener hm.entry_eq hopen
  rw [hcounted, if_neg hne, if_neg hne, loopValues, if_pos rfl] at hopened
  have hextra : Emitter.extra min max ≤ unbounded := by
    rw [Emitter.extra]
    split <;> omega
  have hunbounded : unbounded < 0x8000000000000000 := by decide
  have hcursor : m.cursor = s.place.offset := hm.cursor_eq.trans (markOf_of_lt (by omega))
  refine GoesOn.before ?_ hopened
  refine Machine.Enters.goesOn_idle hbody hclose (hm.stay rfl rfl rfl (.refl _)) rfl ?_ ?_
  · change m.cursor ≠ _
    omega
  · change m.cursor < _
    omega

end

/-- The pattern `(?:(?:)+?){2,}`. -/
def endless : Tree :=
  Tree.build {} do
    let idle ← Builder.lazyPlus (← Builder.empty)
    Builder.repeated idle 2 unbounded

theorem root_endless : endless.root =
    .node 3 {} (.capture (some 0) none) [.node 2 {} (.loop 2 unbounded false) [Node.idle 0]] := by
  have hfinish : endless = Builder.finish 2 {
      options := {}
      entries := #[⟨.empty, [], {}⟩, ⟨.loop 1 unbounded true, [0], {}⟩,
        ⟨.loop 2 unbounded false, [1], {}⟩]
      maxGroup := 0 } := rfl
  rw [hfinish]
  simp [Builder.finish, Builder.push, Builder.nodes, Builder.addNode, Node.idle]

theorem unshared_endless : endless.Unshared := by
  have hempty : Builder.Unshared {} _ [0] := .call .start .empty trivial (.refl _)
  have hidle : Builder.Unshared {} _ [1] :=
    hempty.call (.quantify 0 1 unbounded true) ⟨by decide, Nat.le_refl _⟩ (.refl _)
  have hloop : Builder.Unshared {} _ [2] :=
    hidle.call (.quantify 1 2 unbounded false) ⟨by decide, Nat.le_refl _⟩ (.refl _)
  have hlinear : endless.Linear := ⟨_, _, _, 2, hloop, List.mem_singleton_self 2, rfl⟩
  exact hlinear.unshared

/-- Every attempt of `endless` goes on for ever. -/
theorem endless_goesOn {config : CompileConfig}
    (hcompile : Program.compile endless env.culture config = .ok env.program) {p : Place}
    (hp : p.In env.text) (hlimit : p.offset < unbounded) :
    (running (env.program.initial p)).GoesOn env := by
  obtain ⟨last, hcompiled⟩ := Program.compiled_of_compile hcompile
  obtain ⟨closer, m, hbody, -, -, hreach, henters, -⟩ := hcompiled.enters_body root_endless hp
  have hrepeated := henters.goesOn_idle_repeated hbody (Nat.le_refl 2) (Nat.le_refl _) hlimit
  exact hrepeated.before hreach

/-- No amount of fuel lets an attempt of `endless` return. -/
theorem endless_exhausts (culture : Culture) :
    ∃ program, Program.compile endless culture {} = .ok program ∧
      ∀ (text : Text) (p : Place), p.In text → p.offset < unbounded →
        ∀ (fuel : Nat) (s : ScanState), s.textPos = p.offset →
          s.captures.groups.size = program.groupCount → s.watch.deadline = none →
            ∃ s', attempt program culture fuel text s.resetAttempt = .error .exhausted s' := by
  obtain ⟨body, hsound⟩ := unshared_endless.sound
  obtain ⟨program, hcompile⟩ := Program.compile_total hsound.arity culture {} rfl
  refine ⟨program, hcompile, fun text p hp hlimit fuel s hpos hsize hwatch => ?_⟩
  let env : Surroundings := { program, culture, text, textStart := s.textStart }
  have hgoesOn := @endless_goesOn env {} hcompile p hp hlimit
  exact attempt_of_goesOn hgoesOn fuel (start_resetAttempt hpos hsize) rfl hwatch

/-- A machine that stands in front of the character it is to read gets past it. -/
theorem Machine.Enters.reads_char {ctx : LayoutContext} (hculture : ctx.culture = env.culture)
    {id first last : Nat} {c : Char} {q : Place} {m : Machine} {s : MatchState}
    (hblock : ctx.block env.program (.node id {} (.char (.one c)) []) first last)
    (hm : m.Enters env first s) (hread : s.place.read .forward = some (c, q)) :
    ∃ m' : Machine, Reaches env (running m) (running m') ∧ m'.Enters env last (s.moveTo q) ∧
      m'.values = m.values := by
  rw [LayoutContext.block_node] at hblock
  have hd : Delivers env (fun _ => False) last m.values m.frame (running m)
      (Matcher.goTo s (exactly .forward (passes env.culture false (.one c)) 1 s.place)) :=
    realizes_char hculture {} (.one c) first last hblock m s hm
  have hexactly : exactly .forward (passes env.culture false (.one c)) 1 s.place = some q := by
    simp [exactly, hread, passes]
  rw [hexactly] at hd
  cases hd with
  | aborted _ hA => exact hA.elim
  | arrived hreach harrives _ => exact ⟨_, hreach, harrives.toEnters, harrives.values_eq⟩

/-- The pattern `a(?:)+?b`. -/
def spilling : Tree :=
  Tree.build {} do
    let a ← Builder.one 'a'
    let idle ← Builder.lazyPlus (← Builder.empty)
    Builder.concat [a, idle, ← Builder.one 'b']

theorem root_spilling : spilling.root =
    .node 5 {} (.capture (some 0) none) [.node 4 {} .concat [.node 0 {} (.char (.one 'a')) [],
      Node.idle 1, .node 3 {} (.char (.one 'b')) []]] := by
  have hfinish : spilling = Builder.finish 4 {
      options := {}
      entries := #[⟨.char (.one 'a'), [], {}⟩, ⟨.empty, [], {}⟩,
        ⟨.loop 1 unbounded true, [1], {}⟩, ⟨.char (.one 'b'), [], {}⟩, ⟨.concat, [0, 2, 3], {}⟩]
      maxGroup := 0 } := rfl
  rw [hfinish]
  simp [Builder.finish, Builder.push, Builder.nodes, Builder.addNode, Node.idle]

theorem unshared_spilling : spilling.Unshared := by
  have ha : Builder.Unshared {} _ [0] := .call .start (.atom (.one 'a')) trivial (.refl _)
  have hempty : Builder.Unshared {} _ [1, 0] := ha.call .empty trivial (.refl _)
  have hidle : Builder.Unshared {} _ [2, 0] :=
    hempty.call (.quantify 1 1 unbounded true) ⟨by decide, Nat.le_refl _⟩ (.refl _)
  have hb : Builder.Unshared {} _ [3, 2, 0] := hidle.call (.atom (.one 'b')) trivial (.refl _)
  have hconcat : Builder.Unshared {} _ [4] := hb.call (.concat [0, 2, 3]) trivial
    (((List.Perm.swap ..).trans (.cons _ (.swap ..))).trans (.swap ..))
  have hlinear : spilling.Linear := ⟨_, _, _, 4, hconcat, List.mem_singleton_self 4, rfl⟩
  exact hlinear.unshared

section

variable {config : CompileConfig} {p q r : Place}

/-- At an `a`, an attempt of `spilling` comes to its loop. -/
theorem spilling_enters_idle {culture : Culture} {end' : Nat} (hculture : env.culture = culture)
    (hcompiled : env.program.Compiled spilling culture config end') (hp : p.In env.text)
    (ha : p.read .forward = some ('a', q)) :
    let ctx : LayoutContext :=
      { analysis := Analysis.ofTree spilling config.analysisDepthLimit, culture }
    ∃ first behind closer m, ctx.block env.program (Node.idle 1) first behind ∧
      ctx.block env.program (.node 3 {} (.char (.one 'b')) []) behind closer ∧
      env.program.instructions[closer]? =
        some { opcode := .capturemark, payload := .capture (some 0) none } ∧ end' = closer + 1 ∧
      Reaches env (running (env.program.initial p)) (running m) ∧ m.Enters env first q.start := by
  intro ctx
  obtain ⟨closer, m, hbody, hclose, hend, hreach, henters, -⟩ :=
    hcompiled.enters_body root_spilling hp
  rw [LayoutContext.block_node] at hbody
  obtain ⟨first, hblock, behind, hidle, closer, hblock', rfl⟩ := hbody
  obtain ⟨x, hread, hx, -⟩ := henters.reads_char hculture.symm hblock ha
  exact ⟨first, behind, closer, x, hidle, hblock', hclose, hend, hreach.trans hread, hx⟩

/-- The builder makes a tree with a block that, where it is entered, does not give back the values. -/
theorem spilling_unbalanced (culture : Culture) :
    ∃ program, Program.compile spilling culture {} = .ok program ∧
      ∀ (text : Text) (textStart : Nat) (p q : Place), p.In text →
        p.read .forward = some ('a', q) →
        let env : Surroundings := { program, culture, text, textStart }
        ∃ first last m, LayoutContext.block
            { analysis := Analysis.ofTree spilling Analysis.defaultDepthLimit, culture }
            program (Node.idle 1) first last ∧
          Reaches env (running (program.initial p)) (running m) ∧ m.Enters env first q.start ∧
          ¬ (running m).Balances env (fun _ => False) last m.frame := by
  obtain ⟨body, hsound⟩ := unshared_spilling.sound
  obtain ⟨program, hcompile⟩ := Program.compile_total hsound.arity culture {} rfl
  obtain ⟨end', hcompiled⟩ := Program.compiled_of_compile hcompile
  refine ⟨program, hcompile, fun text textStart p q hp ha => ?_⟩
  intro env
  have hin : p.In env.text := hp
  obtain ⟨first, behind, closer, m, hidle, -, -, -, hreach, hm⟩ :=
    spilling_enters_idle rfl hcompiled hin ha
  exact ⟨first, behind, m, hidle, hreach, hm, hm.idle_unbalanced hidle⟩

/-- Where `ab` stands, the group of the whole match captures the `b` only. -/
theorem spilling_captures (hcompile : Program.compile spilling env.culture config = .ok env.program)
    (hp : p.In env.text) (ha : p.read .forward = some ('a', q))
    (hb : q.read .forward = some ('b', r)) :
    ∃ m, Reaches env (running (env.program.initial p)) (ended true m) ∧
      m.captures.left 0 = [⟨q.offset, 1⟩] := by
  obtain ⟨last, hcompiled⟩ := Program.compiled_of_compile hcompile
  obtain ⟨first, behind, closer, x, hidle, hblock, hclose, rfl, hreach, hx⟩ :=
    spilling_enters_idle rfl hcompiled hp ha
  obtain ⟨y, hread, hy, hvalues⟩ := (hx.idled hidle).reads_char rfl hblock hb
  -- the mark that the group takes for its own
  have hmark : y.values = x.values.push (markOf q.offset) := by
    rw [hvalues]
    exact congrArg x.values.push hx.cursor_eq
  have hgroup : ∀ g, some 0 = some g → g < env.program.groupCount := by
    rintro g ⟨⟩
    exact hcompiled.groupCount ▸ Nat.zero_lt_one
  have huncapture : ∀ u, (none : Option Nat) = some u → u < env.program.groupCount := nofun
  have hoffset : r.offset = q.offset + 1 := (Place.after_of_read hb).2
  have hspan : close (some 0) none q.offset r.offset (fun _ => []) =
      some (Function.update (fun _ => []) 0 [⟨q.offset, 1⟩]) := by
    simp [close, hoffset]
  have hd : Delivers env (fun _ => False) (closer + 1) x.values y.frame (running y)
      ((close (some 0) none q.offset r.offset (fun _ => [])).map (MatchState.mk r)).toList :=
    delivers_close hgroup huncapture (.inl (.inr rfl)) hclose hy (hp.of_read ha) hmark
  rw [hspan] at hd
  cases hd with
  | aborted _ hA => exact hA.elim
  | @arrived _ z _ _ hcapture harrives _ =>
    have hleft : z.captures.left 0 = [⟨q.offset, 1⟩] := by
      rw [harrives.left_eq]
      rfl
    have hmatched : z.captures.isMatched 0 = true := by
      rw [Captures.isMatched_eq harrives.proper, hleft]
      rfl
    have hstop : Reaches env (running z) (ended (z.captures.isMatched 0) z) :=
      .execute (harrives.address_eq ▸ hcompiled.stop) rfl
    rw [hmatched] at hstop
    refine ⟨z, ?_, hleft⟩
    exact hreach.trans ((hx.reaches_idled hidle).trans (hread.trans (hcapture.trans hstop)))

end

end RegexMachine
