import RegexMachine.Proofs.Attempts.Plain

/-!
# The first outcome

The machine backtracks through the outcomes of a tree in their order, so an attempt of a plain tree
ends in the first of them. What the analysis lets the compiler leave out is never the first outcome,
so it does not show.
-/

namespace RegexMachine

open Status Machine Matcher

/-- The attempt returned, with a match exactly when there are outcomes, and then at the end of the
first outcome and with its captures, oldest first. -/
def ReturnsFirst (outcomes : List MatchState) (r : EStateM.Result Failure ScanState Bool) : Prop :=
  ∃ s', r = .ok outcomes.head?.isSome s' ∧ ∀ o ∈ outcomes.head?, s'.textPos = o.place.offset ∧
    ∃ spans, s'.captures.publish? = some spans ∧ ∀ g, spans.history g = (o.captured g).reverse

namespace Tree.Plain

variable {t : Tree} {culture : Culture}

/-- A plain tree compiles, and an attempt of its program returns the first outcome of the tree. -/
theorem attempt_returns_first (hplain : t.Plain culture) (config : CompileConfig) :
    (config.strictAnalysis = false → ∃ program, Program.compile t culture config = .ok program) ∧
      ∀ program, Program.compile t culture config = .ok program →
        ∀ text : Text, text.chars.length < unbounded → ∀ p : Place, p.In text → ∀ s : ScanState,
          s.textPos = p.offset → s.captures.groups.size = program.groupCount →
            s.watch.deadline = none → ∃ enough, ∀ fuel, enough ≤ fuel →
              ReturnsFirst
                (t.root.matcher Reading.plain (t.setting culture text s.textStart) p.start)
                (attempt program culture fuel text s.resetAttempt) := by
  obtain ⟨body, hsound⟩ := hplain.unshared.sound
  refine ⟨Program.compile_total hsound.arity culture config, ?_⟩
  intro program hcompile text hlimit p hp s hpos hgroups hwatch
  obtain ⟨enough, henough⟩ :=
    hplain.attempt_settles hcompile hlimit hp hpos hgroups hwatch
  refine ⟨enough, fun fuel hfuel => ?_⟩
  obtain ⟨s', hattempt, hpos', hproper, hleft, -⟩ := henough fuel hfuel
  refine ⟨s', hattempt, fun o ho => ?_⟩
  have hsettled : Matcher.settled (t.root.matcher Reading.plain
      (t.setting culture text s.textStart)) p.start = o := by
    rw [Matcher.settled, Option.mem_def.1 ho]
    rfl
  rw [hsettled] at hpos' hleft
  have hzero : s'.captures.left 0 ≠ [] := by
    rw [hleft]
    exact hsound.captured_zero (List.mem_of_mem_head? ho)
  have hmatched : s'.captures.publish? ≠ none := by
    rw [Captures.publish?_eq hproper, List.isEmpty_eq_false_iff.2 hzero]
    exact Option.some_ne_none _
  obtain ⟨spans, hspans⟩ := Option.ne_none_iff_exists'.1 hmatched
  exact ⟨hpos', spans, hspans, fun g => by
    rw [Captures.history_publish hproper hspans, hleft]⟩

end Tree.Plain

/-- The pattern `(a)+?b+`. -/
def lazyRun : Tree :=
  Tree.build {} do
    let a ← Builder.one 'a'
    let group ← Builder.capture 1 a
    let run ← Builder.repeatedLazy group 1 unbounded
    let b ← Builder.one 'b'
    let rest ← Builder.repeated b 1 unbounded
    Builder.concat [run, rest]

theorem root_lazyRun : lazyRun.root =
    .node 6 {} (.capture (some 0) none) [.node 5 {} .concat [
      .node 2 {} (.loop 1 unbounded true) [
        .node 1 {} (.capture (some 1) none) [.node 0 {} (.char (.one 'a')) []]],
      .node 4 {} (.charLoop (.one 'b') 1 unbounded false) []]] := by
  have hfinish : lazyRun = Builder.finish 5 {
      options := {}
      entries := #[⟨.char (.one 'a'), [], {}⟩, ⟨.capture (some 1) none, [0], {}⟩,
        ⟨.loop 1 unbounded true, [1], {}⟩, ⟨.char (.one 'b'), [], {}⟩,
        ⟨.charLoop (.one 'b') 1 unbounded false, [], {}⟩, ⟨.concat, [2, 4], {}⟩]
      maxGroup := 1 } := rfl
  rw [hfinish]
  simp [Builder.finish, Builder.push, Builder.nodes, Builder.addNode]

theorem linear_lazyRun : lazyRun.Linear := by
  have hatom : Builder.Unshared {} _ [0] := .call .start (.atom (.one 'a')) trivial (.refl _)
  have hgroup : Builder.Unshared {} _ [1] := hatom.call (.capture 1 0) Nat.one_pos (.refl _)
  have hrun : Builder.Unshared {} _ [2] :=
    hgroup.call (.quantify 1 1 unbounded true) ⟨by decide, Nat.le_refl _⟩ (.refl _)
  have hatom' : Builder.Unshared {} _ [3, 2] := hrun.call (.atom (.one 'b')) trivial (.refl _)
  have hrest : Builder.Unshared {} _ [4, 2] :=
    hatom'.call (.quantify 3 1 unbounded false) ⟨by decide, Nat.le_refl _⟩ (.refl _)
  have hconcat : Builder.Unshared {} _ [5] := hrest.call (.concat [2, 4]) trivial (.swap ..)
  exact ⟨_, _, _, 5, hconcat, List.mem_singleton_self 5, rfl⟩

theorem unshared_lazyRun : lazyRun.Unshared := linear_lazyRun.unshared

theorem plain_lazyRun (culture : Culture) : lazyRun.Plain culture := by
  refine ⟨unshared_lazyRun, fun x hx min _ hkind child hchild => ?_, fun x hx g u hkind => ?_⟩
  · rw [root_lazyRun] at hx
    simp only [Node.preorder_node, List.flatMap_cons, List.flatMap_nil, List.append_nil,
      List.cons_append, List.nil_append, List.mem_cons, List.not_mem_nil, or_false] at hx
    rcases hx with rfl | rfl | rfl | rfl | rfl | rfl <;> cases hkind
    obtain rfl := List.mem_singleton.1 hchild
    exact Node.not_matchesEmpty_capture (Node.not_matchesEmpty_char _ _ _ _ _) _ _ _ _
  · rw [root_lazyRun] at hx
    simp only [Node.preorder_node, List.flatMap_cons, List.flatMap_nil, List.append_nil,
      List.cons_append, List.nil_append, List.mem_cons, List.not_mem_nil, or_false] at hx
    rcases hx with rfl | rfl | rfl | rfl | rfl | rfl <;> cases hkind

/-- In `aabb` both characters before the run of `b` are captured. -/
theorem attempt_lazyRun : ∃ program, Program.compile lazyRun .invariant {} = .ok program ∧
    ∃ enough, ∀ fuel, enough ≤ fuel → ∃ s',
      attempt program .invariant fuel (.ofString "aabb")
          (ScanState.fresh program.groupCount).resetAttempt = .ok true s' ∧ s'.textPos = 4 ∧
        ∃ spans, s'.captures.publish? = some spans ∧ spans.history 1 = [⟨0, 1⟩, ⟨1, 1⟩] := by
  obtain ⟨hcompile, hattempt⟩ := (plain_lazyRun .invariant).attempt_returns_first {}
  obtain ⟨program, hprogram⟩ := hcompile rfl
  let p : Place := ⟨[], ['a', 'a', 'b', 'b']⟩
  obtain ⟨enough, henough⟩ := hattempt program hprogram (.ofString "aabb") (by decide) p rfl
    (ScanState.fresh program.groupCount) rfl Array.size_replicate rfl
  have hfirst : (lazyRun.root.matcher Reading.plain
      (lazyRun.setting .invariant (.ofString "aabb") 0) p.start).head?.map
        (fun o => (o.place.offset, o.captured 1)) = some (4, [⟨1, 1⟩, ⟨0, 1⟩]) := by
    rw [root_lazyRun]
    simp [Node.matcher_node, Node.matcherOf, Matcher.capture, Matcher.sequence, Matcher.loop_eq,
      Matcher.charLoop, again, afterRun, exactly, stops, goTo, passes, close, Place.read,
      Place.ahead, Place.start, Place.offset, Options.direction, MatchState.moveTo, Reading.plain, p]
    decide
  obtain ⟨o, ho, heq⟩ := Option.map_eq_some_iff.1 hfirst
  obtain ⟨hoffset, hcaptured⟩ := Prod.mk.inj heq
  refine ⟨program, hprogram, enough, fun fuel hfuel => ?_⟩
  obtain ⟨s', hs', hend⟩ := henough fuel hfuel
  obtain ⟨hpos, spans, hspans, hhistory⟩ := hend o ho
  refine ⟨s', ?_, hpos.trans hoffset, spans, hspans, ?_⟩
  · rw [hs']
    exact congrArg (EStateM.Result.ok · s') (Option.isSome_iff_exists.2 ⟨o, ho⟩)
  · rw [hhistory, hcaptured]
    rfl

namespace Tree.Plain

variable {t : Tree} {culture : Culture}

/-- Whatever the depth limits of the analyses, the programs of a plain tree match alike. -/
theorem attempt_eq_of_analysis (hplain : t.Plain culture) (limit limit' : Nat) :
    ∃ program program',
      Program.compile t culture { analysisDepthLimit := limit } = .ok program ∧
      Program.compile t culture { analysisDepthLimit := limit' } = .ok program' ∧
      ∀ text : Text, text.chars.length < unbounded → ∀ p : Place, p.In text → ∀ s : ScanState,
        s.textPos = p.offset → s.captures.groups.size = t.groupCount → s.watch.deadline = none →
          ∃ enough, ∀ fuel fuel', enough ≤ fuel → enough ≤ fuel' → ∃ found s₁ s₂,
            attempt program culture fuel text s.resetAttempt = .ok found s₁ ∧
            attempt program' culture fuel' text s.resetAttempt = .ok found s₂ ∧
            s₁.textPos = s₂.textPos ∧ s₁.captures.left = s₂.captures.left ∧
            s₁.captures.publish? = s₂.captures.publish? := by
  obtain ⟨body, hsound⟩ := hplain.unshared.sound
  obtain ⟨program, hcompile⟩ :=
    Program.compile_total hsound.arity culture { analysisDepthLimit := limit } rfl
  obtain ⟨program', hcompile'⟩ :=
    Program.compile_total hsound.arity culture { analysisDepthLimit := limit' } rfl
  refine ⟨program, program', hcompile, hcompile', ?_⟩
  intro text hlimit p hp s hpos hgroups hwatch
  have hcount := (Program.compiled_of_compile hcompile).choose_spec.groupCount
  have hcount' := (Program.compiled_of_compile hcompile').choose_spec.groupCount
  obtain ⟨enough, henough⟩ :=
    hplain.attempt_settles hcompile hlimit hp hpos (hgroups.trans hcount.symm) hwatch
  obtain ⟨enough', henough'⟩ :=
    hplain.attempt_settles hcompile' hlimit hp hpos (hgroups.trans hcount'.symm) hwatch
  refine ⟨max enough enough', fun fuel fuel' hfuel hfuel' => ?_⟩
  obtain ⟨s₁, hattempt₁, hpos₁, hproper₁, hleft₁, hsize₁⟩ := henough fuel (by omega)
  obtain ⟨s₂, hattempt₂, hpos₂, hproper₂, hleft₂, hsize₂⟩ := henough' fuel' (by omega)
  refine ⟨_, s₁, s₂, hattempt₁, hattempt₂, hpos₁.trans hpos₂.symm, hleft₁.trans hleft₂.symm, ?_⟩
  rw [Captures.publish?_eq hproper₁, Captures.publish?_eq hproper₂, hleft₁, hleft₂, hsize₁,
    hsize₂, hcount, hcount']

end Tree.Plain

/-- Without an analysis the program of `(a)+?b+` may give back characters, and ends where it ends
with one. -/
theorem attempt_lazyRun_of_analysis : ∃ program program',
    Program.compile lazyRun .invariant { analysisDepthLimit := 0 } = .ok program ∧
    Program.compile lazyRun .invariant {} = .ok program' ∧
    ∃ enough, ∀ fuel fuel', enough ≤ fuel → enough ≤ fuel' → ∃ found s₁ s₂,
      attempt program .invariant fuel (.ofString "aabb") (ScanState.fresh 2).resetAttempt =
        .ok found s₁ ∧
      attempt program' .invariant fuel' (.ofString "aabb") (ScanState.fresh 2).resetAttempt =
        .ok found s₂ ∧
      s₁.textPos = s₂.textPos ∧ s₁.captures.publish? = s₂.captures.publish? := by
  obtain ⟨program, program', hcompile, hcompile', hall⟩ :=
    (plain_lazyRun .invariant).attempt_eq_of_analysis 0 Analysis.defaultDepthLimit
  obtain ⟨enough, henough⟩ := hall (.ofString "aabb") (by decide) ⟨[], ['a', 'a', 'b', 'b']⟩ rfl
    (ScanState.fresh 2) rfl rfl rfl
  refine ⟨program, program', hcompile, hcompile', enough, fun fuel fuel' hfuel hfuel' => ?_⟩
  obtain ⟨found, s₁, s₂, h₁, h₂, hpos, -, hpublish⟩ := henough fuel fuel' hfuel hfuel'
  exact ⟨found, s₁, s₂, h₁, h₂, hpos, hpublish⟩

end RegexMachine
