import RegexMachine.Proofs.Regex.Iteration
import RegexMachine.Proofs.Regex.Lockstep
import RegexMachine.Proofs.Replacement.Splice

/-!
# Scans without faults

The scans of a plain tree break no contract on the way. However many steps a search is granted, it is
given up for want of steps or it answers, and what it publishes are spans of the text that start and
stop between characters, so that whatever a match promises to cut out of the text can be cut out.
-/

namespace RegexMachine

open Regex (Serves)

/-- All captures of the match lie in its text and start and stop between characters, and every stretch
of text that the match gives out can be cut out. -/
structure Match.Sliceable (m : Match) : Prop where
  history : ∀ group, ∀ span ∈ m.spans.history group, span.stop ≤ m.text.size ∧
    m.text.isBoundary span.start = true ∧ m.text.isBoundary span.stop = true
  string : ∃ s, m.string = .ok s
  left : ∃ s, m.left = .ok s
  right : ∃ s, m.right = .ok s
  groups : ∀ i, ∀ g ∈ m.group? i, (∃ s, g.string = .ok s) ∧ ∃ ss, g.captureStrings = .ok ss

namespace Match

variable {m : Match}

theorem sliceable_of_history (h : ∀ group, ∀ span ∈ m.spans.history group,
    m.text.isBoundary span.start = true ∧ m.text.isBoundary span.stop = true) : m.Sliceable := by
  have hin : m.InText := fun i span hspan => h i span (List.mem_of_getLast? hspan)
  have hspan : ∀ group, ∀ span ∈ m.spans.history group,
      ∃ s, m.text.slice span.start span.stop = .ok s := fun group span hmem =>
    Text.exists_slice (Nat.le_add_right _ _) (h group span hmem).1 (h group span hmem).2
  obtain ⟨hstart, hstop⟩ := hin.whole
  refine ⟨fun group span hmem => ⟨Text.le_size (h group span hmem).2, h group span hmem⟩,
    Text.exists_slice (Nat.le_add_right _ _) hstart hstop,
    Text.exists_slice (Nat.zero_le _) m.text.isBoundary_zero hstart,
    Text.exists_slice (Text.le_size hstop) hstop m.text.isBoundary_size, fun i g hg => ?_⟩
  obtain ⟨span, hlast, rfl⟩ := Option.map_eq_some_iff.1 hg
  exact ⟨hspan i span (List.mem_of_getLast? hlast), Except.exists_mapM (hspan i)⟩

theorem Sliceable.inText (h : m.Sliceable) : m.InText := fun i span hspan =>
  (h.history i span (List.mem_of_getLast? hspan)).2

end Match

section

variable {env : Surroundings} {t : Tree} {config : CompileConfig} {p : Place}
  (hplain : t.Plain env.culture)
  (hcompile : Program.compile t env.culture config = .ok env.program)
  (hlimit : env.text.chars.length < unbounded)

include hplain hcompile hlimit

theorem Surroundings.Gives.sliceable {hit : Hit} {m : Match} (h : env.Gives p (some hit))
    (hp : p.In env.text) (hmatch : hit.match? env = some m) : m.text = env.text ∧ m.Sliceable := by
  obtain ⟨o, ho, -, hproper, hleft⟩ := h.exists_outcome hplain hcompile hlimit hp
  have hspans : SpansIn env.text o.captured :=
    (Node.keepsSound_matcher _ _ _ _ o ho (Machine.enters_initial hp).sound).spans
  obtain ⟨spans, hpublish, rfl⟩ := Option.map_eq_some_iff.1 hmatch
  refine ⟨rfl, Match.sliceable_of_history fun group span hmem => hspans group span ?_⟩
  have hmem : span ∈ spans.history group := hmem
  rwa [Captures.history_publish hproper hpublish, List.mem_reverse, hleft] at hmem

/-- From every place on a search gives as many items as are asked for, all of whose matches lie in the
text. -/
theorem Surroundings.exists_items (hp : p.In env.text) (afterEmpty : Bool) (n : Nat) :
    ∃ items : List (Option Match), (∀ m, some m ∈ items → m.text = env.text ∧ m.Sliceable) ∧
      ∃ enough, ∀ re₀ : Regex, re₀.Interprets env → enough ≤ re₀.patience → ∀ re, Serves re₀ re →
        ∃ re', Regex.nextTimes n (env.search p afterEmpty) re =
          .ok (items.map (Option.map Except.ok)) re' := by
  have hfollows := Engine.follows_interpreter hcompile
  -- A search that finds no more gives nothing ever after.
  have hnothing : ∀ n, ∀ m : Match, some m ∈ List.replicate n none →
      m.text = env.text ∧ m.Sliceable := fun n m hm => by cases List.eq_of_mem_replicate hm
  induction n generalizing p afterEmpty with
  | zero => exact ⟨[], fun m hm => (by cases hm), 0, fun _ _ _ re _ => ⟨re, rfl⟩⟩
  | succ n ih =>
    cases hresume : p.resume env.program.direction afterEmpty with
    | none =>
      refine ⟨List.replicate (n + 1) none, hnothing _, 0, fun re₀ hre₀ _ re hre => ?_⟩
      rw [List.map_replicate]
      exact Regex.nextTimes_of_next_none (Place.next_of_resume_none hfollows
        ⟨hre₀.engine, hre₀.limit⟩ hre hp hresume) rfl _
    | some q =>
      have hplain' : t.Plain (env.since p).culture := hplain
      obtain ⟨first, hfirst⟩ : ∃ first, (env.since p).First q first :=
        exists_first (hp.of_resume hresume) fun r hr _ => returns_of_plain hplain' hcompile hlimit hr
      obtain ⟨enough, hnext⟩ := hfirst.next hfollows hp hresume
      cases hmatch : first.bind fun found => found.2.match? env with
      | none =>
        refine ⟨List.replicate (n + 1) none, hnothing _, enough, fun re₀ hre₀ hpatience re hre => ?_⟩
        obtain ⟨re', -, hitem⟩ := hnext re₀ ⟨hre₀.engine, hre₀.limit⟩ hpatience re hre
        rw [hmatch] at hitem
        rw [List.map_replicate]
        exact Regex.nextTimes_of_next_none hitem rfl _
      | some m =>
        obtain ⟨⟨r, hit⟩, rfl, hhit⟩ := Option.bind_eq_some_iff.1 hmatch
        obtain ⟨htext, hsliceable⟩ :=
          hfirst.2.sliceable hplain' hcompile hlimit hfirst.1.1 hhit
        obtain ⟨hstart, hstop⟩ := hsliceable.inText.whole
        obtain ⟨stop, hin, hexit⟩ : ∃ stop : Place, stop.In env.text ∧
            m.spans.whole.exit env.program.direction = stop.offset := by
          rw [htext] at hstart hstop
          cases env.program.direction with
          | forward =>
            obtain ⟨stop, hin, hoffset⟩ := Text.exists_place hstop
            exact ⟨stop, hin, hoffset.symm⟩
          | backward =>
            obtain ⟨stop, hin, hoffset⟩ := Text.exists_place hstart
            exact ⟨stop, hin, hoffset.symm⟩
        obtain ⟨items, hitems, enough', hrest⟩ := ih hin (m.spans.whole.length == 0)
        refine ⟨some m :: items, fun m' hm' => ?_, max enough enough',
          fun re₀ hre₀ hpatience re hre => ?_⟩
        · rcases List.mem_cons.1 hm' with heq | hmem
          · obtain rfl := Option.some.inj heq
            exact ⟨htext, hsliceable⟩
          · exact hitems m' hmem
        · obtain ⟨re', hre', hitem⟩ := hnext re₀ ⟨hre₀.engine, hre₀.limit⟩ (by omega) re hre
          obtain ⟨re'', htimes⟩ := hrest re₀ hre₀ (by omega) re' hre'
          rw [hmatch] at hitem
          simp only [Regex.after_search hexit] at hitem
          exact ⟨re'', Regex.nextTimes_succ hitem htimes⟩

/-- From every place on a search finds a match that lies in the text, or none. -/
theorem Surroundings.exists_found (hp : p.In env.text) :
    ∃ found : Option Match, (∀ m ∈ found, m.text = env.text ∧ m.Sliceable) ∧
      ∃ enough, ∀ re₀ : Regex, re₀.Interprets env → enough ≤ re₀.patience → ∀ re, Serves re₀ re →
        answer (Regex.findAt env.text p.offset re) = .ok found := by
  have hfollows := Engine.follows_interpreter hcompile
  have hplain' : t.Plain (env.since p).culture := hplain
  obtain ⟨first, hfirst⟩ : ∃ first, (env.since p).First p first :=
    exists_first hp fun r hr _ => returns_of_plain hplain' hcompile hlimit hr
  obtain ⟨enough, hscan⟩ := hfirst.regexScan hfollows hp fun _ => Nat.le_refl _
  refine ⟨first.bind fun found => found.2.match? env, fun m hm => ?_, enough,
    fun re₀ hre₀ hpatience re hre => ?_⟩
  · obtain ⟨⟨r, hit⟩, rfl, hhit⟩ := Option.bind_eq_some_iff.1 hm
    exact hfirst.2.sliceable hplain' hcompile hlimit hfirst.1.1 hhit
  · have huses : re₀.Uses (.interpreter env.program env.culture) := ⟨hre₀.engine, hre₀.limit⟩
    obtain ⟨re', hresult, hre'⟩ := hscan re₀ huses hpatience re hre
    have hcheck := Regex.checkStart_of_isBoundary (Text.isBoundary_offset hp) re
    have hwrap : re'.wrap env.text = fun spans =>
        { text := env.text, spans, names := env.program.names } := by
      funext spans
      rw [Regex.wrap, huses.names_eq hfollows hre']
    simp only [Regex.findAt, Regex.findFrom, bind, EStateM.bind, hcheck, hresult, run_get, hwrap]
    cases first <;> rfl

end

/-- No scan of a plain tree faults, and all that it publishes lies in the text and can be cut out of it.
However many steps are granted and whatever the regex was called for before, a call finds what it finds
when enough are granted, unless fewer were and it is given up. An attempt that returns has emptied its
stacks, whether or not it found a match. -/
theorem Tree.Plain.scans_without_fault {t : Tree} {config : RegexConfig}
    (hplain : t.Plain (config.cultureOf t)) (hlimit : config.limit = none) :
    (config.compile.strictAnalysis = false → ∃ re, Regex.ofTree t config = .ok re) ∧
      ∀ re₀, Regex.ofTree t config = .ok re₀ → ∀ (text : Text) (start : Nat),
        text.chars.length < unbounded → text.isBoundary start = true →
          (∃ found : Option Match, (∀ m ∈ found, m.text = text ∧ m.Sliceable) ∧
            ∃ enough, ∀ patience re, Serves { re₀ with patience } re →
              let r := answer (Regex.findAt text start re)
              r = .ok found ∨ patience < enough ∧ r = .error .exhausted) ∧
          (∀ n, ∃ items : List (Option Match), (∀ m, some m ∈ items → m.text = text ∧ m.Sliceable) ∧
            ∃ enough, ∀ patience re, Serves { re₀ with patience } re →
              let r := answer ((Regex.Call.iterate text start n).perform re)
              r = .ok (items.map (Option.map Except.ok)) ∨
                patience < enough ∧ r = .error .exhausted) ∧
          ∀ program ∈ re₀.program?, ∀ (fuel : Nat) (s : ScanState),
            s.captures.groups.size = re₀.groupCount → text.isBoundary s.textPos = true →
              s.watch.deadline = none → ∀ found s',
                Machine.attempt program (config.cultureOf t) fuel text s.resetAttempt = .ok found s' →
                  s'.stackDepths = (0, 0, 0) := by
  refine ⟨Regex.ofTree_total hplain.unshared, fun re₀ hre₀ text start hlength hstart => ?_⟩
  obtain ⟨program, hcompile, rfl⟩ := Regex.ofTree_eq_ok.1 hre₀
  obtain ⟨p, hp, rfl⟩ := Text.exists_place hstart
  let env : Surroundings :=
    { program, culture := config.cultureOf t, text, textStart := p.offset }
  have hcompile : Program.compile t env.culture config.compile = .ok env.program := hcompile
  have hinterprets (patience : Nat) : Regex.Interprets
      { engine := .interpreter program (config.cultureOf t), limit := config.limit, patience } env :=
    ⟨rfl, hlimit⟩
  refine ⟨?_, fun n => ?_, ?_⟩
  · obtain ⟨found, hfound, enough, henough⟩ :=
      Surroundings.exists_found hplain hcompile hlength hp
    exact ⟨found, hfound, enough, Regex.answer_or_outOfSteps rfl
      (fun steps hsteps => Regex.follows_findAt_self text p.offset hsteps)
      fun patience hpatience => henough _ (hinterprets patience) hpatience⟩
  · obtain ⟨items, hitems, enough, henough⟩ :=
      Surroundings.exists_items hplain hcompile hlength hp false n
    refine ⟨items, hitems, enough, Regex.answer_or_outOfSteps rfl
      (fun steps hsteps => Regex.follows_iterate_self text p.offset n hsteps)
      fun patience hpatience re hre => ?_⟩
    obtain ⟨re', htimes⟩ := henough _ (hinterprets patience) hpatience re hre
    have hsearch : Regex.searchAt text p.offset re = .ok (env.search p false) re :=
      Regex.searchAt_of_isBoundary (Text.isBoundary_offset hp) re
    simp only [Regex.Call.perform, bind, EStateM.bind, hsearch, htimes]
    rfl
  · rintro _ ⟨⟩ fuel s hgroups hboundary hwatch found s' hattempt
    obtain ⟨q, hq, hoffset⟩ := Text.exists_place hboundary
    exact hplain.stackDepths_of_attempt hcompile hlength hq hoffset.symm hgroups hwatch hattempt

/-- The match of `(a)+?b+` in `éaab`, whose first character takes two bytes. -/
def accentedMatch : Match :=
  { text := .ofString "éaab", spans := ⟨#[[⟨2, 3⟩], [⟨2, 1⟩, ⟨3, 1⟩]]⟩ }

/-- A search for `(a)+?b+` in `éaab` that starts behind the first character finds one match, and an
attempt there leaves the stacks empty. -/
theorem faultless_lazyRun : ∃ re₀ : Regex, Regex.ofTree lazyRun {} = .ok re₀ ∧
    let text := Text.ofString "éaab"
    accentedMatch.Sliceable ∧
    (∃ enough, ∀ patience,
      let r := answer (Regex.findAt text 2 { re₀ with patience })
      r = .ok (some accentedMatch) ∨ patience < enough ∧ r = .error .exhausted) ∧
    (∃ enough, ∀ patience,
      let r := answer ((Regex.Call.iterate text 2 3).perform { re₀ with patience })
      r = .ok [some (.ok accentedMatch), none, none] ∨ patience < enough ∧ r = .error .exhausted) ∧
    let s : ScanState := { (ScanState.fresh 2) with textPos := 2 }
    ∀ program ∈ re₀.program?, ∀ fuel found s',
      Machine.attempt program .invariant fuel text s.resetAttempt = .ok found s' →
        s'.stackDepths = (0, 0, 0) := by
  obtain ⟨-, hsound⟩ := Tree.Plain.scans_without_fault
    (plain_lazyRun (RegexConfig.cultureOf {} lazyRun)) rfl
  have hfind : (Regex.ofTree lazyRun {}).toOption.map (fun re =>
      (re.groupCount, answer (Regex.findAt (.ofString "éaab") 2 re))) =
        some (2, .ok (some accentedMatch)) := by
    decide +kernel
  have hiterate : (Regex.ofTree lazyRun {}).toOption.map (fun re =>
      answer ((Regex.Call.iterate (.ofString "éaab") 2 3).perform re)) =
        some (.ok [some (.ok accentedMatch), none, none]) := by
    decide +kernel
  obtain ⟨re₀, hre₀, hfind⟩ := Regex.exists_of_ofTree hfind
  rw [hre₀] at hiterate
  obtain ⟨hgroups, hfind⟩ := Prod.mk.inj hfind
  have hiterate := Option.some.inj hiterate
  obtain ⟨⟨found, hfound, enough, hsome⟩, hitems, hempty⟩ :=
    hsound re₀ hre₀ (.ofString "éaab") 2 (by decide) (by decide)
  obtain ⟨items, -, enough', hall⟩ := hitems 3
  have hserves := Regex.serves_ofTree hre₀
  -- What was found in as many steps as a regex grants is what the theorem speaks of.
  have hfound' : found = some accentedMatch := by
    rcases hsome re₀.patience re₀ (hserves _) with h | ⟨-, h⟩
    · exact (Except.ok.inj (hfind.symm.trans h)).symm
    · cases hfind.symm.trans h
  have hitems' : (items.map (Option.map Except.ok) : List (Option (Except Error Match))) =
      [some (.ok accentedMatch), none, none] := by
    rcases hall re₀.patience re₀ (hserves _) with h | ⟨-, h⟩
    · exact (Except.ok.inj (hiterate.symm.trans h)).symm
    · cases hiterate.symm.trans h
  refine ⟨re₀, hre₀, (hfound _ hfound').2, ⟨enough, fun patience => ?_⟩, ⟨enough', fun patience => ?_⟩,
    fun program hprogram fuel found s' => ?_⟩
  · exact hfound' ▸ hsome patience _ (hserves patience)
  · exact hitems' ▸ hall patience _ (hserves patience)
  · let s : ScanState := { (ScanState.fresh 2) with textPos := 2 }
    have hsize : s.captures.groups.size = re₀.groupCount := hgroups.symm ▸ by decide
    exact hempty program hprogram fuel s hsize (by decide) rfl found s'

end RegexMachine
