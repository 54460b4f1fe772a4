import RegexMachine.Proofs.Attempts.FirstOutcome
import RegexMachine.Proofs.Scan.Bytes
import RegexMachine.Proofs.Scan.FirstHit

/-!
# Filters hide no match

The filter of a compiled tree stops at a place or finds none, and an attempt at any place that it has
passed over fails. So a scan that follows the filter ends like one that tries every place.
-/

namespace RegexMachine

open Machine

variable {env : Surroundings}

/-- The state that a scan starts from stands at its first place. -/
theorem ScanState.at_prepare {p : Place} {s : ScanState}
    (hsize : s.captures.groups.size = env.program.groupCount) :
    (s.prepare env.textStart p.offset none).At env p where
  textPos := rfl
  textStart := rfl
  size := Array.size_replicate.trans hsize
  untimed := rfl

theorem Surroundings.finds_everywhere : env.Finds Interpreter.everywhere := by
  intro p hp _
  refine ⟨some p, .refl hp, fun s hpos _ => ?_⟩
  obtain ⟨textStart, textPos, values, choices, captures, watch⟩ := s
  obtain rfl : textPos = p.offset := hpos
  rfl

section

variable {t : Tree} {config : CompileConfig}
  (hcompile : Program.compile t env.culture config = .ok env.program)

include hcompile

/-- The filter passes over places where the attempt fails, and over no others. -/
theorem Surroundings.find_passesTo {p : Place} (hp : p.In env.text) (hbegun : p.Begun env) :
    ∃ q? : Option Place,
      env.program.filter.find env.culture env.text p.offset env.textStart =
          .ok (q?.map Place.offset) ∧
        env.text.PassesTo env.program.direction env.Fails p q? := by
  obtain ⟨last, hcompiled⟩ := Program.compiled_of_compile hcompile
  have hface : env.program.filter.mode.Faces env.program.direction := by
    rw [hcompiled.filter, hcompiled.direction_eq]
    exact StartFilter.faces_ofTree t env.culture
  obtain ⟨q?, hfind, hpasses⟩ := StartFilter.exists_find hface env.culture hp hbegun
  exact ⟨q?, hfind, hpasses.imp fun r hr _ hreject => fails_of_admits hcompile hr hreject⟩

theorem Surroundings.finds_findNext :
    env.Finds (Interpreter.findNext env.program env.culture) := by
  intro p hp hbegun
  obtain ⟨q?, hfind, hpasses⟩ := find_passesTo hcompile hp hbegun
  refine ⟨q?, hpasses, fun s hpos hstart => ?_⟩
  rw [← hpos, ← hstart] at hfind
  simp only [Interpreter.findNext, bind, EStateM.bind, run_get, Scan.lift, hfind]
  cases q? <;> rfl

/-- From any boundary that the scan may have reached, the filter goes to a boundary that is not
behind it, or to none, and passes over boundaries where the attempt fails. It does so too when it
searches the bytes of the text. When attempts return, the scan ends like one that tries boundary after
boundary. -/
theorem Program.filter_hides_no_match {p : Place} (hp : p.In env.text)
    (hbegun : env.program.direction = .forward → env.textStart ≤ p.offset) :
    (∃ q? : Option Place,
      env.program.filter.find env.culture env.text p.offset env.textStart =
          .ok (q?.map Place.offset) ∧
        env.program.filter.findInBytes env.culture env.text p.offset env.textStart =
          .ok (q?.map Place.offset) ∧
        env.text.PassesTo env.program.direction env.Fails p q?) ∧
      ((∀ q : Place, q.In env.text →
          q.ahead env.program.direction ≤ p.ahead env.program.direction → env.Returns q) →
        ∃ enough, ∀ fuel steps, enough ≤ fuel → enough ≤ steps → ∀ s : ScanState,
          s.captures.groups.size = env.program.groupCount → ∃ s₁ s₂,
            (Interpreter.phases env.program env.culture fuel).scan env.text steps
                (s.prepare env.textStart p.offset none) = .ok () s₁ ∧
              (Interpreter.phasesWith Interpreter.everywhere env.program env.culture fuel).scan
                  env.text steps (s.prepare env.textStart p.offset none) = .ok () s₂ ∧
              s₁.captures = s₂.captures ∧ s₁.textPos = s₂.textPos) := by
  obtain ⟨q?, hfind, hpasses⟩ := Surroundings.find_passesTo hcompile hp hbegun
  refine ⟨⟨q?, hfind, (StartFilter.findInBytes_eq_find ..).trans hfind, hpasses⟩,
    fun hreturns => ?_⟩
  obtain ⟨first, hfirst⟩ := Surroundings.exists_first hp hreturns
  obtain ⟨enough, hscan⟩ := hfirst.scan (Surroundings.finds_findNext hcompile) hp hbegun
  obtain ⟨enough', hscan'⟩ := hfirst.scan Surroundings.finds_everywhere hp hbegun
  refine ⟨max enough enough', fun fuel steps hfuel hsteps s hsize => ?_⟩
  have hat : (s.prepare env.textStart p.offset none).At env p := ScanState.at_prepare hsize
  have hclear : (s.prepare env.textStart p.offset none).captures =
      Captures.none env.program.groupCount := congrArg Captures.none hsize
  obtain ⟨s₁, h₁, hends₁, -⟩ := hscan fuel steps (by omega) (by omega) _ hat hclear
  obtain ⟨s₂, h₂, hends₂, -⟩ := hscan' fuel steps (by omega) (by omega) _ hat hclear
  exact ⟨s₁, s₂, h₁, h₂, hends₁.captures.trans hends₂.captures.symm,
    hends₁.textPos.trans hends₂.textPos.symm⟩

end

/-- The filter of `(a)+?b+` passes over the `x` of `xab`. -/
theorem scan_lazyRun : ∃ env : Surroundings,
    Program.compile lazyRun env.culture {} = .ok env.program ∧ env.text = .ofString "xab" ∧
      env.program.filter.find env.culture env.text 0 0 = .ok (some 1) ∧
      env.program.filter.findInBytes env.culture env.text 0 0 = .ok (some 1) ∧
      env.Fails ⟨[], ['x', 'a', 'b']⟩ ∧
      ∃ enough, ∀ fuel, enough ≤ fuel → ∃ s₁ s₂,
        (Interpreter.phases env.program env.culture fuel).scan env.text fuel
            ((ScanState.fresh 2).prepare 0 0 none) = .ok () s₁ ∧
          (Interpreter.phasesWith Interpreter.everywhere env.program env.culture fuel).scan env.text
              fuel ((ScanState.fresh 2).prepare 0 0 none) = .ok () s₂ ∧
          s₁.captures = s₂.captures ∧ s₁.textPos = s₂.textPos := by
  obtain ⟨body, hsound⟩ := unshared_lazyRun.sound
  obtain ⟨program, hprogram⟩ := Program.compile_total hsound.arity .invariant {} rfl
  obtain ⟨last, hcompiled⟩ := Program.compiled_of_compile hprogram
  let env : Surroundings :=
    { program, culture := .invariant, text := .ofString "xab", textStart := 0 }
  let p : Place := ⟨[], ['x', 'a', 'b']⟩
  have hp : p.In env.text := rfl
  have hmode : program.filter.mode = .leadingChar 'a' := by
    rw [hcompiled.filter, StartFilter.ofTree, root_lazyRun]
    rfl
  have hfind : program.filter.find .invariant env.text 0 0 = .ok (some 1) := by
    have hseek : (StartFilter.find ⟨.leadingChar 'a', .forward⟩ .invariant (.ofString "xab") 0 0) =
        .ok (some 1) := by decide
    rw [StartFilter.find, hmode]
    exact hseek
  have hcompile : Program.compile lazyRun env.culture {} = .ok env.program := hprogram
  obtain ⟨⟨q?, hfind', hbytes, hpasses⟩, hscan⟩ :=
    Program.filter_hides_no_match hcompile hp fun _ => Nat.le_refl 0
  have hlimit : (Text.ofString "xab").chars.length < unbounded := by decide
  obtain ⟨enough, hscan⟩ := hscan fun q hq _ =>
    Surroundings.returns_of_plain (plain_lazyRun .invariant) hprogram hlimit hq
  refine ⟨env, hprogram, rfl, hfind, (hbytes.trans hfind'.symm).trans hfind, ?_, enough,
    fun fuel hfuel => ?_⟩
  · have hq : some 1 = q?.map Place.offset := Except.ok.inj (hfind.symm.trans hfind')
    obtain ⟨q, rfl, hoffset⟩ := Option.map_eq_some_iff.1 hq.symm
    obtain ⟨hq, hle, hpassed⟩ := hpasses
    refine hpassed p hp (Nat.lt_of_le_of_ne hle fun heq => ?_) (Nat.le_refl _)
    rw [Place.eq_of_ahead (hq.trans hp.symm) heq] at hoffset
    cases hoffset
  · exact hscan fuel fuel hfuel hfuel (.fresh 2) (by rw [hcompiled.groupCount]; rfl)

end RegexMachine
