import RegexMachine.Proofs.Attempts.Plain
import RegexMachine.Proofs.Machine.Groups
import RegexMachine.Proofs.Simulation.Edge

/-!
# Results of attempts

What the attempt at a place gives depends on the program, the text, the place and where the scan
began, and not on anything else that a matcher holds. Where the filter of a program does not let a
match start, the attempt returns without one.
-/

namespace RegexMachine

open Status Machine

/-- What an attempt that found a match leaves: where the cursor stopped, and the captures. -/
structure Hit where
  cursor : Nat
  captures : Captures

/-- A scan that has no deadline stands at a place. -/
structure ScanState.At (env : Surroundings) (p : Place) (s : ScanState) : Prop where
  textPos : s.textPos = p.offset
  textStart : s.textStart = env.textStart
  size : s.captures.groups.size = env.program.groupCount
  untimed : s.watch.deadline = none

/-- A scan that stands at a place and holds nothing else. -/
def ScanState.standing (env : Surroundings) (p : Place) : ScanState where
  textStart := env.textStart
  textPos := p.offset
  captures := Captures.none env.program.groupCount

theorem ScanState.at_standing (env : Surroundings) (p : Place) : (standing env p).At env p where
  textPos := rfl
  textStart := rfl
  size := Array.size_replicate
  untimed := rfl

namespace Surroundings

variable {env : Surroundings} {p : Place}

/-- With enough fuel the attempt at a place returns, with a match or without. -/
def Gives (env : Surroundings) (p : Place) (result : Option Hit) : Prop :=
  ∃ enough, ∀ fuel, enough ≤ fuel → ∀ s : ScanState, s.At env p → ∃ s',
    attempt env.program env.culture fuel env.text s.resetAttempt = .ok result.isSome s' ∧
      s'.textStart = s.textStart ∧ s'.watch = s.watch ∧
      s'.captures.groups.size = env.program.groupCount ∧
      ∀ hit ∈ result, s'.textPos = hit.cursor ∧ s'.captures = hit.captures

/-- With enough fuel the attempt at a place returns without a match. -/
def Fails (env : Surroundings) (p : Place) : Prop := env.Gives p none

theorem Gives.unique {r r' : Option Hit} (h : env.Gives p r) (h' : env.Gives p r') : r = r' := by
  obtain ⟨enough, h⟩ := h
  obtain ⟨enough', h'⟩ := h'
  have hs := ScanState.at_standing env p
  obtain ⟨x, hx, -, -, -, hhit⟩ := h (max enough enough') (Nat.le_max_left _ _) _ hs
  obtain ⟨y, hy, -, -, -, hhit'⟩ := h' (max enough enough') (Nat.le_max_right _ _) _ hs
  obtain ⟨hsome, rfl⟩ := EStateM.Result.ok.inj (hx.symm.trans hy)
  cases r with
  | none =>
    cases r' with
    | none => rfl
    | some hit' => cases hsome
  | some hit =>
    cases r' with
    | none => cases hsome
    | some hit' =>
      obtain ⟨hcursor, hcaptures⟩ := hhit hit rfl
      obtain ⟨hcursor', hcaptures'⟩ := hhit' hit' rfl
      obtain ⟨cursor, captures⟩ := hit
      obtain ⟨cursor', captures'⟩ := hit'
      obtain rfl : cursor = cursor' := hcursor.symm.trans hcursor'
      obtain rfl : captures = captures' := hcaptures.symm.trans hcaptures'
      rfl

/-- An attempt gives what its walk ends in. -/
theorem gives_of_reaches {found : Bool} {m : Machine}
    (h : Reaches env (.running (env.program.initial p)) (.ended found m))
    (hsize : m.captures.groups.size = env.program.groupCount) :
    env.Gives p (if found then some ⟨m.position, m.settle.captures⟩ else none) := by
  obtain ⟨enough, henough⟩ := run_of_reaches h
  refine ⟨enough, fun fuel hfuel s hs => ?_⟩
  have htext : s.resetAttempt.textStart = env.textStart := hs.textStart
  rw [attempt, htext, start_resetAttempt hs.textPos hs.size, henough fuel hfuel s.resetAttempt.watch hs.untimed]
  cases found with
  | true =>
    refine ⟨_, rfl, rfl, rfl, hsize, fun hit hhit => ?_⟩
    obtain rfl := Option.some.inj hhit
    exact ⟨rfl, rfl⟩
  | false => exact ⟨_, rfl, rfl, rfl, hsize, fun hit hhit => by cases hhit⟩

/-- An attempt at the place returns, if it is granted enough fuel. -/
def Returns (env : Surroundings) (p : Place) : Prop :=
  ∃ (fuel : Nat) (s : ScanState) (found : Bool) (s' : ScanState), s.At env p ∧
    attempt env.program env.culture fuel env.text s.resetAttempt = .ok found s'

theorem Gives.returns {result : Option Hit} (h : env.Gives p result) : env.Returns p := by
  obtain ⟨enough, h⟩ := h
  have hs := ScanState.at_standing env p
  obtain ⟨s', hs', -⟩ := h enough (Nat.le_refl _) _ hs
  exact ⟨enough, _, _, s', hs, hs'⟩

theorem Returns.gives (h : env.Returns p) : ∃ result, env.Gives p result := by
  obtain ⟨fuel, s, found, s', hs, h⟩ := h
  have htext : s.resetAttempt.textStart = env.textStart := hs.textStart
  have hsize := size_run env fuel (env.program.initial p) s.resetAttempt.watch
  rw [attempt, htext, start_resetAttempt hs.textPos hs.size] at h
  cases hrun : run env fuel (env.program.initial p) s.resetAttempt.watch with
  | mk result m w =>
    rw [hrun] at h hsize
    cases result with
    | error e => cases h
    | ok found =>
      have hreach := reaches_of_run (w := s.resetAttempt.watch) hs.untimed fuel hrun
      exact ⟨_, gives_of_reaches hreach (hsize.trans Array.size_replicate)⟩

theorem returns_of_plain {t : Tree} (hplain : t.Plain env.culture) {config : CompileConfig}
    (hcompile : Program.compile t env.culture config = .ok env.program)
    (hlimit : env.text.chars.length < unbounded) (hp : p.In env.text) : env.Returns p := by
  have hs := ScanState.at_standing env p
  obtain ⟨enough, henough⟩ := hplain.attempt_settles hcompile hlimit hp hs.textPos hs.size hs.untimed
  obtain ⟨s', hs', -⟩ := henough enough (Nat.le_refl _)
  exact ⟨enough, _, _, s', hs, hs'⟩

/-- Where the filter does not let a match start, the attempt returns without one. -/
theorem fails_of_admits {t : Tree} {config : CompileConfig}
    (hcompile : Program.compile t env.culture config = .ok env.program) (hp : p.In env.text)
    (hreject : env.program.filter.mode.admits env.culture env.textStart p = false) :
    env.Fails p := by
  obtain ⟨last, hcompiled⟩ := Program.compiled_of_compile hcompile
  rw [hcompiled.filter] at hreject
  let ctx : LayoutContext :=
    { analysis := Analysis.ofTree t config.analysisDepthLimit, culture := env.culture }
  have hrejects : Rejects env (ctx.block env.program t.root) p.start := rejects_root rfl hreject
  obtain ⟨m, hreach, hm⟩ := reaches_end_of_rejects hrejects hcompiled.opening hcompiled.root
    hcompiled.stop (enters_initial hp)
  have hmatched : m.captures.isMatched 0 = false := by
    rw [Captures.isMatched_eq hm.proper, hm.left_eq]
    rfl
  have hgives := gives_of_reaches hreach hm.size_eq
  rwa [hmatched] at hgives

end Surroundings

end RegexMachine
