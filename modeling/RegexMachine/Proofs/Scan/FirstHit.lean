import RegexMachine.Matcher.Engine
import RegexMachine.Proofs.Attempts.Results
import RegexMachine.Proofs.State.Concurs

/-!
# Scans

A scan ends with what the first attempt that finds a match gives, in the direction of the scan. It
does not matter which places it skips on the way, as long as the attempts there would fail. The
filter of a program skips no others, so it never hides a match.
-/

namespace RegexMachine

open Machine

variable {env : Surroundings}

theorem Text.offset_eq_border {t : Text} {p : Place} (hp : p.In t) (d : Direction) :
    p.offset = t.border d ↔ p.ahead d = 0 := by
  cases d with
  | forward => exact (offset_eq_size hp).trans List.length_eq_zero_iff.symm
  | backward => exact Place.offset_eq_zero.trans List.length_eq_zero_iff.symm

theorem Text.bump_offset {t : Text} {p q : Place} {d : Direction} {c : Char} (hp : p.In t)
    (h : p.read d = some (c, q)) : t.bump d p.offset = .ok q.offset := by
  rw [bump, read_offset hp, h]
  rfl

/-- The scan has not moved behind where it began. -/
def Place.Begun (env : Surroundings) (p : Place) : Prop :=
  env.program.direction = .forward → env.textStart ≤ p.offset

theorem Place.Begun.of_ahead_le {p q : Place} (h : p.Begun env) (hp : p.In env.text)
    (hq : q.In env.text)
    (hle : q.ahead env.program.direction ≤ p.ahead env.program.direction) : q.Begun env := by
  intro hforward
  rw [hforward] at hle
  exact (h hforward).trans (Place.offset_le_of_ahead_le (hp.trans hq.symm) hle)

/-- The first hit from a place on, and the place where the attempt makes it. -/
def Surroundings.First (env : Surroundings) (p : Place) : Option (Place × Hit) → Prop
  | some (q, hit) =>
      env.text.PassesTo env.program.direction env.Fails p (some q) ∧ env.Gives q (some hit)
  | none => env.text.PassesTo env.program.direction env.Fails p none

namespace Surroundings.First

variable {p q : Place} {first : Option (Place × Hit)}

theorem of_read {c : Char} (h : env.First p first) (hp : p.In env.text)
    (hread : p.read env.program.direction = some (c, q)) (hne : ∀ hit, first ≠ some (p, hit)) :
    env.First q first := by
  have hq := hp.of_read hread
  have hahead := Place.ahead_of_read hread
  cases first with
  | none => exact fun r hr hle => h r hr (by omega)
  | some found =>
    obtain ⟨x, hit⟩ := found
    obtain ⟨⟨hx, hle, hpassed⟩, hgives⟩ := h
    refine ⟨⟨hx, ?_, fun r hr hlt hrq => hpassed r hr hlt (by omega)⟩, hgives⟩
    have hxp : x.ahead env.program.direction ≠ p.ahead env.program.direction := fun heq =>
      hne hit (by rw [Place.eq_of_ahead (hx.trans hp.symm) heq])
    omega

/-- The attempt fails where the first hit is not. -/
theorem fails (h : env.First p first) (hp : p.In env.text) (hne : ∀ hit, first ≠ some (p, hit)) :
    env.Fails p := by
  cases first with
  | none => exact h p hp (Nat.le_refl _)
  | some found =>
    obtain ⟨x, hit⟩ := found
    obtain ⟨⟨hx, hle, hpassed⟩, -⟩ := h
    have hxp : x.ahead env.program.direction ≠ p.ahead env.program.direction := fun heq =>
      hne hit (by rw [Place.eq_of_ahead (hx.trans hp.symm) heq])
    exact hpassed p hp (by omega) (Nat.le_refl _)

theorem eq_none_of_read (h : env.First p first) (hp : p.In env.text)
    (hread : p.read env.program.direction = none) (hne : ∀ hit, first ≠ some (p, hit)) :
    first = none := by
  have hzero := Place.read_eq_none.1 hread
  cases first with
  | none => rfl
  | some found =>
    obtain ⟨x, hit⟩ := found
    obtain ⟨⟨hx, hle, -⟩, -⟩ := h
    obtain rfl : x = p := Place.eq_of_ahead (d := env.program.direction) (hx.trans hp.symm) (by omega)
    exact absurd rfl (hne hit)

theorem of_passesTo (h : env.First p first)
    (hpasses : env.text.PassesTo env.program.direction env.Fails p (some q)) : env.First q first := by
  obtain ⟨hq, hqp, hpassed⟩ := hpasses
  cases first with
  | none => exact fun r hr hle => h r hr (by omega)
  | some found =>
    obtain ⟨x, hit⟩ := found
    obtain ⟨⟨hx, hle, hpassed'⟩, hgives⟩ := h
    refine ⟨⟨hx, Nat.le_of_not_lt fun hlt => ?_, fun r hr hlt hrq => hpassed' r hr hlt (by omega)⟩,
      hgives⟩
    cases hgives.unique (hpassed x hx hlt hle)

theorem eq_none_of_passesTo (h : env.First p first)
    (hpasses : env.text.PassesTo env.program.direction env.Fails p none) : first = none := by
  cases first with
  | none => rfl
  | some found =>
    obtain ⟨x, hit⟩ := found
    obtain ⟨⟨hx, hle, -⟩, hgives⟩ := h
    cases hgives.unique (hpasses x hx hle)

end Surroundings.First

/-- When all attempts from a place on return, there is a first hit or none. -/
theorem Surroundings.exists_first {p : Place} (hp : p.In env.text)
    (hreturns : ∀ q : Place, q.In env.text →
      q.ahead env.program.direction ≤ p.ahead env.program.direction → env.Returns q) :
    ∃ first, env.First p first := by
  induction h : p.ahead env.program.direction generalizing p with
  | zero =>
    obtain ⟨result, hgives⟩ := (hreturns p hp (Nat.le_refl _)).gives
    cases result with
    | some hit => exact ⟨some (p, hit), .refl hp, hgives⟩
    | none => exact ⟨none, (Text.PassesTo.refl hp).last hgives (Place.read_eq_none.2 h)⟩
  | succ n ih =>
    obtain ⟨result, hgives⟩ := (hreturns p hp (Nat.le_refl _)).gives
    cases result with
    | some hit => exact ⟨some (p, hit), .refl hp, hgives⟩
    | none =>
      cases hread : p.read env.program.direction with
      | none =>
        rw [Place.read_eq_none.1 hread] at h
        cases h
      | some r =>
        obtain ⟨c, q⟩ := r
        have hahead := Place.ahead_of_read hread
        obtain ⟨first, hfirst⟩ := ih (hp.of_read hread)
          (fun x hx hle => hreturns x hx (by omega)) (by omega)
        have hpasses : ∀ q? : Option Place,
            env.text.PassesTo env.program.direction env.Fails q q? →
              env.text.PassesTo env.program.direction env.Fails p q? :=
          fun q? hnext => (Text.PassesTo.refl hp).step hgives hread hnext
        cases first with
        | none => exact ⟨none, hpasses none hfirst⟩
        | some found => exact ⟨some found, hpasses _ hfirst.1, hfirst.2⟩

/-- A search for candidates that skips only places where the attempt fails. -/
def Surroundings.Finds (env : Surroundings) (findNext : Text → Scan Bool) : Prop :=
  ∀ p : Place, p.In env.text → p.Begun env → ∃ q? : Option Place,
    env.text.PassesTo env.program.direction env.Fails p q? ∧
      ∀ s : ScanState, s.textPos = p.offset → s.textStart = env.textStart →
        findNext env.text s = .ok q?.isSome
          { s with textPos := (q?.map Place.offset).getD (env.text.border env.program.direction) }

/-- The scan has ended with a hit, or without one at the border of the text. -/
structure ScanState.Ends (env : Surroundings) (hit : Option Hit) (s : ScanState) : Prop where
  textPos : s.textPos = (hit.map Hit.cursor).getD (env.text.border env.program.direction)
  captures : s.captures = (hit.map Hit.captures).getD (Captures.none env.program.groupCount)

/-- The scan has ended where one with that hit ends, with captures that are related to its own. -/
structure ScanState.EndsBy (env : Surroundings) (R : Captures → Captures → Prop)
    (hit : Option Hit) (s : ScanState) : Prop where
  textPos : s.textPos = (hit.map Hit.cursor).getD (env.text.border env.program.direction)
  found : ∀ h ∈ hit, R s.captures h.captures
  missed : hit = none → s.captures = Captures.none env.program.groupCount

/-- A matcher that does what the program does: its attempts end as those of the program, with related
captures, and it skips only places where these fail. -/
structure Surroundings.MatchedBy (env : Surroundings) (R : Captures → Captures → Prop)
    (P : (fuel : Nat) → Phases) : Prop where
  direction : ∀ fuel, (P fuel).direction = env.program.direction
  finds : ∃ findNext, env.Finds findNext ∧ ∀ fuel, (P fuel).findNext = findNext
  attempts : ∀ p : Place, p.In env.text → ∀ result, env.Gives p result →
    ∃ enough, ∀ fuel, enough ≤ fuel → ∀ s : ScanState, s.At env p → ∃ s',
      (P fuel).attempt env.text s.resetAttempt = .ok result.isSome s' ∧
        s'.textStart = s.textStart ∧ s'.watch = s.watch ∧
        s'.captures.groups.size = env.program.groupCount ∧
        ∀ hit ∈ result, s'.textPos = hit.cursor ∧ R s'.captures hit.captures

/-- The two phases of a matcher that searches for candidates in its own way. -/
def Interpreter.phasesWith (findNext : Text → Scan Bool) (program : Program) (culture : Culture)
    (fuel : Nat) : Phases :=
  { Interpreter.phases program culture fuel with findNext }

/-- Every place is a candidate. -/
def Interpreter.everywhere : Text → Scan Bool := fun _ => pure true

theorem Scan.poll_of_deadline_none {s : ScanState} (h : s.watch.deadline = none) :
    Scan.poll s = .ok () s := by
  rw [Scan.poll, Watch.poll_of_deadline_none h]
  rfl

namespace Phases

variable {P : Phases} {text : Text} {s s₁ s₂ : ScanState}

/-- What trying a candidate comes to when the attempt returns. -/
theorem tryCandidate_eq {found : Bool} (hwatch : s.watch.deadline = none)
    (h : P.attempt text s.resetAttempt = .ok found s₁) :
    P.tryCandidate text s = .ok found
      (if found then s₁ else { s₁ with textPos := s.textPos }.resetAttempt) := by
  have hpoll := Scan.poll_of_deadline_none hwatch
  simp only [tryCandidate, bind, EStateM.bind, hpoll, run_get, run_modify, h]
  cases found <;> rfl

variable {steps : Nat}

theorem scan_of_no_candidate (hfind : P.findNext text s = .ok false s₁)
    (hborder : s₁.textPos = text.border P.direction) : P.scan text (steps + 1) s = .ok () s₁ := by
  simp only [scan, bind, EStateM.bind, hfind, Bool.false_eq_true, if_false, run_get, pure,
    EStateM.pure, hborder, if_true]

theorem scan_of_found (hfind : P.findNext text s = .ok true s₁)
    (htry : P.tryCandidate text s₁ = .ok true s₂) : P.scan text (steps + 1) s = .ok () s₂ := by
  simp only [scan, bind, EStateM.bind, hfind, if_true, htry, pure, EStateM.pure]

theorem scan_of_missed (hfind : P.findNext text s = .ok true s₁)
    (htry : P.tryCandidate text s₁ = .ok false s₂)
    (hborder : s₂.textPos = text.border P.direction) : P.scan text (steps + 1) s = .ok () s₂ := by
  simp only [scan, bind, EStateM.bind, hfind, if_true, htry, Bool.false_eq_true, if_false, run_get,
    pure, EStateM.pure, hborder]

theorem scan_of_bump {next : Nat} (hfind : P.findNext text s = .ok true s₁)
    (htry : P.tryCandidate text s₁ = .ok false s₂)
    (hborder : s₂.textPos ≠ text.border P.direction)
    (hbump : text.bump P.direction s₂.textPos = .ok next) :
    P.scan text (steps + 1) s = P.scan text steps { s₂ with textPos := next } := by
  simp only [scan, bind, EStateM.bind, hfind, if_true, htry, Bool.false_eq_true, if_false, run_get,
    pure, hborder, Scan.lift, hbump, Scan.moveTo, run_modify]

end Phases

section

variable {R : Captures → Captures → Prop} {P : (fuel : Nat) → Phases} {p : Place}

/-- Where the attempt fails, trying the place leaves the scan where it was. -/
theorem Surroundings.Fails.tryCandidate (h : env.Fails p) (hmatched : env.MatchedBy R P)
    (hp : p.In env.text) :
    ∃ enough, ∀ fuel, enough ≤ fuel → ∀ s : ScanState, s.At env p → ∃ s' : ScanState,
      (P fuel).tryCandidate env.text s = .ok false s' ∧ s'.At env p ∧
        s'.captures = Captures.none env.program.groupCount ∧ s'.watch = s.watch := by
  obtain ⟨enough, hattempt⟩ := hmatched.attempts p hp none h
  refine ⟨enough, fun fuel hfuel s hs => ?_⟩
  obtain ⟨s', hs', hstart, hwatch, hsize, -⟩ := hattempt fuel hfuel s hs
  refine ⟨_, Phases.tryCandidate_eq hs.untimed hs', ⟨hs.textPos, ?_, ?_, ?_⟩, ?_, hwatch⟩
  · exact hstart.trans hs.textStart
  · exact Array.size_replicate.trans hsize
  · exact (congrArg Watch.deadline hwatch).trans hs.untimed
  · exact congrArg Captures.none hsize

/-- A matcher that does what the program does ends its scan with the first hit. -/
theorem Surroundings.MatchedBy.scan (hmatched : env.MatchedBy R P)
    {first : Option (Place × Hit)} (hfirst : env.First p first) (hp : p.In env.text)
    (hbegun : p.Begun env) :
    ∃ enough, ∀ fuel steps, enough ≤ fuel → enough ≤ steps → ∀ s : ScanState, s.At env p →
      s.captures = Captures.none env.program.groupCount → ∃ s',
        (P fuel).scan env.text steps s = .ok () s' ∧ s'.EndsBy env R (first.map Prod.snd) ∧
          s'.watch = s.watch := by
  induction h : p.ahead env.program.direction using Nat.strong_induction_on generalizing p with
  | _ n ih =>
    obtain ⟨findNext, hfinds, hfindNext⟩ := hmatched.finds
    obtain ⟨q?, hpasses, hfind⟩ := hfinds p hp hbegun
    have hfind : ∀ fuel, ∀ s : ScanState, s.textPos = p.offset → s.textStart = env.textStart →
        (P fuel).findNext env.text s = .ok q?.isSome
          { s with textPos := (q?.map Place.offset).getD (env.text.border (P fuel).direction) } := by
      intro fuel
      rw [hfindNext fuel, hmatched.direction fuel]
      exact hfind
    cases q? with
    | none =>
      obtain rfl := hfirst.eq_none_of_passesTo hpasses
      refine ⟨1, fun fuel steps _ hsteps s hs hclear => ?_⟩
      obtain ⟨steps, rfl⟩ := Nat.exists_eq_add_one_of_ne_zero (Nat.ne_of_gt hsteps)
      refine ⟨_, Phases.scan_of_no_candidate (hfind fuel s hs.textPos hs.textStart) rfl,
        ⟨?_, fun hit hhit => (by cases hhit), fun _ => hclear⟩, rfl⟩
      exact congrArg env.text.border (hmatched.direction fuel)
    | some q =>
      have hfirst := hfirst.of_passesTo hpasses
      obtain ⟨hq, hqp, -⟩ := hpasses
      have hbegun := hbegun.of_ahead_le hp hq hqp
      have hat : ∀ s : ScanState, s.At env p → { s with textPos := q.offset }.At env q :=
        fun s hs => ⟨rfl, hs.textStart, hs.size, hs.untimed⟩
      by_cases hhit : ∃ hit, first = some (q, hit)
      · obtain ⟨hit, rfl⟩ := hhit
        obtain ⟨enough, hattempt⟩ := hmatched.attempts q hq _ hfirst.2
        refine ⟨max enough 1, fun fuel steps hfuel hsteps s hs hclear => ?_⟩
        obtain ⟨steps, rfl⟩ : ∃ k, steps = k + 1 := ⟨steps - 1, by omega⟩
        obtain ⟨s', hs', -, hwatch, -, hends⟩ := hattempt fuel (by omega) _ (hat s hs)
        obtain ⟨hcursor, hcaptures⟩ := hends hit rfl
        refine ⟨s', Phases.scan_of_found (hfind fuel s hs.textPos hs.textStart)
          (Phases.tryCandidate_eq hs.untimed hs'), ⟨hcursor, ?_, fun hnone => (by cases hnone)⟩,
          hwatch⟩
        rintro _ ⟨⟩
        exact hcaptures
      · have hne : ∀ hit, first ≠ some (q, hit) := fun hit heq => hhit ⟨hit, heq⟩
        obtain ⟨enough, hmissed⟩ := (hfirst.fails hq hne).tryCandidate hmatched hq
        cases hread : q.read env.program.direction with
        | none =>
          have hzero := Place.read_eq_none.1 hread
          obtain rfl := hfirst.eq_none_of_read hq hread hne
          refine ⟨max enough 1, fun fuel steps hfuel hsteps s hs _ => ?_⟩
          obtain ⟨steps, rfl⟩ : ∃ k, steps = k + 1 := ⟨steps - 1, by omega⟩
          obtain ⟨s₂, htry, hs₂, hclear, hwatch⟩ := hmissed fuel (by omega) _ (hat s hs)
          have hborder := hs₂.textPos.trans ((Text.offset_eq_border hq _).2 hzero)
          refine ⟨s₂, Phases.scan_of_missed (hfind fuel s hs.textPos hs.textStart) htry ?_,
            ⟨hborder, fun hit hhit => (by cases hhit), fun _ => hclear⟩, hwatch⟩
          rw [hmatched.direction fuel]
          exact hborder
        | some r =>
          obtain ⟨c, next⟩ := r
          have hahead := Place.ahead_of_read hread
          have hnext := hq.of_read hread
          obtain ⟨enough', hscan⟩ := ih (next.ahead env.program.direction) (by omega)
            (hfirst.of_read hq hread hne) hnext (hbegun.of_ahead_le hq hnext (by omega)) rfl
          refine ⟨max enough (enough' + 1), fun fuel steps hfuel hsteps s hs _ => ?_⟩
          obtain ⟨steps, rfl⟩ : ∃ k, steps = k + 1 := ⟨steps - 1, by omega⟩
          obtain ⟨s₂, htry, hs₂, hclear, hwatch⟩ := hmissed fuel (by omega) _ (hat s hs)
          have hborder : s₂.textPos ≠ env.text.border (P fuel).direction := fun heq => by
            rw [hmatched.direction fuel] at heq
            have hzero := (Text.offset_eq_border hq _).1 (hs₂.textPos.symm.trans heq)
            omega
          have hbump : env.text.bump (P fuel).direction s₂.textPos = .ok next.offset := by
            rw [hmatched.direction fuel, hs₂.textPos, Text.bump_offset hq hread]
          obtain ⟨s', hs', hends, hwatch'⟩ := hscan fuel steps (by omega) (by omega)
            { s₂ with textPos := next.offset } ⟨rfl, hs₂.textStart, hs₂.size, hs₂.untimed⟩ hclear
          refine ⟨s', ?_, hends, hwatch'.trans hwatch⟩
          rw [Phases.scan_of_bump (hfind fuel s hs.textPos hs.textStart) htry hborder hbump, hs']

end

/-- The interpreter does what its program does, however it searches for candidates. -/
theorem Surroundings.Finds.matchedBy {findNext : Text → Scan Bool} (h : env.Finds findNext) :
    env.MatchedBy Eq (Interpreter.phasesWith findNext env.program env.culture) where
  direction _ := rfl
  finds := ⟨findNext, h, fun _ => rfl⟩
  attempts _ _ _ hgives := hgives

/-- What a scan ends with does not depend on the places that it skips where attempts fail. -/
theorem Surroundings.First.scan {findNext : Text → Scan Bool} (hfinds : env.Finds findNext)
    {p : Place} {first : Option (Place × Hit)} (hfirst : env.First p first) (hp : p.In env.text)
    (hbegun : p.Begun env) :
    ∃ enough, ∀ fuel steps, enough ≤ fuel → enough ≤ steps → ∀ s : ScanState, s.At env p →
      s.captures = Captures.none env.program.groupCount → ∃ s',
        (Interpreter.phasesWith findNext env.program env.culture fuel).scan env.text steps s =
          .ok () s' ∧ s'.Ends env (first.map Prod.snd) ∧ s'.watch = s.watch := by
  obtain ⟨enough, hscan⟩ := hfinds.matchedBy.scan hfirst hp hbegun
  refine ⟨enough, fun fuel steps hfuel hsteps s hs hclear => ?_⟩
  obtain ⟨s', hs', hends, hwatch⟩ := hscan fuel steps hfuel hsteps s hs hclear
  refine ⟨s', hs', ⟨hends.textPos, ?_⟩, hwatch⟩
  cases first with
  | none => exact hends.missed rfl
  | some found => exact hends.found _ rfl

end RegexMachine
