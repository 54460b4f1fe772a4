import RegexMachine.Proofs.Regex.Iteration
import RegexMachine.Proofs.Scan.Polls

/-!
# Time limits

A time limit can end a call with an error, and change nothing else: until a reading of the clock ends
a scan, all goes as without a limit. Nor can a scan go on for ever past its deadline.
-/

namespace RegexMachine

/-- A watch with a limit goes on as one without a deadline, until it is seen to expire. -/
theorem Watch.polledAlike_untimed (d : Duration) :
    PolledAlike (fun f => f = .error (.matchTimeout d))
      (fun w w' => w.limit = some d ∧ w'.deadline = none) := by
  rintro w w' ⟨hlimit, hnone⟩
  have hkept : w.poll.1.limit = some d := by
    rw [poll]
    split
    · exact hlimit
    · split
      · exact hlimit
      · exact hlimit
  have hstill : w'.poll = (w', false) := poll_of_deadline_none hnone
  cases hseen : w.poll.2 with
  | true =>
    refine .inl ⟨rfl, ?_⟩
    rw [expired, hkept, Option.getD_some]
  | false =>
    rw [hstill]
    exact .inr ⟨rfl, fun htrue => absurd htrue Bool.false_ne_true, hkept, hnone⟩

namespace Regex

variable {re₀ : Regex}

/-- Whatever the clocks read, a limit is the only difference that there is to the same regex without
one. -/
theorem timedAlike_untimed (hprovided : re₀.engine.Provided) (d : Duration) :
    TimedAlike (fun f => f = .error (.matchTimeout d))
      (fun w w' => w.limit = some d ∧ w'.deadline = none) (fun _ _ => True)
      { re₀ with limit := some d } { re₀ with limit := none } where
  provided := hprovided
  engine := rfl
  patience := rfl
  start _ _ _ := ⟨rfl, rfl⟩
  polled := Watch.polledAlike_untimed d
  clock _ _ _ := trivial

/-- All that the next item can be. Only a match leaves the search open, and the error of a scan is an
item, never the failure of the search. -/
theorem next_cases (s : Search) (re : Regex) :
    (∃ t, next s re = .ok (none, { s with done := true }) t) ∨
      (s.done = false ∧ ∃ m s' t, next s re = .ok (some (.ok m), s') t) ∨
      (∃ e t, next s re = .ok (some (.error e), { s with done := true }) t) ∨
      (∃ f t, next s re = .error f t ∧ ∀ e, f ≠ .error e) := by
  rw [next]
  cases hdone : s.done with
  | true =>
    obtain ⟨text, textStart, afterEmpty, done⟩ := s
    cases hdone
    exact .inl ⟨re, rfl⟩
  | false =>
    simp only [Bool.false_eq_true, if_false]
    cases nextStart re.direction s with
    | error f => exact .inr (.inr (.inr ⟨_, re, rfl, fun _ he => by cases he⟩))
    | ok start =>
      cases start with
      | none => exact .inl ⟨re, rfl⟩
      | some pos =>
        dsimp only
        cases scan s.text s.textStart pos re with
        | ok spans t =>
          cases spans with
          | none => exact .inl ⟨t, rfl⟩
          | some spans => exact .inr (.inl ⟨trivial, _, _, t, rfl⟩)
        | error e t =>
          cases e with
          | error e => exact .inr (.inr (.inl ⟨e, t, rfl⟩))
          | fault f => exact .inr (.inr (.inr ⟨_, t, rfl, fun _ he => by cases he⟩))
          | exhausted => exact .inr (.inr (.inr ⟨_, t, rfl, fun _ he => by cases he⟩))

/-- The items of a search that an error ends after some matches. -/
def interrupted (e : Error) (ms : List Match) (n : Nat) : List (Option (Except Error Match)) :=
  ms.map (fun m => some (.ok m)) ++ some (.error e) :: List.replicate (n - ms.length - 1) none

/-- When the scans of a search may be given up with an error, it goes on like the other search until
that error ends it. -/
theorem nextTimes_alike {W : Watch → Watch → Prop} {K : Clock → Clock → Prop} {re₀' : Regex}
    {e : Error} (h : TimedAlike (fun f => f = .error e) W K re₀ re₀') (n : Nat) :
    ∀ (s : Search) (re re' : Regex), Paired K re₀ re₀' re re' →
      answer (nextTimes n s re) = answer (nextTimes n s re') ∨
        s.done = false ∧ ∃ ms : List Match, ms.length < n ∧
          answer (nextTimes ms.length s re') = .ok (ms.map fun m => some (.ok m)) ∧
          answer (nextTimes n s re) = .ok (interrupted e ms n) := by
  induction n with
  | zero => exact fun s re re' _ => .inl rfl
  | succ n ih =>
    intro s re re' hpaired
    rcases next_alike h s hpaired with ⟨hopen, e', t, hnext, he⟩ | ⟨f, t, hnext, he⟩ | hagree
    · cases he
      refine .inr ⟨hopen, [], Nat.succ_pos n, rfl, ?_⟩
      rw [nextTimes_succ hnext (nextTimes_done n rfl t)]
      rfl
    · have hcases := next_cases s re
      rw [hnext] at hcases
      simp [he] at hcases
    obtain ⟨⟨item, s'⟩, _, t, t', hx, hy, rfl, hrest⟩ | ⟨f, t, t', hx, hy, -⟩ := hagree.exists_ends
    · rcases ih s' t t' hrest with hsame | ⟨hopen, ms, hlength, hbefore, hitems⟩
      · left
        rw [answer_nextTimes_succ hx, answer_nextTimes_succ hy, hsame]
      · right
        -- The search is open still, so this item is a match.
        have hcases := next_cases s re
        rw [hx] at hcases
        obtain ⟨_, ⟨⟩⟩ | ⟨hs, m, _, _, ⟨⟩⟩ | ⟨_, _, ⟨⟩⟩ | ⟨_, _, ⟨⟩, _⟩ := hcases
        · cases hopen
        · refine ⟨hs, m :: ms, Nat.succ_lt_succ hlength, ?_, ?_⟩
          · rw [List.length_cons, answer_nextTimes_succ hy, hbefore]
            rfl
          · rw [answer_nextTimes_succ hx, hitems]
            simp only [Except.map, interrupted, List.map_cons, List.length_cons, Nat.succ_sub_succ,
              List.cons_append]
        · cases hopen
    · left
      simp only [nextTimes, bind, EStateM.bind, hx, hy, answer]

theorem searchAt_cases (text : Text) (start : Nat) :
    (∃ f, ∀ re, searchAt text start re = .error f re) ∨
      ∀ re, searchAt text start re = .ok { text, textStart := start } re := by
  unfold searchAt checkStart
  split
  · exact .inl ⟨_, fun _ => rfl⟩
  · split
    · exact .inl ⟨_, fun _ => rfl⟩
    · exact .inr fun _ => rfl

/-- A limit ends a call with its error or changes nothing: what a call answers as a whole is the error
or the answer of the regex without a limit, and the items of a search are those without a limit, at
most cut off by the error. A scan whose deadline has passed when it begins, by a clock that never goes
back, is polled 512 times at most, and that many steps are enough to end it. -/
theorem limit_only_aborts {t : Tree} {config : RegexConfig} (h : ofTree t config = .ok re₀)
    (d : Duration) (patience : Nat) :
    (∀ re re', Serves { re₀ with limit := some d, patience } re →
      Serves { re₀ with limit := none, patience } re' →
        (∀ c : Call, c.Whole → answer (c.perform re) = .error (.error (.matchTimeout d)) ∨
          answer (c.perform re) = answer (c.perform re')) ∧
        ∀ (text : Text) (start n : Nat),
          answer ((Call.iterate text start n).perform re) =
              answer ((Call.iterate text start n).perform re') ∨
            ∃ ms : List Match, ms.length < n ∧
              answer ((Call.iterate text start ms.length).perform re') =
                .ok (ms.map fun m => some (.ok m)) ∧
              answer ((Call.iterate text start n).perform re) =
                .ok (interrupted (.matchTimeout d) ms n)) ∧
      ∀ (text : Text) (s : ScanState) (textStart textPos now : Nat),
        let begun := s.prepare textStart textPos (some d)
        let r := re₀.engine.scan text patience begun
        (∀ deadline ∈ begun.watch.deadline, deadline ≤ now) →
          (∀ i, begun.watch.clock.taken ≤ i → now ≤ begun.watch.clock.readings i) →
            ∃ n ≤ 512, (∀ k, (stateLeft r).watch = begun.watch.polled k ↔ k = n) ∧
              (512 ≤ patience → answer r ≠ .error .exhausted) := by
  obtain ⟨program, -, rfl⟩ := ofTree_eq_ok.1 h
  let granted : Regex := { engine := .interpreter program (config.cultureOf t), patience }
  have hprovided : granted.engine.Provided := trivial
  have halike := timedAlike_untimed hprovided d
  constructor
  · intro re re' hre hre'
    have hpaired : Paired (fun _ _ => True) { granted with limit := some d }
        { granted with limit := none } re re' := ⟨hre, hre', trivial⟩
    constructor
    · intro c hwhole
      obtain ⟨_, hc, rfl⟩ | hsame := (c.tracks halike hwhole).answer_eq_or hpaired
      · exact .inl hc
      · exact .inr hsame
    · intro text start n
      obtain ⟨f, hsearch⟩ | hsearch := searchAt_cases text start
      · exact .inl (by simp only [Call.perform, bind, EStateM.bind, hsearch, answer])
      have hperform (m : Nat) (re : Regex) : (Call.iterate text start m).perform re =
          nextTimes m { text, textStart := start } re := by
        simp only [Call.perform, bind, EStateM.bind, hsearch]
      simp only [hperform]
      exact (nextTimes_alike halike n _ re re' hpaired).imp_right And.right
  · intro text s textStart textPos now begun r hpassed hclock
    have hspends := Interpreter.polls_scan program (config.cultureOf t) text patience begun
    obtain ⟨n, hn, hleft, hends⟩ := hspends.of_expires (Watch.expires_of_passed hpassed hclock)
    refine ⟨n, hn, fun k => ⟨fun hk => ?_, fun hk => hk ▸ hleft⟩, fun hpatience => hends hpatience⟩
    exact Watch.polled_start_inj (hk.symm.trans hleft)

end Regex

/-- A scan for `(a)+?b+` in `xab` that has no time at all, by a clock that stands still. -/
theorem aborts_lazyRun : ∃ re₀ : Regex, Regex.ofTree lazyRun {} = .ok re₀ ∧
    let stopped : Clock := { readings := fun _ => 7 }
    let re : Regex := { re₀ with limit := some ⟨0⟩, patience := 600, clock := stopped }
    let re' : Regex := { re₀ with limit := none, patience := 600, clock := stopped }
    let text := Text.ofString "xab"
    let begun := re.rent.prepare 0 0 re.limit
    let r := re.engine.scan text 600 begun
    (answer (Regex.find text re) = .error (.error (.matchTimeout ⟨0⟩)) ∨
        answer (Regex.find text re) = answer (Regex.find text re')) ∧
      (∃ n ≤ 512, ∀ k, (stateLeft r).watch = begun.watch.polled k ↔ k = n) ∧
      answer r ≠ .error .exhausted := by
  obtain ⟨body, hsound⟩ := unshared_lazyRun.sound
  obtain ⟨program, hprogram⟩ :=
    Program.compile_total hsound.arity (RegexConfig.cultureOf {} lazyRun) {} rfl
  have hre₀ : Regex.ofTree lazyRun {} =
      .ok { engine := .interpreter program (RegexConfig.cultureOf {} lazyRun) } :=
    Regex.ofTree_eq_ok.2 ⟨program, hprogram, rfl⟩
  have hcreated := Regex.Created.ofTree hre₀
  let stopped : Clock := { readings := fun _ => 7 }
  let re : Regex :=
    { engine := .interpreter program (RegexConfig.cultureOf {} lazyRun)
      limit := some ⟨0⟩
      patience := 600
      clock := stopped }
  obtain ⟨hcalls, hscan⟩ := Regex.limit_only_aborts hre₀ ⟨0⟩ 600
  have hserves (limit : Option Duration) := (hcreated.granted limit .ticking 600).serves stopped
  obtain ⟨n, hn, hleft, hends⟩ := hscan (.ofString "xab") re.rent 0 0 7
    (by rintro _ ⟨⟩; exact Nat.le_refl 7) (fun _ _ => Nat.le_refl 7)
  exact ⟨_, hre₀, (hcalls _ _ (hserves _) (hserves _)).1 (.find (.ofString "xab")) trivial,
    ⟨n, hn, hleft⟩, hends (by decide)⟩

end RegexMachine
