import RegexMachine.Matcher.Engine
import RegexMachine.Proofs.State.Concurs

/-!
# Polls of a scan

Nothing but polls moves the watch of a scan, so how often a scan polled can be read off the watch that
it leaves. A poll that sees the deadline passed is the last one. Every instruction, every return to a
choice point and every candidate is preceded by a poll, so a scan whose steps run out has polled at
least as often.
-/

namespace RegexMachine

namespace Watch

/-- The watch after `n` polls. -/
def polled : (n : Nat) → Watch → Watch
  | 0, w => w
  | n + 1, w => polled n w.poll.1

theorem polled_add (m n : Nat) (w : Watch) : polled (m + n) w = polled n (polled m w) := by
  induction m generalizing w with
  | zero => rw [Nat.zero_add, polled]
  | succ m ih => rw [Nat.succ_add, polled, polled, ih]

/-- The next poll sees that the deadline has passed. -/
def Expires (w : Watch) : Prop := w.poll.2 = true

section

variable {w : Watch} {deadline : Nat} (hdeadline : w.deadline = some deadline)

include hdeadline

theorem poll_of_countdown (h : 1 < w.countdown) :
    w.poll = ({ w with countdown := w.countdown - 1 }, false) := by
  rw [poll, hdeadline]
  exact if_pos h

theorem poll_of_reading (h : w.countdown ≤ 1) :
    w.poll = ({ w with clock := w.clock.read.2, countdown := pollInterval },
      decide (deadline ≤ w.clock.readings w.clock.taken)) := by
  rw [poll, hdeadline]
  exact if_neg (Nat.not_lt.2 h)

theorem polled_eq {n : Nat} (h : n < w.countdown) :
    polled n w = { w with countdown := w.countdown - n } := by
  induction n generalizing w with
  | zero => rfl
  | succ n ih =>
    have hrest := ih (w := { w with countdown := w.countdown - 1 }) hdeadline
      (show n < w.countdown - 1 by omega)
    rw [polled, poll_of_countdown hdeadline (by omega), hrest]
    simp only [Nat.sub_sub, Nat.add_comm 1 n]

end

/-- What a watch shows of the polls that were made: every reading of the clock takes a whole interval,
and the countdown tells the rest. -/
def shown (w : Watch) : Nat := pollInterval * w.clock.taken + (pollInterval - w.countdown)

/-- A watch with a deadline shows every poll, so different numbers of polls leave different watches. -/
theorem shown_polled {w : Watch} {deadline : Nat} (hdeadline : w.deadline = some deadline)
    (hpos : 0 < w.countdown) (hle : w.countdown ≤ pollInterval) (n : Nat) :
    (polled n w).shown = w.shown + n := by
  induction n generalizing w with
  | zero => rfl
  | succ n ih =>
    rw [polled]
    by_cases hcount : 1 < w.countdown
    · rw [poll_of_countdown hdeadline hcount]
      have hrest := ih (w := { w with countdown := w.countdown - 1 }) hdeadline
        (Nat.sub_pos_of_lt hcount) (Nat.le_trans (Nat.sub_le _ _) hle)
      rw [hrest]
      simp only [shown]
      omega
    · rw [poll_of_reading hdeadline (Nat.not_lt.1 hcount)]
      have hrest := ih (w := { w with clock := w.clock.read.2, countdown := pollInterval }) hdeadline
        (show 0 < pollInterval by decide) (Nat.le_refl _)
      rw [hrest]
      simp only [shown, Clock.read, pollInterval] at *
      omega

theorem polled_start_inj {w : Watch} {d : Duration} {m n : Nat}
    (h : polled m (w.start (some d)) = polled n (w.start (some d))) : m = n := by
  have hshown (k : Nat) := shown_polled (w := w.start (some d)) rfl
    (show 0 < pollInterval by decide) (Nat.le_refl _) k
  have heq := congrArg shown h
  rw [hshown m, hshown n] at heq
  exact Nat.add_left_cancel heq

/-- When the deadline has passed as the watch starts, and the clock never goes back, the first reading
shows it. -/
theorem expires_of_passed {w : Watch} {d : Duration} {now : Nat}
    (hpassed : ∀ deadline ∈ (w.start (some d)).deadline, deadline ≤ now)
    (hclock : ∀ i, (w.start (some d)).clock.taken ≤ i → now ≤ (w.start (some d)).clock.readings i) :
    (polled (pollInterval - 1) (w.start (some d))).Expires := by
  have hcount : pollInterval - (pollInterval - 1) ≤ 1 := by decide
  rw [polled_eq rfl (show pollInterval - 1 < pollInterval by decide), Expires]
  refine (congrArg Prod.snd (poll_of_reading rfl hcount)).trans ?_
  exact decide_eq_true (Nat.le_trans (hpassed _ rfl) (hclock _ (Nat.le_refl _)))

/-- From one watch to the other so many polls were made. If one of them saw the deadline passed, it was
the last, and the answer is an error. When there is a value `done` polls were made at least, and
`granted` when the steps ran out. -/
def Spends {α : Type} (done granted : Nat) (w w' : Watch) (a : Except Failure α) : Prop :=
  ∃ n, w' = w.polled n ∧
    (∀ k < n, (w.polled k).Expires → k + 1 = n ∧ ∃ e, a = .error (.error e)) ∧
    (∀ b, a = .ok b → done ≤ n) ∧ (a = .error .exhausted → granted ≤ n)

namespace Spends

variable {α β : Type} {d e g k : Nat} {w w' w'' : Watch} {a : Except Failure α}

/-- A value that no poll was made for. -/
theorem value (w : Watch) (b : α) : Spends 0 g w w (.ok b : Except Failure α) :=
  ⟨0, rfl, fun _ hk => absurd hk (Nat.not_lt_zero _), fun _ _ => Nat.le_refl 0, nofun⟩

theorem fault (w : Watch) (f : Fault) :
    Spends d g w w (.error (.fault f) : Except Failure α) :=
  ⟨0, rfl, fun _ hk => absurd hk (Nat.not_lt_zero _), nofun, nofun⟩

theorem exhausted (w : Watch) : Spends d 0 w w (.error .exhausted : Except Failure α) :=
  ⟨0, rfl, fun _ hk => absurd hk (Nat.not_lt_zero _), nofun, fun _ => Nat.le_refl 0⟩

theorem expired (w : Watch) (e : Error) :
    Spends d g w w.poll.1 (.error (.error e) : Except Failure α) :=
  ⟨1, rfl, fun k hk _ => ⟨by omega, e, rfl⟩, nofun, nofun⟩

theorem mono (h : Spends d g w w' a) (hdone : e ≤ d) (hgranted : k ≤ g) :
    Spends e k w w' a := by
  obtain ⟨n, hw', hexpires, hvalue, hexhausted⟩ := h
  exact ⟨n, hw', hexpires, fun b hb => Nat.le_trans hdone (hvalue b hb),
    fun ha => Nat.le_trans hgranted (hexhausted ha)⟩

theorem error {f : Failure} (h : Spends d g w w' (.error f : Except Failure α)) :
    Spends e g w w' (.error f : Except Failure β) := by
  obtain ⟨n, hw', hexpires, -, hexhausted⟩ := h
  refine ⟨n, hw', fun k hk hkn => ?_, nofun, fun ha => hexhausted ?_⟩
  · obtain ⟨hlast, e, he⟩ := hexpires k hk hkn
    cases he
    exact ⟨hlast, e, rfl⟩
  · cases ha
    rfl

theorem andThen {b : β} (h : Spends d g w w' (.ok b : Except Failure β))
    (h' : Spends e k w' w'' a) : Spends (d + e) (d + k) w w'' a := by
  obtain ⟨n, rfl, hexpires, hvalue, -⟩ := h
  obtain ⟨n', rfl, hexpires', hvalue', hexhausted'⟩ := h'
  have hdone := hvalue b rfl
  refine ⟨n + n', (polled_add n n' w).symm, fun k hk hseen => ?_, fun c hc => ?_, fun ha => ?_⟩
  · by_cases hlt : k < n
    · obtain ⟨-, e, he⟩ := hexpires k hlt hseen
      cases he
    · obtain ⟨j, rfl⟩ := Nat.exists_eq_add_of_le (Nat.not_lt.1 hlt)
      rw [polled_add] at hseen
      obtain ⟨hlast, e, he⟩ := hexpires' j (by omega) hseen
      exact ⟨by omega, e, he⟩
  · have hdone' := hvalue' c hc
    omega
  · have hgranted := hexhausted' ha
    omega

theorem poll (h : w.poll.2 = false) : Spends 1 g w w.poll.1 (.ok () : Except Failure Unit) := by
  refine ⟨1, rfl, fun k hk hseen => ?_, fun _ _ => Nat.le_refl 1, nofun⟩
  obtain rfl : k = 0 := by omega
  cases h.symm.trans hseen

theorem poll_run {rest : Watch → Ended} (m : Machine)
    (h : ∀ w, Spends d g w (rest w).watch (rest w).result) (w : Watch) :
    let r : Ended := match w.poll with
      | (w, true) => ⟨.error (.error w.expired), m, w⟩
      | (w, false) => rest w
    Spends (1 + d) (1 + g) w r.watch r.result := by
  cases hpoll : w.poll with
  | mk w' seen =>
    obtain rfl : w.poll.1 = w' := congrArg Prod.fst hpoll
    cases seen with
    | true => exact expired w _
    | false => exact (poll (g := 0) (congrArg Prod.snd hpoll)).andThen (h w.poll.1)

/-- Once a poll would see the deadline passed no further one is made, and steps enough for that many
polls do not run out. -/
theorem of_expires (h : Spends d g w w' a) {k : Nat} (hk : (w.polled k).Expires) :
    ∃ n ≤ k + 1, w' = w.polled n ∧ (k < g → a ≠ .error .exhausted) := by
  obtain ⟨n, hw', hexpires, -, hexhausted⟩ := h
  by_cases hlt : k < n
  · obtain ⟨rfl, e, rfl⟩ := hexpires k hlt hk
    exact ⟨k + 1, Nat.le_refl _, hw', fun _ => nofun⟩
  · refine ⟨n, by omega, hw', fun hgranted ha => ?_⟩
    have hpolls := hexhausted ha
    omega

end Spends

end Watch

/-- A run polls before every instruction that it executes. -/
theorem Machine.spends_run (env : Surroundings) (fuel : Nat) (m : Machine) (w : Watch) :
    Watch.Spends 0 fuel w (run env fuel m w).watch (run env fuel m w).result := by
  induction fuel generalizing m w with
  | zero => exact Watch.Spends.exhausted w
  | succ fuel ih =>
    rw [run]
    refine (Watch.Spends.poll_run (d := 0) (g := fuel) m (fun w => ?_) w).mono
      (Nat.zero_le _) (by omega)
    cases env.program.instructions[m.address]? with
    | none => exact Watch.Spends.fault w _
    | some i =>
      dsimp only
      cases m.execute env i with
      | error f => exact Watch.Spends.fault w f
      | ok status =>
        cases status with
        | stop m => exact Watch.Spends.value w _
        | next m => exact ih _ w
        | jump address m => exact ih _ w
        | backtrack m =>
          refine (Watch.Spends.poll_run (d := 0) (g := fuel) m (fun w => ?_) w).mono
            (Nat.zero_le _) (by omega)
          cases m.choices.pop? with
          | none => exact Watch.Spends.value w false
          | some popped => exact ih _ w

namespace Scan

variable {α β : Type} {d e g k : Nat} {s : ScanState}

/-- The polls of a computation from a state. -/
def Polls (done granted : Nat) (x : Scan α) (s : ScanState) : Prop :=
  Watch.Spends done granted s.watch (stateLeft (x s)).watch (answer (x s))

theorem polls_pure (a : α) : Polls 0 g (pure a) s := Watch.Spends.value s.watch a

theorem polls_get : Polls 0 g get s := Watch.Spends.value s.watch s

theorem polls_modify {f : ScanState → ScanState} (hf : (f s).watch = s.watch) :
    Polls 0 g (modify f) s := by
  show Watch.Spends 0 g s.watch (f s).watch (.ok PUnit.unit)
  rw [hf]
  exact Watch.Spends.value s.watch PUnit.unit

theorem polls_moveTo (pos : Nat) : Polls 0 g (moveTo pos) s := polls_modify rfl

theorem polls_lift (r : Except Fault α) : Polls 0 g (lift r) s := by
  cases r with
  | ok a => exact Watch.Spends.value s.watch a
  | error f => exact Watch.Spends.fault s.watch f

theorem polls_exhausted : Polls d 0 (throw .exhausted : Scan α) s :=
  Watch.Spends.exhausted s.watch

theorem polls_poll : Polls 1 g poll s := by
  rw [Polls, poll]
  dsimp only
  cases hseen : s.watch.poll.2 with
  | true => exact Watch.Spends.expired s.watch _
  | false => exact Watch.Spends.poll hseen

theorem Polls.bind {x : Scan α} {f : α → Scan β} (hx : Polls d g x s)
    (hf : ∀ a t, x s = .ok a t → Polls e k (f a) t) :
    Polls (d + e) (min g (d + k)) (x >>= f) s := by
  show Watch.Spends _ _ _ (stateLeft (EStateM.bind x f s)).watch (answer (EStateM.bind x f s))
  rw [Polls] at hx
  rw [EStateM.bind]
  cases h : x s with
  | ok a t =>
    rw [h] at hx
    exact (hx.andThen (hf a t h)).mono (Nat.le_refl _) (Nat.min_le_right _ _)
  | error e t =>
    rw [h] at hx
    exact hx.error.mono (Nat.le_refl _) (Nat.min_le_left _ _)

theorem Polls.andThen {x : Scan α} {f : α → Scan β} (hx : Polls 0 g x s)
    (hf : ∀ a t, x s = .ok a t → Polls d g (f a) t) : Polls d g (x >>= f) s :=
  (hx.bind hf).mono (by omega) (by omega)

end Scan

namespace Phases

variable (P : Phases) {text : Text} {g : Nat}
  (hfind : ∀ g s, (P.findNext text).Polls 0 g s)
  (hmissed : ∀ s t, P.findNext text s = .ok false t → t.textPos = text.border P.direction)
  (hattempt : ∀ s, (P.attempt text).Polls 0 g s)

include hattempt in
theorem polls_tryCandidate (s : ScanState) : (P.tryCandidate text).Polls 1 g s := by
  refine (Scan.polls_poll.bind (g := g) (e := 0) (k := g) fun _ t _ => ?_).mono
    (Nat.le_refl 1) (by omega)
  refine Scan.polls_get.andThen fun s t _ => (Scan.polls_modify rfl).andThen fun _ t _ => ?_
  refine (hattempt t).andThen fun found t _ => ?_
  cases found with
  | true => exact Scan.polls_pure true
  | false => exact (Scan.polls_modify rfl).andThen fun _ t _ => Scan.polls_pure false

include hfind hmissed hattempt in
/-- A scan whose steps run out polled for each of them, since without a candidate it ends. -/
theorem polls_scan (fuel : Nat) (s : ScanState) :
    (P.scan text fuel).Polls 0 (min fuel g) s := by
  induction fuel generalizing s with
  | zero => exact Scan.polls_exhausted.mono (Nat.le_refl 0) (Nat.min_le_left 0 g)
  | succ fuel ih =>
    rw [scan]
    refine (hfind _ s).andThen fun candidate t ht => ?_
    cases candidate with
    | false =>
      refine Scan.polls_get.andThen fun _ u hu => ?_
      cases hu
      rw [if_pos (hmissed s t ht)]
      exact Scan.polls_pure ()
    | true =>
      refine ((P.polls_tryCandidate hattempt t).bind (e := 0) (k := min fuel g)
        fun found u _ => ?_).mono (Nat.zero_le _) (by omega)
      cases found with
      | true => exact Scan.polls_pure ()
      | false =>
        refine Scan.polls_get.andThen fun v u _ => ?_
        dsimp only
        split
        · exact Scan.polls_pure ()
        · exact (Scan.polls_lift _).andThen fun next u _ =>
            (Scan.polls_moveTo next).andThen fun _ u _ => ih u

end Phases

namespace Interpreter

variable (program : Program) (culture : Culture) (text : Text)

theorem polls_findNext (granted : Nat) (s : ScanState) :
    (findNext program culture text).Polls 0 granted s := by
  refine Scan.polls_get.andThen fun v t _ => (Scan.polls_lift _).andThen fun found t _ => ?_
  cases found with
  | some pos => exact (Scan.polls_moveTo pos).andThen fun _ t _ => Scan.polls_pure true
  | none => exact (Scan.polls_moveTo _).andThen fun _ t _ => Scan.polls_pure false

/-- A scan of the interpreter that runs out of steps polled as often as it was granted steps. -/
theorem polls_scan (fuel : Nat) (s : ScanState) :
    ((phases program culture fuel).scan text fuel).Polls 0 fuel s := by
  refine ((phases program culture fuel).polls_scan (g := fuel) (polls_findNext program culture text)
    ?_ ?_ fuel s).mono (Nat.le_refl 0) (by omega)
  · intro s t ht
    simp only [phases, findNext, bind, EStateM.bind, run_get, Scan.lift] at ht
    cases hfound : program.filter.find culture text s.textPos s.textStart with
    | error f =>
      rw [hfound] at ht
      cases ht
    | ok found =>
      rw [hfound] at ht
      cases found with
      | some pos => cases ht
      | none =>
        cases ht
        rfl
  · intro s
    have hrun := Machine.spends_run { program, culture, text, textStart := s.textStart } fuel
      (Machine.start s) s.watch
    simp only [Scan.Polls, phases, Machine.attempt]
    cases hended : Machine.run { program, culture, text, textStart := s.textStart } fuel
      (Machine.start s) s.watch with
    | mk result m w =>
      rw [hended] at hrun
      cases result with
      | error e => exact hrun.error
      | ok found =>
        cases found with
        | true => exact hrun
        | false => exact hrun

end Interpreter

end RegexMachine
