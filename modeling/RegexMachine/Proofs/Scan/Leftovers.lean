import RegexMachine.Matcher.Engine
import RegexMachine.Proofs.Machine.Groups
import RegexMachine.Proofs.State.Concurs

/-!
# Leftovers

What a matcher still holds when a scan begins does not matter. Preparing the scan sets everything
afresh but the clock and the choice points, an attempt starts with choice points of its own, and no
other part of a scan looks at them. Nothing but polls looks at the watch, so two scans whose watches
are polled alike go the same way until one of them is seen to expire.
-/

namespace RegexMachine

/-- Related watches are polled alike, except that the first may be seen to expire with one of these
failures, and they stay related. -/
def Watch.PolledAlike (A : Failure → Prop) (W : Watch → Watch → Prop) : Prop :=
  ∀ w w', W w w' → (w.poll.2 = true ∧ A (.error w.poll.1.expired)) ∨
    (w.poll.2 = w'.poll.2 ∧ (w.poll.2 = true → w.poll.1.expired = w'.poll.1.expired) ∧
      W w.poll.1 w'.poll.1)

theorem Watch.polledAlike_eq : PolledAlike (fun _ => False) Eq := by
  rintro w _ rfl
  exact .inr ⟨rfl, fun _ => rfl, rfl⟩

/-- The states differ at most in their choice points and in their watches, which are related, and
have `n` groups. -/
def ScanState.AlikeUpTo (W : Watch → Watch → Prop) (n : Nat) (s s' : ScanState) : Prop :=
  s.captures.groups.size = n ∧
    ∃ choices watch, W s.watch watch ∧ s' = { s with choices, watch }

/-- The states differ at most in their choice points, and have `n` groups. -/
def ScanState.Alike (n : Nat) (s s' : ScanState) : Prop :=
  s.captures.groups.size = n ∧ ∃ choices, s' = { s with choices }

theorem ScanState.alikeUpTo_eq_iff {n : Nat} {s s' : ScanState} :
    AlikeUpTo Eq n s s' ↔ Alike n s s' := by
  constructor
  · rintro ⟨hsize, choices, _, rfl, rfl⟩
    exact ⟨hsize, choices, rfl⟩
  · rintro ⟨hsize, choices, rfl⟩
    exact ⟨hsize, choices, s.watch, rfl, rfl⟩

/-- The computation goes the same way whatever the choice points are and however it is timed, until it
is given up, and keeps the groups. -/
abbrev Scan.Indifferent {α : Type} (A : Failure → Prop) (W : Watch → Watch → Prop) (n : Nat)
    (x : Scan α) : Prop :=
  Follows A (ScanState.AlikeUpTo W n) Eq x x

section

variable {A : Failure → Prop} {W : Watch → Watch → Prop} {n : Nat}

namespace Scan

variable {α : Type}

theorem indifferent_lift (r : Except Fault α) : (lift r).Indifferent A W n := by
  intro s s' hs
  cases r with
  | ok a => exact .inr ⟨rfl, hs⟩
  | error f => exact .inr ⟨rfl, hs⟩

theorem indifferent_poll (hpolled : Watch.PolledAlike A W) : poll.Indifferent A W n := by
  rintro s _ ⟨hsize, choices, watch, hwatch, rfl⟩
  simp only [poll]
  rcases hpolled _ _ hwatch with ⟨hexpired, habort⟩ | ⟨hsame, hexpired, hwatch'⟩
  · rw [hexpired]
    exact .inl ⟨_, _, rfl, habort⟩
  · refine .inr ?_
    rw [← hsame]
    cases hseen : s.watch.poll.2 with
    | true => exact ⟨by rw [hexpired hseen], hsize, choices, _, hwatch', rfl⟩
    | false => exact ⟨rfl, hsize, choices, _, hwatch', rfl⟩

theorem indifferent_modify {f : ScanState → ScanState}
    (hsize : ∀ s, (f s).captures.groups.size = s.captures.groups.size)
    (hwatch : ∀ s, (f s).watch = s.watch)
    (hf : ∀ s choices watch, ∃ choices', f { s with choices, watch } =
      { f s with choices := choices', watch }) : Scan.Indifferent A W n (modify f) := by
  refine follows_modify ?_
  rintro s _ ⟨hs, choices, watch, hrelated, rfl⟩
  obtain ⟨choices', heq⟩ := hf s choices watch
  exact ⟨(hsize s).trans hs, choices', watch, by rwa [hwatch s], heq⟩

theorem indifferent_moveTo (pos : Nat) : (moveTo pos).Indifferent A W n :=
  indifferent_modify (fun _ => rfl) (fun _ => rfl) fun _ choices _ => ⟨choices, rfl⟩

/-- What is read from the state, but not from its choice points and its watch, may decide how to go
on. -/
theorem indifferent_get {f : ScanState → Scan α}
    (h : ∀ s choices watch, s.captures.groups.size = n → W s.watch watch →
      Follows A (ScanState.AlikeUpTo W n) Eq (f s) (f { s with choices, watch })) :
    Scan.Indifferent A W n (get >>= f) := by
  refine follows_get.bind ?_
  rintro s _ ⟨hs, choices, watch, hwatch, rfl⟩
  exact h s choices watch hs hwatch

/-- A step of the captures that keeps the groups. -/
theorem indifferent_update {f : Captures → Except Fault Captures}
    (hsize : ∀ c d, f c = .ok d → d.groups.size = c.groups.size) :
    Scan.Indifferent A W n (do
      let s ← get
      let captures ← lift (f s.captures)
      set { s with captures }) := by
  rintro s _ ⟨hs, choices, watch, hwatch, rfl⟩
  simp only [bind, EStateM.bind, run_get, lift]
  cases hf : f s.captures with
  | error e => exact .inr ⟨rfl, hs, choices, watch, hwatch, rfl⟩
  | ok d => exact .inr ⟨rfl, (hsize _ d hf).trans hs, choices, watch, hwatch, rfl⟩

theorem indifferent_capture (group start stop : Nat) :
    (capture group start stop).Indifferent A W n :=
  indifferent_update fun _ _ h => Captures.size_of_record h

theorem indifferent_undoUntil (depth : Nat) : (undoUntil depth).Indifferent A W n :=
  indifferent_update fun _ _ h => Captures.size_of_undoUntil h

end Scan

namespace Phases

variable (P : Phases) (hpolled : Watch.PolledAlike A W)

include hpolled

theorem indifferent_tryCandidate (text : Text) (hattempt : (P.attempt text).Indifferent A W n) :
    (P.tryCandidate text).Indifferent A W n := by
  refine (Scan.indifferent_poll hpolled).andThen fun _ =>
    Scan.indifferent_get fun s choices watch hs _ => ?_
  refine (Scan.indifferent_modify ?_ ?_ ?_).andThen fun _ => ?_
  · exact fun s => Array.size_replicate
  · exact fun s => rfl
  · exact fun s choices watch => ⟨choices, rfl⟩
  refine hattempt.andThen fun found => ?_
  cases found with
  | true => exact follows_pure rfl
  | false =>
    refine (Scan.indifferent_modify ?_ ?_ ?_).andThen fun _ => follows_pure rfl
    · exact fun s => Array.size_replicate
    · exact fun s => rfl
    · exact fun s choices watch => ⟨choices, rfl⟩

theorem indifferent_scan (text : Text) (hfind : (P.findNext text).Indifferent A W n)
    (hattempt : (P.attempt text).Indifferent A W n) (fuel : Nat) :
    (P.scan text fuel).Indifferent A W n := by
  induction fuel with
  | zero => exact follows_throw _
  | succ fuel ih =>
    rw [scan]
    refine hfind.andThen fun candidate => ?_
    have hmove : Scan.Indifferent A W n (do
        let pos := (← get).textPos
        if pos = text.border P.direction then
          return
        Scan.moveTo (← Scan.lift (text.bump P.direction pos))
        P.scan text fuel) := by
      refine Scan.indifferent_get fun s choices watch _ _ => ?_
      dsimp only
      split
      · exact follows_pure rfl
      · exact (Scan.indifferent_lift _).andThen fun next =>
          (Scan.indifferent_moveTo next).andThen fun _ => ih
    cases candidate with
    | false => exact hmove
    | true =>
      refine (P.indifferent_tryCandidate hpolled text hattempt).andThen fun found => ?_
      cases found with
      | false => exact hmove
      | true => exact follows_pure rfl

end Phases

theorem Direct.indifferent_findChar (text : Text) (test : Char → Bool) :
    (Direct.findChar text test).Indifferent A W n := by
  refine Scan.indifferent_get fun s choices watch _ _ => ?_
  dsimp only
  split
  · exact (Scan.indifferent_moveTo _).andThen fun _ => follows_pure rfl
  · exact (Scan.indifferent_moveTo _).andThen fun _ => follows_pure rfl

theorem Interpreter.indifferent_findNext (program : Program) (culture : Culture) (text : Text) :
    (Interpreter.findNext program culture text).Indifferent A W n := by
  refine Scan.indifferent_get fun s choices watch _ _ =>
    (Scan.indifferent_lift _).andThen fun found => ?_
  cases found with
  | some pos => exact (Scan.indifferent_moveTo pos).andThen fun _ => follows_pure rfl
  | none => exact (Scan.indifferent_moveTo _).andThen fun _ => follows_pure rfl

/-- The first run was given up, or both ended alike with related watches. -/
def Ended.Alike (A : Failure → Prop) (W : Watch → Watch → Prop) (r r' : Ended) : Prop :=
  (∃ e, r.result = .error e ∧ A e) ∨
    (r.result = r'.result ∧ r.machine = r'.machine ∧ W r.watch r'.watch)

/-- A poll before the rest of a run. -/
theorem Ended.alike_poll (hpolled : Watch.PolledAlike A W) {m : Machine} {rest : Watch → Ended}
    (h : ∀ w w', W w w' → Ended.Alike A W (rest w) (rest w')) {w w' : Watch} (hw : W w w') :
    Ended.Alike A W
      (match w.poll with
        | (w, true) => ⟨.error (.error w.expired), m, w⟩
        | (w, false) => rest w)
      (match w'.poll with
        | (w, true) => ⟨.error (.error w.expired), m, w⟩
        | (w, false) => rest w) := by
  have hpoll := hpolled w w' hw
  cases hx : w.poll with
  | mk x seen =>
    cases hx' : w'.poll with
    | mk x' seen' =>
      rw [hx, hx'] at hpoll
      obtain ⟨hseen, habort⟩ | ⟨hsame, hexpired, hrelated⟩ := hpoll
      · obtain rfl : seen = true := hseen
        exact .inl ⟨_, rfl, habort⟩
      · obtain rfl : seen = seen' := hsame
        cases seen with
        | true =>
          have hequal : x.expired = x'.expired := hexpired rfl
          refine .inr ⟨?_, rfl, hrelated⟩
          show Except.error (Failure.error x.expired) = Except.error (Failure.error x'.expired)
          rw [hequal]
        | false => exact h x x' hrelated

/-- Runs whose watches are polled alike end alike, unless the first is given up. -/
theorem Machine.run_alike (hpolled : Watch.PolledAlike A W) (env : Surroundings) (fuel : Nat) :
    ∀ (m : Machine) (w w' : Watch), W w w' →
      Ended.Alike A W (run env fuel m w) (run env fuel m w') := by
  induction fuel with
  | zero => exact fun m w w' hw => .inr ⟨rfl, rfl, hw⟩
  | succ fuel ih =>
    intro m w w' hw
    simp only [run]
    refine Ended.alike_poll hpolled (fun w w' hw => ?_) hw
    cases env.program.instructions[m.address]? with
    | none => exact .inr ⟨rfl, rfl, hw⟩
    | some i =>
      dsimp only
      cases m.execute env i with
      | error f => exact .inr ⟨rfl, rfl, hw⟩
      | ok status =>
        cases status with
        | stop m => exact .inr ⟨rfl, rfl, hw⟩
        | next m => exact ih _ _ _ hw
        | jump address m => exact ih _ _ _ hw
        | backtrack m =>
          refine Ended.alike_poll hpolled (fun w w' hw => ?_) hw
          cases m.choices.pop? with
          | none => exact .inr ⟨rfl, rfl, hw⟩
          | some popped => exact ih _ _ _ hw

theorem Machine.indifferent_attempt (hpolled : Watch.PolledAlike A W) (program : Program)
    (culture : Culture) (fuel : Nat) (text : Text) :
    (Machine.attempt program culture fuel text).Indifferent A W n := by
  rintro s _ ⟨hs, choices, watch, hwatch, rfl⟩
  let env : Surroundings := { program, culture, text, textStart := s.textStart }
  have hsize := Machine.size_run env fuel (Machine.start s) s.watch
  have hrun := Machine.run_alike hpolled env fuel (Machine.start s) s.watch watch hwatch
  have hstart : Machine.start { s with choices, watch } = Machine.start s := rfl
  simp only [Machine.attempt, hstart]
  change (Machine.run env fuel (Machine.start s) s.watch).machine.captures.groups.size = _ at hsize
  cases hx : Machine.run env fuel (Machine.start s) s.watch with
  | mk result m w =>
    cases hx' : Machine.run env fuel (Machine.start s) watch with
    | mk result' m' w' =>
      rw [hx] at hsize
      rw [hx, hx'] at hrun
      obtain ⟨e, herror, habort⟩ | ⟨hresult, hmachine, hrelated⟩ := hrun
      · obtain rfl : result = .error e := herror
        exact .inl ⟨e, _, rfl, habort⟩
      · obtain rfl : result = result' := hresult
        obtain rfl : m = m' := hmachine
        cases result with
        | error e => exact .inr ⟨rfl, hsize.trans hs, m.choices, w', hrelated, rfl⟩
        | ok found =>
          cases found with
          | true => exact .inr ⟨rfl, hsize.trans hs, Stack.empty, w', hrelated, rfl⟩
          | false => exact .inr ⟨rfl, hsize.trans hs, m.choices, w', hrelated, rfl⟩

namespace DateMatcher

theorem indifferent_attempt (text : Text) : (attempt text).Indifferent A W n := by
  refine Scan.indifferent_get fun s choices watch _ _ =>
    (Scan.indifferent_lift _).andThen fun found => ?_
  cases found with
  | none => exact follows_pure rfl
  | some f =>
    exact (Scan.indifferent_capture _ _ _).andThen fun _ =>
      (Scan.indifferent_capture _ _ _).andThen fun _ =>
      (Scan.indifferent_capture _ _ _).andThen fun _ =>
      (Scan.indifferent_capture _ _ _).andThen fun _ =>
      (Scan.indifferent_moveTo _).andThen fun _ => follows_pure rfl

theorem indifferent_findNext (text : Text) : (findNext text).Indifferent A W n :=
  Scan.indifferent_get fun _ _ _ _ _ => (Scan.indifferent_lift _).andThen fun _ =>
    Direct.indifferent_findChar _ _

end DateMatcher

namespace QuotedMatcher

theorem indifferent_attempt (text : Text) : (attempt text).Indifferent A W n := by
  refine Scan.indifferent_get fun s choices watch _ _ =>
    (Scan.indifferent_lift _).andThen fun found => ?_
  cases found with
  | none => exact follows_pure rfl
  | some r =>
    refine (Scan.indifferent_lift _).andThen fun close => ?_
    cases close with
    | none => exact follows_pure rfl
    | some close =>
      exact (Scan.indifferent_capture _ _ _).andThen fun _ =>
        (Scan.indifferent_capture _ _ _).andThen fun _ =>
        (Scan.indifferent_moveTo _).andThen fun _ => follows_pure rfl

theorem indifferent_findNext (text : Text) : (findNext text).Indifferent A W n := by
  refine Scan.indifferent_get fun s choices watch _ _ =>
    (Scan.indifferent_lift _).andThen fun found => ?_
  cases found with
  | some pos => exact (Scan.indifferent_moveTo pos).andThen fun _ => follows_pure rfl
  | none => exact (Scan.indifferent_moveTo _).andThen fun _ => follows_pure rfl

end QuotedMatcher

namespace WordThenDigitMatcher

theorem indifferent_tryEnds (hpolled : Watch.PolledAlike A W) (text : Text)
    (start floor steps : Nat) : (tryEnds text start floor steps).Indifferent A W n := by
  induction steps with
  | zero => exact follows_pure rfl
  | succ steps ih =>
    rw [tryEnds]
    refine Scan.indifferent_get fun s choices watch _ _ => ?_
    dsimp only
    split
    · exact follows_pure rfl
    · split
      · exact follows_pure rfl
      refine (Scan.indifferent_poll hpolled).andThen fun _ =>
        Scan.indifferent_get fun s choices watch _ _ => ?_
      refine (Scan.indifferent_capture _ _ _).andThen fun _ =>
        (Scan.indifferent_lift _).andThen fun digit => ?_
      cases digit with
      | some r =>
        refine (Scan.indifferent_capture _ _ _).andThen fun _ =>
          (Scan.indifferent_capture _ _ _).andThen fun _ => ?_
        refine (Scan.indifferent_modify ?_ ?_ ?_).andThen fun _ => follows_pure rfl
        · exact fun _ => rfl
        · exact fun _ => rfl
        · exact fun _ choices _ => ⟨choices, rfl⟩
      | none =>
        refine (Scan.indifferent_undoUntil _).andThen fun _ =>
          (Scan.indifferent_modify ?_ ?_ ?_).andThen fun _ => ih
        · exact fun _ => rfl
        · exact fun _ => rfl
        · exact fun _ choices _ => ⟨choices, rfl⟩

theorem indifferent_attempt (hpolled : Watch.PolledAlike A W) (text : Text) :
    (attempt text).Indifferent A W n := by
  refine Scan.indifferent_get fun s choices watch hs hwatch =>
    (Scan.indifferent_lift _).andThen fun values => ?_
  exact (follows_set ⟨hs, choices, watch, hwatch, rfl⟩).andThen fun _ =>
    indifferent_tryEnds hpolled _ _ _ _

theorem indifferent_findNext (text : Text) : (findNext text).Indifferent A W n :=
  Scan.indifferent_get fun _ _ _ _ _ => (Scan.indifferent_lift _).andThen fun _ =>
    Direct.indifferent_findChar _ _

end WordThenDigitMatcher

end

/-- The engines that the library makes: the interpreter and the three direct matchers. -/
def Engine.Provided : Engine → Prop
  | .routine _ => False
  | _ => True

namespace Engine

variable {A : Failure → Prop} {W : Watch → Watch → Prop} {e : Engine}

theorem indifferent_scan (h : e.Provided) (hpolled : Watch.PolledAlike A W) (n : Nat) (text : Text)
    (fuel : Nat) : (e.scan text fuel).Indifferent A W n := by
  cases e with
  | interpreter program culture =>
    exact (Interpreter.phases program culture fuel).indifferent_scan hpolled text
      (Interpreter.indifferent_findNext program culture text)
      (Machine.indifferent_attempt hpolled program culture fuel text) fuel
  | date =>
    exact DateMatcher.phases.indifferent_scan hpolled text (DateMatcher.indifferent_findNext text)
      (DateMatcher.indifferent_attempt text) fuel
  | wordThenDigit =>
    exact WordThenDigitMatcher.phases.indifferent_scan hpolled text
      (WordThenDigitMatcher.indifferent_findNext text)
      (WordThenDigitMatcher.indifferent_attempt hpolled text) fuel
  | quoted =>
    exact QuotedMatcher.phases.indifferent_scan hpolled text
      (QuotedMatcher.indifferent_findNext text) (QuotedMatcher.indifferent_attempt text) fuel
  | routine r => exact h.elim

/-- What a scan comes to depends on what it is given and on how it is timed, and on nothing else that
the matcher holds from before. -/
theorem scan_prepare_alike (h : e.Provided) (hpolled : Watch.PolledAlike A W) (text : Text)
    (fuel : Nat) {s s' : ScanState} {n : Nat} (hs : s.captures.groups.size = n)
    (hs' : s'.captures.groups.size = n) (textStart textPos : Nat) {limit limit' : Option Duration}
    (hstart : W (s.watch.start limit) (s'.watch.start limit')) :
    let r := e.scan text fuel (s.prepare textStart textPos limit)
    (∃ e t, r = .error e t ∧ A e) ∨ Agree (ScanState.AlikeUpTo W n) Eq r
      (e.scan text fuel (s'.prepare textStart textPos limit')) := by
  refine indifferent_scan h hpolled n text fuel _ _ ⟨?_, s'.choices, _, hstart, ?_⟩
  · exact Array.size_replicate.trans hs
  · have hcaptures : s'.captures.reset = s.captures.reset := by
      rw [Captures.reset, Captures.reset, hs, hs']
    simp only [ScanState.prepare, ScanState.resetAttempt, hcaptures]

/-- With the same clock a scan comes to the same. -/
theorem scan_prepare (h : e.Provided) (text : Text) (fuel : Nat) {s s' : ScanState} {n : Nat}
    (hs : s.captures.groups.size = n) (hs' : s'.captures.groups.size = n)
    (hclock : s.watch.clock = s'.watch.clock) (textStart textPos : Nat) (limit : Option Duration) :
    answer (e.scan text fuel (s.prepare textStart textPos limit)) =
        answer (e.scan text fuel (s'.prepare textStart textPos limit)) ∧
      ScanState.Alike n (stateLeft (e.scan text fuel (s.prepare textStart textPos limit)))
        (stateLeft (e.scan text fuel (s'.prepare textStart textPos limit))) := by
  have hstart : s.watch.start limit = s'.watch.start limit := by
    cases limit <;> simp only [Watch.start, Clock.read, hclock]
  have hagree := (scan_prepare_alike h Watch.polledAlike_eq text fuel hs hs' textStart textPos
    hstart).resolve_left fun ⟨_, _, _, hfalse⟩ => hfalse
  exact hagree.answer_eq.imp_right ScanState.alikeUpTo_eq_iff.1

end Engine

end RegexMachine
