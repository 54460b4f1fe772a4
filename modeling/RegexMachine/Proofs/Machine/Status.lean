import Mathlib.Logic.Function.Iterate
import RegexMachine.Machine.Run

/-!
# Runs without fuel

A run is a walk through statuses: the machine is about to execute an instruction, about to resume at
a choice point, or done. Whatever a walk without a deadline ends in, a run with enough fuel returns.
-/

namespace RegexMachine

/-- What a run is about to do, or how it ended. -/
inductive Status where
  /-- About to execute the instruction at its address. -/
  | running (m : Machine)
  /-- About to resume at its latest choice point. -/
  | failing (m : Machine)
  | ended (found : Bool) (m : Machine)
  | faulted (f : Fault) (m : Machine)

namespace Status

/-- What a move leads to. -/
def ofMove : Move → Status
  | .next m => running (m.continueAt (m.address + 1))
  | .jump target m => running (m.continueAt target)
  | .backtrack m => failing m
  | .stop m => ended (m.captures.isMatched 0) m

/-- One step of a run. -/
def next (env : Surroundings) : Status → Status
  | running m =>
      match env.program.instructions[m.address]? with
      | none => faulted .outOfBounds m
      | some i =>
          match m.execute env i with
          | .error f => faulted f m
          | .ok move => ofMove move
  | failing m =>
      match m.choices.pop? with
      | some (p, choices) => running (m.resume p choices)
      | none => ended false m
  | s => s

section

variable {env : Surroundings} {m : Machine}

theorem next_running {i : Instruction} {move : Move}
    (hi : env.program.instructions[m.address]? = some i) (h : m.execute env i = .ok move) :
    (running m).next env = ofMove move := by
  simp only [next, hi, h]

theorem next_failing {p : ChoicePoint} {choices : Stack ChoicePoint}
    (h : m.choices = choices.push p) : (failing m).next env = running (m.resume p choices) := by
  simp only [next, h, Stack.pop?_push]

end

/-- A run that is in `s` gets to `t`. -/
def Reaches (env : Surroundings) (s t : Status) : Prop := ∃ n, (next env)^[n] s = t

namespace Reaches

variable {env : Surroundings}

theorem refl (s : Status) : Reaches env s s := ⟨0, rfl⟩

theorem trans {s t u : Status} (h : Reaches env s t) (h' : Reaches env t u) :
    Reaches env s u := by
  obtain ⟨n, rfl⟩ := h
  obtain ⟨k, rfl⟩ := h'
  exact ⟨k + n, Function.iterate_add_apply _ _ _ _⟩

theorem single {s t : Status} (h : s.next env = t) : Reaches env s t := ⟨1, h⟩

theorem execute {m : Machine} {i : Instruction} {move : Move}
    (hi : env.program.instructions[m.address]? = some i) (h : m.execute env i = .ok move) :
    Reaches env (running m) (ofMove move) :=
  single (next_running hi h)

theorem fault {m : Machine} {i : Instruction} {f : Fault}
    (hi : env.program.instructions[m.address]? = some i) (h : m.execute env i = .error f) :
    Reaches env (running m) (faulted f m) :=
  single (by simp only [next, hi, h])

theorem resume {m : Machine} {p : ChoicePoint} {choices : Stack ChoicePoint}
    (h : m.choices = choices.push p) : Reaches env (failing m) (running (m.resume p choices)) :=
  single (next_failing h)

/-- A choice point whose instruction is executed when it is resumed. -/
theorem backtrack {m : Machine} {p : ChoicePoint} {choices : Stack ChoicePoint} {i : Instruction}
    {move : Move} (h : m.choices = choices.push p)
    (hi : env.program.instructions[p.address]? = some i)
    (he : (m.resume p choices).execute env i = .ok move) :
    Reaches env (failing m) (ofMove move) :=
  (resume h).trans (execute hi he)

end Reaches

theorem iterate_ended (env : Surroundings) (n : Nat) (found : Bool) (m : Machine) :
    (next env)^[n] (ended found m) = ended found m := by
  induction n with
  | zero => rfl
  | succ n ih => exact ih

theorem iterate_faulted (env : Surroundings) (n : Nat) (f : Fault) (m : Machine) :
    (next env)^[n] (faulted f m) = faulted f m := by
  induction n with
  | zero => rfl
  | succ n ih => exact ih

/-- The run has come to its end or to a fault. -/
def IsOver : Status → Prop
  | running _ | failing _ => False
  | ended _ _ | faulted _ _ => True

theorem IsOver.iterate {s : Status} (h : s.IsOver) (env : Surroundings) (n : Nat) :
    (next env)^[n] s = s := by
  cases s with
  | running m => exact h.elim
  | failing m => exact h.elim
  | ended found m => exact iterate_ended env n found m
  | faulted f m => exact iterate_faulted env n f m

theorem Reaches.eq_of_isOver {env : Surroundings} {s t u : Status} (h : Reaches env s t)
    (h' : Reaches env s u) (ht : t.IsOver) (hu : u.IsOver) : t = u := by
  obtain ⟨n, rfl⟩ := h
  obtain ⟨k, rfl⟩ := h'
  rw [← ht.iterate env k, ← Function.iterate_add_apply, Nat.add_comm, Function.iterate_add_apply,
    hu.iterate]

/-- The run goes on for ever. -/
def GoesOn (env : Surroundings) (s : Status) : Prop := ∀ t, Reaches env s t → ¬ t.IsOver

section

variable {env : Surroundings} {s t : Status}

theorem GoesOn.after (hs : s.GoesOn env) (h : Reaches env s t) : t.GoesOn env :=
  fun u hu => hs u (h.trans hu)

theorem GoesOn.before (ht : t.GoesOn env) (h : Reaches env s t) : s.GoesOn env := by
  obtain ⟨n, rfl⟩ := h
  rintro u ⟨k, rfl⟩ hover
  refine ht _ ⟨k, ?_⟩ hover
  rw [← Function.iterate_add_apply, Nat.add_comm, Function.iterate_add_apply, hover.iterate]

/-- A run that comes back to an invariant again and again goes on for ever. -/
theorem GoesOn.of_progress {P : Machine → Prop}
    (hprogress : ∀ m, P m → ∃ n m', (next env)^[n + 1] (running m) = running m' ∧ P m')
    {m : Machine} (hm : P m) : (running m).GoesOn env := by
  have hlater : ∀ k, ∃ j m', k ≤ j ∧ (next env)^[j] (running m) = running m' ∧ P m' := by
    intro k
    induction k with
    | zero => exact ⟨0, m, Nat.le_refl 0, rfl, hm⟩
    | succ k ih =>
      obtain ⟨j, m', hle, hj, hm'⟩ := ih
      obtain ⟨n, m'', hn, hm''⟩ := hprogress m' hm'
      refine ⟨n + 1 + j, m'', by omega, ?_, hm''⟩
      rw [Function.iterate_add_apply, hj, hn]
  rintro t ⟨k, rfl⟩ hover
  -- what is over by then would still be over when the run is back at the invariant
  obtain ⟨j, m', hle, hj, -⟩ := hlater k
  have hsplit : j = j - k + k := by omega
  rw [hsplit, Function.iterate_add_apply, hover.iterate] at hj
  rw [hj] at hover
  exact hover

end

end Status

namespace Machine

open Status

/-- What a run that backtracks goes on with. -/
private def backtracked (env : Surroundings) (fuel : Nat) (m : Machine) (w : Watch) : Ended :=
  match m.choices.pop? with
  | some (p, choices) => run env fuel (m.resume p choices) w
  | none => ⟨.ok false, m, w⟩

private theorem run_of_iterate {env : Surroundings} {w : Watch} (hw : w.deadline = none)
    {found : Bool} {m' : Machine} (n : Nat) : ∀ fuel, n ≤ fuel → ∀ m,
    ((next env)^[n] (running m) = ended found m' → run env fuel m w = ⟨.ok found, m', w⟩) ∧
      ((next env)^[n] (failing m) = ended found m' →
        backtracked env fuel m w = ⟨.ok found, m', w⟩) := by
  have hpoll := Watch.poll_of_deadline_none hw
  induction n with
  | zero =>
    intro fuel _ m
    constructor <;> intro h <;> cases h
  | succ n ih =>
    intro fuel hfuel m
    obtain ⟨fuel, rfl⟩ : ∃ k, fuel = k + 1 := ⟨fuel - 1, by omega⟩
    constructor
    · intro h
      have ih := ih fuel (by omega)
      rw [Function.iterate_succ_apply, next] at h
      rw [run, hpoll]
      simp only
      cases hi : env.program.instructions[m.address]? with
      | none =>
        rw [hi] at h
        simp only [iterate_faulted] at h
        cases h
      | some i =>
        rw [hi] at h
        simp only at h ⊢
        cases he : m.execute env i with
        | error f =>
          rw [he] at h
          simp only [iterate_faulted] at h
          cases h
        | ok move =>
          rw [he] at h
          simp only at h
          cases move with
          | next after =>
            simp only
            exact (ih (after.continueAt (after.address + 1))).1 h
          | jump target after =>
            simp only
            exact (ih (after.continueAt target)).1 h
          | backtrack after =>
            simp only [hpoll]
            exact (ih after).2 h
          | stop after =>
            simp only [ofMove, iterate_ended] at h
            cases h
            rfl
    · intro h
      rw [Function.iterate_succ_apply, next] at h
      rw [backtracked]
      cases hpop : m.choices.pop? with
      | none =>
        rw [hpop] at h
        simp only [iterate_ended] at h
        cases h
        rfl
      | some entry =>
        obtain ⟨p, choices⟩ := entry
        rw [hpop] at h
        exact (ih (fuel + 1) (by omega) _).1 h

/-- Without a deadline and with enough fuel, a run returns what its walk ends in. -/
theorem run_of_reaches {env : Surroundings} {m m' : Machine} {found : Bool}
    (h : Reaches env (running m) (ended found m')) :
    ∃ enough, ∀ fuel, enough ≤ fuel → ∀ w : Watch, w.deadline = none →
      run env fuel m w = ⟨.ok found, m', w⟩ := by
  obtain ⟨n, hn⟩ := h
  exact ⟨n, fun fuel hfuel w hw => (run_of_iterate hw n fuel hfuel m).1 hn⟩

theorem reaches_of_run {env : Surroundings} {w : Watch} (hw : w.deadline = none) {found : Bool}
    {m' : Machine} {w' : Watch} (fuel : Nat) : ∀ {m : Machine},
      run env fuel m w = ⟨.ok found, m', w'⟩ → Reaches env (running m) (ended found m') := by
  have hpoll := Watch.poll_of_deadline_none hw
  induction fuel with
  | zero => exact fun h => by cases h
  | succ fuel ih =>
    intro m h
    rw [run, hpoll] at h
    simp only at h
    cases hi : env.program.instructions[m.address]? with
    | none =>
      rw [hi] at h
      cases h
    | some i =>
      rw [hi] at h
      simp only at h
      cases he : m.execute env i with
      | error f =>
        rw [he] at h
        cases h
      | ok move =>
        rw [he] at h
        have hreach := Reaches.execute hi he
        cases move with
        | next after => exact hreach.trans (ih h)
        | jump target after => exact hreach.trans (ih h)
        | stop after =>
          cases h
          exact hreach
        | backtrack after =>
          simp only [hpoll] at h
          cases hpop : after.choices.pop? with
          | none =>
            have hend : Reaches env (failing after) (ended false after) :=
              .single (by simp only [next, hpop])
            rw [hpop] at h
            cases h
            exact hreach.trans hend
          | some entry =>
            obtain ⟨p, choices⟩ := entry
            rw [hpop] at h
            have hresume : Reaches env (failing after) (running (after.resume p choices)) :=
              .single (by simp only [next, hpop])
            exact hreach.trans (hresume.trans (ih h))

theorem run_of_goesOn {env : Surroundings} {w : Watch} (hw : w.deadline = none) (fuel : Nat) :
    ∀ {m : Machine}, (running m).GoesOn env → (run env fuel m w).result = .error .exhausted := by
  have hpoll := Watch.poll_of_deadline_none hw
  induction fuel with
  | zero => exact fun _ => rfl
  | succ fuel ih =>
    intro m h
    rw [run, hpoll]
    simp only
    cases hi : env.program.instructions[m.address]? with
    | none =>
      have hfault : Reaches env (running m) (faulted .outOfBounds m) :=
        .single (by simp only [next, hi])
      exact (h _ hfault trivial).elim
    | some i =>
      simp only
      cases he : m.execute env i with
      | error f => exact (h _ (.fault hi he) trivial).elim
      | ok move =>
        have hreach := Reaches.execute hi he
        cases move with
        | next after => exact ih (h.after hreach)
        | jump target after => exact ih (h.after hreach)
        | stop after => exact (h _ hreach trivial).elim
        | backtrack after =>
          simp only [hpoll]
          cases hpop : after.choices.pop? with
          | none =>
            have hend : Reaches env (failing after) (ended false after) :=
              .single (by simp only [next, hpop])
            exact (h _ (hreach.trans hend) trivial).elim
          | some entry =>
            obtain ⟨p, choices⟩ := entry
            have hresume : Reaches env (failing after) (running (after.resume p choices)) :=
              .single (by simp only [next, hpop])
            exact ih (h.after (hreach.trans hresume))

end Machine

end RegexMachine
