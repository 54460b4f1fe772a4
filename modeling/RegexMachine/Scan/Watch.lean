import RegexMachine.Failure

/-!
# Watches

A scan may be given a time limit. The clock is a sequence of readings, so that whatever a real
clock shows can be stated as such a sequence. It is read once when a limit is set and then at every
512th poll; a reading at or past the deadline ends the scan.
-/

namespace RegexMachine

/-- A clock: its readings in nanoseconds, and how many have been taken. -/
structure Clock where
  readings : Nat → Nat
  taken : Nat := 0

namespace Clock

/-- A clock that moves on by one nanosecond at every reading. -/
def ticking : Clock where
  readings := id

instance : Inhabited Clock := ⟨ticking⟩

/-- The next reading. -/
def read (c : Clock) : Nat × Clock :=
  (c.readings c.taken, { c with taken := c.taken + 1 })

end Clock

/-- How many polls it takes until the clock is read. -/
def pollInterval : Nat := 512

structure Watch where
  clock : Clock := .ticking
  limit : Option Duration := none
  deadline : Option Nat := none
  /-- Polls until the clock is read. -/
  countdown : Nat := pollInterval
  deriving Inhabited

namespace Watch

/-- Starts a limit; without one the clock is not read. A real clock may have a last instant, and sets no
deadline for a limit that reaches beyond it. Here the sum always is a deadline; no reading of such a
clock comes to it, so the scan goes on as without one. -/
def start (w : Watch) (limit : Option Duration) : Watch :=
  match limit with
  | none => { w with limit, deadline := none, countdown := pollInterval }
  | some d =>
      let (now, clock) := w.clock.read
      { clock, limit, deadline := some (now + d.nanoseconds), countdown := pollInterval }

/-- One poll: the watch after it, and whether the deadline was seen to have passed. -/
@[inline] def poll (w : Watch) : Watch × Bool :=
  match w.deadline with
  | none => (w, false)
  | some deadline =>
      if 1 < w.countdown then ({ w with countdown := w.countdown - 1 }, false)
      else
        let (now, clock) := w.clock.read
        ({ w with clock, countdown := pollInterval }, decide (deadline ≤ now))

theorem poll_of_deadline_none {w : Watch} (h : w.deadline = none) : w.poll = (w, false) := by
  simp [poll, h]

/-- The error of a scan that ran past its limit. -/
def expired (w : Watch) : Error := .matchTimeout (w.limit.getD ⟨0⟩)

end Watch

end RegexMachine
