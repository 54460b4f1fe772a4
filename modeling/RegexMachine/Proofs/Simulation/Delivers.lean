import RegexMachine.Proofs.Capture.Undo
import RegexMachine.Proofs.Machine.Status
import RegexMachine.Proofs.Outcomes.Within
import RegexMachine.Proofs.Program.Block

/-!
# Runs that deliver outcomes

A part of a run starts from three stacks and delivers outcomes one after the other: it arrives behind
its block in the first, and whenever what follows fails and the stacks are those of that arrival
again, it arrives in the next. When there are none left it fails with the stacks it started from. A
run may also be given up in statuses that are set apart, such as a fault that is accepted.

Runs compose as outcomes do. What is delivered to a block that goes on from every arrival is the
outcomes of the blocks one after the other, and what a sealed block delivers is its first outcome.
-/

namespace RegexMachine

/-- The three stacks of a machine. -/
structure Frame where
  values : Stack Int
  choices : Stack ChoicePoint
  captures : Captures

/-- The choice points of `f` are there, and its captures can be had back. -/
structure Frame.Above (g f : Frame) : Prop where
  choices : f.choices.items <:+ g.choices.items
  captures : g.captures.Extends f.captures

theorem Frame.Above.refl (f : Frame) : f.Above f := ⟨List.suffix_refl _, .refl _⟩

theorem Frame.Above.trans {f g h : Frame} (hg : h.Above g) (hf : g.Above f) : h.Above f :=
  ⟨hf.choices.trans hg.choices, hg.captures.trans hf.captures⟩

namespace Machine

def frame (m : Machine) : Frame := ⟨m.values, m.choices, m.captures⟩

/-- The machine has the stacks of `f` again. -/
structure Stands (m : Machine) (f : Frame) : Prop where
  values : m.values = f.values
  choices : m.choices = f.choices
  captures : m.captures.Back f.captures

theorem Stands.refl (m : Machine) : m.Stands m.frame := ⟨rfl, rfl, .refl _⟩

theorem Stands.above {m : Machine} {f : Frame} (h : m.Stands f) : m.frame.Above f := by
  refine ⟨?_, .of_back h.captures⟩
  have hchoices : m.frame.choices = f.choices := h.choices
  exact hchoices ▸ List.suffix_refl _

/-- The machine is about to enter the instruction at an address forward, in a state. -/
structure Enters (env : Surroundings) (address : Nat) (s : MatchState) (m : Machine) : Prop where
  address_eq : m.address = address
  entry_eq : m.entry = .forward
  cursor_eq : m.cursor = markOf s.place.offset
  left_eq : m.captures.left = s.captured
  proper : m.captures.Proper
  size_eq : m.captures.groups.size = env.program.groupCount
  sound : s.Sound env.text

/-- The machine has got from the stacks of `f` behind a block. -/
structure Arrives (env : Surroundings) (last : Nat) (values : Stack Int) (f : Frame)
    (s : MatchState) (m : Machine) : Prop extends Enters env last s m where
  values_eq : m.values = values
  above : m.frame.Above f

open Status in
/-- A machine that has arrived and has nothing left to try: sent back, it fails with the stacks of
`f`. -/
structure Leaves (env : Surroundings) (last : Nat) (values : Stack Int) (f : Frame)
    (s : MatchState) (m : Machine) : Prop extends m.Arrives env last values f s where
  unwinds : ∀ x : Machine, x.Stands m.frame →
    ∃ y : Machine, Reaches env (.failing x) (.failing y) ∧ y.Stands f

end Machine

open Status Machine

/-- A run from the stacks of `f` delivers outcomes at the address `last` with these values, unless
it gets to a status in `A`. -/
inductive Delivers (env : Surroundings) (A : Status → Prop) (last : Nat) (values : Stack Int)
    (f : Frame) : Status → List MatchState → Prop
  | aborted {s t : Status} {outcomes : List MatchState} (reach : Reaches env s t) (hA : A t) :
      Delivers env A last values f s outcomes
  | failed {s : Status} {m : Machine} (reach : Reaches env s (.failing m)) (stands : m.Stands f) :
      Delivers env A last values f s []
  | arrived {s : Status} {m : Machine} {o : MatchState} {outcomes : List MatchState}
      (reach : Reaches env s (.running m)) (arrives : m.Arrives env last values f o)
      (more : ∀ m' : Machine, m'.Stands m.frame →
        Delivers env A last values f (.failing m') outcomes) :
      Delivers env A last values f s (o :: outcomes)

namespace Delivers

variable {env : Surroundings} {A : Status → Prop} {last : Nat} {values : Stack Int}

theorem prepend {f : Frame} {s t : Status} {outcomes : List MatchState} (h : Reaches env s t)
    (ht : Delivers env A last values f t outcomes) : Delivers env A last values f s outcomes := by
  cases ht with
  | aborted reach hA => exact .aborted (h.trans reach) hA
  | failed reach stands => exact .failed (h.trans reach) stands
  | arrived reach arrives more => exact .arrived (h.trans reach) arrives more

/-- When the outcomes of an inner run are used up, those of the outer run follow. -/
theorem append {f g : Frame} {s : Status} {xs ys : List MatchState}
    (h : Delivers env A last values g s xs) (hg : g.Above f)
    (hys : ∀ m : Machine, m.Stands g → Delivers env A last values f (.failing m) ys) :
    Delivers env A last values f s (xs ++ ys) := by
  induction h with
  | aborted reach hA => exact .aborted reach hA
  | failed reach stands => exact prepend reach (hys _ stands)
  | arrived reach arrives more ih =>
    refine .arrived reach ?_ ih
    exact { arrives with above := arrives.above.trans hg }

/-- Whatever leads from the stacks of `g` back to those of `f` may be done at the end. -/
theorem unwind {f g : Frame} {s : Status} {xs : List MatchState}
    (h : Delivers env A last values g s xs) (hg : g.Above f)
    (hback : ∀ m : Machine, m.Stands g →
      ∃ m' : Machine, Reaches env (.failing m) (.failing m') ∧ m'.Stands f) :
    Delivers env A last values f s xs := by
  have h' : Delivers env A last values f s (xs ++ []) := h.append hg fun m hm => by
    obtain ⟨m', hreach, hstands⟩ := hback m hm
    exact .failed hreach hstands
  rwa [List.append_nil] at h'

/-- Runs on from every arrival deliver their outcomes in the order of the arrivals, and then what
the first run leaves. -/
theorem bind {f g : Frame} {middle : Nat} {between : Stack Int} {s : Status}
    {xs ys : List MatchState} {next : MatchState → List MatchState}
    (h : Delivers env A middle between g s xs) (hg : g.Above f)
    (hnext : ∀ o ∈ xs, ∀ m : Machine, m.Arrives env middle between g o →
      Delivers env A last values m.frame (.running m) (next o))
    (hys : ∀ m : Machine, m.Stands g → Delivers env A last values f (.failing m) ys) :
    Delivers env A last values f s (xs.flatMap next ++ ys) := by
  induction h with
  | aborted reach hA => exact .aborted reach hA
  | failed reach stands => exact prepend reach (hys _ stands)
  | @arrived s m o outcomes reach arrives more ih =>
    rw [List.flatMap_cons, List.append_assoc]
    refine prepend reach ((hnext o List.mem_cons_self m arrives).append
      (arrives.above.trans hg) fun m' hm' => ?_)
    exact ih m' hm' fun o' ho' => hnext o' (List.mem_cons_of_mem _ ho')

/-- A run on from every arrival, where nothing is left at the end. -/
theorem flatMap {f : Frame} {middle : Nat} {between : Stack Int} {s : Status}
    {xs : List MatchState} {next : MatchState → List MatchState}
    (h : Delivers env A middle between f s xs)
    (hnext : ∀ o ∈ xs, ∀ m : Machine, m.Arrives env middle between f o →
      Delivers env A last values m.frame (.running m) (next o)) :
    Delivers env A last values f s (xs.flatMap next) := by
  have h' : Delivers env A last values f s (xs.flatMap next ++ []) :=
    h.bind (.refl f) hnext fun m hm => .failed (.refl _) hm
  rwa [List.append_nil] at h'

theorem single {s : Status} {m : Machine} {f : Frame} {o : MatchState}
    (reach : Reaches env s (.running m)) (h : m.Leaves env last values f o) :
    Delivers env A last values f s [o] := by
  refine .arrived reach h.toArrives fun m' hm' => ?_
  obtain ⟨m'', hreach, hstands⟩ := h.unwinds m' hm'
  exact .failed hreach hstands

end Delivers

/-- Wherever the block stands, a run through it delivers the outcomes of the matcher. -/
def Realizes (env : Surroundings) (A : Status → Prop) (B : Block) (M : Matcher) : Prop :=
  ∀ first last, B first last → ∀ (m : Machine) (s : MatchState), m.Enters env first s →
    Delivers env A last m.values m.frame (.running m) (M s)

namespace Realizes

variable {env : Surroundings} {A : Status → Prop} {B : Block} {M : Matcher}

/-- The run of a block that is entered with the stacks of `f`. -/
theorem run (h : Realizes env A B M) {first last : Nat} (hB : B first last) {m : Machine}
    {s : MatchState} {f : Frame} (hm : m.Enters env first s) (hf : m.Stands f) :
    Delivers env A last f.values f (.running m) (M s) := by
  have hd := h first last hB m s hm
  rw [hf.values] at hd
  refine hd.unwind hf.above fun m' hm' => ⟨m', .refl _, ?_⟩
  exact ⟨hm'.values.trans hf.values, hm'.choices.trans hf.choices,
    hm'.captures.trans hf.captures⟩

end Realizes

end RegexMachine
