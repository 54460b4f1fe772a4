import RegexMachine.Proofs.Attempts.Once
import RegexMachine.Proofs.Attempts.Termination

/-!
# Blocks that give back the values

What a block pushes on the stack of values it takes off again: whoever comes out behind it finds the
values that it was entered with, and so does whoever is sent back out of it. A walk that derails is the
exception, and in a plain tree there is none. The instruction behind the block is replaced by one that
stops, so that the walk is followed from each time it comes out to the next.
-/

namespace RegexMachine

open Status Machine

variable {env : Surroundings} {A : Status → Prop} {last : Nat} {f : Frame}

/-- From here, a walk that comes to the address `last` finds the values of `f` there. When it is sent
back with the stacks that it then has, the same holds again, until it fails with the stacks of `f` or
gets to a status in `A`. -/
inductive Status.Balances (env : Surroundings) (A : Status → Prop) (last : Nat) (f : Frame) :
    Status → Prop
  | aborted {s t : Status} (walk : ReachesBefore env last s t) (hA : A t) : Balances env A last f s
  | failed {s : Status} {m : Machine} (walk : ReachesBefore env last s (.failing m))
      (stands : m.Stands f) : Balances env A last f s
  | passed {s : Status} {m : Machine} (walk : ReachesBefore env last s (.running m))
      (address_eq : m.address = last) (entry_eq : m.entry = .forward)
      (values_eq : m.values = f.values)
      (more : ∀ m' : Machine, m'.Stands m.frame → Balances env A last f (.failing m')) :
      Balances env A last f s

theorem Delivers.balances {stopped : Status → Prop} {s : Status} {outcomes : List MatchState}
    (h : Delivers (env.stopAt last) stopped last f.values f s outcomes)
    (hA : ∀ t, stopped t → t.IsLive ∧ A t) : s.Balances env A last f := by
  induction h with
  | aborted reach hstopped =>
    obtain ⟨hlive, hA⟩ := hA _ hstopped
    exact .aborted (reachesBefore_of_stopAt reach hlive) hA
  | failed reach stands => exact .failed (reachesBefore_of_stopAt reach trivial) stands
  | arrived reach arrives _ ih =>
    exact .passed (reachesBefore_of_stopAt reach trivial) arrives.address_eq arrives.entry_eq
      arrives.values_eq ih

/-- Where a walk that balances comes to the address for the first time, it finds the values, unless it
has failed with the stacks of `f` before. -/
theorem Status.Balances.values_eq {s : Status} (h : s.Balances env (fun _ => False) last f) {n : Nat}
    {x : Machine} (hn : (next env)^[n] s = .running x) (hx : x.address = last)
    (hbefore : ∀ k < n, ¬ IsAt last ((next env)^[k] s))
    (hinside : ∀ k < n, ∀ y : Machine, (next env)^[k] s = .failing y → ¬ y.Stands f) :
    x.values = f.values := by
  have hat : IsAt last ((next env)^[n] s) := ⟨x, hn, hx⟩
  cases h with
  | aborted _ hA => exact hA.elim
  | failed walk stands =>
    obtain ⟨k, hk, hbefore'⟩ := walk
    obtain hlt | rfl | hlt := Nat.lt_trichotomy n k
    · exact absurd hat (hbefore' n hlt)
    · cases hn.symm.trans hk
    · exact absurd stands (hinside k hlt _ hk)
  | passed walk address_eq _ values_eq _ =>
    obtain ⟨k, hk, hbefore'⟩ := walk
    obtain hlt | rfl | hlt := Nat.lt_trichotomy n k
    · exact absurd hat (hbefore' n hlt)
    · cases hn.symm.trans hk
      exact values_eq
    · exact absurd ⟨_, hk, address_eq⟩ (hbefore k hlt)

theorem Status.Derailed.of_stopAt {t : Status} (h : t.Derailed (env.stopAt last)) :
    t.IsLive ∧ t.Derailed env := by
  cases h with
  | inverted m => exact ⟨show Fault.invertedSpan ≠ .outOfBounds by decide, .inverted m⟩
  | @spills m h =>
    obtain ⟨hentry, htop, i, hi, hopcode⟩ := h
    refine ⟨trivial, .spills ⟨hentry, htop, i, ?_, hopcode⟩⟩
    by_cases heq : last = m.address
    · subst heq
      have hstop : (env.stopAt m.address).program.instructions[m.address]? =
          if m.address < env.program.instructions.size then some { opcode := .stop } else none :=
        Array.getElem?_setIfInBounds_self
      rw [hstop] at hi
      split at hi
      · cases hi
        cases hopcode
      · cases hi
    · have hsame : (env.stopAt last).program.instructions[m.address]? =
          env.program.instructions[m.address]? := Array.getElem?_setIfInBounds_ne heq
      exact hsame ▸ hi

namespace Tree

variable {t : Tree} {config : CompileConfig} {n : Node} {first : Nat} {m : Machine} {s : MatchState}
  (hcompile : Program.compile t env.culture config = .ok env.program) (hn : n ∈ t.root.preorder)
  (hblock : LayoutContext.block
    { analysis := Analysis.ofTree t config.analysisDepthLimit, culture := env.culture }
    env.program n first last)
  (hm : m.Enters env first s)

include hcompile hn hblock hm

/-- In the program of a tree whose nodes have one place each, every block gives back the values that it
was entered with, whatever is repeated in it, unless the walk derails. -/
theorem Unshared.block_balances (h : t.Unshared) (hsize : env.text.size < lastPosition) :
    (Status.running m).Balances env (Derailed env) last m.frame := by
  obtain ⟨body, hsound⟩ := h.sound
  obtain ⟨end', hcompiled⟩ := Program.compiled_of_compile hcompile
  let ctx : LayoutContext :=
    { analysis := Analysis.ofTree t config.analysisDepthLimit, culture := env.culture }
  have hgroups : (env.stopAt last).program.groupCount = t.groupCount := hcompiled.groupCount
  have hshort : (env.stopAt last).text.size < lastPosition := hsize
  have hnodes : ∀ x ∈ n.preorder,
      x.Sound (env.stopAt last) (Reading.compiled ctx.analysis) (Derailed (env.stopAt last)) :=
    fun x hx => hsound.sound_node (fun _ _ _ _ _ _ => .inl fun _ h => .spills h)
      (fun _ _ _ _ _ m => .inverted m) hgroups x (Node.preorder_trans hn hx)
  have hrealizes : Realizes (env.stopAt last) (Derailed (env.stopAt last))
      (ctx.block (env.stopAt last).program n)
      (n.matcher (Reading.compiled ctx.analysis) (env.stopAt last).setting) :=
    realizes_node rfl hshort hnodes
  have hdelivers := hrealizes first last (LayoutContext.block_stopAt hblock) m s
    (enters_withInstructions.2 hm)
  exact hdelivers.balances fun _ => Derailed.of_stopAt

/-- In the program of a plain tree every block gives back the values that it was entered with. -/
theorem Plain.block_balances (hplain : t.Plain env.culture)
    (hlimit : env.text.chars.length < unbounded) :
    (Status.running m).Balances env (fun _ => False) last m.frame := by
  obtain ⟨end', hcompiled⟩ := Program.compiled_of_compile hcompile
  have hrealizes := hplain.realizes (env.stopAt last) rfl hcompiled.groupCount hcompiled.options
    hlimit config.analysisDepthLimit hn
  have hdelivers := hrealizes first last (LayoutContext.block_stopAt hblock) m s
    (enters_withInstructions.2 hm)
  exact hdelivers.balances fun _ => False.elim

end Tree

end RegexMachine
