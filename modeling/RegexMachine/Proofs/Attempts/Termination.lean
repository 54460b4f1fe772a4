import RegexMachine.Proofs.Scan.Filter

/-!
# Termination

An attempt ends unless it derails: a lazy loop whose body has matched empty keeps its mark on the
stack, so that what closes around it takes that mark for its own, and a group that captures between
two spans may find them out of order. A scan ends when none of its attempts derails.
-/

namespace RegexMachine

open Status Machine

/-- A walk that is here has left its rails. -/
inductive Status.Derailed (env : Surroundings) : Status → Prop
  | spills {m : Machine} (h : m.Spills env) : Derailed env (.running m)
  | inverted (m : Machine) : Derailed env (.faulted .invertedSpan m)

/-- The attempt at a place never derails. -/
def Place.Railed (env : Surroundings) (p : Place) : Prop :=
  ∀ t, Reaches env (.running (env.program.initial p)) t → ¬ t.Derailed env

variable {t : Tree} {config : CompileConfig} {env : Surroundings}

/-- A walk that does not derail ends. -/
theorem Tree.Unshared.reaches_ended (h : t.Unshared)
    (hcompile : Program.compile t env.culture config = .ok env.program)
    (hsize : env.text.size < lastPosition) {p : Place} (hp : p.In env.text)
    (hrailed : p.Railed env) :
    ∃ (found : Bool) (m : Machine),
      Reaches env (.running (env.program.initial p)) (.ended found m) ∧
        m.captures.groups.size = env.program.groupCount := by
  obtain ⟨body, hsound⟩ := h.sound
  obtain ⟨last, hcompiled⟩ := Program.compiled_of_compile hcompile
  have hsettles := hsound.settles env (A := fun t => t.Derailed env) hcompiled hsize
    (fun x hx min max hkind hcounted => .inl fun m hm => .spills hm)
    (fun x hx g u hkind m => .inverted m) (enters_initial hp)
  rcases hsettles with ⟨t, hreach, hderailed⟩ | ⟨m, hreach, hend⟩
  · exact absurd hderailed (hrailed t hreach)
  · exact ⟨_, m, hreach, hend.size_eq⟩

/-- A scan ends when none of its attempts derails. -/
theorem Tree.Unshared.scan_ends (h : t.Unshared)
    (hcompile : Program.compile t env.culture config = .ok env.program)
    (hsize : env.text.size < lastPosition) {p : Place} (hp : p.In env.text) (hbegun : p.Begun env)
    (hrailed : ∀ q : Place, q.In env.text →
      q.ahead env.program.direction ≤ p.ahead env.program.direction → q.Railed env) :
    ∃ first, env.First p first ∧ ∃ enough, ∀ fuel steps, enough ≤ fuel → enough ≤ steps →
      ∀ s : ScanState, s.captures.groups.size = env.program.groupCount → ∃ s',
        (Interpreter.phases env.program env.culture fuel).scan env.text steps
          (s.prepare env.textStart p.offset none) = .ok () s' ∧
            s'.Ends env (first.map Prod.snd) := by
  obtain ⟨first, hfirst⟩ := Surroundings.exists_first hp fun q hq hle => by
    obtain ⟨found, m, hreach, hgroups⟩ := h.reaches_ended hcompile hsize hq (hrailed q hq hle)
    exact (Surroundings.gives_of_reaches hreach hgroups).returns
  obtain ⟨enough, hscan⟩ := hfirst.scan (Surroundings.finds_findNext hcompile) hp hbegun
  refine ⟨first, hfirst, enough, fun fuel steps hfuel hsteps s hgroups => ?_⟩
  obtain ⟨s', hs', hends, -⟩ := hscan fuel steps hfuel hsteps _ (ScanState.at_prepare hgroups)
    (congrArg Captures.none hgroups)
  exact ⟨s', hs', hends⟩

end RegexMachine
