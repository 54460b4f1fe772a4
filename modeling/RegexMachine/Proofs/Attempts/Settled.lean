import RegexMachine.Proofs.Simulation.Attempt
import RegexMachine.Proofs.Tree.Finished

/-!
# Attempts of a finished tree

An attempt of a program that was compiled from a finished tree settles: it ends in the first outcome
of the tree as it was compiled, or where it started when there is none, unless it is given up.
-/

namespace RegexMachine

open Status Machine

/-- Where an attempt at a place starts: there are no captures. -/
def Place.start (p : Place) : MatchState := ⟨p, fun _ => []⟩

namespace Tree.Sound

variable {t : Tree} {body : Node}

theorem oriented_loop (h : t.Sound body) {x : Node} (hx : x ∈ t.root.preorder)
    (hloop : x.kind.isLoop = true) : ∀ y ∈ x.preorder, y.Oriented := by
  obtain ⟨id, options, hroot⟩ := h.root_eq
  rw [hroot, Node.preorder_node, List.flatMap_singleton] at hx
  rcases List.mem_cons.1 hx with rfl | hx
  · cases hloop
  · exact fun y hy => h.oriented y (Node.preorder_trans hx hy)

theorem captured_zero (h : t.Sound body) {reading : Reading} {σ : Setting} {s u : MatchState}
    (hu : u ∈ t.root.matcher reading σ s) : u.captured 0 ≠ [] := by
  obtain ⟨id, options, hroot⟩ := h.root_eq
  rw [hroot, Node.matcher_node] at hu
  obtain ⟨v, -, hclose⟩ := List.mem_filterMap.1 hu
  obtain ⟨captured, hcaptured, rfl⟩ := Option.map_eq_some_iff.1 hclose
  cases hcaptured
  simp

section

variable {env : Surroundings} {A : Status → Prop} {reading : Reading}
  (hlazy : ∀ x ∈ t.root.preorder, ∀ min max, x.kind = .loop min max true →
    Emitter.isCounted min max = false → (∀ m : Machine, m.Spills env → A (.running m)) ∨
      ∀ c ∈ x.children, (c.matcher reading env.setting).Moves env.text)
  (hbalanced : ∀ x ∈ t.root.preorder, ∀ g u, x.kind = .capture (some g) (some u) →
    ∀ m, A (.faulted .invertedSpan m))

include hlazy hbalanced

/-- The occurrences of a finished tree have what their blocks rely on, in every program with as many
groups. -/
theorem sound_node (h : t.Sound body) (hcount : env.program.groupCount = t.groupCount) :
    ∀ x ∈ t.root.preorder, x.Sound env reading A := by
  intro x hx
  refine ⟨fun min max isLazy hkind => ?_, fun group uncapture hkind => ?_, hlazy x hx,
    hbalanced x hx⟩
  · exact h.oriented_loop hx (by rw [hkind]; rfl)
  · have hgroups := h.groups x hx
    rw [hkind, ← hcount] at hgroups
    refine ⟨?_, ?_⟩
    · rintro g rfl
      exact hgroups g (by simp [Kind.groups])
    · rintro u rfl
      exact hgroups u (by simp [Kind.groups])

end

theorem settles (env : Surroundings) {A : Status → Prop} {config : CompileConfig} {last : Nat}
    (h : t.Sound body)
    (hcompiled : env.program.Compiled t env.culture config last)
    (hsize : env.text.size < lastPosition)
    (hlazy : ∀ x ∈ t.root.preorder, ∀ min max, x.kind = .loop min max true →
      Emitter.isCounted min max = false → (∀ m : Machine, m.Spills env → A (.running m)) ∨
        ∀ c ∈ x.children, (c.matcher (Reading.compiled (Analysis.ofTree t config.analysisDepthLimit))
          env.setting).Moves env.text)
    (hbalanced : ∀ x ∈ t.root.preorder, ∀ g u, x.kind = .capture (some g) (some u) →
      ∀ m, A (.faulted .invertedSpan m))
    {m : Machine} {s : MatchState} (hm : m.Enters env 0 s) :
    (∃ t, Reaches env (.running m) t ∧ A t) ∨
      ∃ m' : Machine, Reaches env (.running m) (.ended (m'.captures.isMatched 0) m') ∧
        m'.Enters env last
          ((t.root.matcher (Reading.compiled (Analysis.ofTree t config.analysisDepthLimit))
            env.setting).settled s) := by
  obtain hA | ⟨m', hreach, hend, -⟩ := RegexMachine.reaches_end
    (realizes_node rfl hsize (h.sound_node hlazy hbalanced hcompiled.groupCount))
    hcompiled.opening hcompiled.root hcompiled.stop hm
  · exact .inl hA
  · exact .inr ⟨m', hreach, hend⟩

end Tree.Sound

/-- The machine that starts an attempt at a place. -/
def Program.initial (program : Program) (p : Place) : Machine where
  cursor := markOf p.offset
  captures := Captures.none program.groupCount

namespace Machine

theorem start_resetAttempt {program : Program} {s : ScanState} {p : Place}
    (hpos : s.textPos = p.offset) (hsize : s.captures.groups.size = program.groupCount) :
    start s.resetAttempt = program.initial p := by
  rw [start, ScanState.resetAttempt, Program.initial, Captures.reset, hpos, hsize]

theorem enters_initial {env : Surroundings} {p : Place} (hp : p.In env.text) :
    (env.program.initial p).Enters env 0 p.start where
  address_eq := rfl
  entry_eq := rfl
  cursor_eq := rfl
  left_eq := Captures.left_none _
  proper := Captures.proper_none _
  size_eq := Array.size_replicate
  sound := ⟨hp, fun _ _ hspan => absurd hspan List.not_mem_nil⟩

/-- With enough fuel an attempt returns what its walk ends in, with the captures made by then. -/
theorem attempt_of_reaches {env : Surroundings} {m m' : Machine} {found : Bool}
    (h : Reaches env (.running m) (.ended found m')) :
    ∃ enough, ∀ fuel, enough ≤ fuel → ∀ s : ScanState, start s = m →
      s.textStart = env.textStart → s.watch.deadline = none →
        ∃ s', attempt env.program env.culture fuel env.text s = .ok found s' ∧
          s'.textPos = m'.position ∧ s'.textStart = s.textStart ∧ s'.watch = s.watch ∧
          s'.captures.groups = m'.captures.groups ∧ s'.captures.balanced = m'.captures.balanced := by
  obtain ⟨enough, henough⟩ := run_of_reaches h
  refine ⟨enough, fun fuel hfuel s hstart htext hwatch => ?_⟩
  rw [attempt, htext, hstart, henough fuel hfuel s.watch hwatch]
  cases found with
  | true => exact ⟨_, rfl, rfl, htext, rfl, rfl, rfl⟩
  | false => exact ⟨_, rfl, rfl, htext, rfl, rfl, rfl⟩

/-- An attempt that returns stores what its run ended with. -/
theorem exists_run_of_attempt {env : Surroundings} {s s' : ScanState}
    (htext : s.textStart = env.textStart) {fuel : Nat} {found : Bool}
    (h : attempt env.program env.culture fuel env.text s = .ok found s') :
    ∃ m w, run env fuel (start s) s.watch = ⟨.ok found, m, w⟩ ∧
      s' = { (if found then m.settle else m).store s w with textPos := m.position } := by
  rw [attempt, htext] at h
  cases hrun : run env fuel (start s) s.watch with
  | mk result m w =>
    rw [hrun] at h
    rcases result with e | found'
    · cases h
    · cases found' with
      | true =>
        cases h
        exact ⟨m, w, rfl, rfl⟩
      | false =>
        cases h
        exact ⟨m, w, rfl, rfl⟩

/-- An attempt whose walk goes on for ever uses up whatever fuel it is granted. -/
theorem attempt_of_goesOn {env : Surroundings} {m : Machine} (h : (running m).GoesOn env)
    (fuel : Nat) {s : ScanState} (hstart : start s = m) (htext : s.textStart = env.textStart)
    (hwatch : s.watch.deadline = none) :
    ∃ s', attempt env.program env.culture fuel env.text s = .error .exhausted s' := by
  have hrun := run_of_goesOn hwatch fuel h
  rw [attempt, htext, hstart]
  simp only [hrun]
  exact ⟨_, rfl⟩

end Machine

/-- An attempt opens the group of the whole match and comes to its body. -/
theorem Program.Compiled.enters_body {t : Tree} {culture : Culture} {config : CompileConfig}
    {env : Surroundings} {id end' : Nat} {options : Options} {body : Node}
    (hcompiled : env.program.Compiled t culture config end')
    (hroot : t.root = .node id options (.capture (some 0) none) [body]) {p : Place}
    (hp : p.In env.text) :
    let ctx : LayoutContext :=
      { analysis := Analysis.ofTree t config.analysisDepthLimit, culture }
    ∃ closer m, ctx.block env.program body 2 closer ∧
      env.program.instructions[closer]? =
        some { opcode := .capturemark, payload := .capture (some 0) none } ∧ end' = closer + 1 ∧
      Reaches env (.running (env.program.initial p)) (.running m) ∧ m.Enters env 2 p.start ∧
      m.values = Stack.empty.push (markOf p.offset) := by
  intro ctx
  have hblock := hcompiled.root
  rw [hroot, LayoutContext.block_node] at hblock
  obtain ⟨closer, hmark, hbody, hclose, hend⟩ := hblock
  let start := env.program.initial p
  let branched := (start.leave start.cursor).continueAt 1
  let opened := (branched.pushValue branched.cursor).leave.continueAt 2
  have hbranch : Reaches env (.running start) (.running branched) :=
    reaches_lazybranch rfl hcompiled.opening
  have hopen : Reaches env (.running branched) (.running opened) :=
    reaches_mark branched.cursor rfl (.inl ⟨rfl, rfl⟩) hmark
  exact ⟨closer, opened, hbody, hclose, hend, hbranch.trans hopen,
    (enters_initial hp).stay rfl rfl rfl (.refl _), rfl⟩

end RegexMachine
