import RegexMachine.Proofs.Attempts.Settled
import RegexMachine.Proofs.Outcomes.Agreement
import RegexMachine.Proofs.Tree.AtomicPosition

/-!
# Plain trees

A tree is plain when none of its loops can run in place for ever and none of its groups captures
between two spans. An attempt of its program ends in the first outcome of the plain reading, whatever
the analysis has found out.
-/

namespace RegexMachine

open Status Machine Matcher

/-- The node can match the empty string somewhere. -/
def Node.MatchesEmpty (culture : Culture) (ecmaScript : Bool) (n : Node) : Prop :=
  ∃ (text : Text) (textStart : Nat) (s u : MatchState), s.Sound text ∧
    u ∈ n.matcher Reading.plain { culture, text, textStart, ecmaScript } s ∧ u.place = s.place

/-- The tree was made by a builder, the body of a lazy loop that keeps no count does not match empty,
and a group that cancels a capture makes none. -/
structure Tree.Plain (t : Tree) (culture : Culture) : Prop where
  unshared : t.Unshared
  moves : ∀ x ∈ t.root.preorder, ∀ min ≤ 1, x.kind = .loop min unbounded true →
    ∀ body ∈ x.children, ¬ body.MatchesEmpty culture t.options.ecmaScript
  unbalanced : ∀ x ∈ t.root.preorder, ∀ g u, x.kind ≠ .capture (some g) (some u)

/-- The construct is neither a loop over a body of any length nor a group that captures what lies
between a capture it cancels and its own text. -/
def Kind.isSimple : Kind → Bool
  | .loop .. | .capture (some _) (some _) => false
  | _ => true

/-- A tree of simple constructs is plain. -/
theorem Tree.Unshared.plain_of_simple {t : Tree} (h : t.Unshared)
    (hsimple : t.root.preorder.all (·.kind.isSimple) = true) (culture : Culture) :
    t.Plain culture where
  unshared := h
  moves x hx min _ hkind := by
    have hx := List.all_eq_true.1 hsimple x hx
    rw [hkind] at hx
    cases hx
  unbalanced x hx g u hkind := by
    have hx := List.all_eq_true.1 hsimple x hx
    rw [hkind] at hx
    cases hx

/-- What an attempt on a text reads and does not change. -/
def Tree.setting (t : Tree) (culture : Culture) (text : Text) (textStart : Nat) : Setting :=
  { culture, text, textStart, ecmaScript := t.options.ecmaScript }

theorem Node.not_matchesEmpty_char (culture : Culture) (ecmaScript : Bool) (id : Nat)
    (options : Options) (atom : Atom) :
    ¬ (node id options (.char atom) []).MatchesEmpty culture ecmaScript := by
  rintro ⟨text, textStart, s, u, -, hu, hplace⟩
  rw [matcher_node] at hu
  obtain ⟨p, hp, rfl⟩ := mem_goTo.1 hu
  obtain rfl : p = s.place := hplace
  simp only [exactly] at hp
  split at hp
  · rename_i c q hread
    have hahead := Place.ahead_of_read hread
    split at hp
    · obtain rfl := Option.some.inj hp
      omega
    · cases hp
  · cases hp

theorem Node.not_matchesEmpty_capture {culture : Culture} {ecmaScript : Bool} {body : Node}
    (h : ¬ body.MatchesEmpty culture ecmaScript) (id : Nat) (options : Options)
    (group uncapture : Option Nat) :
    ¬ (node id options (.capture group uncapture) [body]).MatchesEmpty culture ecmaScript := by
  rintro ⟨text, textStart, s, u, hs, hu, hplace⟩
  rw [matcher_node] at hu
  obtain ⟨v, hv, hclose⟩ := List.mem_filterMap.1 hu
  obtain ⟨captured, -, rfl⟩ := Option.map_eq_some_iff.1 hclose
  exact h ⟨text, textStart, s, v, hs, hv, hplace⟩

theorem Text.size_lt_lastPosition {text : Text}
    (hlimit : text.chars.length < unbounded) : text.size < lastPosition := by
  have hbytes := bytes_le_four_mul text.chars
  rw [← text.size_eq_bytes] at hbytes
  rw [unbounded] at hlimit
  rw [lastPosition]
  omega

namespace Tree

variable {t : Tree} {body : Node} {culture : Culture}

theorem Sound.readable (h : t.Sound body) (hplain : t.Plain culture) :
    ∀ x ∈ t.root.preorder, x.Readable := fun x hx =>
  ⟨h.bounded x hx, h.oriented_loop hx, hplain.unbalanced x hx⟩

/-- The body of a lazy loop without a count takes text as it is compiled, too. -/
theorem Sound.moves (h : t.Sound body) (hplain : t.Plain culture) (depthLimit : Nat) {text : Text}
    (hlimit : text.chars.length < unbounded) (textStart : Nat) {x : Node}
    (hx : x ∈ t.root.preorder) {min max : Nat} (hkind : x.kind = .loop min max true)
    (hcounted : Emitter.isCounted min max = false) : ∀ c ∈ x.children,
      (c.matcher (Reading.compiled (Analysis.ofTree t depthLimit))
        (t.setting culture text textStart)).Moves text := by
  have hbounded := h.bounded x hx
  rw [hkind] at hbounded
  rw [Emitter.isCounted, Bool.or_eq_false_iff, decide_eq_false_iff_not, decide_eq_false_iff_not]
    at hcounted
  obtain rfl : max = unbounded := Nat.le_antisymm hbounded.2 (Nat.not_lt.1 hcounted.1)
  intro c hc s u hu hs hplace
  refine hplain.moves x hx min (Nat.not_lt.1 hcounted.2) hkind c hc
    ⟨text, textStart, s, u, hs, ?_, hplace⟩
  obtain ⟨a, hcut⟩ := Node.exists_cutsAtomic (h.cutsAtomic depthLimit) x hx
  have hreadable : ∀ y ∈ c.preorder, y.Readable := fun y hy =>
    h.readable hplain y (Node.preorder_trans hx (Node.preorder_trans (Node.mem_preorder_child hc) hy))
  obtain ⟨id, options, kind, children⟩ := x
  obtain rfl : kind = .loop min unbounded true := hkind
  have hchild := Node.cutsAtomic_of_children false (fun _ _ => rfl)
    (Node.cuts_of_unsealed rfl hcut.2) c hc
  rw [Bool.and_false] at hchild
  have hreads := Node.reads_matcher _ (σ := t.setting culture text textStart) hlimit hchild hreadable
    s hs
  rwa [← show c.matcher Reading.plain (t.setting culture text textStart) s = _ from hreads] at hu

/-- The first outcome of the tree is the same however it is read. -/
theorem Sound.settled_eq (h : t.Sound body) (hplain : t.Plain culture) (depthLimit : Nat)
    {text : Text} (hlimit : text.chars.length < unbounded) (textStart : Nat) {s : MatchState}
    (hs : s.Sound text) :
    (t.root.matcher (Reading.compiled (Analysis.ofTree t depthLimit))
        (t.setting culture text textStart) s).head? =
      (t.root.matcher Reading.plain (t.setting culture text textStart) s).head? := by
  have hreads := Node.reads_matcher _ (σ := t.setting culture text textStart) hlimit
    (h.cutsAtomic depthLimit) (h.readable hplain) s hs
  exact hreads.thins.head?_eq.symm

/-- Wherever the block of an occurrence in a plain tree stands, a run through it delivers the outcomes
of the occurrence as it is compiled. -/
theorem Plain.realizes (hplain : t.Plain culture) (env : Surroundings)
    (hculture : env.culture = culture) (hcount : env.program.groupCount = t.groupCount)
    (hoptions : env.program.options = t.options) (hlimit : env.text.chars.length < unbounded)
    (depthLimit : Nat) {n : Node} (hn : n ∈ t.root.preorder) :
    Realizes env (fun _ => False)
      (LayoutContext.block { analysis := Analysis.ofTree t depthLimit, culture } env.program n)
      (n.matcher (Reading.compiled (Analysis.ofTree t depthLimit))
        (t.setting culture env.text env.textStart)) := by
  obtain ⟨body, hsound⟩ := hplain.unshared.sound
  have hsetting : env.setting = t.setting culture env.text env.textStart := by
    rw [Surroundings.setting, Tree.setting, hculture, hoptions]
  rw [← hsetting]
  refine realizes_node hculture.symm (Text.size_lt_lastPosition hlimit) fun x hx => ?_
  refine hsound.sound_node (fun x hx min max hkind hcounted => .inr ?_)
    (fun x hx g u hkind => absurd hkind (hplain.unbalanced x hx g u)) hcount x
    (Node.preorder_trans hn hx)
  rw [hsetting]
  exact hsound.moves hplain depthLimit hlimit env.textStart hx hkind hcounted

/-- Where an attempt ends there is a match if there is an outcome. -/
theorem Sound.isMatched_settled (h : t.Sound body) {env : Surroundings} {last : Nat}
    {reading : Reading} {σ : Setting} {p : Place} {m : Machine}
    (hm : m.Enters env last ((t.root.matcher reading σ).settled p.start)) :
    m.captures.isMatched 0 = (t.root.matcher reading σ p.start).head?.isSome := by
  rw [Captures.isMatched_eq hm.proper, hm.left_eq, Matcher.settled]
  cases hM : t.root.matcher reading σ p.start with
  | nil => rfl
  | cons o rest =>
    have hzero : o.captured 0 ≠ [] := h.captured_zero (s := p.start) (hM ▸ List.mem_cons_self)
    cases ho : o.captured 0 with
    | nil => exact absurd ho hzero
    | cons span spans => simp [ho]

/-- An attempt of a plain tree that returns leaves nothing on the stacks. -/
theorem Plain.stackDepths_of_attempt (hplain : t.Plain culture) {config : CompileConfig}
    {program : Program} (hcompile : Program.compile t culture config = .ok program) {text : Text}
    (hlimit : text.chars.length < unbounded) {p : Place} (hp : p.In text) {s s' : ScanState}
    (hpos : s.textPos = p.offset) (hgroups : s.captures.groups.size = program.groupCount)
    (hwatch : s.watch.deadline = none) {fuel : Nat} {found : Bool}
    (h : attempt program culture fuel text s.resetAttempt = .ok found s') :
    s'.stackDepths = (0, 0, 0) := by
  obtain ⟨body, hsound⟩ := hplain.unshared.sound
  obtain ⟨last, hcompiled⟩ := Program.compiled_of_compile hcompile
  let env : Surroundings := { program, culture, text, textStart := s.textStart }
  have hrealizes := hplain.realizes env rfl hcompiled.groupCount hcompiled.options hlimit
    config.analysisDepthLimit t.root.mem_preorder_self
  have henters : (env.program.initial p).Enters env 0 p.start := enters_initial hp
  obtain ⟨_, _, hfalse⟩ | ⟨m, hreach, hend, hstands⟩ :=
    reaches_end hrealizes hcompiled.opening hcompiled.root hcompiled.stop henters
  · exact hfalse.elim
  have htext : s.resetAttempt.textStart = env.textStart := rfl
  obtain ⟨m', w, hrun, rfl⟩ := exists_run_of_attempt htext h
  rw [start_resetAttempt hpos hgroups] at hrun
  cases (reaches_of_run hwatch fuel hrun).eq_of_isOver hreach trivial trivial
  cases hfound : m.captures.isMatched 0 with
  | true => rfl
  | false =>
    rw [hsound.isMatched_settled hend, Option.isSome_eq_false_iff, Option.isNone_iff_eq_none,
      List.head?_eq_none_iff] at hfound
    have hstands := hstands hfound
    have hchoices : m.choices = Stack.empty := hstands.choices
    have hvalues : m.values = Stack.empty := hstands.values
    have htrail : m.captures.trail = Stack.empty := hstands.captures.trail
    simp only [ScanState.stackDepths, store, Bool.false_eq_true, if_false, hchoices, hvalues, htrail]
    rfl

/-- An attempt of a plain tree returns, and it ends in the first outcome of the plain reading, or
where it started when there is none. -/
theorem Plain.attempt_settles (hplain : t.Plain culture) {config : CompileConfig}
    {program : Program} (hcompile : Program.compile t culture config = .ok program) {text : Text}
    (hlimit : text.chars.length < unbounded) {p : Place} (hp : p.In text) {s : ScanState}
    (hpos : s.textPos = p.offset) (hgroups : s.captures.groups.size = program.groupCount)
    (hwatch : s.watch.deadline = none) :
    let M := t.root.matcher Reading.plain (t.setting culture text s.textStart)
    ∃ enough, ∀ fuel, enough ≤ fuel → ∃ s',
      attempt program culture fuel text s.resetAttempt = .ok (M p.start).head?.isSome s' ∧
        s'.textPos = (M.settled p.start).place.offset ∧ s'.captures.Proper ∧
        s'.captures.left = (M.settled p.start).captured ∧
        s'.captures.groups.size = program.groupCount := by
  intro M
  obtain ⟨body, hsound⟩ := hplain.unshared.sound
  obtain ⟨last, hcompiled⟩ := Program.compiled_of_compile hcompile
  let env : Surroundings := { program, culture, text, textStart := s.textStart }
  have henters : (env.program.initial p).Enters env 0 p.start := enters_initial hp
  have hrealizes := hplain.realizes env rfl hcompiled.groupCount hcompiled.options hlimit
    config.analysisDepthLimit t.root.mem_preorder_self
  have hhead := hsound.settled_eq hplain config.analysisDepthLimit hlimit s.textStart
    henters.sound
  have hsettled : Matcher.settled (t.root.matcher
      (Reading.compiled (Analysis.ofTree t config.analysisDepthLimit))
      (t.setting culture text s.textStart)) p.start = M.settled p.start := by
    rw [Matcher.settled, Matcher.settled, hhead]
  obtain ⟨_, _, hfalse⟩ | ⟨m, hreach, hend, -⟩ :=
    reaches_end hrealizes hcompiled.opening hcompiled.root hcompiled.stop henters
  · exact hfalse.elim
  rw [hsettled] at hend
  obtain ⟨enough, henough⟩ := attempt_of_reaches hreach
  refine ⟨enough, fun fuel hfuel => ?_⟩
  obtain ⟨s', hattempt, hpos', -, -, hgroups', hbalanced'⟩ :=
    henough fuel hfuel s.resetAttempt (start_resetAttempt hpos hgroups) rfl hwatch
  have hfound : m.captures.isMatched 0 = (M p.start).head?.isSome := hsound.isMatched_settled hend
  refine ⟨s', hfound ▸ hattempt, ?_, ?_, ?_, ?_⟩
  · rw [hpos', Machine.position, hend.cursor_eq, positionOf_markOf]
  · refine ⟨fun g h hg => hend.proper.histories g h (hgroups' ▸ hg), fun hb g h hg => ?_⟩
    exact hend.proper.noted (hbalanced' ▸ hb) g h (hgroups' ▸ hg)
  · rw [← hend.left_eq]
    funext g
    rw [Captures.left, Captures.left, hgroups']
  · rw [hgroups', hend.size_eq]

end Tree

end RegexMachine
