import RegexMachine.Proofs.Attempts.Plain
import RegexMachine.Proofs.Program.Locality

/-!
# Blocks that are passed once

A node that leaves no choice is passed once at most: sent back, its block fails with the stacks that
it was entered with, and does not come to its end again. To see that, the instruction behind the block
is replaced by one that stops. The block is still the same, so its runs deliver the same outcomes, and
a run that gets back to where the block was entered has not been behind it.

A loop that must run its body as often as the bound that stands for none is compiled as a loop without
a bound: after the runs that it must make it tries others, and may be sent back into them. A text is
too short for a body that takes characters in so many runs, but captures can tell a body that takes
none when its last forced run has come.
-/

namespace RegexMachine

open Status Machine Matcher

namespace Surroundings

/-- The surroundings of a program with other instructions. -/
def withInstructions (env : Surroundings) (code : Array Instruction) : Surroundings :=
  { env with program := env.program.withInstructions code }

/-- The surroundings of a program that stops at an address. -/
def stopAt (env : Surroundings) (address : Nat) : Surroundings :=
  env.withInstructions (env.program.instructions.setIfInBounds address { opcode := .stop })

variable (env : Surroundings) (code : Array Instruction)

theorem readString_withInstructions (i : Instruction) (chars : List Char) (pos : Nat) :
    (env.withInstructions code).readString i chars pos = env.readString i chars pos := by
  have hchars : ∀ (d : Direction) (ignoreCase : Bool) (chars : List Char) (pos : Nat),
      (env.withInstructions code).readChars d ignoreCase chars pos =
        env.readChars d ignoreCase chars pos := by
    intro d ignoreCase chars
    induction chars with
    | nil => exact fun _ => rfl
    | cons x rest ih =>
      intro pos
      rw [readChars, readChars]
      simp only [ih]
      rfl
  exact hchars _ _ _ _

theorem takeExactly_withInstructions (i : Instruction) (test : CharTest) (n pos : Nat) :
    (env.withInstructions code).takeExactly i test n pos = env.takeExactly i test n pos := by
  induction n generalizing pos with
  | zero => rfl
  | succ n ih =>
    rw [takeExactly, takeExactly]
    simp only [ih]
    rfl

theorem takeUpTo_withInstructions (i : Instruction) (test : CharTest) (n taken pos : Nat) :
    (env.withInstructions code).takeUpTo i test n taken pos = env.takeUpTo i test n taken pos := by
  induction n generalizing taken pos with
  | zero => rfl
  | succ n ih =>
    rw [takeUpTo, takeUpTo]
    simp only [ih]
    rfl

end Surroundings

section

variable {env : Surroundings}

theorem Machine.execute_withInstructions (code : Array Instruction) (i : Instruction)
    (m : Machine) : m.execute (env.withInstructions code) i = m.execute env i := by
  have hread := env.readString_withInstructions code
  have hexactly := env.takeExactly_withInstructions code
  have hupTo := env.takeUpTo_withInstructions code
  rw [execute, execute]
  cases i.opcode
  case multi => simp only [multi, hread]
  case backreference => simp only [backreference, hread]; rfl
  case charRep => simp only [charRep, hexactly]
  case charLoop => simp only [charLoop, hupTo]; rfl
  case charLoopAtomic => simp only [charLoop, hupTo]; rfl
  all_goals rfl

theorem Machine.enters_withInstructions {code : Array Instruction} {address : Nat} {s : MatchState}
    {m : Machine} : m.Enters (env.withInstructions code) address s ↔ m.Enters env address s :=
  ⟨fun h => ⟨h.address_eq, h.entry_eq, h.cursor_eq, h.left_eq, h.proper, h.size_eq, h.sound⟩,
    fun h => ⟨h.address_eq, h.entry_eq, h.cursor_eq, h.left_eq, h.proper, h.size_eq, h.sound⟩⟩

theorem LayoutContext.block_stopAt {ctx : LayoutContext} {n : Node} {first last : Nat}
    (h : ctx.block env.program n first last) :
    ctx.block (env.stopAt last).program n first last := by
  have hsame : Block.SameBetween env.program.instructions (env.stopAt last).program.instructions first
      last := fun address _ hlt => Array.getElem?_setIfInBounds_ne (Nat.ne_of_gt hlt)
  exact (ctx.carries_block env.program _ n first last h).2 hsame

namespace Status

/-- The run is about to execute or resume the instruction at the address. -/
def IsAt (address : Nat) (s : Status) : Prop := ∃ m, s = running m ∧ m.address = address

/-- The run goes on, or an instruction that it came to has faulted. -/
def IsLive : Status → Prop
  | running _ | failing _ => True
  | ended _ _ => False
  | faulted f _ => f ≠ .outOfBounds

/-- A run that is in `s` gets to `t`, and before that it does not come to the address `last`. -/
def ReachesBefore (env : Surroundings) (last : Nat) (s t : Status) : Prop :=
  ∃ n, (next env)^[n] s = t ∧ ∀ k < n, ¬ IsAt last ((next env)^[k] s)

theorem next_stopAt {last : Nat} {s : Status} (h : ¬ IsAt last s) :
    s.next (env.stopAt last) = s.next env := by
  cases s with
  | running m =>
    have hne : last ≠ m.address := fun heq => h ⟨m, rfl, heq.symm⟩
    have hi : (env.stopAt last).program.instructions[m.address]? =
        env.program.instructions[m.address]? := Array.getElem?_setIfInBounds_ne hne
    rw [next, next, hi]
    cases env.program.instructions[m.address]? with
    | none => rfl
    | some i =>
      have hexecute : m.execute (env.stopAt last) i = m.execute env i :=
        execute_withInstructions _ i m
      simp only [hexecute]
  | _ => rfl

theorem not_isLive_iterate_stopAt {last : Nat} {s : Status} (h : IsAt last s) (n : Nat) :
    ¬ ((next (env.stopAt last))^[n + 1] s).IsLive := by
  obtain ⟨m, rfl, rfl⟩ := h
  have hi : (env.stopAt m.address).program.instructions[m.address]? =
      if m.address < env.program.instructions.size then some { opcode := .stop } else none :=
    Array.getElem?_setIfInBounds_self
  rw [Function.iterate_succ_apply, next, hi]
  by_cases hsize : m.address < env.program.instructions.size
  · rw [if_pos hsize]
    exact (iterate_ended _ n _ m).symm ▸ id
  · rw [if_neg hsize]
    exact (iterate_faulted _ n _ m).symm ▸ fun h => h rfl

theorem reachesBefore_of_stopAt {last : Nat} {s t : Status} (h : Reaches (env.stopAt last) s t)
    (hlive : t.IsLive) : ReachesBefore env last s t := by
  obtain ⟨n, hn⟩ := h
  induction n generalizing s with
  | zero => exact ⟨0, hn, nofun⟩
  | succ n ih =>
    by_cases hat : IsAt last s
    · exact absurd (hn ▸ hlive) (not_isLive_iterate_stopAt hat n)
    · rw [Function.iterate_succ_apply, next_stopAt hat] at hn
      obtain ⟨k, hk, hbefore⟩ := ih hn
      refine ⟨k + 1, hk, fun j hj => ?_⟩
      cases j with
      | zero => exact hat
      | succ j => exact hbefore j (Nat.lt_of_succ_lt_succ hj)

end Status

/-- From `m` a run comes to the address `last` at most once before it fails with the stacks of `m`:
it fails at once, or it arrives there, and when it is sent back with the stacks of that arrival, it
fails without coming there again. -/
def Machine.PassesOnce (env : Surroundings) (last : Nat) (m : Machine) : Prop :=
  (∃ y, ReachesBefore env last (.running m) (.failing y) ∧ y.Stands m.frame) ∨
    ∃ o x, ReachesBefore env last (.running m) (.running x) ∧
      x.Arrives env last m.values m.frame o ∧ ∀ x' : Machine, x'.Stands x.frame →
        ∃ y, ReachesBefore env last (.failing x') (.failing y) ∧ y.Stands m.frame

theorem Delivers.passesOnce {last : Nat} {m : Machine} {outcomes : List MatchState}
    (h : Delivers (env.stopAt last) (fun _ => False) last m.values m.frame (.running m) outcomes)
    (hone : outcomes.length ≤ 1) : m.PassesOnce env last := by
  cases h with
  | aborted _ hA => exact hA.elim
  | failed reach stands => exact .inl ⟨_, reachesBefore_of_stopAt reach trivial, stands⟩
  | @arrived _ x o outcomes reach arrives more =>
    obtain rfl : outcomes = [] := by simpa using hone
    refine .inr ⟨o, x, reachesBefore_of_stopAt reach trivial,
      ⟨enters_withInstructions.1 arrives.toEnters, arrives.values_eq, arrives.above⟩,
      fun x' hx' => ?_⟩
    cases more x' hx' with
    | aborted _ hA => exact hA.elim
    | failed reach stands => exact ⟨_, reachesBefore_of_stopAt reach trivial, stands⟩

end

/-- What is said to be neither in atomic position nor to leave a choice leaves none. -/
theorem Analysis.not_leavesChoice {t : Tree} {depthLimit : Nat}
    (hid : ∀ x ∈ t.root.preorder, x.id < t.nodeCount) {n : Node} (hn : n ∈ t.root.preorder)
    (hatomic : (ofTree t depthLimit).isAtomicByAncestor n.id = false)
    (hnot : (ofTree t depthLimit).mayBacktrack n.id = false) : n.leavesChoice false = false := by
  obtain ⟨a, ha⟩ := Node.exists_position hn true
  rcases Nat.lt_or_ge depthLimit t.root.height with hhigh | hlow
  · rw [mayBacktrack, ask_of_lt hhigh] at hnot
    cases hnot
  · obtain rfl : a = false := by
      by_contra hne
      rw [Bool.not_eq_false] at hne
      subst hne
      rw [(isAtomicByAncestor_iff hlow (hid n hn)).2 ⟨n, ha, rfl⟩] at hatomic
      cases hatomic
    by_contra hleaves
    rw [mayBacktrack_of_leavesChoice hid ha (Bool.not_eq_false _ ▸ hleaves)] at hnot
    cases hnot

/-- In the program of a plain tree the instructions of a node that the analysis says neither to be in
atomic position nor to leave a choice are passed once at most, from whatever state they are entered,
unless a loop in the node must run its body as often as the bound that stands for none. -/
theorem Tree.Plain.passes_once {t : Tree} {culture : Culture} (hplain : t.Plain culture)
    {config : CompileConfig} {program : Program}
    (hcompile : Program.compile t culture config = .ok program) {n : Node}
    (hn : n ∈ t.root.preorder)
    (hatomic : (Analysis.ofTree t config.analysisDepthLimit).isAtomicByAncestor n.id = false)
    (hnot : (Analysis.ofTree t config.analysisDepthLimit).mayBacktrack n.id = false)
    (hloops : ∀ x ∈ n.preorder, ∀ isLazy, x.kind ≠ .loop unbounded unbounded isLazy)
    {text : Text} (hlimit : text.chars.length < unbounded) (textStart : Nat) {first last : Nat}
    (hblock : LayoutContext.block
      { analysis := Analysis.ofTree t config.analysisDepthLimit, culture } program n first last)
    {m : Machine} {s : MatchState}
    (hm : m.Enters { program, culture, text, textStart } first s) :
    m.PassesOnce { program, culture, text, textStart } last := by
  obtain ⟨body, hsound⟩ := hplain.unshared.sound
  obtain ⟨end', hcompiled⟩ := Program.compiled_of_compile hcompile
  let env : Surroundings := { program, culture, text, textStart }
  have hrealizes := hplain.realizes (env.stopAt last) rfl hcompiled.groupCount
    hcompiled.options hlimit config.analysisDepthLimit hn
  have hdelivers := hrealizes first last (LayoutContext.block_stopAt hblock) m s
    (enters_withInstructions.2 hm)
  refine hdelivers.passesOnce ?_
  have hleaves := Analysis.not_leavesChoice hsound.id_lt hn hatomic hnot
  exact Node.single_matcher _ _ hleaves hloops s

section

variable {t : Tree} {culture : Culture} {config : CompileConfig} {env : Surroundings}
  {id id' : Nat} {options options' : Options} {x y : Node} {rest : List Node}
  (hroot : t.root =
    .node id options (.capture (some 0) none) [.node id' options' .concat (x :: y :: rest)])
  (hforward : options'.direction = .forward)

include hroot hforward

/-- An attempt of a tree that is a sequence opens the group of the whole match and comes to the first
part, which stands in front of the second. -/
theorem Program.Compiled.enters_sequence {end' : Nat}
    (hcompiled : env.program.Compiled t culture config end') {p : Place} (hp : p.In env.text) :
    let ctx : LayoutContext :=
      { analysis := Analysis.ofTree t config.analysisDepthLimit, culture }
    ∃ middle last m, ctx.block env.program x 2 middle ∧ ctx.block env.program y middle last ∧
      Reaches env (.running (env.program.initial p)) (.running m) ∧ m.Enters env 2 p.start := by
  intro ctx
  obtain ⟨closer, m, hbody, -, -, hreach, henters, -⟩ := hcompiled.enters_body hroot hp
  rw [LayoutContext.block_node] at hbody
  simp only [LayoutContext.blockOf, hforward] at hbody
  obtain ⟨middle, hfirst, last, hsecond, -⟩ := hbody
  exact ⟨middle, last, m, hfirst, hsecond, hreach, henters⟩

/-- When the first part has one outcome, the attempt comes to the second part with it, and delivers
the outcomes of the second part there. -/
theorem Tree.Plain.delivers_second (hplain : t.Plain culture) (hculture : env.culture = culture)
    (hcompile : Program.compile t culture config = .ok env.program)
    (hlimit : env.text.chars.length < unbounded) {p : Place} (hp : p.In env.text) {s : MatchState}
    (hx : x.matcher (Reading.compiled (Analysis.ofTree t config.analysisDepthLimit))
      (t.setting culture env.text env.textStart) p.start = [s]) :
    ∃ first last m, LayoutContext.block
        { analysis := Analysis.ofTree t config.analysisDepthLimit, culture }
        env.program y first last ∧
      Reaches env (.running (env.program.initial p)) (.running m) ∧ m.Enters env first s ∧
      Delivers env (fun _ => False) last m.values m.frame (.running m)
        (y.matcher (Reading.compiled (Analysis.ofTree t config.analysisDepthLimit))
          (t.setting culture env.text env.textStart) s) := by
  obtain ⟨end', hcompiled⟩ := Program.compiled_of_compile hcompile
  have hrealizes := fun n => hplain.realizes (n := n) env hculture hcompiled.groupCount
    hcompiled.options hlimit config.analysisDepthLimit
  have hmem : ∀ n ∈ x :: y :: rest, n ∈ t.root.preorder := by
    intro n hn
    rw [hroot]
    exact Node.preorder_trans (Node.mem_preorder_child List.mem_cons_self)
      (Node.mem_preorder_child hn)
  obtain ⟨middle, last, m, hfirst, hsecond, hreach, henters⟩ :=
    hcompiled.enters_sequence hroot hforward hp
  have hdelivers := hrealizes x (hmem x (by simp)) 2 middle hfirst m _ henters
  rw [hx] at hdelivers
  cases hdelivers with
  | aborted _ hA => exact hA.elim
  | @arrived _ m' _ _ hcomes harrives _ =>
    exact ⟨middle, last, m', hsecond, hreach.trans hcomes, harrives.toEnters,
      hrealizes y (hmem y (by simp)) middle last hsecond m' s harrives.toEnters⟩

end

/-- Runs that a loop must make before its last, each with one outcome, lead on to that. -/
theorem Matcher.loop_forced {d : Direction} {body : Matcher} {min : Nat} {spare : Option Nat}
    {isLazy : Bool} {after : Nat → MatchState}
    (hbody : ∀ k, k + 1 < min → body (after k) = [after (k + 1)]) {done : Nat} (hdone : done < min) :
    loop d body min spare isLazy 0 (after 0) = loop d body min spare isLazy done (after done) := by
  induction done with
  | zero => rfl
  | succ done ih =>
    rw [ih (by omega), loop_eq, if_pos (by omega), again, hbody done hdone,
      List.flatMap_singleton, afterRun, if_pos (.inl hdone)]

/-- At a place, with so many captures of the empty string there in group 1. -/
def Place.marked (p : Place) (count : Nat) : MatchState :=
  ⟨p, Function.update (fun _ => []) 1 (List.replicate count ⟨p.offset, 0⟩)⟩

theorem Place.marked_zero (p : Place) : p.marked 0 = p.start :=
  congrArg (MatchState.mk p) (Function.update_eq_self 1 (fun _ => []))

/-- Captures the empty string in group 1, once less than the bound that stands for none. -/
def markLoop : Node :=
  .node 2 {} (.loop (unbounded - 1) (unbounded - 1) false) [
    .node 1 {} (.capture (some 1) none) [.node 0 {} .empty []]]

/-- Must run as often as the bound that stands for none. Each run cancels a capture of group 1 or,
when there is none, takes an `a`. -/
def drainLoop : Node :=
  .node 7 {} (.loop unbounded unbounded false) [
    .node 6 {} (.backreferenceConditional 1) [
      .node 4 {} (.capture none (some 1)) [.node 3 {} .empty []],
      .node 5 {} (.char (.one 'a')) []]]

theorem matcher_markLoop (analysis : Analysis) (σ : Setting) (p : Place) :
    markLoop.matcher (Reading.compiled analysis) σ p.start = [p.marked (unbounded - 1)] := by
  have hne : unbounded - 1 ≠ unbounded := by decide
  have hspare : (Reading.compiled analysis).loopSpare (unbounded - 1) (unbounded - 1) = some 0 :=
    compiledSpare_self hne
  have hbody : ∀ k, capture (some 1) none stay (p.marked k) = [p.marked (k + 1)] := by
    intro k
    simp [capture, stay, close, Place.marked, List.replicate_succ]
  have hlt : unbounded - 2 < unbounded - 1 := by decide
  have hlast : unbounded - 2 + 1 = unbounded - 1 := by decide
  rw [markLoop, Node.matcher_node]
  simp only [List.map_cons, List.map_nil, Node.matcher_node, Node.matcherOf, hspare]
  rw [← p.marked_zero, loop_forced (fun k _ => hbody k) hlt, loop_eq, if_pos hlt, again, hbody,
    List.flatMap_singleton, hlast, afterRun, if_neg (by simp [Place.marked])]

/-- The start of `aa`, its middle and its end. -/
def beforeBoth : Place := ⟨[], ['a', 'a']⟩

@[inherit_doc beforeBoth]
def betweenBoth : Place := ⟨['a'], ['a']⟩

@[inherit_doc beforeBoth]
def afterBoth : Place := ⟨['a', 'a'], []⟩

theorem matcher_drainLoop (analysis : Analysis) (σ : Setting) :
    drainLoop.matcher (Reading.compiled analysis) σ (beforeBoth.marked (unbounded - 1)) =
      [afterBoth.start, betweenBoth.start] := by
  have hspare : (Reading.compiled analysis).loopSpare unbounded unbounded = some unbounded := rfl
  rw [drainLoop, Node.matcher_node]
  simp only [List.map_cons, List.map_nil, Node.matcher_node, Node.matcherOf, hspare]
  generalize hbody : backreferenceConditional 1 _ _ = body
  let after (k : Nat) : MatchState := beforeBoth.marked (unbounded - 1 - k)
  have hcancel : ∀ k, k + 1 < unbounded → body (after k) = [after (k + 1)] := by
    intro k hk
    have hleft : unbounded - 1 - k = unbounded - 1 - (k + 1) + 1 := by omega
    simp only [after, hleft]
    subst hbody
    simp [backreferenceConditional, capture, stay, close, Place.marked, List.replicate_succ]
  have hread : ∀ p : Place, body p.start =
      goTo p.start (exactly .forward (passes σ.culture false (.one 'a')) 1 p) := by
    subst hbody
    exact fun _ => rfl
  have hfirst : body beforeBoth.start = [betweenBoth.start] := (hread _).trans rfl
  have hsecond : body betweenBoth.start = [afterBoth.start] := (hread _).trans rfl
  have hnone : body afterBoth.start = [] := (hread _).trans rfl
  have hlt : unbounded - 1 < unbounded := by decide
  have hdone : unbounded - 1 + 1 = unbounded := by decide
  have hlast : after (unbounded - 1) = beforeBoth.start := by
    simp only [after, Nat.sub_self, Place.marked_zero]
  change loop _ _ _ _ _ 0 (after 0) = _
  -- the run that takes the first character is the last that the loop must make
  rw [loop_forced hcancel hlt, hlast, loop_eq, if_pos hlt, again, hfirst, List.flatMap_singleton,
    hdone, afterRun, if_pos (.inr (by decide))]
  -- the run that takes the second character is one that it need not make
  rw [loop_eq, if_neg (Nat.lt_irrefl _), if_pos (by decide), if_neg Bool.false_ne_true, again,
    hsecond, List.flatMap_singleton, afterRun, if_pos (.inr (by decide))]
  rw [loop_eq, if_neg (by decide), if_pos (by decide), if_neg Bool.false_ne_true, again, hnone]
  rfl

/-- A pattern for `aa` in which a loop that must run its body without a bound is reached with so many
captures that its body takes a character in the last run it must make. -/
def drain : Tree :=
  Tree.build {} do
    let mark ← Builder.capture 1 (← Builder.empty)
    let marks ← Builder.repeated mark (unbounded - 1) (unbounded - 1)
    let cancel ← Builder.balancing none 1 (← Builder.empty)
    let take ← Builder.one 'a'
    let run ← Builder.backreferenceConditional 1 cancel take
    let runs ← Builder.repeated run unbounded unbounded
    Builder.concat [marks, runs, ← Builder.one 'a']

theorem root_drain : drain.root =
    .node 10 {} (.capture (some 0) none) [.node 9 {} .concat [markLoop, drainLoop,
      .node 8 {} (.char (.one 'a')) []]] := by
  have hfinish : drain = Builder.finish 9 {
      options := {}
      entries := #[⟨.empty, [], {}⟩, ⟨.capture (some 1) none, [0], {}⟩,
        ⟨.loop (unbounded - 1) (unbounded - 1) false, [1], {}⟩, ⟨.empty, [], {}⟩,
        ⟨.capture none (some 1), [3], {}⟩, ⟨.char (.one 'a'), [], {}⟩,
        ⟨.backreferenceConditional 1, [4, 5], {}⟩, ⟨.loop unbounded unbounded false, [6], {}⟩,
        ⟨.char (.one 'a'), [], {}⟩, ⟨.concat, [2, 7, 8], {}⟩]
      maxGroup := 1 } := rfl
  rw [hfinish]
  simp [Builder.finish, Builder.push, Builder.nodes, Builder.addNode, markLoop, drainLoop]

theorem unshared_drain : drain.Unshared := by
  have hempty : Builder.Unshared {} _ [0] := .call .start .empty trivial (.refl _)
  have hmark : Builder.Unshared {} _ [1] := hempty.call (.capture 1 0) Nat.one_pos (.refl _)
  have hmarks : Builder.Unshared {} _ [2] := hmark.call
    (.quantify 1 (unbounded - 1) (unbounded - 1) false) ⟨Nat.le_refl _, by decide⟩ (.refl _)
  have hempty' : Builder.Unshared {} _ [3, 2] := hmarks.call .empty trivial (.refl _)
  have hcancel : Builder.Unshared {} _ [4, 2] :=
    hempty'.call (.balancing none 1 3) trivial (.refl _)
  have htake : Builder.Unshared {} _ [5, 4, 2] := hcancel.call (.atom (.one 'a')) trivial (.refl _)
  have hrun : Builder.Unshared {} _ [6, 2] :=
    htake.call (.backreferenceConditional 1 4 (some 5)) trivial (.swap ..)
  have hruns : Builder.Unshared {} _ [7, 2] :=
    hrun.call (.quantify 6 unbounded unbounded false) ⟨Nat.le_refl _, Nat.le_refl _⟩ (.refl _)
  have hlast : Builder.Unshared {} _ [8, 7, 2] := hruns.call (.atom (.one 'a')) trivial (.refl _)
  have hconcat : Builder.Unshared {} _ [9] := hlast.call (.concat [2, 7, 8]) trivial
    (((List.Perm.swap ..).trans (.cons _ (.swap ..))).trans (.swap ..))
  have hlinear : drain.Linear := ⟨_, _, _, 9, hconcat, List.mem_singleton_self 9, rfl⟩
  exact hlinear.unshared

theorem plain_drain (culture : Culture) : drain.Plain culture := by
  refine ⟨unshared_drain, fun x hx min _ hkind child hchild => ?_, fun x hx g u hkind => ?_⟩ <;>
  · rw [root_drain, markLoop, drainLoop] at hx
    simp only [Node.preorder_node, List.flatMap_cons, List.flatMap_nil, List.append_nil,
      List.cons_append, List.nil_append, List.mem_cons, List.not_mem_nil, or_false] at hx
    rcases hx with rfl | rfl | rfl | rfl | rfl | rfl | rfl | rfl | rfl | rfl | rfl <;> cases hkind

/-- The second loop of `drain` is said to be neither in atomic position nor to leave a choice, but it
is passed twice: in `aa` it takes both characters, and sent back it takes the first only. -/
theorem drain_passes_twice :
    ((Analysis.ofTree drain Analysis.defaultDepthLimit).isAtomicByAncestor drainLoop.id = false ∧
      (Analysis.ofTree drain Analysis.defaultDepthLimit).mayBacktrack drainLoop.id = false) ∧
    ∃ program, Program.compile drain .invariant {} = .ok program ∧
      let env : Surroundings := ⟨program, .invariant, .ofString "aa", 0⟩
      ∃ first last m, LayoutContext.block
          { analysis := Analysis.ofTree drain Analysis.defaultDepthLimit, culture := .invariant }
          program drainLoop first last ∧
        Reaches env (.running (program.initial beforeBoth)) (.running m) ∧
        m.Enters env first (beforeBoth.marked (unbounded - 1)) ∧
        ∃ x, Reaches env (.running m) (.running x) ∧
          x.Arrives env last m.values m.frame afterBoth.start ∧
          ∀ x' : Machine, x'.Stands x.frame → ∃ y, Reaches env (.failing x') (.running y) ∧
            y.Arrives env last m.values m.frame betweenBoth.start := by
  refine ⟨⟨by decide +kernel, by decide +kernel⟩, ?_⟩
  obtain ⟨body, hsound⟩ := unshared_drain.sound
  obtain ⟨program, hcompile⟩ := Program.compile_total hsound.arity .invariant {} rfl
  refine ⟨program, hcompile, ?_⟩
  intro env
  have hlimit : (Text.ofString "aa").chars.length < unbounded := by decide
  have hin : beforeBoth.In env.text := rfl
  obtain ⟨first, last, m, hblock, hreach, henters, hdelivers⟩ :=
    (plain_drain .invariant).delivers_second root_drain rfl rfl hcompile hlimit hin
      (matcher_markLoop _ _ beforeBoth)
  refine ⟨first, last, m, hblock, hreach, henters, ?_⟩
  rw [matcher_drainLoop] at hdelivers
  cases hdelivers with
  | aborted _ hA => exact hA.elim
  | @arrived _ x _ _ hreach harrives hmore =>
    refine ⟨x, hreach, harrives, fun x' hx' => ?_⟩
    cases hmore x' hx' with
    | aborted _ hA => exact hA.elim
    | arrived hreach harrives _ => exact ⟨_, hreach, harrives⟩

/-- The first loop of `drain` runs its body a fixed number of times, and is passed once. -/
theorem markLoop_passes_once : ∃ program, Program.compile drain .invariant {} = .ok program ∧
    let env : Surroundings := ⟨program, .invariant, .ofString "aa", 0⟩
    ∃ first last m, LayoutContext.block
        { analysis := Analysis.ofTree drain Analysis.defaultDepthLimit, culture := .invariant }
        program markLoop first last ∧
      Reaches env (.running (program.initial beforeBoth)) (.running m) ∧
      m.Enters env first beforeBoth.start ∧ m.PassesOnce env last := by
  obtain ⟨body, hsound⟩ := unshared_drain.sound
  obtain ⟨program, hcompile⟩ := Program.compile_total hsound.arity .invariant {} rfl
  refine ⟨program, hcompile, ?_⟩
  intro env
  obtain ⟨end', hcompiled⟩ := Program.compiled_of_compile hcompile
  have hin : beforeBoth.In env.text := rfl
  obtain ⟨middle, -, m, hfirst, -, hreach, henters⟩ :=
    Program.Compiled.enters_sequence root_drain rfl hcompiled hin
  refine ⟨2, middle, m, hfirst, hreach, henters, ?_⟩
  have hlimit : (Text.ofString "aa").chars.length < unbounded := by decide
  have hn : markLoop ∈ drain.root.preorder := by
    rw [root_drain]
    exact Node.preorder_trans (Node.mem_preorder_child List.mem_cons_self)
      (Node.mem_preorder_child List.mem_cons_self)
  have hloops : ∀ x ∈ markLoop.preorder, ∀ isLazy,
      x.kind ≠ .loop unbounded unbounded isLazy := by
    have hall : ∀ isLazy, markLoop.preorder.all (·.kind != .loop unbounded unbounded isLazy) := by
      decide
    exact fun x hx isLazy => bne_iff_ne.1 (List.all_eq_true.1 (hall isLazy) x hx)
  exact (plain_drain .invariant).passes_once hcompile hn (by decide +kernel) (by decide +kernel)
    hloops hlimit 0 hfirst henters

end RegexMachine
