import RegexMachine.Proofs.Direct.Steps
import RegexMachine.Proofs.Regex.Iteration

/-!
# Imitating a tree

A forward matcher imitates a tree when its attempts end in the first outcomes of the tree, and when
its search for candidates passes over no place that has outcomes. An engine that imitates a plain
tree follows every program of the tree.
-/

namespace RegexMachine

open Matcher

@[simp] theorem Options.direction_none : ({} : Options).direction = .forward := rfl

/-- The attempt returned the first outcome: a match at its place and with its captures, or none. -/
def ReachesFirst (outcomes : List MatchState) (s : ScanState)
    (r : EStateM.Result Failure ScanState Bool) : Prop :=
  ∃ s', r = .ok outcomes.head?.isSome s' ∧ s'.textStart = s.textStart ∧ s'.watch = s.watch ∧
    s'.captures.groups.size = s.captures.groups.size ∧ ∀ o ∈ outcomes.head?,
      s'.textPos = o.place.offset ∧ s'.Holds s.captures.groups.size o.captured

namespace ReachesFirst

variable {outcomes : List MatchState} {s s' : ScanState}
  {r : EStateM.Result Failure ScanState Bool}

theorem of_missed (hnone : outcomes.head? = none) (hr : r = .ok false s.resetAttempt) :
    ReachesFirst outcomes s r := by
  rw [ReachesFirst, hnone]
  exact ⟨s.resetAttempt, hr, rfl, rfl, Array.size_replicate, nofun⟩

/-- The attempt ends where the first outcome does, and holds its captures. -/
theorem of_holds {o : MatchState} (hfirst : outcomes.head? = some o)
    (hholds : s'.Holds s.captures.groups.size o.captured) (hpos : s'.textPos = o.place.offset)
    (hstart : s'.textStart = s.textStart) (hwatch : s'.watch = s.watch) (hr : r = .ok true s') :
    ReachesFirst outcomes s r := by
  rw [ReachesFirst, hfirst]
  refine ⟨s', hr, hstart, hwatch, hholds.size, ?_⟩
  rintro _ ⟨⟩
  exact ⟨hpos, hholds⟩

end ReachesFirst

/-- The tree has no outcomes at a place, wherever a scan began. -/
def Tree.Misses (t : Tree) (culture : Culture) (text : Text) (p : Place) : Prop :=
  ∀ textStart, t.root.matcher Reading.plain (t.setting culture text textStart) p.start = []

/-- The matcher goes forward and does what the tree says. -/
structure Phases.Imitates (P : Phases) (t : Tree) (culture : Culture) : Prop where
  direction : P.direction = .forward
  attempts : ∀ (text : Text) (p : Place), p.In text → ∀ s : ScanState, s.textPos = p.offset →
    s.captures.groups.size = t.groupCount → s.watch.deadline = none →
      ReachesFirst (t.root.matcher Reading.plain (t.setting culture text s.textStart) p.start) s
        (P.attempt text s.resetAttempt)
  finds : ∀ (text : Text) (p : Place), p.In text → ∃ q? : Option Place,
    text.PassesTo .forward (t.Misses culture text) p q? ∧
      ∀ s : ScanState, s.textPos = p.offset → P.findNext text s =
        .ok q?.isSome { s with textPos := (q?.map Place.offset).getD text.size }

namespace Surroundings

variable {env : Surroundings} {t : Tree} {config : CompileConfig}
  (hplain : t.Plain env.culture)
  (hcompile : Program.compile t env.culture config = .ok env.program)
  (hlimit : env.text.chars.length < unbounded)

include hplain hcompile hlimit

theorem fails_of_misses {p : Place} (hp : p.In env.text)
    (hmisses : t.Misses env.culture env.text p) : env.Fails p := by
  obtain ⟨result, hgives⟩ := (returns_of_plain hplain hcompile hlimit hp).gives
  have hfirst := (hgives.first_outcome hplain hcompile hlimit hp).1
  rw [hmisses env.textStart] at hfirst
  cases result with
  | none => exact hgives
  | some hit => cases hfirst

/-- What imitates a plain tree does what the programs of the tree do. Its captures may be kept in
another way, but they are published alike. -/
theorem matchedBy_of_imitates {P : Phases} (himitates : P.Imitates t env.culture)
    (hdirection : t.direction = .forward) :
    env.MatchedBy (fun c d => c.publish? = d.publish?) fun _ => P := by
  obtain ⟨last, hcompiled⟩ := Program.compiled_of_compile hcompile
  have hforward : env.program.direction = .forward := hcompiled.direction_eq.trans hdirection
  refine ⟨fun _ => himitates.direction.trans hforward.symm,
    ⟨P.findNext, fun p hp _ => ?_, fun _ => rfl⟩, fun p hp result hgives => ⟨0, fun _ _ s hs => ?_⟩⟩
  · obtain ⟨q?, hpasses, hfind⟩ := himitates.finds env.text p hp
    rw [hforward]
    refine ⟨q?, hpasses.imp fun r hr _ => fails_of_misses hplain hcompile hlimit hr, ?_⟩
    intro s hpos _
    exact hfind s hpos
  · obtain ⟨s', hattempt, hstart, hwatch, hsize, hends⟩ := himitates.attempts env.text p hp s hs.textPos
      (hs.size.trans hcompiled.groupCount) hs.untimed
    rw [hs.textStart] at hattempt hends
    obtain ⟨hfound, hreaches⟩ := hgives.first_outcome hplain hcompile hlimit hp
    refine ⟨s', hfound ▸ hattempt, hstart, hwatch, hsize.trans hs.size, fun hit hhit => ?_⟩
    obtain ⟨o, ho⟩ := Option.isSome_iff_exists.1 (hfound.symm.trans (Option.isSome_iff_exists.2 ⟨hit, hhit⟩))
    have hreach := hreaches hit hhit o ho
    obtain ⟨hpos, hholds⟩ := hends o ho
    refine ⟨hpos.trans hreach.cursor.symm, ?_⟩
    rw [Captures.publish?_eq hholds.proper, Captures.publish?_eq hreach.proper, hholds.left,
      hreach.left, hholds.size, hreach.size, hs.size]

end Surroundings

/-- The engine has the groups, the names and the options of the tree, and imitates it. -/
structure Engine.Imitates (e : Engine) (t : Tree) (culture : Culture) : Prop where
  provided : e.Provided
  groupCount : e.groupCount = t.groupCount
  names : e.names = t.names
  options : e.options = t.options
  forward : t.direction = .forward
  phases : ∃ P : Phases, P.Imitates t culture ∧ ∀ text fuel, e.scan text fuel = P.scan text fuel

/-- An engine that imitates a plain tree follows its programs. -/
theorem Engine.Imitates.follows {e : Engine} {t : Tree} {env : Surroundings} {config : CompileConfig}
    (himitates : e.Imitates t env.culture) (hplain : t.Plain env.culture)
    (hcompile : Program.compile t env.culture config = .ok env.program)
    (hlimit : env.text.chars.length < unbounded) : e.Follows env := by
  obtain ⟨last, hcompiled⟩ := Program.compiled_of_compile hcompile
  obtain ⟨P, hP, hscan⟩ := himitates.phases
  have hmatched : ∀ began : Place, (env.since began).MatchedBy
      (fun c d => c.publish? = d.publish?) fun _ => P := by
    intro began
    have hplain' : t.Plain (env.since began).culture := hplain
    exact Surroundings.matchedBy_of_imitates hplain' hcompile hlimit hP himitates.forward
  have hdirection : e.options.direction = env.program.direction := by
    rw [himitates.options, hcompiled.direction_eq, Tree.direction]
  exact follows_of_matchedBy himitates.provided (himitates.groupCount.trans hcompiled.groupCount.symm)
    (himitates.names.trans hcompiled.names.symm) hdirection (hscan env.text) (fun _ _ h => h) hmatched

end RegexMachine
