import RegexMachine.Proofs.Attempts.Extent
import RegexMachine.Proofs.Regex.Lockstep
import RegexMachine.Proofs.Regex.Search
import RegexMachine.Proofs.Scan.Filter

/-!
# Iterating over matches

A search goes from match to match. Each is made by the first attempt that succeeds, in the direction
of the search, from where the last match stopped, or from one character further when that was empty.
The matches of a plain tree come in order and apart from each other, so there are no more of them than
boundaries, and a search that has come to its end stays there.
-/

namespace RegexMachine

open Regex (Serves)

/-- Where a search goes on that stopped at a place: behind an empty match one character further, if
there is one. -/
def Place.resume (d : Direction) (afterEmpty : Bool) (p : Place) : Option Place :=
  if afterEmpty then (p.read d).map Prod.snd else some p

/-- The match that a hit makes. -/
def Hit.match? (env : Surroundings) (hit : Hit) : Option Match :=
  hit.captures.publish?.map fun spans => { text := env.text, spans, names := env.program.names }

namespace Surroundings

/-- What attempts read after the search stopped at a place: there the scan begins. -/
abbrev since (env : Surroundings) (stopped : Place) : Surroundings :=
  { env with textStart := stopped.offset }

/-- The search that stopped at a place. -/
def search (env : Surroundings) (stopped : Place) (afterEmpty : Bool) : Search :=
  { text := env.text, textStart := stopped.offset, afterEmpty }

/-- The matches from where a search stopped, each by the first attempt that succeeds; there are no
more when no attempt that is left succeeds. -/
inductive Iterates (env : Surroundings) :
    (stopped : Place) → (afterEmpty : Bool) → List Match → Prop
  | border {p : Place} {afterEmpty : Bool}
      (hresume : p.resume env.program.direction afterEmpty = none) : Iterates env p afterEmpty []
  | last {p q : Place} {afterEmpty : Bool}
      (hresume : p.resume env.program.direction afterEmpty = some q)
      (hnone : (env.since p).First q none) : Iterates env p afterEmpty []
  | found {p q r stop : Place} {afterEmpty : Bool} {hit : Hit} {m : Match} {ms : List Match}
      (hresume : p.resume env.program.direction afterEmpty = some q)
      (hfirst : (env.since p).First q (some (r, hit))) (hmatch : hit.match? env = some m)
      (hstop : stop.In env.text) (hexit : m.spans.whole.exit env.program.direction = stop.offset)
      (rest : Iterates env stop m.isEmpty ms) : Iterates env p afterEmpty (m :: ms)

end Surroundings

/-- The second match starts further on than the first, and not before the first stopped. -/
def Match.Precedes (d : Direction) (m m' : Match) : Prop :=
  match d with
  | .forward => m.start < m'.start ∧ m.stop ≤ m'.start
  | .backward => m'.stop < m.stop ∧ m'.stop ≤ m.start

namespace Place

variable {d : Direction} {p q : Place} {afterEmpty : Bool}

theorem resume_eq_some (h : p.resume d afterEmpty = some q) : q.chars = p.chars ∧
    q.ahead d + (if afterEmpty then 1 else 0) = p.ahead d := by
  cases afterEmpty with
  | false =>
    obtain rfl := Option.some.inj h
    exact ⟨rfl, rfl⟩
  | true =>
    obtain ⟨⟨c, q'⟩, hread, rfl⟩ := Option.map_eq_some_iff.1 h
    exact ⟨chars_of_read hread, ahead_of_read hread⟩

theorem In.of_resume {t : Text} (hp : p.In t) (h : p.resume d afterEmpty = some q) : q.In t :=
  (resume_eq_some h).1.trans hp

theorem nextStart_search {env : Surroundings} (hp : p.In env.text) :
    Regex.nextStart d (env.search p afterEmpty) = .ok ((p.resume d afterEmpty).map offset) := by
  cases afterEmpty with
  | false => rfl
  | true =>
    have hborder := Text.offset_eq_border hp d
    cases hread : p.read d with
    | none =>
      have hend : p.offset = env.text.border d := hborder.2 (read_eq_none.1 hread)
      simp [Regex.nextStart, Surroundings.search, resume, hread, hend]
      rfl
    | some r =>
      obtain ⟨c, q⟩ := r
      have hahead := ahead_of_read hread
      have hmore : p.offset ≠ env.text.border d := fun heq => by
        have hzero := hborder.1 heq
        omega
      have hbump : env.text.bump d p.offset = .ok q.offset := Text.bump_offset hp hread
      simp [Regex.nextStart, Surroundings.search, resume, hread, hmore, hbump, bind, Except.bind, pure,
        Except.pure]

end Place

/-- On its text the engine scans as the program does, wherever the scan began, and publishes what
that finds. -/
structure Engine.Follows (e : Engine) (env : Surroundings) : Prop where
  provided : e.Provided
  groupCount : e.groupCount = env.program.groupCount
  names : e.names = env.program.names
  direction : e.options.direction = env.program.direction
  scan : ∀ (began p : Place) (first : Option (Place × Hit)), (env.since began).First p first →
    p.In env.text → p.Begun (env.since began) → ∃ enough, ∀ patience, enough ≤ patience →
      ∀ s : ScanState, s.At (env.since began) p →
        s.captures = Captures.none env.program.groupCount → ∃ s',
          e.scan env.text patience s = .ok () s' ∧
            s'.captures.publish? = first.bind fun found => found.2.captures.publish?

/-- An engine of two phases follows the program when it does what the program does, except for how
its captures are kept. -/
theorem Engine.follows_of_matchedBy {e : Engine} {env : Surroundings} (hprovided : e.Provided)
    (hgroups : e.groupCount = env.program.groupCount) (hnames : e.names = env.program.names)
    (hdirection : e.options.direction = env.program.direction) {P : (fuel : Nat) → Phases}
    (hscan : ∀ fuel, e.scan env.text fuel = (P fuel).scan env.text fuel)
    {R : Captures → Captures → Prop} (hpublish : ∀ c d, R c d → c.publish? = d.publish?)
    (hmatched : ∀ began : Place, (env.since began).MatchedBy R P) : e.Follows env where
  provided := hprovided
  groupCount := hgroups
  names := hnames
  direction := hdirection
  scan := by
    intro began p first hfirst hp hbegun
    obtain ⟨enough, hends⟩ := (hmatched began).scan hfirst hp hbegun
    refine ⟨enough, fun patience hpatience s hs hclear => ?_⟩
    obtain ⟨s', hs', hend, -⟩ := hends patience patience hpatience hpatience s hs hclear
    refine ⟨s', by rw [hscan]; exact hs', ?_⟩
    cases first with
    | none =>
      rw [hend.missed rfl]
      exact Captures.publish?_none _
    | some found => exact hpublish _ _ (hend.found _ rfl)

/-- The interpreter follows the program that it interprets. -/
theorem Engine.follows_interpreter {env : Surroundings} {t : Tree} {config : CompileConfig}
    (hcompile : Program.compile t env.culture config = .ok env.program) :
    (Engine.interpreter env.program env.culture).Follows env := by
  have hprovided : (Engine.interpreter env.program env.culture).Provided := trivial
  have hmatched : ∀ began : Place, (env.since began).MatchedBy Eq
      (Interpreter.phases env.program env.culture) := by
    intro began
    have hsince : Program.compile t (env.since began).culture config =
        .ok (env.since began).program := hcompile
    exact (Surroundings.finds_findNext hsince).matchedBy
  exact follows_of_matchedBy hprovided rfl rfl rfl (fun _ => rfl)
    (fun c d h => congrArg Captures.publish? h) hmatched

/-- The regex has this engine and no time limit. -/
structure Regex.Uses (re : Regex) (e : Engine) : Prop where
  engine : re.engine = e
  limit : re.limit = none

/-- The regex interprets the program and has no time limit. -/
structure Regex.Interprets (re : Regex) (env : Surroundings) : Prop where
  engine : re.engine = .interpreter env.program env.culture
  limit : re.limit = none

section

variable {env : Surroundings} {e : Engine} {began p : Place} (hfollows : e.Follows env)

include hfollows

/-- A scan publishes the first hit. -/
theorem Surroundings.First.regexScan {first : Option (Place × Hit)}
    (hfirst : (env.since began).First p first) (hp : p.In env.text)
    (hbegun : p.Begun (env.since began)) :
    ∃ enough, ∀ re₀ : Regex, re₀.Uses e → enough ≤ re₀.patience → ∀ re, Serves re₀ re →
      ∃ re', Regex.scan env.text began.offset p.offset re =
          .ok (first.bind fun found => found.2.captures.publish?) re' ∧ Serves re₀ re' := by
  obtain ⟨enough, hscan⟩ := hfollows.scan began p first hfirst hp hbegun
  refine ⟨enough, fun re₀ hre₀ hpatience re hre => ?_⟩
  have hcount : re₀.groupCount = env.program.groupCount :=
    (congrArg Engine.groupCount hre₀.engine).trans hfollows.groupCount
  have hsize : re.rent.captures.groups.size = env.program.groupCount := hre.size_rent.trans hcount
  obtain ⟨s', hs', hpublish⟩ := hscan re₀.patience hpatience _
    (ScanState.at_prepare hsize) (congrArg Captures.none hsize)
  have hengine : re.engine.scan env.text re.patience
      (re.rent.prepare began.offset p.offset re.limit) = .ok () s' := by
    rw [hre.engine, hre₀.engine, hre.patience, hre.limit, hre₀.limit]
    exact hs'
  have hresult : Regex.scan env.text began.offset p.offset re =
      .ok s'.captures.publish? (re.giveBack s') := by
    simp only [Regex.scan, hengine]
  have hprovided : re₀.engine.Provided := by
    rw [hre₀.engine]
    exact hfollows.provided
  refine ⟨_, hpublish ▸ hresult, ?_⟩
  have hsteady := (Regex.steady_scan hprovided env.text began.offset p.offset).answer_eq
    (show Regex.Alike re₀ re re from ⟨hre, hre, rfl⟩)
  rw [hresult] at hsteady
  exact hsteady.2.left

end

namespace Regex

variable {env : Surroundings} {e : Engine} {re₀ re : Regex}

theorem Uses.direction_eq (hre₀ : re₀.Uses e) (hfollows : e.Follows env) (hre : Serves re₀ re) :
    re.direction = env.program.direction := by
  rw [hre.direction_eq, direction, options, hre₀.engine]
  exact hfollows.direction

theorem Uses.names_eq (hre₀ : re₀.Uses e) (hfollows : e.Follows env) (hre : Serves re₀ re) :
    re.names = env.program.names := by
  rw [hre.names_eq, names, hre₀.engine]
  exact hfollows.names

theorem after_search {d : Direction} {p stop : Place} {afterEmpty : Bool} {span : Span}
    (hexit : span.exit d = stop.offset) :
    after d (env.search p afterEmpty) span = env.search stop (span.length == 0) := by
  rw [Surroundings.search, Surroundings.search, ← hexit]
  cases d <;> rfl

theorem nextTimes_done (n : Nat) {s : Search} (h : s.done = true) (re : Regex) :
    nextTimes n s re = .ok (List.replicate n none) re := by
  induction n with
  | zero => rfl
  | succ n ih =>
    have hnext : next s re = .ok (none, s) re := by
      rw [next, h]
      rfl
    simp only [nextTimes, bind, EStateM.bind, hnext, ih]
    rfl

theorem nextTimes_succ {n : Nat} {s s' : Search} {re' re'' : Regex}
    {item : Option (Except Error Match)} {items : List (Option (Except Error Match))}
    (hnext : next s re = .ok (item, s') re') (hrest : nextTimes n s' re' = .ok items re'') :
    nextTimes (n + 1) s re = .ok (item :: items) re'' := by
  simp only [nextTimes, bind, EStateM.bind, hnext, hrest]
  rfl

/-- A search that finds no more is done. -/
theorem nextTimes_of_next_none {s s' : Search} {re' : Regex}
    (hnext : next s re = .ok (none, s') re') (hdone : s'.done = true) :
    ∀ n, ∃ re'', nextTimes n s re = .ok (List.replicate n none) re''
  | 0 => ⟨re, rfl⟩
  | n + 1 => ⟨re', nextTimes_succ hnext (nextTimes_done n hdone re')⟩

end Regex

section

variable {env : Surroundings} {e : Engine} {p q : Place} {afterEmpty : Bool}
  (hfollows : e.Follows env)

include hfollows

/-- The item of a search that has come to the border. -/
theorem Place.next_of_resume_none {re₀ re : Regex} (hre₀ : re₀.Uses e)
    (hre : Serves re₀ re) (hp : p.In env.text)
    (hresume : p.resume env.program.direction afterEmpty = none) :
    Regex.next (env.search p afterEmpty) re =
      .ok (none, { env.search p afterEmpty with done := true }) re := by
  have hstart : Regex.nextStart re.direction (env.search p afterEmpty) = .ok none := by
    rw [Place.nextStart_search hp, hre₀.direction_eq hfollows hre, hresume]
    rfl
  rw [Regex.next, hstart]
  rfl

/-- The item of a search that goes on. -/
theorem Surroundings.First.next {first : Option (Place × Hit)}
    (hfirst : (env.since p).First q first) (hp : p.In env.text)
    (hresume : p.resume env.program.direction afterEmpty = some q) :
    ∃ enough, ∀ re₀ : Regex, re₀.Uses e → enough ≤ re₀.patience → ∀ re, Serves re₀ re →
      ∃ re', Serves re₀ re' ∧ Regex.next (env.search p afterEmpty) re =
        .ok (match first.bind fun found => found.2.match? env with
          | some m =>
            (some (.ok m), Regex.after env.program.direction (env.search p afterEmpty) m.spans.whole)
          | none => (none, { env.search p afterEmpty with done := true })) re' := by
  have hbegun : p.Begun (env.since p) := fun _ => Nat.le_refl _
  have hahead := (Place.resume_eq_some hresume).2
  have hq : q.In env.text := hp.of_resume hresume
  obtain ⟨enough, hscan⟩ := hfirst.regexScan hfollows hq (hbegun.of_ahead_le hp hq (by
    change q.ahead env.program.direction ≤ p.ahead env.program.direction
    omega))
  refine ⟨enough, fun re₀ hre₀ hpatience re hre => ?_⟩
  obtain ⟨re', hresult, hre'⟩ := hscan re₀ hre₀ hpatience re hre
  refine ⟨re', hre', ?_⟩
  have hstart : Regex.nextStart re.direction (env.search p afterEmpty) = .ok (some q.offset) := by
    rw [Place.nextStart_search hp, hre₀.direction_eq hfollows hre, hresume]
    rfl
  have hscanned : Regex.scan (env.search p afterEmpty).text (env.search p afterEmpty).textStart
      q.offset re = _ := hresult
  rw [Regex.next, hstart]
  simp only [hscanned]
  cases first with
  | none => rfl
  | some found =>
    simp only [Option.bind_some, Hit.match?]
    cases found.2.captures.publish? with
    | none => rfl
    | some spans =>
      simp only [Option.map_some, Regex.wrap, hre₀.names_eq hfollows hre',
        hre₀.direction_eq hfollows hre']
      rfl

/-- A search by any engine that follows the program gives the matches one after the other, and
nothing ever after. -/
theorem Surroundings.Iterates.nextTimesBy {ms : List Match} (h : env.Iterates p afterEmpty ms)
    (hp : p.In env.text) :
    ∃ enough, ∀ re₀ : Regex, re₀.Uses e → enough ≤ re₀.patience → ∀ re, Serves re₀ re →
      ∀ n, ∃ re', Regex.nextTimes (ms.length + n) (env.search p afterEmpty) re =
        .ok (ms.map (fun m => some (.ok m)) ++ List.replicate n none) re' := by
  induction h with
  | border hresume =>
    refine ⟨0, fun re₀ hre₀ _ re hre n => ?_⟩
    rw [List.length_nil, Nat.zero_add]
    exact Regex.nextTimes_of_next_none (Place.next_of_resume_none hfollows hre₀ hre hp hresume) rfl n
  | last hresume hnone =>
    obtain ⟨enough, hnext⟩ := hnone.next hfollows hp hresume
    refine ⟨enough, fun re₀ hre₀ hpatience re hre n => ?_⟩
    obtain ⟨re', -, hitem⟩ := hnext re₀ hre₀ hpatience re hre
    rw [List.length_nil, Nat.zero_add]
    exact Regex.nextTimes_of_next_none hitem rfl n
  | @found p q r stop afterEmpty hit m ms hresume hfirst hmatch hstop hexit _ ih =>
    obtain ⟨enough, hnext⟩ := hfirst.next hfollows hp hresume
    obtain ⟨enough', hrest⟩ := ih hstop
    refine ⟨max enough enough', fun re₀ hre₀ hpatience re hre n => ?_⟩
    obtain ⟨re', hre', hitem⟩ := hnext re₀ hre₀ (by omega) re hre
    obtain ⟨re'', htimes⟩ := hrest re₀ hre₀ (by omega) re' hre' n
    simp only [Option.bind_some, hmatch, Regex.after_search hexit] at hitem
    refine ⟨re'', ?_⟩
    rw [List.length_cons, Nat.add_right_comm]
    exact Regex.nextTimes_succ hitem htimes

/-- A call for the matches from a place on is answered with them by any engine that follows the
program. -/
theorem Surroundings.Iterates.answer_iterateBy {ms : List Match} (h : env.Iterates p false ms)
    (hp : p.In env.text) :
    ∃ enough, ∀ re₀ : Regex, re₀.Uses e → enough ≤ re₀.patience → ∀ re, Serves re₀ re →
      ∀ n, answer ((Regex.Call.iterate env.text p.offset (ms.length + n)).perform re) =
        .ok (ms.map (fun m => some (.ok m)) ++ List.replicate n none) := by
  obtain ⟨enough, htimes⟩ := h.nextTimesBy hfollows hp
  refine ⟨enough, fun re₀ hre₀ hpatience re hre n => ?_⟩
  obtain ⟨re', hitems⟩ := htimes re₀ hre₀ hpatience re hre n
  have hsearch : Regex.searchAt env.text p.offset re = .ok (env.search p false) re :=
    Regex.searchAt_of_isBoundary (Text.isBoundary_offset hp) re
  simp only [Regex.Call.perform, bind, EStateM.bind, hsearch, hitems]
  rfl

omit hfollows in
/-- The interpreter answers a call for the matches from a place on with them. -/
theorem Surroundings.Iterates.answer_iterate {t : Tree} {config : CompileConfig}
    (hcompile : Program.compile t env.culture config = .ok env.program) {ms : List Match}
    (h : env.Iterates p false ms) (hp : p.In env.text) :
    ∃ enough, ∀ re₀ : Regex, re₀.Interprets env → enough ≤ re₀.patience → ∀ re, Serves re₀ re →
      ∀ n, answer ((Regex.Call.iterate env.text p.offset (ms.length + n)).perform re) =
        .ok (ms.map (fun m => some (.ok m)) ++ List.replicate n none) := by
  obtain ⟨enough, hanswer⟩ := h.answer_iterateBy (Engine.follows_interpreter hcompile) hp
  exact ⟨enough, fun re₀ hre₀ => hanswer re₀ ⟨hre₀.engine, hre₀.limit⟩⟩

end

namespace Regex

/-- Matches with nothing after them that are the first items of a search are all its matches. -/
theorem eq_of_take {ms found : List Match} {n : Nat}
    (h : (ms.map (fun m => (some (.ok m) : Option (Except Error Match))) ++
      List.replicate n none).take (found.length + 1) =
        found.map (fun m => some (.ok m)) ++ [none]) : ms = found := by
  induction ms generalizing found with
  | nil =>
    cases found with
    | nil => rfl
    | cons m found => cases n <;> cases h
  | cons m ms ih =>
    cases found with
    | nil => cases h
    | cons m' found =>
      obtain ⟨hm, hrest⟩ := List.cons.inj h
      cases hm
      rw [ih hrest]

/-- The items of a call are the first of those of a call for more. -/
theorem answer_iterate_take {text : Text} {start k n : Nat} {re : Regex}
    {items : List (Option (Except Error Match))}
    (h : answer ((Call.iterate text start (k + n)).perform re) = .ok items) :
    answer ((Call.iterate text start k).perform re) = .ok (items.take k) := by
  simp only [Call.perform, bind, EStateM.bind] at h ⊢
  cases hsearch : searchAt text start re with
  | error e re' =>
    rw [hsearch] at h
    cases h
  | ok s re' =>
    rw [hsearch] at h
    exact answer_nextTimes_take h

/-- The matches that a search was seen to give before it gave nothing are those it gives when more
steps are granted. -/
theorem eq_of_iterate {t : Tree} {config : RegexConfig} {re₀ : Regex}
    (hre₀ : ofTree t config = .ok re₀) {text : Text} {start enough : Nat} {ms found : List Match}
    (hitems : ∀ patience, enough ≤ patience → ∀ n,
      answer ((Call.iterate text start (ms.length + n)).perform { re₀ with patience }) =
        .ok (ms.map (fun m => some (.ok m)) ++ List.replicate n none))
    (hseen : answer ((Call.iterate text start (found.length + 1)).perform re₀) =
      .ok (found.map (fun m => some (.ok m)) ++ [none])) : ms = found := by
  obtain ⟨program, -, hmade⟩ := ofTree_eq_ok.1 hre₀
  have hengine : re₀.engine = .interpreter program (config.cultureOf t) := by rw [hmade]
  let patience := max enough re₀.patience
  have hstep : InStep program (config.cultureOf t) re₀.patience patience re₀
      { re₀ with patience } := ⟨hengine, rfl, rfl⟩
  have hmore : answer ((Call.iterate text start (found.length + 1)).perform { re₀ with patience }) =
      .ok (found.map (fun m => some (.ok m)) ++ [none]) := by
    obtain ⟨_, hgivenUp, rfl, -⟩ | hsame := (follows_iterate_self text start (found.length + 1)
      (Nat.le_max_right enough re₀.patience)).answer_eq_or hstep
    · cases hgivenUp.symm.trans hseen
    · exact hsame.symm.trans hseen
  -- Both are the first items of one search.
  have hall := hitems patience (Nat.le_max_left _ _) (found.length + 1)
  rw [Nat.add_comm] at hall
  have htake := answer_iterate_take hall
  exact eq_of_take (Except.ok.inj (htake.symm.trans hmore))

end Regex

theorem Spans.ext_history {s s' : Spans} (hcount : s.groupCount = s'.groupCount)
    (h : ∀ g, s.history g = s'.history g) : s = s' := by
  obtain ⟨groups⟩ := s
  obtain ⟨groups'⟩ := s'
  refine congrArg Spans.mk (Array.ext hcount fun i hi hi' => ?_)
  have hhistory : groups.getD i [] = groups'.getD i [] := h i
  simpa [Array.getD, hi, hi'] using hhistory

/-- The match of a hit that ends in an outcome with a whole match has the captures of the outcome, in
the order in which they were made. -/
theorem Hit.Reaches.exists_spans {env : Surroundings} {hit : Hit} {o : MatchState}
    (h : hit.Reaches env o) (hwhole : o.captured 0 ≠ []) :
    ∃ spans : Spans, hit.captures.publish? = some spans ∧
      (∀ g, spans.history g = (o.captured g).reverse) ∧
      spans.groupCount = env.program.groupCount := by
  have hzero : (hit.captures.left 0).isEmpty = false := by
    rw [h.left]
    exact List.isEmpty_eq_false_iff.2 hwhole
  have hpublish := Captures.publish?_eq h.proper
  rw [hzero] at hpublish
  refine ⟨_, hpublish, fun g => ?_, (Captures.groupCount_publish hpublish).trans h.size⟩
  rw [Captures.history_publish h.proper hpublish, h.left]

/-- An attempt of a plain tree gives a hit when the tree has an outcome, and the hit ends in the first. -/
theorem Surroundings.Gives.rel_outcome {env : Surroundings} {t : Tree} {config : CompileConfig}
    {p : Place} {result : Option Hit} (h : env.Gives p result) (hplain : t.Plain env.culture)
    (hcompile : Program.compile t env.culture config = .ok env.program)
    (hlimit : env.text.chars.length < unbounded) (hp : p.In env.text) :
    Option.Rel (Hit.Reaches env) result
      (t.root.matcher Reading.plain (t.setting env.culture env.text env.textStart) p.start).head? := by
  obtain ⟨hsome, hreaches⟩ := h.first_outcome hplain hcompile hlimit hp
  generalize (t.root.matcher Reading.plain (t.setting env.culture env.text env.textStart)
    p.start).head? = first at hsome hreaches
  cases result with
  | none =>
    cases first with
    | none => exact .none
    | some o => cases hsome
  | some hit =>
    cases first with
    | none => cases hsome
    | some o => exact .some (hreaches hit rfl o rfl)

theorem Match.precedes_of_places {d : Direction} {m m' : Match} {p stop q : Place}
    (hentry : m.spans.whole.entry d = p.offset) (hexit : m.spans.whole.exit d = stop.offset)
    (hentry' : m'.spans.whole.entry d = q.offset) (hp : p.chars = q.chars)
    (hstop : stop.chars = q.chars) (hlt : q.ahead d < p.ahead d) (hle : q.ahead d ≤ stop.ahead d) :
    m.Precedes d m' := by
  cases d with
  | forward =>
    change m.start = _ at hentry
    change m.stop = _ at hexit
    change m'.start = _ at hentry'
    rw [Precedes, hentry, hexit, hentry']
    exact ⟨Place.offset_lt_of_ahead_lt hp hlt, Place.offset_le_of_ahead_le hstop hle⟩
  | backward =>
    change m.stop = _ at hentry
    change m.start = _ at hexit
    change m'.stop = _ at hentry'
    rw [Precedes, hentry, hexit, hentry']
    exact ⟨Place.offset_lt_of_ahead_lt_backward hp hlt,
      Place.offset_le_of_ahead_le_backward hstop hle⟩

theorem Match.entry_ne_of_precedes {d : Direction} {m m' : Match} (h : m.Precedes d m') :
    m.spans.whole.entry d ≠ m'.spans.whole.entry d := by
  cases d with
  | forward => exact Nat.ne_of_lt h.1
  | backward => exact Nat.ne_of_gt h.1

theorem Text.mem_boundaries {text : Text} {p : Place} (hp : p.In text) :
    p.offset ∈ text.boundaries :=
  List.mem_filter.2
    ⟨List.mem_range.2 (Nat.lt_succ_of_le (offset_le_size hp)), isBoundary_offset hp⟩

section

variable {env : Surroundings} {t : Tree} {config : CompileConfig} {p q r : Place}
  {afterEmpty : Bool} {ms : List Match} (hplain : t.Plain env.culture) (hlinear : t.Linear)
  (hcompile : Program.compile t env.culture config = .ok env.program)
  (hlimit : env.text.chars.length < unbounded)

include hplain hlinear hcompile hlimit

/-- A hit makes a match, which goes from the place of the attempt to a place that is not behind it,
and further on unless the match is empty. -/
theorem Surroundings.Gives.exists_match {hit : Hit} (h : env.Gives r (some hit))
    (hr : r.In env.text) :
    ∃ (m : Match) (stop : Place), hit.match? env = some m ∧
      m.spans.whole.entry env.program.direction = r.offset ∧ stop.In env.text ∧
      m.spans.whole.exit env.program.direction = stop.offset ∧
      stop.ahead env.program.direction + (if m.isEmpty then 0 else 1) ≤
        r.ahead env.program.direction := by
  obtain ⟨stop, spans, hstop, hle, hpublish, hentry, hexit⟩ :=
    h.exists_exit hplain hlinear hcompile hlimit hr
  refine ⟨{ text := env.text, spans, names := env.program.names }, stop, ?_, hentry, hstop, hexit, ?_⟩
  · rw [Hit.match?, hpublish]
    rfl
  · split
    · exact hle
    · next hempty =>
      have hne : stop.ahead env.program.direction ≠ r.ahead env.program.direction := fun heq => by
        obtain rfl := Place.eq_of_ahead (hstop.trans hr.symm) heq
        have hlength := (Span.length_eq_zero_iff _ _).2 (hentry.trans hexit.symm)
        exact hempty (beq_iff_eq.2 hlength)
      omega

/-- Where the match of a first hit lies. -/
theorem Surroundings.First.extent {stop : Place} {hit : Hit} {m : Match}
    (h : (env.since p).First q (some (r, hit))) (hmatch : hit.match? env = some m)
    (hstop : stop.In env.text) (hexit : m.spans.whole.exit env.program.direction = stop.offset) :
    r.In env.text ∧ r.ahead env.program.direction ≤ q.ahead env.program.direction ∧
      m.spans.whole.entry env.program.direction = r.offset ∧
      stop.ahead env.program.direction + (if m.isEmpty then 0 else 1) ≤
        r.ahead env.program.direction := by
  obtain ⟨⟨hr, hle, -⟩, hgives⟩ := h
  have hplain' : t.Plain (env.since p).culture := hplain
  obtain ⟨m', stop', hmatch', hentry, hstop', hexit', hprogress⟩ :=
    hgives.exists_match hplain' hlinear hcompile hlimit hr
  obtain rfl : m' = m := Option.some.inj (hmatch'.symm.trans hmatch)
  obtain rfl : stop' = stop :=
    Place.eq_of_offset (hstop'.trans hstop.symm) (hexit'.symm.trans hexit)
  exact ⟨hr, hle, hentry, hprogress⟩

namespace Surroundings.Iterates

/-- A match is entered ahead of where the search stopped, and not at that place after an empty
match. -/
theorem entry_of_mem (h : env.Iterates p afterEmpty ms) {m : Match} (hm : m ∈ ms) :
    ∃ r : Place, r.In env.text ∧ m.spans.whole.entry env.program.direction = r.offset ∧
      r.ahead env.program.direction + (if afterEmpty then 1 else 0) ≤
        p.ahead env.program.direction := by
  induction h with
  | border | last => exact absurd hm List.not_mem_nil
  | found hresume hfirst hmatch hstop hexit _ ih =>
    have hahead := (Place.resume_eq_some hresume).2
    obtain ⟨hr, hle, hentry, hprogress⟩ :=
      hfirst.extent hplain hlinear hcompile hlimit hmatch hstop hexit
    rcases List.mem_cons.1 hm with rfl | hm
    · exact ⟨_, hr, hentry, by omega⟩
    · obtain ⟨r', hr', hentry', hle'⟩ := ih hm
      exact ⟨r', hr', hentry', by omega⟩

theorem pairwise_precedes (h : env.Iterates p afterEmpty ms) :
    ms.Pairwise (Match.Precedes env.program.direction) := by
  induction h with
  | border | last => exact .nil
  | found hresume hfirst hmatch hstop hexit rest ih =>
    obtain ⟨hr, -, hentry, hprogress⟩ :=
      hfirst.extent hplain hlinear hcompile hlimit hmatch hstop hexit
    refine List.pairwise_cons.2 ⟨fun m' hm' => ?_, ih⟩
    obtain ⟨r', hr', hentry', hle⟩ := rest.entry_of_mem hplain hlinear hcompile hlimit hm'
    refine Match.precedes_of_places hentry hexit hentry' (hr.trans hr'.symm)
      (hstop.trans hr'.symm) ?_ (by omega)
    split at hprogress <;> split at hle <;> omega

theorem length_le (h : env.Iterates p afterEmpty ms) : ms.length ≤ env.text.boundaries.length := by
  have hnodup : (ms.map fun m => m.spans.whole.entry env.program.direction).Nodup :=
    List.pairwise_map.2 ((h.pairwise_precedes hplain hlinear hcompile hlimit).imp
      Match.entry_ne_of_precedes)
  have hsubset : (ms.map fun m => m.spans.whole.entry env.program.direction) ⊆
      env.text.boundaries := by
    intro pos hpos
    obtain ⟨m, hm, rfl⟩ := List.mem_map.1 hpos
    obtain ⟨r, hr, hentry, -⟩ := h.entry_of_mem hplain hlinear hcompile hlimit hm
    rw [hentry]
    exact Text.mem_boundaries hr
  have hle := (List.subperm_of_subset hnodup hsubset).length_le
  rwa [List.length_map] at hle

end Surroundings.Iterates

/-- From every place on there are matches that a search gives, if only none. -/
theorem Surroundings.exists_iterates (hp : p.In env.text) (afterEmpty : Bool) :
    ∃ ms, env.Iterates p afterEmpty ms := by
  induction h : 2 * p.ahead env.program.direction + (if afterEmpty then 0 else 1)
    using Nat.strong_induction_on generalizing p afterEmpty with
  | _ n ih =>
    cases hresume : p.resume env.program.direction afterEmpty with
    | none => exact ⟨[], .border hresume⟩
    | some q =>
      have hahead := (Place.resume_eq_some hresume).2
      have hplain' : t.Plain (env.since p).culture := hplain
      obtain ⟨first, hfirst⟩ : ∃ first, (env.since p).First q first :=
        exists_first (hp.of_resume hresume) fun r hr _ => returns_of_plain hplain' hcompile hlimit hr
      cases first with
      | none => exact ⟨[], .last hresume hfirst⟩
      | some found =>
        obtain ⟨r, hit⟩ := found
        obtain ⟨m, stop, hmatch, -, hstop, hexit, -⟩ :=
          hfirst.2.exists_match hplain' hlinear hcompile hlimit hfirst.1.1
        obtain ⟨-, hle, -, hprogress⟩ :=
          hfirst.extent hplain hlinear hcompile hlimit hmatch hstop hexit
        have hless : 2 * stop.ahead env.program.direction + (if m.isEmpty then 0 else 1) < n := by
          grind
        obtain ⟨ms, hms⟩ := ih _ hless hstop m.isEmpty rfl
        exact ⟨m :: ms, .found hresume hfirst hmatch hstop hexit hms⟩

end

/-- A search of a plain tree gives matches that come in order and apart from each other, at most one
for every boundary, each by the first attempt that succeeds, and after the last of them nothing any
more. -/
theorem Tree.Plain.search_iterates {t : Tree} {config : RegexConfig}
    (hplain : t.Plain (config.cultureOf t)) (hlinear : t.Linear) (hlimit : config.limit = none) :
    (config.compile.strictAnalysis = false → ∃ re, Regex.ofTree t config = .ok re) ∧
      ∀ re₀, Regex.ofTree t config = .ok re₀ → ∀ (text : Text) (start : Nat),
        text.chars.length < unbounded → text.isBoundary start = true →
          ∃ (program : Program) (p : Place) (ms : List Match),
            re₀.program? = some program ∧ p.In text ∧ p.offset = start ∧
            Surroundings.Iterates
              { program, culture := config.cultureOf t, text, textStart := start } p false ms ∧
            ms.Pairwise (Match.Precedes t.direction) ∧ ms.length ≤ text.boundaries.length ∧
            ∃ enough, ∀ patience, enough ≤ patience → ∀ re, Serves { re₀ with patience } re → ∀ n,
              answer ((Regex.Call.iterate text start (ms.length + n)).perform re) =
                .ok (ms.map (fun m => some (.ok m)) ++ List.replicate n none) := by
  refine ⟨Regex.ofTree_total hplain.unshared, fun re₀ hre₀ text start hlength hstart => ?_⟩
  obtain ⟨program, hcompile, rfl⟩ := Regex.ofTree_eq_ok.1 hre₀
  obtain ⟨p, hp, rfl⟩ := Text.exists_place hstart
  let env : Surroundings :=
    { program, culture := config.cultureOf t, text, textStart := p.offset }
  have hcompile : Program.compile t env.culture config.compile = .ok env.program := hcompile
  obtain ⟨last, hcompiled⟩ := Program.compiled_of_compile hcompile
  obtain ⟨ms, hms⟩ := Surroundings.exists_iterates hplain hlinear hcompile hlength hp false
  obtain ⟨enough, hanswer⟩ := hms.answer_iterate hcompile hp
  exact ⟨program, p, ms, rfl, hp, rfl, hms,
    hcompiled.direction_eq ▸ hms.pairwise_precedes hplain hlinear hcompile hlength,
    hms.length_le hplain hlinear hcompile hlength, enough,
    fun patience hpatience => hanswer _ ⟨rfl, hlimit⟩ hpatience⟩

/-- In `abxaab` a search for `(a)+?b+` gives its two matches in order, and nothing after them. -/
theorem search_lazyRun : ∃ re₀ : Regex, Regex.ofTree lazyRun {} = .ok re₀ ∧
    lazyRunMatches.Pairwise (Match.Precedes .forward) ∧ lazyRunMatches.length ≤ 7 ∧
      ∃ enough, ∀ patience, enough ≤ patience → ∀ n,
        answer ((Regex.Call.iterate (.ofString "abxaab") 0 (lazyRunMatches.length + n)).perform
            { re₀ with patience }) =
          .ok (lazyRunMatches.map (fun m => some (.ok m)) ++ List.replicate n none) := by
  obtain ⟨-, hsearch⟩ := Tree.Plain.search_iterates
    (plain_lazyRun (RegexConfig.cultureOf {} lazyRun)) linear_lazyRun rfl
  have hseen : (Regex.ofTree lazyRun {}).toOption.map (fun re =>
      answer ((Regex.Call.iterate (.ofString "abxaab") 0 (lazyRunMatches.length + 1)).perform re)) =
        some (.ok (lazyRunMatches.map (fun m => some (.ok m)) ++ [none])) := by
    decide +kernel
  obtain ⟨re₀, hre₀, hseen⟩ := Regex.exists_of_ofTree hseen
  obtain ⟨-, p, ms, -, -, -, -, hpairwise, hlength, enough, hitems⟩ :=
    hsearch re₀ hre₀ (.ofString "abxaab") 0 (by decide) (by decide)
  have hitems := fun patience hpatience =>
    hitems patience hpatience _ (Regex.serves_ofTree hre₀ patience)
  obtain rfl := Regex.eq_of_iterate hre₀ hitems hseen
  exact ⟨re₀, hre₀, hpairwise, hlength, enough, hitems⟩

end RegexMachine
