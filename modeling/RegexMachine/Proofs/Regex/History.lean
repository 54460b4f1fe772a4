import RegexMachine.Proofs.Attempts.FirstOutcome
import RegexMachine.Proofs.Scan.Leftovers
import RegexMachine.Regex.Replace

/-!
# History

A regex keeps the state of its matcher and the last template from one call to the next. Neither shows:
whatever was called before, and however it ended, a call answers what it would answer as the first
call on the regex, with the clock where it now is. Nor does it matter how scans are timed, as long as
none is given up.
-/

namespace RegexMachine

/-- The culture that a regex of the tree matches in. -/
def RegexConfig.cultureOf (config : RegexConfig) (t : Tree) : Culture :=
  if t.options.cultureInvariant then .invariant else config.culture

namespace Regex

theorem ofTree_eq_ok {t : Tree} {config : RegexConfig} {re : Regex} :
    ofTree t config = .ok re ↔ ∃ program,
      Program.compile t (config.cultureOf t) config.compile = .ok program ∧
        re = { engine := .interpreter program (config.cultureOf t), limit := config.limit } := by
  change (Program.compile t (config.cultureOf t) config.compile).bind (fun program =>
    .ok { engine := .interpreter program (config.cultureOf t), limit := config.limit }) = .ok re ↔ _
  cases Program.compile t (config.cultureOf t) config.compile with
  | error e => simp [Except.bind]
  | ok program => simp [Except.bind, eq_comm]

theorem exists_of_ofTree {t : Tree} {config : RegexConfig} {α : Type} {f : Regex → α} {a : α}
    (h : (ofTree t config).toOption.map f = some a) : ∃ re, ofTree t config = .ok re ∧ f re = a := by
  cases hre : ofTree t config with
  | error e =>
    rw [hre] at h
    cases h
  | ok re =>
    rw [hre] at h
    exact ⟨re, rfl, Option.some.inj h⟩

theorem ofTree_total {t : Tree} (h : t.Unshared) {config : RegexConfig}
    (hstrict : config.compile.strictAnalysis = false) : ∃ re, ofTree t config = .ok re := by
  obtain ⟨body, hsound⟩ := h.sound
  obtain ⟨program, hprogram⟩ :=
    Program.compile_total hsound.arity (config.cultureOf t) config.compile hstrict
  exact ⟨_, ofTree_eq_ok.2 ⟨program, hprogram, rfl⟩⟩

/-- The regex works like `re₀` and keeps only what calls on it may have left. -/
structure Serves (re₀ re : Regex) : Prop where
  engine : re.engine = re₀.engine
  limit : re.limit = re₀.limit
  patience : re.patience = re₀.patience
  matcher : ∀ s ∈ re.matcher, s.captures.groups.size = re₀.groupCount
  template : ∀ c ∈ re.lastTemplate,
    c.template = Template.parse c.template.pattern re₀.groupCount re₀.names

/-- Each works like the regex that it was made as, and their clocks are related. -/
structure Paired (K : Clock → Clock → Prop) (re₀ re₀' re re' : Regex) : Prop where
  left : Serves re₀ re
  right : Serves re₀' re'
  clock : K re.clock re'.clock

/-- Both work like `re₀`, and their clocks stand alike. -/
abbrev Alike (re₀ re re' : Regex) : Prop := Paired Eq re₀ re₀ re re'

/-- The regexes differ only in how their scans are timed. From related clocks watches start related,
and they are then polled alike, until one of the first is seen to expire. -/
structure TimedAlike (A : Failure → Prop) (W : Watch → Watch → Prop) (K : Clock → Clock → Prop)
    (re₀ re₀' : Regex) : Prop where
  provided : re₀.engine.Provided
  engine : re₀'.engine = re₀.engine
  patience : re₀'.patience = re₀.patience
  start : ∀ w w' : Watch, K w.clock w'.clock → W (w.start re₀.limit) (w'.start re₀'.limit)
  polled : Watch.PolledAlike A W
  clock : ∀ w w' : Watch, W w w' → K w.clock w'.clock

/-- What the call answers does not depend on what the regex keeps, nor on how its scans are timed,
unless one is given up. -/
abbrev Tracks {α : Type} (A : Failure → Prop) (K : Clock → Clock → Prop) (re₀ re₀' : Regex)
    (x : RegexM α) : Prop :=
  Follows A (Paired K re₀ re₀') Eq x x

/-- What the call answers does not depend on what the regex keeps. -/
abbrev Steady {α : Type} (re₀ : Regex) (x : RegexM α) : Prop := Concurs (Alike re₀) Eq x x

variable {A : Failure → Prop} {W : Watch → Watch → Prop} {K : Clock → Clock → Prop}
  {re₀ re₀' re re' : Regex} {α : Type}

theorem timedAlike_self (hprovided : re₀.engine.Provided) :
    TimedAlike (fun _ => False) Eq Eq re₀ re₀ where
  provided := hprovided
  engine := rfl
  patience := rfl
  start w w' hclock := by cases hlimit : re₀.limit <;> simp only [Watch.start, Clock.read, hclock]
  polled := Watch.polledAlike_eq
  clock _ _ h := congrArg Watch.clock h

namespace Serves

theorem direction_eq (h : Serves re₀ re) : re.direction = re₀.direction := by
  rw [direction, direction, options, options, h.engine]

theorem names_eq (h : Serves re₀ re) : re.names = re₀.names := congrArg Engine.names h.engine

end Serves

namespace TimedAlike

variable (h : TimedAlike A W K re₀ re₀')

include h

theorem groupCount_eq : re₀'.groupCount = re₀.groupCount := congrArg Engine.groupCount h.engine

theorem names_eq : re₀'.names = re₀.names := congrArg Engine.names h.engine

theorem direction_eq (hpaired : Paired K re₀ re₀' re re') : re.direction = re'.direction := by
  rw [hpaired.left.direction_eq, hpaired.right.direction_eq, direction, direction, options, options,
    h.engine]

theorem wrap_eq (hpaired : Paired K re₀ re₀' re re') (text : Text) : re.wrap text = re'.wrap text := by
  funext spans
  rw [wrap, wrap, hpaired.left.names_eq, hpaired.right.names_eq, h.names_eq]

theorem patience_eq (hpaired : Paired K re₀ re₀' re re') : re.patience = re'.patience := by
  rw [hpaired.left.patience, hpaired.right.patience, h.patience]

end TimedAlike

theorem Serves.size_rent (h : Serves re₀ re) : re.rent.captures.groups.size = re₀.groupCount := by
  rw [rent]
  cases hmatcher : re.matcher with
  | none =>
    rw [groupCount, h.engine]
    exact Array.size_replicate
  | some s => exact h.matcher s hmatcher

theorem Serves.giveBack (h : Serves re₀ re) {s : ScanState}
    (hs : s.captures.groups.size = re₀.groupCount) : Serves re₀ (re.giveBack s) where
  engine := h.engine
  limit := h.limit
  patience := h.patience
  matcher := by
    rintro _ ⟨⟩
    exact hs
  template := h.template

/-- Whether a template is compiled anew or found again, it is the template of its pattern. -/
theorem Serves.compileTemplate (h : Serves re₀ re) (pattern : String) :
    ∃ c re₁, Regex.compileTemplate pattern re = .ok c re₁ ∧
      c.template = Template.parse pattern re₀.groupCount re₀.names ∧ Serves re₀ re₁ ∧
        re₁.clock = re.clock := by
  simp only [Regex.compileTemplate, bind, EStateM.bind, run_get]
  cases hkept : re.lastTemplate.filter (·.template.pattern == pattern) with
  | some c =>
    obtain ⟨hlast, hpattern⟩ := Option.filter_eq_some_iff.1 hkept
    have hparsed := h.template c hlast
    rw [beq_iff_eq.1 hpattern] at hparsed
    exact ⟨c, re, rfl, hparsed, h, rfl⟩
  | none =>
    have hcount : re.groupCount = re₀.groupCount := congrArg Engine.groupCount h.engine
    have hnames : re.names = re₀.names := h.names_eq
    refine ⟨_, _, rfl, by rw [hcount, hnames], ⟨h.engine, h.limit, h.patience, h.matcher, ?_⟩, rfl⟩
    rintro _ ⟨⟩
    rw [hcount, hnames]
    rfl

theorem tracks_lift (r : Except Fault α) : Tracks A K re₀ re₀' (lift r) := by
  intro s s' hs
  cases r with
  | ok a => exact .inr ⟨rfl, hs⟩
  | error f => exact .inr ⟨rfl, hs⟩

theorem tracks_fail (e : Error) : Tracks A K re₀ re₀' (fail e : RegexM α) := follows_throw _

theorem tracks_checkStart (text : Text) (start : Nat) :
    Tracks A K re₀ re₀' (checkStart text start) := by
  unfold checkStart
  split
  · exact tracks_fail _
  · split
    · exact tracks_fail _
    · exact follows_pure rfl

theorem tracks_checkCount (count : Int) : Tracks A K re₀ re₀' (checkCount count) := by
  unfold checkCount
  split
  · exact tracks_fail _
  · exact follows_pure rfl

theorem tracks_searchAt (text : Text) (start : Nat) : Tracks A K re₀ re₀' (searchAt text start) :=
  (tracks_checkStart text start).andThen fun _ => follows_pure rfl

theorem tracks_failIf {c : Prop} [Decidable c] (e : Error) {x : RegexM α}
    (h : Tracks A K re₀ re₀' x) :
    Tracks A K re₀ re₀' (if c then (fail e : RegexM PUnit) >>= fun _ => x else x) := by
  split
  · exact (tracks_fail e).andThen fun _ => h
  · exact h

section

variable (h : TimedAlike A W K re₀ re₀')

include h

theorem tracks_scan (text : Text) (textStart textPos : Nat) :
    Tracks A K re₀ re₀' (scan text textStart textPos) := by
  intro re re' hpaired
  have hsize : re'.rent.captures.groups.size = re₀.groupCount :=
    hpaired.right.size_rent.trans h.groupCount_eq
  have hscan := Engine.scan_prepare_alike h.provided h.polled text re₀.patience
    hpaired.left.size_rent hsize textStart textPos (h.start re.rent.watch re'.rent.watch hpaired.clock)
  simp only [scan, hpaired.left.engine, hpaired.right.engine, hpaired.left.patience,
    hpaired.right.patience, hpaired.left.limit, hpaired.right.limit, h.engine, h.patience]
  generalize re₀.engine.scan text re₀.patience (re.rent.prepare textStart textPos re₀.limit) = r
    at hscan
  generalize re₀.engine.scan text re₀.patience (re'.rent.prepare textStart textPos re₀'.limit) = r'
    at hscan
  obtain ⟨e, t, rfl, habort⟩ | hagree := hscan
  · exact .inl ⟨e, _, rfl, habort⟩
  -- The states that are given back differ as those that the scans left.
  have hgiven : ∀ t t', ScanState.AlikeUpTo W re₀.groupCount t t' →
      Paired K re₀ re₀' (re.giveBack t) (re'.giveBack t') := by
    rintro t _ ⟨hsize, choices, watch, hwatch, rfl⟩
    exact ⟨hpaired.left.giveBack hsize, hpaired.right.giveBack (hsize.trans h.groupCount_eq.symm),
      h.clock _ _ hwatch⟩
  obtain ⟨_, _, t, t', rfl, rfl, -, halike⟩ | ⟨e, t, t', rfl, rfl, halike⟩ := hagree.exists_ends
  · refine .inr ⟨?_, hgiven t t' halike⟩
    obtain ⟨-, choices, watch, -, rfl⟩ := halike
    rfl
  · exact .inr ⟨rfl, hgiven t t' halike⟩

theorem tracks_isMatch (text : Text) : Tracks A K re₀ re₀' (isMatch text) := by
  refine follows_get.bind fun re re' hpaired => ?_
  rw [h.direction_eq hpaired]
  exact (tracks_scan h _ _ _).andThen fun spans => follows_pure rfl

theorem tracks_findFrom (text : Text) (start : Nat) :
    Tracks A K re₀ re₀' (findFrom text start) := by
  refine (tracks_scan h _ _ _).andThen fun spans => follows_get.bind fun re re' hpaired => ?_
  rw [h.wrap_eq hpaired]
  exact follows_pure rfl

theorem tracks_find (text : Text) : Tracks A K re₀ re₀' (find text) := by
  refine follows_get.bind fun re re' hpaired => ?_
  rw [h.direction_eq hpaired]
  exact tracks_findFrom h _ _

theorem tracks_findAt (text : Text) (start : Nat) : Tracks A K re₀ re₀' (findAt text start) :=
  (tracks_checkStart text start).andThen fun _ => tracks_findFrom h _ _

/-- A scan that is given up ends the search, with its error as the item. -/
theorem next_alike (s : Search) (hpaired : Paired K re₀ re₀' re re') :
    (s.done = false ∧ ∃ e t, next s re = .ok (some (.error e), { s with done := true }) t ∧
        A (.error e)) ∨
      (∃ f t, next s re = .error f t ∧ A f) ∨
      Agree (Paired K re₀ re₀') Eq (next s re) (next s re') := by
  rw [next, next, h.direction_eq hpaired]
  cases s.done with
  | true => exact .inr (.inr ⟨rfl, hpaired⟩)
  | false =>
    simp only [Bool.false_eq_true, if_false]
    cases nextStart re'.direction s with
    | error f => exact .inr (.inr ⟨rfl, hpaired⟩)
    | ok start =>
      cases start with
      | none => exact .inr (.inr ⟨rfl, hpaired⟩)
      | some pos =>
        have hscan := tracks_scan h s.text s.textStart pos re re' hpaired
        simp only
        obtain ⟨e, t, hx, habort⟩ | hagree := hscan
        · rw [hx]
          cases e with
          | error e => exact .inl ⟨trivial, e, t, rfl, habort⟩
          | fault f => exact .inr (.inl ⟨_, t, rfl, habort⟩)
          | exhausted => exact .inr (.inl ⟨_, t, rfl, habort⟩)
        refine .inr (.inr ?_)
        obtain ⟨spans, _, t, t', hx, hy, rfl, ht⟩ | ⟨e, t, t', hx, hy, ht⟩ := hagree.exists_ends
        · rw [hx, hy]
          cases spans with
          | none => exact ⟨rfl, ht⟩
          | some spans =>
            refine ⟨?_, ht⟩
            rw [h.wrap_eq ht, h.direction_eq ht]
        · rw [hx, hy]
          cases e with
          | error e => exact ⟨rfl, ht⟩
          | fault f => exact ⟨rfl, ht⟩
          | exhausted => exact ⟨rfl, ht⟩

theorem tracks_foldMatches {σ : Type} (f : σ → Match → Except Fault σ) (fuel : Nat)
    (count : Option Nat) (s : Search) (acc : σ) :
    Tracks A K re₀ re₀' (foldMatches f fuel count s acc) := by
  induction fuel generalizing count s acc with
  | zero => exact follows_throw _
  | succ fuel ih =>
    intro re re' hpaired
    rw [foldMatches]
    rcases next_alike h s hpaired with ⟨-, e, t, hnext, habort⟩ | hnext
    · -- The error of a scan that was given up is the error of the whole.
      refine .inl ⟨.error e, t, ?_, habort⟩
      simp only [bind, EStateM.bind, hnext]
      rfl
    · refine follows_bind_at hnext fun r _ hr => ?_
      subst hr
      split
      · exact follows_pure rfl
      · exact tracks_fail _
      · refine (tracks_lift _).andThen fun acc => ?_
        dsimp only
        split
        · exact follows_pure rfl
        · exact ih _ _ _

theorem tracks_assemble (text : Text) (count : Int) (start : Nat)
    (replacement : Nat → Match → Except Fault (List String)) :
    Tracks A K re₀ re₀' (assemble text count start replacement) := by
  refine follows_get.bind fun re re' hpaired => ?_
  rw [h.direction_eq hpaired]
  refine (tracks_searchAt text start).andThen fun search =>
    follows_get.bind fun re re' hpaired => ?_
  rw [h.patience_eq hpaired]
  exact (tracks_foldMatches h _ _ _ _ _).andThen fun _ => tracks_lift _

theorem tracks_replaceLiteral (text : Text) (replacement : String) (count : Int) (start : Nat) :
    Tracks A K re₀ re₀' (replaceLiteral text replacement count start) := by
  refine (tracks_searchAt text start).andThen fun search =>
    follows_get.bind fun re re' hpaired => ?_
  rw [h.patience_eq hpaired]
  exact (tracks_foldMatches h _ _ _ _ _).andThen fun _ => tracks_lift _

theorem tracks_replaceTemplate (t : Template) (text : Text) (count : Int) (start : Nat) :
    Tracks A K re₀ re₀' (replaceTemplate t text count start) := by
  unfold replaceTemplate
  split
  · exact follows_pure rfl
  · refine follows_get.bind fun re re' hpaired => ?_
    rw [h.direction_eq hpaired]
    split
    · exact tracks_replaceLiteral h _ _ _ _
    · exact tracks_assemble h _ _ _ _

theorem follows_compileTemplate (pattern : String) :
    Follows A (Paired K re₀ re₀') (fun c c' => c.template = c'.template) (compileTemplate pattern)
      (compileTemplate pattern) := by
  intro re re' hpaired
  obtain ⟨c, re₁, hc, htemplate, hserves, hclock⟩ := hpaired.left.compileTemplate pattern
  obtain ⟨c', re₁', hc', htemplate', hserves', hclock'⟩ := hpaired.right.compileTemplate pattern
  rw [hc, hc']
  rw [h.groupCount_eq, h.names_eq] at htemplate'
  refine .inr ⟨htemplate.trans htemplate'.symm, hserves, hserves', ?_⟩
  rw [hclock, hclock']
  exact hpaired.clock

theorem tracks_replaceN (text : Text) (pattern : String) (count : Int) (start : Nat) :
    Tracks A K re₀ re₀' (replaceN text pattern count start) := by
  refine (tracks_checkCount count).andThen fun _ => (tracks_checkStart text start).andThen fun _ => ?_
  refine (follows_compileTemplate h pattern).bind fun c c' hc => ?_
  rw [hc]
  exact tracks_replaceTemplate h _ _ _ _

theorem tracks_replaceWithN (text : Text) (count : Int) (start : Nat) (evaluator : Evaluator) :
    Tracks A K re₀ re₀' (replaceWithN text count start evaluator) := by
  refine (tracks_checkCount count).andThen fun _ => (tracks_checkStart text start).andThen fun _ => ?_
  split
  · exact follows_pure rfl
  · exact tracks_assemble h _ _ _ _

theorem tracks_split (text : Text) (count : Int) (start : Nat) :
    Tracks A K re₀ re₀' (split text count start) := by
  unfold split
  refine tracks_failIf _ ((tracks_checkStart text start).andThen fun _ => ?_)
  by_cases hone : count = 1
  · rw [if_pos hone]
    exact follows_pure rfl
  rw [if_neg hone]
  refine follows_get.bind fun re re' hpaired => ?_
  rw [h.direction_eq hpaired]
  refine (tracks_searchAt text start).andThen fun search =>
    follows_get.bind fun re re' hpaired => ?_
  rw [h.patience_eq hpaired]
  refine (tracks_foldMatches h _ _ _ _ _).andThen fun a => ?_
  dsimp only
  split
  · exact follows_pure rfl
  · refine (tracks_lift _).andThen fun rest => ?_
    split
    · exact follows_pure rfl
    · exact follows_pure rfl

end

section

variable (hprovided : re₀.engine.Provided)

include hprovided

theorem steady_scan (text : Text) (textStart textPos : Nat) :
    Steady re₀ (scan text textStart textPos) :=
  tracks_scan (timedAlike_self hprovided) text textStart textPos

theorem steady_next (s : Search) : Steady re₀ (next s) := by
  intro re re' halike
  rcases next_alike (timedAlike_self hprovided) s halike with ⟨-, _, _, -, hfalse⟩ | hnext
  · exact hfalse.elim
  · exact hnext

theorem steady_nextTimes (n : Nat) (s : Search) : Steady re₀ (nextTimes n s) := by
  induction n generalizing s with
  | zero => exact follows_pure rfl
  | succ n ih =>
    rw [nextTimes]
    exact (steady_next hprovided s).andThen fun r => (ih r.2).andThen fun _ => follows_pure rfl

end

/-- A regex as the library makes it: from a tree, or for one of the direct matchers. Its time limit,
what its clock reads and the steps that it grants may be any. -/
inductive Created : Regex → Prop
  | ofTree {t : Tree} {config : RegexConfig} {re : Regex} (h : Regex.ofTree t config = .ok re) :
      Created re
  | date (limit : Option Duration) : Created (.ofEngine .date limit)
  | wordThenDigit (limit : Option Duration) : Created (.ofEngine .wordThenDigit limit)
  | quoted (limit : Option Duration) : Created (.ofEngine .quoted limit)
  | granted {re : Regex} (h : Created re) (limit : Option Duration) (clock : Clock)
      (patience : Nat) : Created { re with limit, clock, patience }

theorem Created.provided (h : re₀.Created) : re₀.engine.Provided := by
  induction h with
  | ofTree h =>
    obtain ⟨program, -, h⟩ := exists_of_bind h
    cases h
    trivial
  | date | wordThenDigit | quoted => trivial
  | granted h limit clock patience ih => exact ih

theorem Created.serves (h : re₀.Created) (clock : Clock) : Serves re₀ { re₀ with clock } := by
  have hkept : re₀.matcher = none ∧ re₀.lastTemplate = none := by
    induction h with
    | ofTree h =>
      obtain ⟨program, -, h⟩ := exists_of_bind h
      cases h
      exact ⟨rfl, rfl⟩
    | date | wordThenDigit | quoted => exact ⟨rfl, rfl⟩
    | granted h limit clock patience ih => exact ih
  refine ⟨rfl, rfl, rfl, fun s hs => ?_, fun c hc => ?_⟩
  · rw [hkept.1] at hs
    cases hs
  · rw [hkept.2] at hc
    cases hc

theorem serves_ofTree {t : Tree} {config : RegexConfig} (h : ofTree t config = .ok re₀)
    (patience : Nat) : Serves { re₀ with patience } { re₀ with patience } := by
  have hcreated : Created { re₀ with patience } :=
    .granted (.ofTree h) re₀.limit re₀.clock patience
  exact hcreated.serves re₀.clock

inductive Call where
  | isMatch (text : Text)
  | find (text : Text)
  | findAt (text : Text) (start : Nat)
  /-- The next item of a search, wherever the search stands. -/
  | next (s : Search)
  /-- The first items of a search. -/
  | iterate (text : Text) (start items : Nat)
  | replaceN (text : Text) (pattern : String) (count : Int) (start : Nat)
  | replaceWithN (text : Text) (count : Int) (start : Nat) (evaluator : Evaluator)
  | split (text : Text) (count : Int) (start : Nat)

namespace Call

abbrev Answer : Call → Type
  | isMatch _ => Bool
  | find _ | findAt _ _ => Option Match
  | next _ => Option (Except Error Match) × Search
  | iterate _ _ _ => List (Option (Except Error Match))
  | replaceN _ _ _ _ | replaceWithN _ _ _ _ => Replaced
  | split _ _ _ => List String

def perform : (c : Call) → RegexM c.Answer
  | isMatch text => Regex.isMatch text
  | find text => Regex.find text
  | findAt text start => Regex.findAt text start
  | next s => Regex.next s
  | iterate text start items => do Regex.nextTimes items (← Regex.searchAt text start)
  | replaceN text pattern count start => Regex.replaceN text pattern count start
  | replaceWithN text count start evaluator => Regex.replaceWithN text count start evaluator
  | split text count start => Regex.split text count start

/-- The calls that answer as a whole; the others go through a search item by item. -/
def Whole : Call → Prop
  | next _ | iterate _ _ _ => False
  | _ => True

theorem tracks (h : TimedAlike A W K re₀ re₀') (c : Call) (hwhole : c.Whole) :
    Tracks A K re₀ re₀' c.perform := by
  cases c with
  | isMatch text => exact tracks_isMatch h text
  | find text => exact tracks_find h text
  | findAt text start => exact tracks_findAt h text start
  | next s => exact hwhole.elim
  | iterate text start items => exact hwhole.elim
  | replaceN text pattern count start => exact tracks_replaceN h text pattern count start
  | replaceWithN text count start evaluator =>
    exact tracks_replaceWithN h text count start evaluator
  | split text count start => exact tracks_split h text count start

theorem steady (hprovided : re₀.engine.Provided) (c : Call) : Steady re₀ c.perform := by
  cases c with
  | next s => exact steady_next hprovided s
  | iterate text start items =>
    exact (tracks_searchAt text start).andThen fun s => steady_nextTimes hprovided items s
  | _ => exact tracks (timedAlike_self hprovided) _ trivial

end Call

/-- The regex after some calls, whatever they answered and however they failed. -/
def afterCalls (re : Regex) (calls : List Call) : Regex :=
  calls.foldl (fun re c => stateLeft (c.perform re)) re

theorem Serves.afterCalls (hprovided : re₀.engine.Provided) (calls : List Call) :
    ∀ {re : Regex}, Serves re₀ re → Serves re₀ (re.afterCalls calls) := by
  induction calls with
  | nil => exact fun h => h
  | cons c calls ih =>
    intro re h
    exact ih ((c.steady hprovided).answer_eq ⟨h, h, rfl⟩).2.left

/-- After any calls a call answers what it would answer on the regex as it was made, with the clock
where it now is, and reads the clock as often. A scan answers and publishes alike from any two states
that the matcher may be left in. -/
theorem Created.history_independent (h : re₀.Created) (calls : List Call) (c : Call) :
    let re := re₀.afterCalls calls
    let fresh := { re₀ with clock := re.clock }
    answer (c.perform re) = answer (c.perform fresh) ∧
      (stateLeft (c.perform re)).clock = (stateLeft (c.perform fresh)).clock ∧
      ∀ (text : Text) (textStart textPos : Nat) (s s' : ScanState),
        s.captures.groups.size = re₀.groupCount → s'.captures.groups.size = re₀.groupCount →
          s.watch.clock = s'.watch.clock →
            let r := re₀.engine.scan text re₀.patience (s.prepare textStart textPos re₀.limit)
            let r' := re₀.engine.scan text re₀.patience (s'.prepare textStart textPos re₀.limit)
            answer r = answer r' ∧
              (stateLeft r).captures.publish? = (stateLeft r').captures.publish? := by
  intro re fresh
  have hserves : Serves re₀ re := Serves.afterCalls h.provided calls (h.serves re₀.clock)
  obtain ⟨hanswer, halike⟩ := (c.steady h.provided).answer_eq
    (show Alike re₀ re fresh from ⟨hserves, h.serves re.clock, rfl⟩)
  refine ⟨hanswer, halike.clock, fun text textStart textPos s s' hs hs' hclock => ?_⟩
  obtain ⟨hscan, -, choices, hleft⟩ := Engine.scan_prepare h.provided text re₀.patience hs hs'
    hclock textStart textPos re₀.limit
  exact ⟨hscan, by rw [hleft]⟩

end Regex

/-- A regex of `(a)+?b+` finds in a text what it would find at first, after calls on other texts. -/
theorem find_lazyRun_after_calls : ∃ re : Regex,
    Regex.ofTree lazyRun { limit := some ⟨0⟩ } = .ok re ∧
      let re' := re.afterCalls [.isMatch (.ofString "aaaa"), .replaceN (.ofString "aab") "$1" (-1) 0]
      answer (Regex.find (.ofString "xab") re') =
        answer (Regex.find (.ofString "xab") { re with clock := re'.clock }) := by
  obtain ⟨body, hsound⟩ := unshared_lazyRun.sound
  let culture : Culture := if lazyRun.options.cultureInvariant then .invariant else .invariant
  obtain ⟨program, hprogram⟩ := Program.compile_total hsound.arity culture {} rfl
  let re : Regex := { engine := .interpreter program culture, limit := some ⟨0⟩ }
  have hre : Regex.ofTree lazyRun { limit := some ⟨0⟩ } = .ok re := by
    have hbind : Regex.ofTree lazyRun { limit := some ⟨0⟩ } = (Program.compile lazyRun culture {}).bind
        fun program => .ok { engine := .interpreter program culture, limit := some ⟨0⟩ } := rfl
    rw [hbind, hprogram]
    rfl
  have hcreated : re.Created := .ofTree hre
  exact ⟨re, hre, (hcreated.history_independent
    [.isMatch (.ofString "aaaa"), .replaceN (.ofString "aab") "$1" (-1) 0]
    (.find (.ofString "xab"))).1⟩

end RegexMachine
