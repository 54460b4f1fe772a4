import RegexMachine.Proofs.Regex.History

/-!
# Searches in lockstep

Two searches by one program go in lockstep when the program reads the same in both texts, at whatever
offset it looks. They give the same spans, step by step. When one of them is granted fewer steps it may
be given up before the other ends, and that is all that comes of it: patience decides whether a call is
answered, never what the answer is.
-/

namespace RegexMachine

/-- Given up for want of steps, of which there were fewer here than there. -/
def OutOfSteps (steps steps' : Nat) (f : Failure) : Prop := f = .exhausted ∧ steps < steps'

/-- The program reads the same in both texts. -/
structure Program.ReadsAlike (program : Program) (culture : Culture) (t t' : Text) : Prop where
  size : t.size = t'.size
  isBoundary : ∀ pos, t.isBoundary pos = t'.isBoundary pos
  bump : ∀ pos, t.bump program.direction pos = t'.bump program.direction pos
  find : ∀ pos textStart,
    program.filter.find culture t pos textStart = program.filter.find culture t' pos textStart
  execute : ∀ (textStart : Nat) (m : Machine), ∀ i ∈ program.instructions,
    m.execute { program, culture, text := t, textStart } i =
      m.execute { program, culture, text := t', textStart } i

namespace Program.ReadsAlike

variable {program : Program} {culture : Culture} {t t' : Text}

theorem refl (program : Program) (culture : Culture) (t : Text) : program.ReadsAlike culture t t where
  size := rfl
  isBoundary _ := rfl
  bump _ := rfl
  find _ _ := rfl
  execute _ _ _ _ := rfl

theorem border (h : program.ReadsAlike culture t t') (d : Direction) : t.border d = t'.border d := by
  cases d with
  | forward => exact h.size
  | backward => rfl

end Program.ReadsAlike

section

variable {program : Program} {culture : Culture} {t t' : Text}
  (h : program.ReadsAlike culture t t') {steps steps' : Nat} (hsteps : steps ≤ steps')

include h hsteps

theorem Program.ReadsAlike.run (textStart : Nat) (m : Machine) (w : Watch) :
    let r := Machine.run { program, culture, text := t, textStart } steps m w
    (∃ f, r.result = .error f ∧ OutOfSteps steps steps' f) ∨
      r = Machine.run { program, culture, text := t', textStart } steps' m w := by
  induction steps generalizing steps' m w with
  | zero =>
    cases steps' with
    | zero => exact .inr rfl
    | succ steps' => exact .inl ⟨_, rfl, rfl, Nat.succ_pos steps'⟩
  | succ steps ih =>
    obtain ⟨steps', rfl⟩ := Nat.exists_eq_add_one_of_ne_zero (show steps' ≠ 0 by omega)
    have ih : ∀ (m : Machine) (w : Watch), (∃ f,
        (Machine.run { program, culture, text := t, textStart } steps m w).result = .error f ∧
          OutOfSteps (steps + 1) (steps' + 1) f) ∨
        Machine.run { program, culture, text := t, textStart } steps m w =
          Machine.run { program, culture, text := t', textStart } steps' m w := fun m w =>
      (ih (Nat.le_of_succ_le_succ hsteps) m w).imp_left fun ⟨f, hresult, hf, hlt⟩ =>
        ⟨f, hresult, hf, Nat.succ_lt_succ hlt⟩
    simp only [Machine.run]
    -- Polls and execution are the same on both sides; what follows them is a run with fewer steps.
    cases w.poll with
    | mk w expired =>
      cases expired with
      | true => exact .inr rfl
      | false =>
        dsimp only
        cases hi : program.instructions[m.address]? with
        | none => exact .inr rfl
        | some i =>
          dsimp only
          rw [h.execute textStart m i (Array.mem_of_getElem? hi)]
          cases m.execute { program, culture, text := t', textStart } i with
          | error f => exact .inr rfl
          | ok move =>
            cases move with
            | next m => exact ih _ w
            | jump address m => exact ih _ w
            | stop m => exact .inr rfl
            | backtrack m =>
              dsimp only
              cases w.poll with
              | mk w expired =>
                cases expired with
                | true => exact .inr rfl
                | false =>
                  dsimp only
                  cases m.choices.pop? with
                  | none => exact .inr rfl
                  | some popped => exact ih _ w

theorem Program.ReadsAlike.attempt :
    Follows (OutOfSteps steps steps') Eq Eq (Machine.attempt program culture steps t)
      (Machine.attempt program culture steps' t') := by
  rintro s _ rfl
  simp only [Machine.attempt]
  obtain ⟨f, hresult, hf⟩ | hrun := h.run hsteps s.textStart (Machine.start s) s.watch
  · rw [hresult]
    exact .inl ⟨f, _, rfl, hf⟩
  · rw [hrun]
    generalize Machine.run { program, culture, text := t', textStart := s.textStart } steps'
      (Machine.start s) s.watch = r
    cases r.result with
    | error f => exact .inr ⟨rfl, rfl⟩
    | ok found => cases found <;> exact .inr ⟨rfl, rfl⟩

end

section

variable {A : Failure → Prop} {P Q : Phases} {t t' : Text}
  (hattempt : Follows A Eq Eq (P.attempt t) (Q.attempt t'))

include hattempt

theorem Phases.follows_tryCandidate :
    Follows A Eq Eq (P.tryCandidate t) (Q.tryCandidate t') := by
  refine (follows_self _).andThen fun _ => (follows_self _).andThen fun s =>
    (follows_self _).andThen fun _ => hattempt.andThen fun found => ?_
  cases found <;> exact follows_self _

/-- Scans whose attempts are in lockstep, and that move alike, are in lockstep. -/
theorem Phases.follows_scan (hfind : P.findNext t = Q.findNext t')
    (hborder : t.border P.direction = t'.border Q.direction)
    (hbump : t.bump P.direction = t'.bump Q.direction) {steps steps' : Nat}
    (hsteps : steps ≤ steps') (hgiven : steps < steps' → A .exhausted) :
    Follows A Eq Eq (P.scan t steps) (Q.scan t' steps') := by
  induction steps generalizing steps' with
  | zero =>
    cases steps' with
    | zero => exact follows_self _
    | succ steps' => exact fun s _ _ => .inl ⟨.exhausted, s, rfl, hgiven (Nat.succ_pos steps')⟩
  | succ steps ih =>
    obtain ⟨steps', rfl⟩ := Nat.exists_eq_add_one_of_ne_zero (show steps' ≠ 0 by omega)
    have ih := ih (Nat.le_of_succ_le_succ hsteps) fun hlt => hgiven (Nat.succ_lt_succ hlt)
    rw [scan, scan, hfind, hborder, hbump]
    refine (follows_self _).andThen fun candidate => ?_
    have hmove : Follows A Eq Eq (do
        let pos := (← get).textPos
        if pos = t'.border Q.direction then
          return
        Scan.moveTo (← Scan.lift (t'.bump Q.direction pos))
        P.scan t steps) (do
        let pos := (← get).textPos
        if pos = t'.border Q.direction then
          return
        Scan.moveTo (← Scan.lift (t'.bump Q.direction pos))
        Q.scan t' steps') := by
      refine (follows_self _).andThen fun s => ?_
      dsimp only
      split
      · exact follows_self _
      · exact (follows_self _).andThen fun next => (follows_self _).andThen fun _ => ih
    cases candidate with
    | false => exact hmove
    | true =>
      refine (Phases.follows_tryCandidate hattempt).andThen fun found => ?_
      cases found with
      | false => exact hmove
      | true => exact follows_self _

end

theorem Program.ReadsAlike.findNext {program : Program} {culture : Culture} {t t' : Text}
    (h : program.ReadsAlike culture t t') :
    Interpreter.findNext program culture t = Interpreter.findNext program culture t' := by
  unfold Interpreter.findNext
  simp only [h.find, h.border]

theorem Program.ReadsAlike.scan {program : Program} {culture : Culture} {t t' : Text}
    (h : program.ReadsAlike culture t t') {steps steps' : Nat} (hsteps : steps ≤ steps') :
    Follows (OutOfSteps steps steps') Eq Eq ((Engine.interpreter program culture).scan t steps)
      ((Engine.interpreter program culture).scan t' steps') :=
  Phases.follows_scan (P := Interpreter.phases program culture steps)
    (Q := Interpreter.phases program culture steps') (h.attempt hsteps) h.findNext (h.border _)
    (funext h.bump) hsteps fun hlt => ⟨rfl, hlt⟩

/-- The match with its spans in another text. -/
def Match.onto (t : Text) (m : Match) : Match := { m with text := t }

/-- The search in another text. -/
def Search.onto (t : Text) (s : Search) : Search := { s with text := t }

/-- An item of a search, with its spans in another text. -/
def Search.itemOnto (t : Text) : Option (Except Error Match) → Option (Except Error Match) :=
  Option.map (Except.map (Match.onto t))

namespace Regex

/-- Both regexes interpret the program, and they are alike but for the steps that they grant. -/
structure InStep (program : Program) (culture : Culture) (steps steps' : Nat) (re re' : Regex) :
    Prop where
  engine : re.engine = .interpreter program culture
  patience : re.patience = steps
  eq : re' = { re with patience := steps' }

variable {program : Program} {culture : Culture} {t t' : Text} {steps steps' : Nat} {re re' : Regex}

theorem InStep.direction_eq (h : InStep program culture steps steps' re re') :
    re.direction = program.direction := by
  rw [direction, options, h.engine]
  rfl

theorem checkStart_onto (h : program.ReadsAlike culture t t') (start : Nat) :
    checkStart t start = checkStart t' start := by
  rw [checkStart, checkStart, h.size, h.isBoundary]

theorem nextStart_onto (h : program.ReadsAlike culture t t') {s : Search} (hs : s.text = t) :
    nextStart program.direction s = nextStart program.direction (s.onto t') := by
  subst hs
  simp only [nextStart, Search.onto, h.border, h.bump]
  rfl

theorem scan_of_engine {e : Engine} (hengine : re.engine = e) {textStart textPos : Nat} :
    scan t textStart textPos re =
      match e.scan t re.patience (re.rent.prepare textStart textPos re.limit) with
      | .ok () s => .ok s.captures.publish? (re.giveBack s)
      | .error f s => .error f (re.giveBack s) := by
  rw [← hengine]
  rfl

section

variable (h : program.ReadsAlike culture t t') (hsteps : steps ≤ steps')

include h hsteps

theorem follows_scan (textStart textPos : Nat) :
    Follows (OutOfSteps steps steps') (InStep program culture steps steps') Eq
      (scan t textStart textPos) (scan t' textStart textPos) := by
  rintro re _ ⟨hengine, rfl, rfl⟩
  let re' : Regex := { re with patience := steps' }
  have hleft : scan t textStart textPos re = _ := scan_of_engine hengine
  have hengine' : re'.engine = .interpreter program culture := hengine
  have hright : scan t' textStart textPos re' = _ := scan_of_engine hengine'
  rw [hleft, hright]
  have hscan := h.scan hsteps (re.rent.prepare textStart textPos re.limit) _ rfl
  have hrent : re'.rent.prepare textStart textPos re'.limit =
      re.rent.prepare textStart textPos re.limit := rfl
  have hpatience : re'.patience = steps' := rfl
  rw [hrent, hpatience]
  obtain ⟨f, s, hx, hf⟩ | hagree := hscan
  · rw [hx]
    exact .inl ⟨f, _, rfl, hf⟩
  obtain ⟨_, _, s, _, hx, hy, -, rfl⟩ | ⟨f, s, _, hx, hy, rfl⟩ := hagree.exists_ends
  · rw [hx, hy]
    exact .inr ⟨rfl, hengine, rfl, rfl⟩
  · rw [hx, hy]
    exact .inr ⟨rfl, hengine, rfl, rfl⟩

omit hsteps in
theorem follows_checkStart (start : Nat) :
    Follows (OutOfSteps steps steps') (InStep program culture steps steps') Eq
      (checkStart t start) (checkStart t' start) := by
  rw [checkStart_onto h]
  unfold checkStart
  split
  · exact follows_throw _
  · split
    · exact follows_throw _
    · exact follows_pure rfl

theorem follows_findAt (start : Nat) :
    Follows (OutOfSteps steps steps') (InStep program culture steps steps')
      (fun found found' => found' = found.map (Match.onto t') ∧ ∀ m ∈ found, m.text = t)
      (findAt t start) (findAt t' start) := by
  refine (follows_checkStart h start).andThen fun _ => (follows_scan h hsteps start start).andThen
    fun spans => follows_get.bind fun re re' hre => follows_pure ?_
  obtain ⟨-, -, rfl⟩ := hre
  cases spans with
  | none => exact ⟨rfl, fun m hm => (by cases hm)⟩
  | some spans =>
    refine ⟨rfl, ?_⟩
    rintro m ⟨⟩
    rfl

/-- The next items of searches in lockstep have the same spans. -/
theorem follows_next (s : Search) (hs : s.text = t) :
    Follows (OutOfSteps steps steps') (InStep program culture steps steps')
      (fun r r' => r' = (Search.itemOnto t' r.1, r.2.onto t') ∧ r.2.text = t ∧
        ∀ m, r.1 = some (.ok m) → m.text = t) (next s) (next (s.onto t')) := by
  intro re re' hre
  have hdirection : re'.direction = re.direction := by
    rw [hre.eq]
    rfl
  have hdone : (s.onto t').done = s.done := rfl
  have hnone : ∀ m : Match, none = some (Except.ok m : Except Error Match) → m.text = t :=
    fun m hm => by cases hm
  rw [next, next, hdirection, hdone, hre.direction_eq, ← nextStart_onto h hs]
  cases s.done with
  | true => exact .inr ⟨⟨rfl, hs, hnone⟩, hre⟩
  | false =>
    simp only [Bool.false_eq_true, if_false]
    cases nextStart program.direction s with
    | error f => exact .inr ⟨rfl, hre⟩
    | ok start =>
      cases start with
      | none => exact .inr ⟨⟨rfl, hs, hnone⟩, hre⟩
      | some pos =>
        have hscan := follows_scan h hsteps s.textStart pos re re' hre
        have htext : (s.onto t').text = t' := rfl
        have hstart : (s.onto t').textStart = s.textStart := rfl
        simp only [hs, htext, hstart]
        obtain ⟨_, re₁, hx, rfl, hlt⟩ | hagree := hscan
        · rw [hx]
          exact .inl ⟨.exhausted, re₁, rfl, rfl, hlt⟩
        obtain ⟨spans, _, re₁, re₁', hx, hy, rfl, hre₁⟩ | ⟨f, re₁, re₁', hx, hy, hre₁⟩ :=
          hagree.exists_ends
        · rw [hx, hy]
          cases spans with
          | none => exact .inr ⟨⟨rfl, rfl, hnone⟩, hre₁⟩
          | some spans =>
            obtain rfl := hre₁.eq
            refine .inr ⟨⟨rfl, hs, ?_⟩, hre₁⟩
            rintro m ⟨⟩
            rfl
        · rw [hx, hy]
          cases f with
          | error e =>
            refine .inr ⟨⟨rfl, rfl, ?_⟩, hre₁⟩
            rintro m ⟨⟩
          | fault f => exact .inr ⟨rfl, hre₁⟩
          | exhausted => exact .inr ⟨rfl, hre₁⟩

theorem follows_nextTimes (n : Nat) (s : Search) (hs : s.text = t) :
    Follows (OutOfSteps steps steps') (InStep program culture steps steps')
      (fun items items' => items' = items.map (Search.itemOnto t') ∧
        ∀ m, some (.ok m) ∈ items → m.text = t) (nextTimes n s) (nextTimes n (s.onto t')) := by
  induction n generalizing s with
  | zero => exact follows_pure ⟨rfl, fun m hm => (by cases hm)⟩
  | succ n ih =>
    refine (follows_next h hsteps s hs).bind fun r r' hr => ?_
    obtain ⟨rfl, hs', hfirst⟩ := hr
    refine (ih r.2 hs').bind fun items items' hitems => follows_pure ⟨?_, fun m hm => ?_⟩
    · rw [hitems.1]
      rfl
    · rcases List.mem_cons.1 hm with hm | hm
      · exact hfirst m hm.symm
      · exact hitems.2 m hm

theorem follows_iterate (start n : Nat) :
    Follows (OutOfSteps steps steps') (InStep program culture steps steps')
      (fun items items' => items' = items.map (Search.itemOnto t') ∧
        ∀ m, some (.ok m) ∈ items → m.text = t)
      (Call.iterate t start n).perform (Call.iterate t' start n).perform := by
  have hsearch : Follows (OutOfSteps steps steps') (InStep program culture steps steps')
      (fun s s' => s' = s.onto t' ∧ s.text = t) (searchAt t start) (searchAt t' start) :=
    (follows_checkStart h start).andThen fun _ => follows_pure ⟨rfl, rfl⟩
  refine hsearch.bind fun s s' hs => ?_
  obtain ⟨rfl, htext⟩ := hs
  exact follows_nextTimes h hsteps n s htext

end

section

variable {α : Type} {x : RegexM α} {re₀ : Regex} {enough : Nat} {a : α}

/-- A call that is answered when enough steps are granted is answered so, or it is given up because
fewer were granted. -/
theorem answer_or_outOfSteps (hengine : re₀.engine = .interpreter program culture)
    (hfollows : ∀ steps ≤ enough,
      Follows (OutOfSteps steps enough) (InStep program culture steps enough) Eq x x)
    (henough : ∀ patience, enough ≤ patience → ∀ re, Serves { re₀ with patience } re →
      answer (x re) = .ok a) (patience : Nat) (re : Regex) (hre : Serves { re₀ with patience } re) :
    answer (x re) = .ok a ∨ patience < enough ∧ answer (x re) = .error .exhausted := by
  rcases Nat.lt_or_ge patience enough with hlt | hle
  · have hmore : Serves { re₀ with patience := enough } { re with patience := enough } :=
      ⟨hre.engine, hre.limit, rfl, hre.matcher, hre.template⟩
    have hstep : InStep program culture patience enough re { re with patience := enough } :=
      ⟨hre.engine.trans hengine, hre.patience, rfl⟩
    obtain ⟨_, hanswer, rfl, -⟩ | hsame :=
      (hfollows patience (Nat.le_of_lt hlt)).answer_eq_or hstep
    · exact .inr ⟨hlt, hanswer⟩
    · exact .inl (hsame.trans (henough enough (Nat.le_refl _) _ hmore))
  · exact .inl (henough patience hle re hre)

theorem follows_findAt_self (t : Text) (start : Nat) (hsteps : steps ≤ steps') :
    Follows (OutOfSteps steps steps') (InStep program culture steps steps') Eq (findAt t start)
      (findAt t start) := by
  refine (follows_findAt (.refl program culture t) hsteps start).imp fun found found' hfound => ?_
  obtain ⟨rfl, htext⟩ := hfound
  cases found with
  | none => rfl
  | some m =>
    obtain rfl := htext m rfl
    rfl

theorem follows_iterate_self (t : Text) (start n : Nat) (hsteps : steps ≤ steps') :
    Follows (OutOfSteps steps steps') (InStep program culture steps steps') Eq
      (Call.iterate t start n).perform (Call.iterate t start n).perform := by
  refine (follows_iterate (.refl program culture t) hsteps start n).imp fun items items' hitems => ?_
  obtain ⟨rfl, htext⟩ := hitems
  have hself : ∀ item ∈ items, Search.itemOnto t item = item := by
    rintro (_ | _ | m) hmem
    · rfl
    · rfl
    · obtain rfl := htext m hmem
      rfl
  exact (List.map_congr_left hself).trans (List.map_id _) |>.symm

end

/-- On two texts that the program reads alike a search gives items with the same spans, or it fails
alike. -/
theorem answer_iterate_onto (h : program.ReadsAlike culture t t')
    (hengine : re.engine = .interpreter program culture) (start n : Nat) :
    answer ((Call.iterate t' start n).perform re) =
      (answer ((Call.iterate t start n).perform re)).map (List.map (Search.itemOnto t')) := by
  have hstep : InStep program culture re.patience re.patience re re := ⟨hengine, rfl, rfl⟩
  obtain ⟨_, _, _, _, hlt⟩ | hagree := follows_iterate h (Nat.le_refl _) start n re re hstep
  · exact absurd hlt (Nat.lt_irrefl _)
  obtain ⟨items, _, _, _, hx, hy, ⟨rfl, -⟩, -⟩ | ⟨f, _, _, hx, hy, -⟩ := hagree.exists_ends
  · rw [hx, hy]
    rfl
  · rw [hx, hy]
    rfl

end Regex

end RegexMachine
