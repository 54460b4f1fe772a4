import RegexMachine.Proofs.Direct.Imitation

/-!
# The matcher of a word that ends in a digit agrees with its pattern

A greedy run of word characters gives characters back until a digit follows. The matcher tries the
same ends in the same order, and takes the capture of an end back when no digit follows it.
-/

namespace RegexMachine

open Machine Matcher

namespace WordThenDigitMatcher

/-- The pattern `(\w+)(\d)`. -/
def tree : Tree :=
  Tree.build {} do
    let character ← Builder.set .word
    let word ← Builder.plus character
    let word ← Builder.capture 1 word
    let digit ← Builder.set .digit
    let digit ← Builder.capture 2 digit
    Builder.concat [word, digit]

theorem root_tree : tree.root = .node 6 {} (.capture (some 0) none) [.node 5 {} .concat [
    .node 2 {} (.capture (some 1) none) [.node 1 {} (.charLoop (.set .word) 1 unbounded false) []],
    .node 4 {} (.capture (some 2) none) [.node 3 {} (.char (.set .digit)) []]]] := by
  have hfinish : tree = Builder.finish 5 {
      options := {}
      entries := #[⟨.char (.set .word), [], {}⟩, ⟨.charLoop (.set .word) 1 unbounded false, [], {}⟩,
        ⟨.capture (some 1) none, [1], {}⟩, ⟨.char (.set .digit), [], {}⟩,
        ⟨.capture (some 2) none, [3], {}⟩, ⟨.concat, [2, 4], {}⟩]
      maxGroup := 2 } := rfl
  rw [hfinish]
  simp [Builder.finish, Builder.push, Builder.nodes, Builder.addNode]

theorem linear_tree : tree.Linear := by
  have hcharacter : Builder.Unshared {} _ [0] := .call .start (.atom (.set .word)) trivial (.refl _)
  have hrun : Builder.Unshared {} _ [1] :=
    hcharacter.call (.quantify 0 1 unbounded false) ⟨by decide, Nat.le_refl _⟩ (.refl _)
  have hword : Builder.Unshared {} _ [2] := hrun.call (.capture 1 1) Nat.one_pos (.refl _)
  have hdigit : Builder.Unshared {} _ [3, 2] := hword.call (.atom (.set .digit)) trivial (.refl _)
  have hlast : Builder.Unshared {} _ [4, 2] := hdigit.call (.capture 2 3) Nat.two_pos (.refl _)
  have hconcat : Builder.Unshared {} _ [5] := hlast.call (.concat [2, 4]) trivial (.swap ..)
  exact ⟨_, _, _, 5, hconcat, List.mem_singleton_self 5, rfl⟩

theorem plain_tree (culture : Culture) : tree.Plain culture := by
  refine linear_tree.unshared.plain_of_simple ?_ culture
  rw [root_tree]
  decide

/-- What a match comes to when the word ends at a place and a digit follows. -/
def outcome (p wordEnd : Place) : Option MatchState :=
  (exactly .forward Character.isDigit 1 wordEnd).map fun stop =>
    let word := Captures.leftBy (fun _ => []) 1 p.offset wordEnd.offset
    let digit := Captures.leftBy word 2 wordEnd.offset stop.offset
    { place := stop, captured := Captures.leftBy digit 0 p.offset stop.offset }

theorem matcher_word (σ : Setting) (s : MatchState) :
    (Node.node 2 {} (.capture (some 1) none)
      [.node 1 {} (.charLoop (.set .word) 1 unbounded false) []]).matcher Reading.plain σ s =
        (runEnds .forward Character.isWord s.place).map fun q =>
          { place := q, captured := Captures.leftBy s.captured 1 s.place.offset q.offset } := by
  rw [Node.matcher_node, List.map_singleton, Node.matcher_node]
  show (Matcher.charLoop .forward (passes σ.culture false (.set .word)) 1 none false false s).filterMap
    _ = _
  rw [passes_word, Matcher.charLoop, runEnds]
  cases exactly .forward Character.isWord 1 s.place with
  | none => rfl
  | some q =>
    show ((stops _ _ _ q).reverse.map s.moveTo).filterMap _ = _
    rw [List.filterMap_map, ← List.filterMap_eq_map]
    rfl

theorem matcher_digit (σ : Setting) (s : MatchState) :
    (Node.node 4 {} (.capture (some 2) none)
      [.node 3 {} (.char (.set .digit)) []]).matcher Reading.plain σ s =
        ((exactly .forward Character.isDigit 1 s.place).map fun q =>
          { place := q, captured := Captures.leftBy s.captured 2 s.place.offset q.offset :
              MatchState }).toList := by
  rw [Node.matcher_node, List.map_singleton, Node.matcher_node]
  show (goTo s (exactly .forward (passes σ.culture false (.set .digit)) 1 s.place)).filterMap _ = _
  rw [passes_digit]
  cases exactly .forward Character.isDigit 1 s.place <;> rfl

theorem outcomes_tree (σ : Setting) (p : Place) : tree.root.matcher Reading.plain σ p.start =
    (runEnds .forward Character.isWord p).filterMap (outcome p) := by
  rw [root_tree, Node.matcher_node, List.map_singleton, Node.matcher_node]
  show (Matcher.sequence [_, _] p.start).filterMap _ = _
  simp only [Matcher.sequence, matcher_word, matcher_digit]
  refine MatchState.filterMap_flatMap_map (fun e => ?_) _
  dsimp only [outcome]
  cases exactly .forward Character.isDigit 1 e <;> rfl

variable {text : Text} {p : Place}

/-- What is pushed are the ends of the word, the furthest on top. -/
theorem pushWordEnds_offset (n : Nat) (hp : p.In text) (values : Stack Int) : ∃ values',
    pushWordEnds text n p.offset values = .ok values' ∧ values'.items =
      (stops .forward Character.isWord n p).tail.reverse.map (fun q => (q.offset : Int)) ++
        values.items := by
  induction n generalizing p values with
  | zero => exact ⟨values, rfl, rfl⟩
  | succ n ih =>
    rw [pushWordEnds, Direct.charAt_offset _ hp, stops]
    cases hread : p.read .forward with
    | none => exact ⟨values, rfl, rfl⟩
    | some r =>
      obtain ⟨c, q⟩ := r
      by_cases htest : Character.isWord c
      · obtain ⟨values', hpush, hitems⟩ := ih (hp.of_read hread) (values.push q.offset)
        simp only [Option.bind_some, htest, if_true]
        refine ⟨values', hpush, ?_⟩
        rw [hitems, List.tail_cons, stops_eq_cons .forward Character.isWord n q]
        simp
      · simp only [Option.bind_some, htest, Bool.false_eq_true, if_false]
        exact ⟨values, rfl, rfl⟩

theorem tail_stops_eq_runEnds (hp : p.In text) :
    (stops .forward Character.isWord (text.size - p.offset + 1) p).tail.reverse =
      runEnds .forward Character.isWord p := by
  rw [stops, runEnds]
  cases hread : p.read .forward with
  | none => simp [exactly, hread]
  | some r =>
    obtain ⟨c, q⟩ := r
    have hahead := Place.ahead_of_read hread
    have hbytes := Place.ahead_le_bytes hp
    have hbound : q.ahead .forward ≤ text.size - p.offset := by omega
    by_cases htest : Character.isWord c
    · simp only [exactly, hread, htest, if_true, List.tail_cons, stops_of_ahead_le _ _ hbound]
    · simp [exactly, hread, htest]

/-- Trying the ends, the furthest first, reaches the first outcome among them. -/
theorem tryEnds_reaches {es : List Place} (hin : ∀ e ∈ es, e.In text) {below : Stack Int} {n : Nat}
    (hn : es.length < n) {s : ScanState}
    (hvalues : s.values.items = es.map (fun q => (q.offset : Int)) ++ below.items)
    (hholds : s.Holds 3 fun _ => []) (huntimed : s.watch.deadline = none) :
    ReachesFirst (es.filterMap (outcome p)) s (tryEnds text p.offset below.depth n s) := by
  induction es generalizing n s with
  | nil =>
    obtain ⟨n, rfl⟩ := Nat.exists_eq_add_one_of_ne_zero (Nat.ne_of_gt hn)
    have hdepth : s.values.depth = below.depth := by
      rw [s.values.depth_eq, hvalues, below.depth_eq]
      rfl
    refine ⟨s, ?_, rfl, rfl, rfl, fun o ho => (by cases ho)⟩
    simp only [tryEnds, bind, EStateM.bind, run_get, hdepth, if_true]
    cases s.values.top? <;> rfl
  | cons e es ih =>
    obtain ⟨n, rfl⟩ := Nat.exists_eq_add_one_of_ne_zero (show n ≠ 0 by omega)
    have htop : s.values.top? = some (e.offset : Int) := by
      rw [Stack.top?, hvalues]
      rfl
    have hdepth : s.values.depth ≠ below.depth := by
      rw [s.values.depth_eq, hvalues, below.depth_eq]
      simp
      omega
    have hone : 1 < 3 := by decide
    have htwo : 2 < 3 := by decide
    have hzero : 0 < 3 := by decide
    have he : e.In text := hin e List.mem_cons_self
    obtain ⟨s₁, hword, hbeside₁, hholds₁⟩ := hholds.capture hone p.offset e.offset
    rw [List.filterMap_cons, outcome]
    simp only [tryEnds, bind, EStateM.bind, run_get, htop, if_neg hdepth,
      Scan.poll_of_deadline_none huntimed, positionOf_natCast, hword]
    cases hdigit : exactly .forward Character.isDigit 1 e with
    | some stop =>
      obtain ⟨c, hchar⟩ := Direct.charAt_eq_some he hdigit
      obtain ⟨s₂, hlast, hbeside₂, hholds₂⟩ := hholds₁.capture htwo e.offset stop.offset
      obtain ⟨s₃, hwhole, hbeside₃, hholds₃⟩ := hholds₂.capture hzero p.offset stop.offset
      have hbeside := (hbeside₁.trans hbeside₂).trans hbeside₃
      rw [← hholds.size] at hholds₃
      have hends : { s₃ with values := s₃.values.truncate below.depth, textPos := stop.offset }.Holds
          _ _ := ⟨hholds₃.proper, hholds₃.left, hholds₃.size⟩
      refine .of_holds rfl hends rfl hbeside.textStart hbeside.watch ?_
      simp only [Scan.lift, hchar, EStateM.bind, hlast, hwhole]
      rfl
    | none =>
      have hchar := Direct.charAt_eq_none he hdigit
      have hundo := Scan.undoUntil_capture hword
      have htail : s.values.tail.items = es.map (fun q => (q.offset : Int)) ++ below.items := by
        rw [Stack.items_tail, hvalues]
        rfl
      have hheld : { s with values := s.values.tail }.Holds 3 fun _ => [] :=
        ⟨hholds.proper, hholds.left, hholds.size⟩
      have hrest := ih (fun x hx => hin x (List.mem_cons_of_mem _ hx)) (Nat.lt_of_succ_lt_succ hn)
        htail hheld huntimed
      simp only [Scan.lift, hchar, EStateM.bind, hundo]
      exact hrest

theorem in_of_runEnds (hp : p.In text) {test : Char → Bool} {q : Place}
    (hq : q ∈ runEnds .forward test p) : q.In text := by
  rw [runEnds] at hq
  split at hq
  · next x hx =>
    exact place_of_stops (fun _ _ _ (hp : Place.In _ text) hread => hp.of_read hread)
      (in_of_exactly hp hx) (List.mem_reverse.1 hq)
  · cases hq

/-- An attempt tries all ends of the word at its place. -/
theorem attempt_reaches (hp : p.In text) {s : ScanState} (hpos : s.textPos = p.offset)
    (hgroups : s.captures.groups.size = tree.groupCount) (huntimed : s.watch.deadline = none)
    (σ : Setting) :
    ReachesFirst (tree.root.matcher Reading.plain σ p.start) s (attempt text s.resetAttempt) := by
  have hreset : s.resetAttempt.textPos = p.offset := hpos
  have hcount : s.captures.groups.size = 3 := hgroups
  have hholds := s.holds_resetAttempt
  rw [hcount] at hholds
  obtain ⟨values, hpush, hitems⟩ :=
    pushWordEnds_offset (text.size - p.offset + 1) hp s.resetAttempt.values
  rw [tail_stops_eq_runEnds hp] at hitems
  have hdepth : (runEnds .forward Character.isWord p).length < values.depth + 1 := by
    rw [values.depth_eq, hitems, List.length_append, List.length_map]
    omega
  have hheld : { s.resetAttempt with values }.Holds 3 fun _ => [] :=
    ⟨hholds.proper, hholds.left, hholds.size⟩
  obtain ⟨s', htry, hstart, hwatch, hsize, hends⟩ :=
    tryEnds_reaches (fun e he => in_of_runEnds hp he) hdepth hitems hheld huntimed
  have hreached : { s.resetAttempt with values }.captures.groups.size = s.captures.groups.size :=
    hheld.size.trans hcount.symm
  rw [outcomes_tree]
  rw [hreached] at hsize hends
  refine ⟨s', ?_, hstart, hwatch, hsize, hends⟩
  rw [← htry]
  simp only [attempt, bind, EStateM.bind, run_get, hreset, Scan.lift, hpush]
  rfl

/-- The matcher does what the pattern says. -/
theorem imitates_tree (culture : Culture) : phases.Imitates tree culture where
  direction := rfl
  attempts _ _ hp _ hpos hgroups huntimed := attempt_reaches hp hpos hgroups huntimed _
  finds text p hp := by
    obtain ⟨q?, hseek, hpasses, -⟩ := Direct.exists_seek Character.isWord hp
    refine ⟨q?, hpasses.imp fun r _ _ hr textStart => ?_, fun s hpos => ?_⟩
    · rw [outcomes_tree, runEnds, exactly_eq_none (Place.eq_false_of_read hr) (by decide)]
      rfl
    · exact Direct.findNext_eq hp hpos hseek

end WordThenDigitMatcher

end RegexMachine
