import RegexMachine.Proofs.Direct.Imitation

/-!
# The date matcher agrees with its pattern

A date has one way to match: four digits, two and two with hyphens between them. The matcher looks
for it in the same order as the pattern and captures in the same order.
-/

namespace RegexMachine

open Machine Matcher

namespace DateMatcher

/-- A group of so many digits. -/
def digitGroup (group width : Nat) : Build Nat := do
  let digit ← Builder.set .digit
  let digits ← Builder.repeated digit width width
  Builder.capture group digits

/-- The pattern `(\d{4})-(\d{2})-(\d{2})`. -/
def tree : Tree :=
  Tree.build {} do
    let year ← digitGroup 1 4
    let hyphen ← Builder.one '-'
    let month ← digitGroup 2 2
    let hyphen' ← Builder.one '-'
    let day ← digitGroup 3 2
    Builder.concat [year, hyphen, month, hyphen', day]

/-- The node of a group of digits; the node of the single digit before it is left out. -/
def digitNode (id group width : Nat) : Node :=
  .node (id + 1) {} (.capture (some group) none)
    [.node id {} (.charLoop (.set .digit) width width false) []]

theorem root_tree : tree.root = .node 12 {} (.capture (some 0) none) [.node 11 {} .concat
    [digitNode 1 1 4, .node 3 {} (.char (.one '-')) [], digitNode 5 2 2,
      .node 7 {} (.char (.one '-')) [], digitNode 9 3 2]] := by
  have hfinish : tree = Builder.finish 11 {
      options := {}
      entries := #[⟨.char (.set .digit), [], {}⟩, ⟨.charLoop (.set .digit) 4 4 false, [], {}⟩,
        ⟨.capture (some 1) none, [1], {}⟩, ⟨.char (.one '-'), [], {}⟩,
        ⟨.char (.set .digit), [], {}⟩, ⟨.charLoop (.set .digit) 2 2 false, [], {}⟩,
        ⟨.capture (some 2) none, [5], {}⟩, ⟨.char (.one '-'), [], {}⟩,
        ⟨.char (.set .digit), [], {}⟩, ⟨.charLoop (.set .digit) 2 2 false, [], {}⟩,
        ⟨.capture (some 3) none, [9], {}⟩, ⟨.concat, [2, 3, 6, 7, 10], {}⟩]
      maxGroup := 3 } := rfl
  rw [hfinish]
  simp [Builder.finish, Builder.push, Builder.nodes, Builder.addNode, digitNode]

theorem unshared_digitGroup {b : Builder} {free : List Nat} (h : Builder.Unshared {} b free)
    (group width : Nat) (hgroup : 0 < group) (hwidth : width ≤ unbounded) :
    Builder.Unshared {} (digitGroup group width b).2 ((digitGroup group width b).1 :: free) := by
  have hdigit := h.call (.atom (.set .digit)) trivial (.refl _)
  have hdigits := hdigit.call (.quantify b.entries.size width width false)
    ⟨Nat.le_refl width, hwidth⟩ (.refl _)
  exact hdigits.call (.capture group _) hgroup (.refl _)

theorem linear_tree : tree.Linear := by
  have hyear : Builder.Unshared {} _ [2] := unshared_digitGroup .start 1 4 (by decide) (by decide)
  have hhyphen : Builder.Unshared {} _ [3, 2] := hyear.call (.atom (.one '-')) trivial (.refl _)
  have hmonth : Builder.Unshared {} _ [6, 3, 2] := unshared_digitGroup hhyphen 2 2 (by decide) (by decide)
  have hhyphen' : Builder.Unshared {} _ [7, 6, 3, 2] := hmonth.call (.atom (.one '-')) trivial (.refl _)
  have hday : Builder.Unshared {} _ [10, 7, 6, 3, 2] :=
    unshared_digitGroup hhyphen' 3 2 (by decide) (by decide)
  have hconcat : Builder.Unshared {} _ [11] := hday.call (.concat [2, 3, 6, 7, 10]) trivial (by decide)
  exact ⟨_, _, _, 11, hconcat, List.mem_singleton_self 11, rfl⟩

theorem plain_tree (culture : Culture) : tree.Plain culture := by
  refine linear_tree.unshared.plain_of_simple ?_ culture
  rw [root_tree]
  decide

/-- The places at which the parts of a date end. -/
structure Parts where
  yearEnd : Place
  monthStart : Place
  monthEnd : Place
  dayStart : Place
  dayEnd : Place

/-- The place beyond `n` digits, and the place beyond a hyphen that follows them. -/
def leading (n : Nat) (p : Place) : Option (Place × Place) := do
  let stop ← exactly .forward Character.isDigit n p
  let next ← exactly .forward (· == '-') 1 stop
  return (stop, next)

/-- The parts of the date that starts at a place. -/
def parts (p : Place) : Option Parts := do
  let (yearEnd, monthStart) ← leading 4 p
  let (monthEnd, dayStart) ← leading 2 monthStart
  let dayEnd ← exactly .forward Character.isDigit 2 dayStart
  return { yearEnd, monthStart, monthEnd, dayStart, dayEnd }

namespace Parts

/-- The same by offset. -/
def fields (d : Parts) : Fields where
  yearEnd := d.yearEnd.offset
  monthStart := d.monthStart.offset
  monthEnd := d.monthEnd.offset
  dayStart := d.dayStart.offset
  dayEnd := d.dayEnd.offset

/-- What the groups are left with behind the day of a date that starts at an offset. -/
def groups (d : Parts) (start : Nat) : Nat → List Span :=
  let year := Captures.leftBy (fun _ => []) 1 start d.yearEnd.offset
  let month := Captures.leftBy year 2 d.monthStart.offset d.monthEnd.offset
  Captures.leftBy month 3 d.dayStart.offset d.dayEnd.offset

/-- What they are left with behind the match. -/
def captured (d : Parts) (start : Nat) : Nat → List Span :=
  Captures.leftBy (d.groups start) 0 start d.dayEnd.offset

end Parts

/-- A group of digits has one outcome, or none. -/
theorem matcher_digitNode (σ : Setting) (id group width : Nat) (hwidth : width ≠ unbounded)
    (s : MatchState) : (digitNode id group width).matcher Reading.plain σ s =
      ((exactly .forward Character.isDigit width s.place).map fun q =>
        (⟨q, Captures.leftBy s.captured group s.place.offset q.offset⟩ : MatchState)).toList := by
  simp only [digitNode, Node.matcher_node, List.map_cons, List.map_nil, Node.matcherOf,
    Matcher.capture, Matcher.charLoop, Reading.plain, if_neg hwidth, Nat.sub_self, Option.getD_some,
    stops, List.reverse_singleton, Bool.false_eq_true, if_false, Options.direction_none]
  rw [passes_digit]
  cases exactly .forward Character.isDigit width s.place <;> rfl

/-- Parts with one outcome each make a sequence with one outcome. -/
theorem sequence_cons_of_toList {part : Matcher} {parts : List Matcher}
    {f g : MatchState → Option MatchState} (hpart : ∀ s, part s = (f s).toList)
    (hparts : ∀ s, Matcher.sequence parts s = (g s).toList) (s : MatchState) :
    Matcher.sequence (part :: parts) s = ((f s).bind g).toList := by
  rw [Matcher.sequence, hpart]
  cases f s with
  | none => rfl
  | some t => exact (List.flatMap_singleton ..).trans (hparts t)

theorem outcomes_tree (σ : Setting) (p : Place) : tree.root.matcher Reading.plain σ p.start =
    ((parts p).map fun d => (⟨d.dayEnd, d.captured p.offset⟩ : MatchState)).toList := by
  have hhyphen : ∀ (id : Nat) (s : MatchState),
      (Node.node id {} (.char (.one '-')) []).matcher Reading.plain σ s =
        ((exactly .forward (· == '-') 1 s.place).map s.moveTo).toList := by
    intro id s
    rw [Node.matcher_node]
    show goTo s (exactly .forward (· == '-') 1 s.place) = _
    cases exactly .forward (· == '-') 1 s.place <;> rfl
  have hyear := fun s => matcher_digitNode σ 1 1 4 (by decide) s
  have hmonth := fun s => matcher_digitNode σ 5 2 2 (by decide) s
  have hday := fun s => matcher_digitNode σ 9 3 2 (by decide) s
  have hdone : ∀ s, Matcher.sequence [] s = (some s).toList := fun _ => rfl
  have hsequence := sequence_cons_of_toList hyear (sequence_cons_of_toList (hhyphen 3)
    (sequence_cons_of_toList hmonth (sequence_cons_of_toList (hhyphen 7)
      (sequence_cons_of_toList hday hdone)))) p.start
  rw [show Option.bind _ _ = (parts p).map fun d => (⟨d.dayEnd, d.groups p.offset⟩ : MatchState) by
    simp only [parts, leading, bind, pure, Option.bind_map, Option.map_bind, Option.bind_assoc,
      Option.bind_some, Function.comp_def]
    rfl] at hsequence
  rw [root_tree, Node.matcher_node, List.map_singleton, Node.matcher_node]
  show (Matcher.sequence _ p.start).filterMap _ = _
  rw [List.map_cons, List.map_cons, List.map_cons, List.map_cons, List.map_singleton, hsequence]
  cases parts p <;> rfl

variable {text : Text} {p : Place}

theorem digits_offset (n : Nat) (hp : p.In text) : digits text n p.offset =
    .ok ((exactly .forward Character.isDigit n p).map Place.offset) := by
  induction n generalizing p with
  | zero => rfl
  | succ n ih =>
    rw [digits, Direct.charAt_offset _ hp, exactly]
    cases hread : p.read .forward with
    | none => rfl
    | some r =>
      obtain ⟨c, q⟩ := r
      by_cases htest : Character.isDigit c
      · simp only [Option.bind_some, htest, if_true]
        exact ih (hp.of_read hread)
      · simp only [Option.bind_some, htest, Bool.false_eq_true, if_false]
        rfl

theorem digitsAndHyphen_offset (n : Nat) (hp : p.In text) : digitsAndHyphen text n p.offset =
    .ok ((leading n p).map fun r => (r.1.offset, r.2.offset)) := by
  rw [digitsAndHyphen, digits_offset n hp]
  simp only [leading, bind, Except.bind]
  cases hdigits : exactly .forward Character.isDigit n p with
  | none => rfl
  | some stop =>
    have hstop : stop.In text := in_of_exactly hp hdigits
    simp only [Option.map_some, Option.bind_some]
    cases hhyphen : exactly .forward (· == '-') 1 stop with
    | none =>
      rw [Direct.charAt_eq_none hstop hhyphen]
      rfl
    | some next =>
      obtain ⟨c, hchar⟩ := Direct.charAt_eq_some hstop hhyphen
      rw [hchar]
      rfl

theorem in_of_leading {n : Nat} {stop next : Place} (hp : p.In text)
    (h : leading n p = some (stop, next)) : next.In text := by
  obtain ⟨x, hx, h⟩ := Option.bind_eq_some_iff.1 h
  obtain ⟨y, hy, h⟩ := Option.bind_eq_some_iff.1 h
  cases h
  exact in_of_exactly (in_of_exactly hp hx) hy

theorem fields_offset (hp : p.In text) :
    fields text p.offset = .ok ((parts p).map Parts.fields) := by
  rw [fields, digitsAndHyphen_offset 4 hp]
  simp only [parts, bind, Except.bind]
  cases hyear : leading 4 p with
  | none => rfl
  | some year =>
    have hmonthStart := in_of_leading hp hyear
    simp only [Option.map_some, Option.bind_some, digitsAndHyphen_offset 2 hmonthStart]
    cases hmonth : leading 2 year.2 with
    | none => rfl
    | some month =>
      have hdayStart := in_of_leading hmonthStart hmonth
      simp only [Option.map_some, Option.bind_some, digits_offset 2 hdayStart]
      cases exactly .forward Character.isDigit 2 month.2 <;> rfl

/-- An attempt captures the parts of the date at its place. -/
theorem attempt_reaches (hp : p.In text) {s : ScanState} (hpos : s.textPos = p.offset)
    (hgroups : s.captures.groups.size = tree.groupCount) (σ : Setting) :
    ReachesFirst (tree.root.matcher Reading.plain σ p.start) s (attempt text s.resetAttempt) := by
  have hreset : s.resetAttempt.textPos = p.offset := hpos
  rw [outcomes_tree]
  cases hparts : parts p with
  | none =>
    refine .of_missed rfl ?_
    simp only [attempt, bind, EStateM.bind, run_get, hreset, fields_offset hp, hparts]
    rfl
  | some d =>
    have hcount : s.captures.groups.size = 4 := hgroups
    have hnone := s.holds_resetAttempt
    rw [hcount] at hnone
    have hone : 1 < 4 := by decide
    have htwo : 2 < 4 := by decide
    have hthree : 3 < 4 := by decide
    have hzero : 0 < 4 := by decide
    obtain ⟨s₁, hyear, hbeside₁, hholds₁⟩ := hnone.capture hone p.offset d.yearEnd.offset
    obtain ⟨s₂, hmonth, hbeside₂, hholds₂⟩ :=
      hholds₁.capture htwo d.monthStart.offset d.monthEnd.offset
    obtain ⟨s₃, hday, hbeside₃, hholds₃⟩ := hholds₂.capture hthree d.dayStart.offset d.dayEnd.offset
    obtain ⟨s₄, hwhole, hbeside₄, hholds₄⟩ := hholds₃.capture hzero p.offset d.dayEnd.offset
    have hbeside := ((hbeside₁.trans hbeside₂).trans hbeside₃).trans hbeside₄
    rw [← hcount] at hholds₄
    refine .of_holds rfl (hholds₄.moved d.dayEnd.offset) rfl hbeside.textStart hbeside.watch ?_
    simp only [attempt, bind, EStateM.bind, run_get, hreset, fields_offset hp, hparts, Scan.lift,
      Option.map_some, Parts.fields, hyear, hmonth, hday, hwhole]
    rfl

/-- The matcher does what the pattern says. -/
theorem imitates_tree (culture : Culture) : phases.Imitates tree culture where
  direction := rfl
  attempts _ _ hp _ hpos hgroups _ := attempt_reaches hp hpos hgroups _
  finds text p hp := by
    obtain ⟨q?, hseek, hpasses, -⟩ := Direct.exists_seek Character.isDigit hp
    refine ⟨q?, hpasses.imp fun r _ _ hr textStart => ?_, fun s hpos => ?_⟩
    · rw [outcomes_tree, parts, leading, exactly_eq_none (Place.eq_false_of_read hr) (by decide)]
      rfl
    · exact Direct.findNext_eq hp hpos hseek

end DateMatcher

end RegexMachine
