import RegexMachine.Proofs.Outcomes.Within

/-!
# Characters in general constructs

A repeated character and a string are matched by instructions of their own. Their outcomes are those
of the general constructs: of a loop whose body is sealed and matches the character once, and of a
sequence of its characters.
-/

namespace RegexMachine.Matcher

/-- A single character that passes a test. -/
def single (d : Direction) (test : Char → Bool) : Matcher := fun s =>
  goTo s (exactly d test 1 s.place)

section

variable {d : Direction} {test : Char → Bool} {s : MatchState}

theorem single_of_read_none (h : s.place.read d = none) : single d test s = [] := by
  rw [single, exactly, h]
  rfl

theorem single_of_read {c : Char} {q : Place} (h : s.place.read d = some (c, q)) :
    single d test s = if test c then [s.moveTo q] else [] := by
  rw [single, exactly, h]
  simp only [exactly]
  split <;> rfl

theorem length_single_le (s : MatchState) : (single d test s).length ≤ 1 := by
  rw [single]
  cases exactly d test 1 s.place with
  | none => exact Nat.zero_le 1
  | some p => exact Nat.le_refl 1

theorem atomic_eq_self {M : Matcher} (h : ∀ s, (M s).length ≤ 1) : atomic M = M :=
  funext fun s => List.take_of_length_le (h s)

/-- What follows a character that is run once is run from where the character ends. -/
theorem flatMap_single (f : MatchState → List MatchState) (s : MatchState) :
    (single d test s).flatMap f =
      match s.place.read d with
      | some (c, q) => if test c then f (s.moveTo q) else []
      | none => [] := by
  cases hread : s.place.read d with
  | none =>
    rw [single_of_read_none hread]
    rfl
  | some r =>
    obtain ⟨c, q⟩ := r
    rw [single_of_read hread]
    simp only
    split
    · exact List.flatMap_singleton f _
    · rfl

/-- The ends in the order in which they are tried. -/
def inOrder (isLazy : Bool) (ends : List Place) : List Place :=
  if isLazy then ends else ends.reverse

theorem inOrder_singleton (isLazy : Bool) (p : Place) : inOrder isLazy [p] = [p] := by
  cases isLazy <;> rfl

/-- A loop over a character that was read once goes on from the next place. -/
theorem again_single (min : Nat) (spare : Option Nat) (isLazy : Bool) (done : Nat)
    (s : MatchState) :
    again d (single d test) min spare isLazy done s =
      match s.place.read d with
      | some (c, q) =>
        if test c then loop d (single d test) min spare isLazy (done + 1) (s.moveTo q) else []
      | none => [] := by
  rw [again, flatMap_single]
  cases hread : s.place.read d with
  | none => rfl
  | some r =>
    obtain ⟨c, q⟩ := r
    have hahead := Place.ahead_of_read hread
    have hless : (s.moveTo q).place.ahead d < s.place.ahead d := by
      change q.ahead d < s.place.ahead d
      omega
    simp only [afterRun, if_pos (Or.inr hless)]

/-- Beyond the minimum a loop over a character has the ends of a run of characters. -/
theorem loop_single_of_le (min : Nat) (spare : Option Nat) (isLazy : Bool) :
    ∀ done s, min ≤ done → loop d (single d test) min spare isLazy done s =
      (inOrder isLazy (stops d test ((spare.map (· - (done - min))).getD (s.place.ahead d))
        s.place)).map s.moveTo := by
  refine loop_induction d min fun done s ih hdone => ?_
  rw [loop_eq, if_neg (Nat.not_lt.2 hdone), again_single]
  generalize hcount : (spare.map (· - (done - min))).getD (s.place.ahead d) = count
  cases hall : spare.all (done - min < ·) with
  | false =>
    -- The bound is reached, so the run ends here.
    obtain ⟨bound, rfl⟩ : ∃ bound, spare = some bound := by
      cases spare with
      | none => cases hall
      | some bound => exact ⟨bound, rfl⟩
    have hreached : bound ≤ done - min := by simpa using hall
    obtain rfl : count = 0 := by
      rw [← hcount]
      exact Nat.sub_eq_zero_of_le hreached
    rw [stops, inOrder_singleton]
    rfl
  | true =>
    cases hread : s.place.read d with
    | none =>
      have hstops : stops d test count s.place = [s.place] := by
        cases count with
        | zero => rfl
        | succ n => rw [stops, hread]
      rw [hstops, inOrder_singleton]
      cases isLazy <;> rfl
    | some r =>
      obtain ⟨c, q⟩ := r
      have hahead := Place.ahead_of_read hread
      -- One more character leaves a bound that is smaller by one.
      have hnext : count = (spare.map (· - (done + 1 - min))).getD (q.ahead d) + 1 := by
        rw [← hcount]
        cases spare with
        | none => exact hahead.symm
        | some bound =>
          have hroom : done - min < bound := by simpa using hall
          simp only [Option.map_some, Option.getD_some]
          omega
      rw [hnext, stops, hread]
      simp only
      by_cases hpass : test c = true
      · have hless : (s.moveTo q).place.ahead d < s.place.ahead d := by
          change q.ahead d < s.place.ahead d
          omega
        rw [if_pos hpass, if_pos hpass, ih (s.moveTo q) (.inr hless) (by omega)]
        cases isLazy with
        | false =>
          simp only [inOrder, Bool.false_eq_true, if_false, if_true, List.reverse_cons,
            List.map_append, List.map_cons, List.map_nil]
          rfl
        | true => rfl
      · rw [if_neg hpass, if_neg hpass, inOrder_singleton]
        cases isLazy <;> rfl

/-- Up to the minimum a loop over a character reads exactly as many as are missing. -/
theorem loop_single (min : Nat) (spare : Option Nat) (isLazy : Bool) (missing : Nat) :
    ∀ done s, done + missing = min → loop d (single d test) min spare isLazy done s =
      match exactly d test missing s.place with
      | some p => loop d (single d test) min spare isLazy min (s.moveTo p)
      | none => [] := by
  induction missing with
  | zero =>
    intro done s hdone
    obtain rfl : done = min := hdone
    rfl
  | succ missing ih =>
    intro done s hdone
    rw [loop_eq, if_pos (by omega), again_single, exactly]
    cases hread : s.place.read d with
    | none => rfl
    | some r =>
      obtain ⟨c, q⟩ := r
      simp only
      split
      · rw [ih (done + 1) (s.moveTo q) (by omega)]
        rfl
      · rfl

/-- A repeated character has the outcomes of a loop over the sealed character. -/
theorem charLoop_eq_loop (min : Nat) (spare : Option Nat) (isLazy : Bool) :
    charLoop d test min spare isLazy false =
      loop d (atomic (single d test)) min spare isLazy 0 := by
  rw [atomic_eq_self length_single_le]
  funext s
  rw [charLoop, loop_single min spare isLazy min 0 s (Nat.zero_add min)]
  cases exactly d test min s.place with
  | none => rfl
  | some p =>
    simp only
    rw [loop_single_of_le min spare isLazy min _ (Nat.le_refl min), Nat.sub_self]
    have hbound : (spare.map (· - 0)).getD (p.ahead d) = spare.getD (p.ahead d) := by
      cases spare <;> rfl
    exact (congrArg (fun n => (inOrder isLazy (stops d test n p)).map (s.moveTo p).moveTo) hbound).symm

/-- A string in the order in which it is read has the outcome of its characters one after the
other. -/
theorem literal_eq_sequence (culture : Culture) (ignoreCase : Bool) (chars : List Char)
    (s : MatchState) :
    let fold (c : Char) : Char := if ignoreCase then culture.fold c else c
    goTo s (literal d fold (chars.map fold) s.place) =
      sequence (chars.map fun c => single d (passes culture ignoreCase (.one c))) s := by
  intro fold
  induction chars generalizing s with
  | nil => rfl
  | cons x rest ih =>
    rw [List.map_cons, List.map_cons, literal, sequence, flatMap_single]
    cases s.place.read d with
    | none => rfl
    | some r =>
      obtain ⟨c, q⟩ := r
      have hpasses : passes culture ignoreCase (.one x) c = (fold c == fold x) := rfl
      simp only [hpasses]
      split
      · exact ih (s.moveTo q)
      · rfl

/-- A string in reading order is a sequence of its characters, in either direction. -/
theorem string_eq_sequence (d : Direction) (culture : Culture) (ignoreCase : Bool)
    (chars : List Char) (s : MatchState) :
    let fold (c : Char) : Char := if ignoreCase then culture.fold c else c
    let parts := chars.map fun c => single d (passes culture ignoreCase (.one c))
    goTo s (string d fold (chars.map fold) s.place) =
      match d with
      | .forward => sequence parts s
      | .backward => sequence parts.reverse s := by
  intro fold parts
  cases d with
  | forward => exact literal_eq_sequence culture ignoreCase chars s
  | backward =>
    simp only [string, parts, ← List.map_reverse]
    exact literal_eq_sequence culture ignoreCase chars.reverse s

end

end RegexMachine.Matcher
