import Mathlib.Data.List.Nodup
import RegexMachine.Proofs.Simulation.CharLoop

/-!
# The counts of a repeated character

A repeated character that takes as many characters as it can goes on behind all of them, and each time
it is sent back behind one less, down to none. One that takes as few as it can goes on behind none, and
each time behind one more. No count is tried twice, and when all were tried no choice point is left.
-/

namespace RegexMachine

open Status Machine Matcher

namespace Place

/-- The characters that lie ahead in a direction, nearest first. -/
def charsAhead (d : Direction) (p : Place) : List Char :=
  match d with
  | .forward => p.after
  | .backward => p.before

/-- The place `n` characters away in a direction, or the border of the text if that is nearer. -/
def away (d : Direction) (p : Place) (n : Nat) : Place :=
  match d with
  | .forward => ⟨(p.after.take n).reverse ++ p.before, p.after.drop n⟩
  | .backward => ⟨p.before.drop n, (p.before.take n).reverse ++ p.after⟩

/-- How many of the characters ahead pass without one between them that does not, at most `max`. -/
def passing (d : Direction) (pass : Char → Bool) (max : Nat) (p : Place) : Nat :=
  min max ((p.charsAhead d).takeWhile pass).length

@[simp] theorem away_zero (d : Direction) (p : Place) : p.away d 0 = p := by
  cases d <;> rfl

section

variable {d : Direction} {p q : Place} {c : Char}

theorem charsAhead_of_read (h : p.read d = some (c, q)) : p.charsAhead d = c :: q.charsAhead d := by
  obtain ⟨before, after⟩ := p
  cases d with
  | forward =>
    cases after with
    | nil => cases h
    | cons a rest => cases h; rfl
  | backward =>
    cases before with
    | nil => cases h
    | cons b rest => cases h; rfl

theorem charsAhead_of_read_none (h : p.read d = none) : p.charsAhead d = [] := by
  obtain ⟨before, after⟩ := p
  cases d with
  | forward =>
    cases after with
    | nil => rfl
    | cons a rest => cases h
  | backward =>
    cases before with
    | nil => rfl
    | cons b rest => cases h

theorem away_succ (h : p.read d = some (c, q)) (n : Nat) : p.away d (n + 1) = q.away d n := by
  obtain ⟨before, after⟩ := p
  cases d with
  | forward =>
    cases after with
    | nil => cases h
    | cons a rest =>
      cases h
      simp [away]
  | backward =>
    cases before with
    | nil => cases h
    | cons b rest =>
      cases h
      simp [away]

end

theorem length_charsAhead (d : Direction) (p : Place) : (p.charsAhead d).length = p.ahead d := by
  cases d <;> rfl

theorem chars_away (d : Direction) (p : Place) (n : Nat) : (p.away d n).chars = p.chars := by
  cases d with
  | forward => simp [away, chars]
  | backward =>
    simp only [away, chars]
    rw [← List.append_assoc, ← List.reverse_append, List.take_append_drop]

theorem ahead_away (d : Direction) (p : Place) (n : Nat) : (p.away d n).ahead d = p.ahead d - n := by
  cases d <;> exact List.length_drop

theorem passing_le_ahead (d : Direction) (pass : Char → Bool) (max : Nat) (p : Place) :
    p.passing d pass max ≤ p.ahead d := by
  rw [← length_charsAhead]
  exact Nat.le_trans (Nat.min_le_right _ _) (List.takeWhile_sublist _).length_le

theorem nodup_offsets (d : Direction) (p : Place) {k : Nat} (hk : k ≤ p.ahead d) :
    ((List.range (k + 1)).map fun n => (p.away d n).offset).Nodup := by
  refine List.Nodup.map_on (fun x hx y hy h => ?_) List.nodup_range
  have hsame := eq_of_offset ((p.chars_away d x).trans (p.chars_away d y).symm) h
  have hahead := congrArg (ahead d) hsame
  rw [ahead_away, ahead_away] at hahead
  rw [List.mem_range] at hx hy
  omega

end Place

/-- A run of characters may end behind each count of them that pass. -/
theorem Matcher.stops_eq_away (d : Direction) (pass : Char → Bool) (max : Nat) (p : Place) :
    stops d pass max p = (List.range (p.passing d pass max + 1)).map (p.away d) := by
  induction max generalizing p with
  | zero => simp [stops, Place.passing]
  | succ max ih =>
    rw [stops]
    cases hr : p.read d with
    | none => simp [Place.passing, Place.charsAhead_of_read_none hr]
    | some r =>
      obtain ⟨c, q⟩ := r
      rw [Place.passing, Place.charsAhead_of_read hr]
      by_cases hc : pass c = true
      · have hcount : min (max + 1) ((c :: q.charsAhead d).takeWhile pass).length =
            q.passing d pass max + 1 := by
          rw [List.takeWhile_cons_of_pos hc, List.length_cons, Place.passing, Nat.add_min_add_right]
        rw [hcount, List.range_succ_eq_map, List.map_cons, Place.away_zero, List.map_map]
        simp only [if_pos hc, ih]
        refine congrArg (p :: ·) (List.map_congr_left fun n _ => ?_)
        exact (Place.away_succ hr n).symm
      · rw [List.takeWhile_cons_of_neg hc]
        simp [hc]

/-- The machine behind the instruction that it was at, at a position and with these choice points. -/
def Machine.beyond (m : Machine) (pos : Nat) (choices : Stack ChoicePoint) : Machine :=
  { m with address := m.address + 1, entry := .forward, cursor := markOf pos, choices }

/-- A run that is about to execute an instruction goes on behind it at the first of these positions,
and whenever it is sent back to the choice point that the instruction has left, with whatever else the
machine then holds, it goes on at the next. When it has gone on at all of them, the choice points are
those of `base`. Only where `mayFail` is set, a last one may be left before that, and it only fails. -/
inductive Status.Offers (env : Surroundings) (base : Stack ChoicePoint) (mayFail : Bool) :
    Status → List Nat → Prop
  | last {m : Machine} {pos : Nat} (goesOn : (running m).next env = running (m.beyond pos base)) :
      Offers env base mayFail (running m) [pos]
  | more {m : Machine} {pos : Nat} {p : ChoicePoint} {rest : List Nat}
      (goesOn : (running m).next env = running (m.beyond pos (base.push p)))
      (again : ∀ x : Machine, x.choices = base.push p →
        Offers env base mayFail ((failing x).next env) rest) :
      Offers env base mayFail (running m) (pos :: rest)
  | spent {m x : Machine} (allowed : mayFail = true) (fails : (running m).next env = failing x)
      (left : x.choices = base) : Offers env base mayFail (running m) []

section

variable {env : Surroundings} {i : Instruction} {base : Stack ChoicePoint}

/-- A greedy repetition that is sent back offers the places that it goes back over. -/
theorem offers_charLoop_back (hop : i.opcode = .charLoop) {m : Machine}
    (hi : env.program.instructions[m.address]? = some i) {q : Place} {rest : List Place}
    (hchain : (q :: rest).IsChain fun a b => b.In env.text ∧ ∃ c, b.read i.direction = some (c, a))
    (hentry : m.entry = .backtracking ⟨rest.length, markOf q.offset, 0⟩)
    (hchoices : m.choices = base) :
    Offers env base false (.running m) ((q :: rest).map Place.offset) := by
  induction rest generalizing m q with
  | nil =>
    subst hchoices
    exact .last (Status.next_running hi (execute_charLoop_back hop hchain hentry))
  | cons r rest ih =>
    subst hchoices
    refine .more (Status.next_running hi (execute_charLoop_back hop hchain hentry)) fun x hx => ?_
    rw [Status.next_failing hx]
    exact ih (m := x.resume ⟨m.address, _⟩ _) hi (List.isChain_cons_cons.1 hchain).2 rfl rfl

variable {test : CharTest} {pass : Char → Bool} {max : Nat}
  (hpass : ∀ c, env.passes test i.ignoreCase c = .ok (pass c))
  (hpayload : i.payload = .atomCount test max)

include hpass hpayload

/-- A lazy repetition that is sent back offers the places beyond the one it had got to. -/
theorem offers_charLazy_more (hop : i.opcode = .charLazy) {m : Machine}
    (hi : env.program.instructions[m.address]? = some i) {k : Nat} {p : Place} (hp : p.In env.text)
    (hentry : m.entry = .backtracking ⟨k, markOf p.offset, 0⟩) (hchoices : m.choices = base) :
    Offers env base true (.running m)
      ((stops i.direction pass (k + 1) p).tail.map Place.offset) := by
  induction k using Nat.strongRecOn generalizing m p with
  | ind k ih =>
    subst hchoices
    have hnext := Status.next_running hi (execute_charLazy_more hpass hpayload hop hp hentry)
    rw [stops]
    cases hr : p.read i.direction with
    | none =>
      rw [hr] at hnext
      exact .spent rfl hnext rfl
    | some r =>
      obtain ⟨c, q⟩ := r
      rw [hr] at hnext
      simp only at hnext ⊢
      by_cases hc : pass c = true
      · rw [if_pos hc] at hnext ⊢
        rw [List.tail_cons]
        by_cases hk : 0 < k
        · obtain ⟨j, rfl⟩ := Nat.exists_eq_add_one_of_ne_zero (Nat.ne_of_gt hk)
          have hj : (((j + 1 : Nat) : Int) - 1) = j := by omega
          rw [if_pos hk, hj] at hnext
          rw [stops_eq_cons, List.map_cons]
          refine .more hnext fun x hx => ?_
          rw [Status.next_failing hx]
          exact @ih j (Nat.lt_succ_self j) (x.resume ⟨m.address, _⟩ _) hi q (hp.of_read hr) rfl rfl
        · obtain rfl : k = 0 := by omega
          rw [if_neg hk] at hnext
          exact .last hnext
      · rw [if_neg hc] at hnext ⊢
        exact .spent rfl hnext rfl

section

variable {m : Machine} (hi : env.program.instructions[m.address]? = some i) {p : Place}
  (hp : p.In env.text) (hentry : m.entry = .forward) (hcursor : m.cursor = markOf p.offset)

include hi hp hentry hcursor

/-- A greedy repetition offers the places where its run may end, the last one first. -/
theorem offers_charLoop (hop : i.opcode = .charLoop) :
    Offers env m.choices false (.running m)
      ((stops i.direction pass max p).reverse.map Place.offset) := by
  obtain ⟨q, rest, hends, hchain, -, hexecute⟩ :=
    execute_charLoop hpass hpayload hop hentry hcursor hp
  have hnext := Status.next_running hi hexecute
  rw [hends]
  cases rest with
  | nil => exact .last hnext
  | cons r rest =>
    refine .more hnext fun x hx => ?_
    rw [Status.next_failing hx]
    have hback := (List.isChain_cons_cons.1 hchain).2
    exact offers_charLoop_back hop (m := x.resume ⟨m.address, _⟩ _) hi hback rfl rfl

/-- A greedy repetition that is cut offers the last of them alone. -/
theorem offers_charLoopAtomic (hop : i.opcode = .charLoopAtomic) :
    Offers env m.choices false (.running m)
      (((stops i.direction pass max p).reverse.take 1).map Place.offset) := by
  obtain ⟨q, rest, hends, -, hexecute⟩ :=
    execute_charLoopAtomic hpass hpayload hop hentry hcursor hp
  rw [hends]
  exact .last (Status.next_running hi hexecute)

theorem offers_charLazy (hop : i.opcode = .charLazy) (hmax : 0 < max) :
    Offers env m.choices true (.running m) ((stops i.direction pass max p).map Place.offset) := by
  obtain ⟨k, rfl⟩ := Nat.exists_eq_add_one_of_ne_zero (Nat.ne_of_gt hmax)
  have hposition : m.position = p.offset := by rw [Machine.position, hcursor, positionOf_markOf]
  have hnext := Status.next_running hi (execute_charLazy hpayload hop hentry hposition hp)
  rw [stops_eq_cons, List.map_cons]
  cases hr : p.read i.direction with
  | none =>
    have htail : (stops i.direction pass (k + 1) p).tail = [] := by
      rw [stops, hr]
      rfl
    rw [hr] at hnext
    rw [htail]
    refine .last (hnext.trans ?_)
    rw [beyond, ← hcursor]
    rfl
  | some r =>
    rw [hr] at hnext
    have hgoesOn : (running m).next env = running (m.beyond p.offset
        (m.choices.push ⟨m.address, .backtracking ⟨k, markOf p.offset, 0⟩⟩)) := by
      rw [hnext, beyond, ← hcursor]
      rfl
    refine .more hgoesOn fun x hx => ?_
    rw [Status.next_failing hx]
    exact offers_charLazy_more hpass hpayload hop (m := x.resume ⟨m.address, _⟩ _) hi hp rfl rfl

end

end

/-- Whether a character passes a test of a program. -/
def Surroundings.accepts (env : Surroundings) (test : CharTest) (ignoreCase : Bool) (c : Char) : Bool :=
  let c := if ignoreCase then env.culture.fold c else c
  match test with
  | .one x => c == x
  | .notOne x => c != x
  | .set index => env.program.classes[index]?.any (·.contains c)

/-- A test of a class that the program has is answered. -/
theorem Surroundings.passes_eq_accepts {env : Surroundings} {test : CharTest}
    (hclass : ∀ index, test = .set index → index < env.program.classes.size) (ignoreCase : Bool)
    (c : Char) : env.passes test ignoreCase c = .ok (env.accepts test ignoreCase c) := by
  cases test with
  | one x => rfl
  | notOne x => rfl
  | set index =>
    have hindex := Array.getElem?_eq_getElem (hclass index rfl)
    simp only [passes, accepts, hindex]
    rfl

/-- A repeated character offers each count of the characters ahead that pass, from none up to its
bound, once and in order: one that is greedy all of them and then one less each time, one that is lazy
none and then one more each time, and one that is cut all of them only. No choice point is left then,
except that a lazy one which did not reach its bound has to be sent back once more to find that out. -/
theorem Machine.charLoop_offers_counts {env : Surroundings} {m : Machine} {i : Instruction}
    {test : CharTest} {max : Nat} {p : Place}
    (hi : env.program.instructions[m.address]? = some i) (hpayload : i.payload = .atomCount test max)
    (hclass : ∀ index, test = .set index → index < env.program.classes.size) (hmax : 1 ≤ max)
    (hp : p.In env.text) (hentry : m.entry = .forward) (hcursor : m.cursor = markOf p.offset) :
    let k := p.passing i.direction (env.accepts test i.ignoreCase) max
    let offset := fun n => (p.away i.direction n).offset
    ((List.range (k + 1)).map offset).Nodup ∧
    (i.opcode = .charLoop →
      Offers env m.choices false (.running m) ((List.range (k + 1)).reverse.map offset)) ∧
    (i.opcode = .charLazy →
      Offers env m.choices true (.running m) ((List.range (k + 1)).map offset)) ∧
    (i.opcode = .charLoopAtomic → Offers env m.choices false (.running m) [offset k]) := by
  have hpass := Surroundings.passes_eq_accepts hclass i.ignoreCase
  intro k offset
  refine ⟨p.nodup_offsets i.direction (p.passing_le_ahead _ _ _), fun hop => ?_, fun hop => ?_,
    fun hop => ?_⟩
  · have hoffers := offers_charLoop hpass hpayload hi hp hentry hcursor hop
    rwa [stops_eq_away, ← List.map_reverse, List.map_map] at hoffers
  · have hoffers := offers_charLazy hpass hpayload hi hp hentry hcursor hop hmax
    rwa [stops_eq_away, List.map_map] at hoffers
  · have hoffers := offers_charLoopAtomic hpass hpayload hi hp hentry hcursor hop
    rwa [stops_eq_away, List.range_succ, List.map_append, List.reverse_append] at hoffers

/-- An instruction alone that takes at most two of the letter `é` in either case, matched backward, and
a text that ends with three. -/
def accentsBackward : Surroundings where
  program := {
    instructions := #[{
      opcode := .charLoop
      payload := .atomCount (.one 'é') 2
      direction := .backward
      ignoreCase := true }]
    groupCount := 1 }
  culture := .invariant
  text := .ofChars ['b', 'É', 'é', 'É']
  textStart := 7

/-- From the end of the text it goes on behind two letters, one and none, each two bytes long. -/
theorem charLoop_offers_accents :
    Offers accentsBackward .empty false (.running { cursor := 7, captures := default }) [3, 5, 7] := by
  let p : Place := ⟨['É', 'é', 'É', 'b'], []⟩
  have hcounts := @Machine.charLoop_offers_counts accentsBackward { cursor := 7, captures := default }
    _ (.one 'é') 2 p rfl rfl nofun (by decide) rfl rfl (by decide)
  have hoffers := hcounts.2.1 rfl
  let k := p.passing .backward (accentsBackward.accepts (.one 'é') true) 2
  have hoffsets : ((List.range (k + 1)).reverse.map fun n => (p.away .backward n).offset) =
      [3, 5, 7] := by decide +kernel
  exact hoffsets ▸ hoffers

end RegexMachine
