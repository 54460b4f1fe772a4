import Mathlib.Data.List.Chain
import RegexMachine.Proofs.Outcomes.Thinning
import RegexMachine.Proofs.Simulation.Compose

/-!
# Repeated characters

A repeated character first takes the characters it must. Then it takes as many more as it can and
gives them back one by one, or takes none and one more each time it is sent back. A choice point
tells how many are left to give back or to take.
-/

namespace RegexMachine

open Status Machine Matcher

namespace Matcher

theorem stops_eq_cons (d : Direction) (pass : Char → Bool) (n : Nat) (p : Place) :
    stops d pass n p = p :: (stops d pass n p).tail := by
  cases n with
  | zero => rfl
  | succ n =>
    rw [stops]
    split
    · split <;> rfl
    · rfl

theorem isChain_stops {t : Text} (d : Direction) (pass : Char → Bool) (n : Nat) {p : Place}
    (hp : p.In t) :
    (stops d pass n p).IsChain fun a b => a.In t ∧ ∃ c, a.read d = some (c, b) := by
  induction n generalizing p with
  | zero => exact .singleton p
  | succ n ih =>
    rw [stops]
    cases hr : p.read d with
    | none => exact .singleton p
    | some r =>
      obtain ⟨c, q⟩ := r
      simp only
      split
      · have hq := ih (hp.of_read hr)
        rw [stops_eq_cons] at hq ⊢
        exact List.isChain_cons_cons.2 ⟨⟨hp, c, hr⟩, hq⟩
      · exact .singleton p

/-- The characters that a repetition takes beyond those that it must. -/
def charTail (d : Direction) (test : Char → Bool) (spare : Nat) (isLazy isCut : Bool) : Matcher :=
  fun s =>
    let ends := stops d test spare s.place
    let ends := if isLazy then ends else ends.reverse
    (if isCut then ends.take 1 else ends).map s.moveTo

theorem charLoop_eq (d : Direction) (test : Char → Bool) (min spare : Nat) (isLazy isCut : Bool)
    (s : MatchState) : charLoop d test min (some spare) isLazy isCut s =
      (goTo s (exactly d test min s.place)).flatMap (charTail d test spare isLazy isCut) := by
  rw [charLoop]
  cases exactly d test min s.place with
  | none => rfl
  | some p => exact (List.flatMap_singleton _ _).symm

end Matcher

/-- The machine where a greedy repetition has gone or come back to, with a choice point for the places
that it can still go back to. -/
def Machine.backAt (m : Machine) (p : Place) : List Place → Machine
  | [] => m.moveTo p.offset
  | q :: rest => (m.moveTo p.offset).leave rest.length (markOf q.offset)

section

variable {env : Surroundings} {i : Instruction} {test : CharTest} {pass : Char → Bool} {n : Nat}

/-- What a lazy repetition does at first. -/
theorem execute_charLazy {k : Nat} (hpayload : i.payload = .atomCount test (k + 1 : Nat))
    (hop : i.opcode = .charLazy) {m : Machine} {p : Place} (hentry : m.entry = .forward)
    (hposition : m.position = p.offset) (hp : p.In env.text) :
    m.execute env i = .ok (.next
      (if (p.read i.direction).isSome then m.leave k m.cursor else m)) := by
  have hcount : i.count = .ok ((k + 1 : Nat) : Int) := by rw [Instruction.count, hpayload]
  have hread := Text.read_offset hp i.direction
  have hpos : (0 : Int) < ((k + 1 : Nat) : Int) := by omega
  have hk : ((k + 1 : Nat) : Int) - 1 = k := by omega
  rw [execute, hop]
  simp only [charLazy, hentry, hcount, hposition, hread, bind, Except.bind, hpos, if_true, hk]
  cases p.read i.direction <;> rfl

section

variable (hpass : ∀ c, env.passes test i.ignoreCase c = .ok (pass c))
  (hpayload : i.payload = .atomCount test n)

include hpass

/-- Where a greedy repetition takes its characters to. -/
theorem takeUpTo_stops {p : Place} (hp : p.In env.text) :
    ∃ q rest, (stops i.direction pass n p).reverse = q :: rest ∧ (rest = [] → q = p) ∧
      (q :: rest).IsChain (fun a b => b.In env.text ∧ ∃ c, b.read i.direction = some (c, a)) ∧
      q.In env.text ∧ env.takeUpTo i test n 0 p.offset = .ok (rest.length, q.offset) := by
  obtain ⟨q, hq, htake⟩ := Surroundings.takeUpTo_eq hpass n 0 hp
  have hin := place_of_stops (P := (·.In env.text)) (fun _ _ _ hp hr => hp.of_read hr) hp
    (List.mem_of_mem_getLast? hq)
  have hchain : (stops i.direction pass n p).reverse.IsChain
      fun a b => b.In env.text ∧ ∃ c, b.read i.direction = some (c, a) :=
    List.isChain_reverse.2 (isChain_stops i.direction pass n hp)
  have hlast : (stops i.direction pass n p).reverse.getLast? = some p := by
    rw [List.getLast?_reverse, stops_eq_cons, List.head?_cons]
  rw [← List.head?_reverse] at hq
  rw [← List.length_reverse] at htake
  obtain ⟨rest, hends⟩ := List.head?_eq_some_iff.1 hq
  rw [hends] at htake hchain hlast
  refine ⟨q, rest, hends, ?_, hchain, hin, ?_⟩
  · rintro rfl
    exact Option.some.inj hlast
  · rw [htake, List.length_cons, Nat.zero_add, Nat.add_sub_cancel]

include hpayload

/-- What a lazy repetition does when it is sent back. -/
theorem execute_charLazy_more (hop : i.opcode = .charLazy) {x : Machine} {k : Nat} {p : Place}
    (hp : p.In env.text) (hentry : x.entry = .backtracking ⟨k, markOf p.offset, 0⟩) :
    x.execute env i = .ok (match p.read i.direction with
      | none => .backtrack { x with cursor := markOf p.offset }
      | some (c, q) =>
          if pass c then .next
            (if 0 < k then (x.moveTo q.offset).leave ((k : Int) - 1) (markOf q.offset)
            else x.moveTo q.offset)
          else .backtrack { x with cursor := markOf p.offset }) := by
  obtain ⟨address, entry, cursor, values, choices, captures⟩ := x
  simp only at hentry
  subst hentry
  have hatom : i.atom = .ok test := by rw [Instruction.atom, hpayload]
  have hread := Text.read_offset hp i.direction
  simp only [execute, hop, charLazy, Machine.position, positionOf_markOf, hread, hatom, bind,
    Except.bind]
  cases p.read i.direction with
  | none => rfl
  | some r =>
    obtain ⟨c, q⟩ := r
    simp only [Option.map_some, hpass]
    cases pass c with
    | false => rfl
    | true =>
      by_cases hk : 0 < k
      · have hpos : 0 < (k : Int) := by omega
        simp only [hk, hpos, if_true]
        rfl
      · have hpos : ¬ 0 < (k : Int) := by omega
        simp only [hk, hpos, if_false, if_true]
        rfl

/-- A greedy repetition goes to the last place where its run may end. -/
theorem execute_charLoop (hop : i.opcode = .charLoop) {m : Machine} {p : Place}
    (hentry : m.entry = .forward) (hcursor : m.cursor = markOf p.offset) (hp : p.In env.text) :
    ∃ q rest, (stops i.direction pass n p).reverse = q :: rest ∧
      (q :: rest).IsChain (fun a b => b.In env.text ∧ ∃ c, b.read i.direction = some (c, a)) ∧
      q.In env.text ∧ m.execute env i = .ok (.next (m.backAt q rest)) := by
  obtain ⟨q, rest, hends, hnil, hchain, hq, htake⟩ := takeUpTo_stops (n := n) hpass hp
  have hcount : i.count = .ok (n : Int) := by rw [Instruction.count, hpayload]
  have hatom : i.atom = .ok test := by rw [Instruction.atom, hpayload]
  have hposition : m.position = p.offset := by rw [Machine.position, hcursor, positionOf_markOf]
  refine ⟨q, rest, hends, hchain, hq, ?_⟩
  rw [execute, hop]
  simp only [Machine.charLoop, hentry, hcount, hatom, hposition, Int.toNat_natCast, htake, bind,
    Except.bind]
  cases rest with
  | nil =>
    rw [hnil rfl, Machine.backAt, moveTo, ← hcursor]
    rfl
  | cons r rest =>
    obtain ⟨⟨hr, c, hread⟩, -⟩ := List.isChain_cons_cons.1 hchain
    have hback := Text.bump_flip hr hread
    have hpos : 0 < (r :: rest).length := Nat.succ_pos _
    have hlength : (((r :: rest).length : Nat) : Int) - 1 = rest.length := by
      rw [List.length_cons]
      omega
    simp only [hpos, if_true, hback, hlength]
    rfl

/-- A greedy repetition that is cut goes there too, and leaves no choice point. -/
theorem execute_charLoopAtomic (hop : i.opcode = .charLoopAtomic) {m : Machine} {p : Place}
    (hentry : m.entry = .forward) (hcursor : m.cursor = markOf p.offset) (hp : p.In env.text) :
    ∃ q rest, (stops i.direction pass n p).reverse = q :: rest ∧ q.In env.text ∧
      m.execute env i = .ok (.next (m.moveTo q.offset)) := by
  obtain ⟨q, rest, hends, hnil, -, hq, htake⟩ := takeUpTo_stops (n := n) hpass hp
  have hcount : i.count = .ok (n : Int) := by rw [Instruction.count, hpayload]
  have hatom : i.atom = .ok test := by rw [Instruction.atom, hpayload]
  have hposition : m.position = p.offset := by rw [Machine.position, hcursor, positionOf_markOf]
  refine ⟨q, rest, hends, hq, ?_⟩
  rw [execute, hop]
  simp only [Machine.charLoop, hentry, hcount, hatom, hposition, Int.toNat_natCast, htake, bind,
    Except.bind, Bool.false_eq_true, if_false]
  by_cases hpos : 0 < rest.length
  · rw [if_pos hpos]
    rfl
  · rw [if_neg hpos, hnil (List.eq_nil_of_length_eq_zero (by omega)), moveTo, ← hcursor]
    rfl

end

/-- Sent back, a greedy repetition goes back over the last of the characters that it took. -/
theorem execute_charLoop_back (hop : i.opcode = .charLoop) {x : Machine} {p : Place}
    {rest : List Place}
    (hchain : (p :: rest).IsChain fun a b => b.In env.text ∧ ∃ c, b.read i.direction = some (c, a))
    (hentry : x.entry = .backtracking ⟨rest.length, markOf p.offset, 0⟩) :
    x.execute env i = .ok (.next (x.backAt p rest)) := by
  obtain ⟨address, entry, cursor, values, choices, captures⟩ := x
  simp only at hentry
  subst hentry
  rw [execute, hop]
  cases rest with
  | nil => rfl
  | cons q rest =>
    obtain ⟨⟨hq, c, hread⟩, -⟩ := List.isChain_cons_cons.1 hchain
    have hback := Text.bump_flip hq hread
    have hpos : (0 : Int) < ((q :: rest).length : Nat) := by
      rw [List.length_cons]
      omega
    have hlength : (((q :: rest).length : Nat) : Int) - 1 = rest.length := by
      rw [List.length_cons]
      omega
    simp only [Machine.charLoop, if_true, hpos, Machine.position, positionOf_markOf, hback, bind,
      Except.bind, hlength]
    rfl

end

section

variable {env : Surroundings} {A : Status → Prop} {i : Instruction} {test : CharTest}
  {pass : Char → Bool} {n : Nat}
  (hpass : ∀ c, env.passes test i.ignoreCase c = .ok (pass c))
  (hpayload : i.payload = .atomCount test n)

include hpass hpayload

/-- Sent back, a lazy repetition takes one more character. -/
theorem delivers_charLazy_more (hop : i.opcode = .charLazy) {m : Machine} {s : MatchState}
    {first : Nat} (hi : env.program.instructions[first]? = some i) (hm : m.Enters env first s)
    (k : Nat) {p : Place} (hp : p.In env.text) {x : Machine}
    (hx : x.Stands { m.frame with
      choices := m.choices.push ⟨first, .backtracking ⟨k, markOf p.offset, 0⟩⟩ }) :
    Delivers env A (first + 1) m.values m.frame (.failing x)
      ((stops i.direction pass (k + 1) p).tail.map s.moveTo) := by
  induction k using Nat.strongRecOn generalizing p x with
  | ind k ih =>
    let resumed := x.resume ⟨first, .backtracking ⟨k, markOf p.offset, 0⟩⟩ m.choices
    have hexecute := execute_charLazy_more hpass hpayload hop (x := resumed) hp rfl
    have hreach := Reaches.backtrack hx.choices hi hexecute
    rw [stops]
    cases hr : p.read i.direction with
    | none =>
      rw [hr] at hreach
      exact .failed hreach ⟨hx.values, rfl, hx.captures⟩
    | some r =>
      obtain ⟨c, q⟩ := r
      have hq := hp.of_read hr
      rw [hr] at hreach
      simp only at hreach ⊢
      by_cases hc : pass c = true
      · rw [if_pos hc] at hreach ⊢
        rw [List.tail_cons]
        by_cases hk : 0 < k
        · obtain ⟨j, rfl⟩ := Nat.exists_eq_add_one_of_ne_zero (Nat.ne_of_gt hk)
          rw [if_pos hk] at hreach
          rw [stops_eq_cons, List.map_cons]
          refine .arrived hreach ⟨hm.goTo rfl rfl rfl hx.captures hq, hx.values,
            List.suffix_cons _ _, .of_back hx.captures⟩ fun y hy => ?_
          refine ih j (Nat.lt_succ_self j) hq ⟨hy.values.trans hx.values, ?_,
            hy.captures.trans hx.captures⟩
          have hj : (((j + 1 : Nat) : Int) - 1) = j := by omega
          rw [← hj]
          exact hy.choices
        · rw [if_neg hk] at hreach
          obtain rfl : k = 0 := by omega
          refine .single hreach ⟨⟨hm.goTo rfl rfl rfl hx.captures hq, hx.values, ?_, ?_⟩,
            fun y hy => ⟨y, .refl _, hy.values.trans hx.values, hy.choices,
              hy.captures.trans hx.captures⟩⟩
          · exact List.suffix_refl _
          · exact .of_back hx.captures
      · rw [if_neg hc] at hreach ⊢
        exact .failed hreach ⟨hx.values, rfl, hx.captures⟩

/-- A lazy repetition takes none, and then one more at a time. -/
theorem realizes_charLazy (hop : i.opcode = .charLazy) (hn : 0 < n) :
    Realizes env A (Block.one env.program.instructions i)
      (Matcher.charTail i.direction pass n true false) := by
  rintro first last ⟨hi, rfl⟩ m s hm
  obtain ⟨k, rfl⟩ := Nat.exists_eq_add_one_of_ne_zero (Nat.ne_of_gt hn)
  have hi' := hi
  rw [← hm.address_eq] at hi'
  have hreach := Reaches.execute hi'
    (execute_charLazy hpayload hop hm.entry_eq hm.position_eq hm.sound.place_in)
  change Delivers env A (first + 1) m.values m.frame (.running m)
    ((stops i.direction pass (k + 1) s.place).map s.moveTo)
  rw [stops_eq_cons, List.map_cons]
  cases hr : s.place.read i.direction with
  | none =>
    rw [hr] at hreach
    have htail : (stops i.direction pass (k + 1) s.place).tail = [] := by
      rw [stops, hr]
      rfl
    rw [htail]
    exact .single hreach ⟨⟨hm.stay (congrArg (· + 1) hm.address_eq) rfl rfl (.refl _), rfl,
      .refl _⟩, fun x hx => ⟨x, .refl _, hx⟩⟩
  | some r =>
    rw [hr] at hreach
    refine .arrived hreach ⟨hm.stay (congrArg (· + 1) hm.address_eq) rfl rfl (.refl _), rfl,
      List.suffix_cons _ _, .refl _⟩ fun x hx => ?_
    refine delivers_charLazy_more hpass hpayload hop hi hm k hm.sound.place_in ⟨hx.values, ?_,
      hx.captures⟩
    rw [← hm.address_eq, ← hm.cursor_eq]
    exact hx.choices

end

section

variable {env : Surroundings} {A : Status → Prop} {i : Instruction} {test : CharTest}
  {pass : Char → Bool} {n : Nat}

/-- Sent back, a greedy repetition goes back over the characters that it took. -/
theorem delivers_charLoop_back (hop : i.opcode = .charLoop) {m : Machine} {s : MatchState}
    {first : Nat} (hi : env.program.instructions[first]? = some i) (hm : m.Enters env first s)
    {p : Place} {rest : List Place}
    (hchain : (p :: rest).IsChain fun a b => b.In env.text ∧ ∃ c, b.read i.direction = some (c, a))
    (hp : p.In env.text) {x : Machine}
    (hx : x.Stands { m.frame with
      choices := m.choices.push ⟨first, .backtracking ⟨rest.length, markOf p.offset, 0⟩⟩ }) :
    Delivers env A (first + 1) m.values m.frame (.failing x) ((p :: rest).map s.moveTo) := by
  induction rest generalizing p x with
  | nil =>
    refine .single (.backtrack hx.choices hi (execute_charLoop_back hop hchain rfl))
      ⟨⟨hm.goTo rfl rfl rfl hx.captures hp, hx.values, ?_, .of_back hx.captures⟩,
        fun y hy => ⟨y, .refl _, hy.values.trans hx.values, hy.choices,
          hy.captures.trans hx.captures⟩⟩
    exact List.suffix_refl _
  | cons q rest ih =>
    obtain ⟨⟨hq, -⟩, hrest⟩ := List.isChain_cons_cons.1 hchain
    refine .arrived (.backtrack hx.choices hi (execute_charLoop_back hop hchain rfl))
      ⟨hm.goTo rfl rfl rfl hx.captures hp, hx.values, List.suffix_cons _ _, .of_back hx.captures⟩
      fun y hy => ?_
    exact ih hrest hq ⟨hy.values.trans hx.values, hy.choices, hy.captures.trans hx.captures⟩

variable (hpass : ∀ c, env.passes test i.ignoreCase c = .ok (pass c))
  (hpayload : i.payload = .atomCount test n)

include hpass hpayload

/-- A greedy repetition takes as many characters as it can. -/
theorem realizes_charLoop (hop : i.opcode = .charLoop) :
    Realizes env A (Block.one env.program.instructions i)
      (Matcher.charTail i.direction pass n false false) := by
  rintro first last ⟨hi, rfl⟩ m s hm
  have hi' := hi
  rw [← hm.address_eq] at hi'
  obtain ⟨q, rest, hends, hchain, hq, hexecute⟩ :=
    execute_charLoop hpass hpayload hop hm.entry_eq hm.cursor_eq hm.sound.place_in
  change Delivers env A (first + 1) m.values m.frame (.running m)
    ((stops i.direction pass n s.place).reverse.map s.moveTo)
  rw [hends]
  cases rest with
  | nil =>
    exact .single (.execute hi' hexecute) ⟨⟨hm.goTo (congrArg (· + 1) hm.address_eq) rfl rfl
      (.refl _) hq, rfl, .refl _⟩, fun x hx => ⟨x, .refl _, hx⟩⟩
  | cons r rest =>
    obtain ⟨⟨hr, -⟩, hrest⟩ := List.isChain_cons_cons.1 hchain
    refine .arrived (.execute hi' hexecute) ⟨hm.goTo (congrArg (· + 1) hm.address_eq) rfl rfl
      (.refl _) hq, rfl, List.suffix_cons _ _, .refl _⟩ fun x hx => ?_
    refine delivers_charLoop_back hop hi hm hrest hr ⟨hx.values, ?_, hx.captures⟩
    rw [← hm.address_eq]
    exact hx.choices

/-- A greedy repetition that is cut keeps what it has taken. -/
theorem realizes_charLoopAtomic (hop : i.opcode = .charLoopAtomic) :
    Realizes env A (Block.one env.program.instructions i)
      (Matcher.charTail i.direction pass n false true) := by
  rintro first last ⟨hi, rfl⟩ m s hm
  have hi' := hi
  rw [← hm.address_eq] at hi'
  obtain ⟨q, rest, hends, hq, hexecute⟩ :=
    execute_charLoopAtomic hpass hpayload hop hm.entry_eq hm.cursor_eq hm.sound.place_in
  change Delivers env A (first + 1) m.values m.frame (.running m)
    (((stops i.direction pass n s.place).reverse.take 1).map s.moveTo)
  rw [hends]
  exact .single (.execute hi' hexecute) ⟨⟨hm.goTo (congrArg (· + 1) hm.address_eq) rfl rfl
    (.refl _) hq, rfl, .refl _⟩, fun x hx => ⟨x, .refl _, hx⟩⟩

/-- The characters that a repetition must take. -/
theorem realizes_charRep (hop : i.opcode = .charRep) :
    Realizes env A (Block.one env.program.instructions i)
      (fun s => goTo s (exactly i.direction pass n s.place)) := by
  intro first last hB m s hm
  refine delivers_moveOn hB hm ?_ fun p hp => in_of_exactly hm.sound.place_in hp
  have hcount : i.count = .ok (n : Int) := by rw [Instruction.count, hpayload]
  have hatom : i.atom = .ok test := by rw [Instruction.atom, hpayload]
  have htake := Surroundings.takeExactly_eq hpass n hm.sound.place_in
  rw [execute, hop]
  simp only [charRep, hm.entry_eq, hcount, hatom, hm.position_eq, Int.toNat_natCast, htake, bind,
    Except.bind]
  rfl

end

section

variable {env : Surroundings} {A : Status → Prop}

theorem charTail_zero (d : Direction) (pass : Char → Bool) (isLazy isCut : Bool) :
    Matcher.charTail d pass 0 isLazy isCut = stay := by
  funext s
  cases isLazy <;> cases isCut <;> rfl

theorem charTail_lazyCut (d : Direction) (pass : Char → Bool) (n : Nat) :
    Matcher.charTail d pass n true true = stay := by
  funext s
  change ((stops d pass n s.place).take 1).map s.moveTo = [s]
  rw [stops_eq_cons]
  rfl

/-- The instruction for the optional part of a repeated character, if there is one. -/
def tailBlock (code : Array Instruction) (instruction : Opcode → Instruction) :
    Option Opcode → Block
  | some opcode => Block.one code (instruction opcode)
  | none => Block.nothing

theorem realizes_charLoopBlock {ctx : LayoutContext} (hculture : ctx.culture = env.culture)
    (id : Nat) (options : Options) (atom : Atom) (min max : Nat) (isLazy : Bool) :
    Realizes env A (ctx.charLoopBlock env.program id options atom min max isLazy)
      (Matcher.charLoop options.direction (Matcher.passes env.culture options.ignoreCase atom) min
        (some (compiledCharSpare min max)) isLazy (ctx.analysis.isAtomicByAncestor id)) := by
  rintro first last ⟨test, middle, htest, hrep, htail⟩
  have hpass := Surroundings.passes_eq hculture htest
  let pass := Matcher.passes env.culture options.ignoreCase atom
  let R : Block := if 0 < min then Block.one env.program.instructions
    (LayoutContext.consuming options .charRep (.atomCount test min)) else Block.nothing
  have hR : Realizes env A R (fun s => goTo s (exactly options.direction pass min s.place)) := by
    by_cases hmin : 0 < min
    · simp only [R, if_pos hmin]
      exact realizes_charRep (i := LayoutContext.consuming options .charRep (.atomCount test min))
        hpass rfl rfl
    · obtain rfl : min = 0 := by omega
      exact realizes_nothing
  have hmiddle : R first middle := by
    by_cases hmin : 0 < min
    · simp only [R, if_pos hmin] at hrep ⊢
      exact hrep
    · simp only [R, if_neg hmin] at hrep ⊢
      exact hrep
  let T : Block := tailBlock env.program.instructions
    (fun opcode => LayoutContext.consuming options opcode (.atomCount test (Emitter.extra min max)))
    (ctx.charTail id min max isLazy)
  have hlast : T middle last := by
    simp only [T]
    cases htailop : ctx.charTail id min max isLazy with
    | none =>
      rw [htailop] at htail
      exact htail
    | some opcode =>
      rw [htailop] at htail
      exact htail
  have hT : Realizes env A T (Matcher.charTail options.direction pass (compiledCharSpare min max)
      isLazy (ctx.analysis.isAtomicByAncestor id)) := by
    simp only [T, LayoutContext.charTail, compiledCharSpare]
    by_cases hlt : min < max
    · rw [if_pos hlt, if_pos hlt]
      have hpos : 0 < Emitter.extra min max := by
        rw [Emitter.extra]
        split
        · decide
        · omega
      cases isLazy with
      | true =>
        cases ctx.analysis.isAtomicByAncestor id with
        | true =>
          rw [charTail_lazyCut]
          exact realizes_nothing
        | false =>
          exact realizes_charLazy (i := LayoutContext.consuming options .charLazy
            (.atomCount test (Emitter.extra min max))) hpass rfl rfl hpos
      | false =>
        cases ctx.analysis.isAtomicByAncestor id with
        | true =>
          exact realizes_charLoopAtomic (i := LayoutContext.consuming options .charLoopAtomic
            (.atomCount test (Emitter.extra min max))) hpass rfl rfl
        | false =>
          exact realizes_charLoop (i := LayoutContext.consuming options .charLoop
            (.atomCount test (Emitter.extra min max))) hpass rfl rfl
    · rw [if_neg hlt, if_neg hlt, charTail_zero]
      exact realizes_nothing
  intro m s hm
  rw [charLoop_eq]
  exact hR.andThen hT first last ⟨middle, hmiddle, hlast⟩ m s hm

end

end RegexMachine
