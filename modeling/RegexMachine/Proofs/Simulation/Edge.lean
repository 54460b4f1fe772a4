import RegexMachine.Proofs.Scan.Candidates
import RegexMachine.Proofs.Simulation.Attempt

/-!
# The edge of a tree

The filter of a tree is read off the first construct that the tree runs, and what stands around that
construct only opens before it. So a block whose edge does not hold where it is entered fails with
the stacks it was entered with, whatever the rest of the block does.
-/

namespace RegexMachine

open Status Machine Matcher

/-- Entered in this state, the block fails with the stacks it was entered with. -/
def Rejects (env : Surroundings) (B : Block) (s : MatchState) : Prop :=
  ∀ first last, B first last → ∀ m : Machine, m.Enters env first s →
    ∃ m' : Machine, Reaches env (.running m) (.failing m') ∧ m'.Stands m.frame

variable {env : Surroundings} {s : MatchState}

theorem Realizes.rejects {B : Block} {M : Matcher} (h : Realizes env (fun _ => False) B M)
    (hnone : M s = []) : Rejects env B s := by
  intro first last hB m hm
  have hd := h first last hB m s hm
  rw [hnone] at hd
  cases hd with
  | aborted reach hA => exact hA.elim
  | failed reach stands => exact ⟨_, reach, stands⟩

theorem rejects_nowhere : Rejects env (fun _ _ => False) s := fun _ _ h => h.elim

/-- A sequence rejects what its first block rejects, when those before it are empty. -/
theorem rejects_sequence {B : Block} (h : Rejects env B s) (rest : List Block) :
    ∀ {before : List Block}, (∀ P ∈ before, ∀ first last, P first last → first = last) →
      Rejects env (Block.sequence (before ++ B :: rest)) s := by
  intro before
  induction before with
  | nil =>
    rintro - first last ⟨middle, hB, -⟩ m hm
    exact h first middle hB m hm
  | cons P before ih =>
    rintro hempty first last ⟨middle, hP, hrest⟩ m hm
    obtain rfl := hempty P List.mem_cons_self first middle hP
    exact ih (fun Q hQ => hempty Q (List.mem_cons_of_mem _ hQ)) _ last hrest m hm

section

variable {B : Block} (h : Rejects env B s)

include h

/-- What has opened before a block fails with it, when what it left leads back. -/
theorem Rejects.opened {m opened : Machine} {first last : Nat} (hB : B first last)
    (hreach : Reaches env (.running m) (.running opened)) (hopened : opened.Enters env first s)
    (hback : ∀ x : Machine, x.Stands opened.frame →
      ∃ y : Machine, Reaches env (.failing x) (.failing y) ∧ y.Stands m.frame) :
    ∃ m' : Machine, Reaches env (.running m) (.failing m') ∧ m'.Stands m.frame := by
  obtain ⟨x, hfail, hx⟩ := h first last hB opened hopened
  obtain ⟨y, hback, hy⟩ := hback x hx
  exact ⟨y, hreach.trans (hfail.trans hback), hy⟩

theorem rejects_capture (group uncapture : Option Nat) :
    Rejects env (Block.capture env.program.instructions group uncapture B) s := by
  rintro first last ⟨closer, hopen, hB, -, -⟩ m hm
  rw [← hm.address_eq] at hopen
  have hbody : ((m.pushValue m.cursor).leave.continueAt (m.address + 1)).Enters env (first + 1) s :=
    hm.stay (congrArg (· + 1) hm.address_eq) rfl rfl (.refl _)
  exact h.opened hB (reaches_mark m.cursor hm.entry_eq (.inl ⟨rfl, rfl⟩) hopen) hbody
    fun x hx => unwind_mark (f := m.frame) (.inl rfl) hopen hx

theorem rejects_atomic (needsFrame : Bool) :
    Rejects env (Block.atomic env.program.instructions needsFrame B) s := by
  cases needsFrame with
  | false => exact h
  | true =>
    rintro first last ⟨closer, hopen, hB, -, -⟩ m hm
    rw [← hm.address_eq] at hopen
    have hbody : ((m.pushPair m.choices.depth m.captures.trail.depth).leave.continueAt
        (m.address + 1)).Enters env (first + 1) s :=
      hm.stay (congrArg (· + 1) hm.address_eq) rfl rfl (.refl _)
    exact h.opened hB (reaches_setjump hm.entry_eq hopen) hbody
      fun x hx => unwind_setjump (f := m.frame) hopen hx

theorem rejects_loop {min : Nat} (hmin : 1 ≤ min) (max : Nat) (isLazy : Bool) :
    Rejects env (Block.loop env.program.instructions min max isLazy B) s := by
  rintro first last ⟨closer, hopen, -, hB, -, -⟩ m hm
  rw [Block.loopStart, if_neg (by omega)] at hB
  rw [← hm.address_eq] at hopen
  have hbody : (({ m with
      values := loopValues (Emitter.isCounted min max) min m.values
        (if min = 0 then -1 else m.cursor) (if min = 0 then 0 else 1) } : Machine).leave.continueAt
          (m.address + 1)).Enters env (first + 1) s :=
    hm.stay (congrArg (· + 1) hm.address_eq) rfl rfl (.refl _)
  exact h.opened hB (reaches_opener hm.entry_eq hopen) hbody
    fun x hx => unwind_opener (f := m.frame) hopen hx

end

/-- A construct that only opens before the first of its parts that is not empty. -/
def Kind.Opens : Kind → Prop
  | .capture _ none | .atomic | .concat => True
  | .loop min _ _ => 1 ≤ min
  | _ => False

/-- Parts in the order in which they are run. -/
def Direction.order {α : Type} (d : Direction) (parts : List α) : List α :=
  match d with
  | .forward => parts
  | .backward => parts.reverse

section

variable {ctx : LayoutContext}

theorem eq_of_block_isEmpty {n : Node} (hn : n.isEmpty = true) {first last : Nat}
    (hB : ctx.block env.program n first last) : first = last := by
  obtain ⟨id, options, kind, children⟩ := n
  obtain rfl : kind = .empty := beq_iff_eq.1 hn
  rw [LayoutContext.block_node] at hB
  cases children with
  | nil => exact hB
  | cons c rest => exact hB.elim

theorem rejects_construct (id : Nat) (options : Options) {kind : Kind} (hkind : kind.Opens)
    {children : List Node} {n : Node}
    (hn : (options.direction.order children).find? (!·.isEmpty) = some n)
    (h : Rejects env (ctx.block env.program n) s) :
    Rejects env (ctx.block env.program (.node id options kind children)) s := by
  have hmem : n ∈ children := by
    have hmem := List.mem_of_find?_eq_some hn
    cases hd : options.direction with
    | forward => rwa [hd] at hmem
    | backward =>
      rw [hd] at hmem
      exact List.mem_reverse.1 hmem
  have hsingle : ∀ c, children = [c] → Rejects env (ctx.block env.program c) s := by
    rintro c rfl
    rwa [← List.mem_singleton.1 hmem]
  rw [LayoutContext.block_node]
  cases kind with
  | capture group uncapture =>
    rcases children with _ | ⟨body, _ | _⟩
    · exact rejects_nowhere
    · exact rejects_capture (hsingle body rfl) group uncapture
    · exact rejects_nowhere
  | atomic =>
    rcases children with _ | ⟨body, _ | _⟩
    · exact rejects_nowhere
    · exact rejects_atomic (hsingle body rfl) _
    · exact rejects_nowhere
  | loop min max isLazy =>
    rcases children with _ | ⟨body, _ | _⟩
    · exact rejects_nowhere
    · exact rejects_loop (hsingle body rfl) hkind max isLazy
    · exact rejects_nowhere
  | concat =>
    obtain ⟨-, before, rest, hparts, hbefore⟩ := List.find?_eq_some_iff_append.1 hn
    have hempty : ∀ P ∈ before.map (ctx.block env.program), ∀ first last,
        P first last → first = last := by
      intro P hP first last hB
      obtain ⟨x, hx, rfl⟩ := List.mem_map.1 hP
      exact eq_of_block_isEmpty (by simpa using hbefore x hx) hB
    have hsequence := rejects_sequence h (rest.map (ctx.block env.program)) hempty
    rw [← List.map_cons, ← List.map_append, ← hparts] at hsequence
    rcases children with _ | ⟨c, others⟩
    · exact rejects_nowhere
    · simp only [LayoutContext.blockOf]
      cases hd : options.direction with
      | forward =>
        rw [hd] at hsequence
        exact hsequence
      | backward =>
        rw [hd, Direction.order, List.map_reverse] at hsequence
        exact hsequence
  | _ => exact hkind.elim

end

namespace Place

variable {p q : Place} {c : Char}

theorem head?_after (h : p.read .forward = some (c, q)) : p.after.head? = some c := by
  obtain ⟨before, after⟩ := p
  cases after with
  | nil => cases h
  | cons a rest =>
    cases h
    rfl

theorem head?_before (h : p.read .backward = some (c, q)) : p.before.head? = some c := by
  obtain ⟨before, after⟩ := p
  cases before with
  | nil => cases h
  | cons b rest =>
    cases h
    rfl

end Place

namespace Matcher

variable {d : Direction} {p : Place}

/-- A run of characters ends where the next one does not pass. -/
theorem exactly_eq_none {pass : Char → Bool}
    (h : ∀ c q, p.read d = some (c, q) → pass c = false) {n : Nat} (hn : 1 ≤ n) :
    exactly d pass n p = none := by
  obtain ⟨k, rfl⟩ := Nat.exists_eq_add_one_of_ne_zero (Nat.ne_of_gt hn)
  rw [exactly]
  cases hr : p.read d with
  | none => rfl
  | some r =>
    obtain ⟨c, q⟩ := r
    simp [h c q hr]

/-- What a single character test does not let through forward. -/
theorem passes_of_ofAtom {culture : Culture} {ignoreCase : Bool} {a : Atom} {mode : FilterMode}
    (h : FilterMode.ofAtom culture ignoreCase a = some mode) {textStart : Nat}
    (hreject : mode.admits culture textStart p = false) {c : Char} {q : Place}
    (hread : p.read .forward = some (c, q)) : passes culture ignoreCase a c = false := by
  have hhead := Place.head?_after hread
  cases a with
  | one x =>
    cases ignoreCase with
    | true =>
      obtain rfl := Option.some.inj h
      simpa [FilterMode.admits, hhead, passes] using hreject
    | false =>
      obtain rfl := Option.some.inj h
      simpa [FilterMode.admits, hhead, passes] using hreject
  | notOne x => cases h
  | set k =>
    unfold FilterMode.ofAtom at h
    simp only at h
    split at h
    · next x hsingle =>
      -- A class that is written as one character is looked for as that character.
      obtain rfl := Option.some.inj h
      have hne : c ≠ x := by simpa [FilterMode.admits, hhead] using hreject
      refine Bool.eq_false_iff.2 fun hpass => hne (CharClass.eq_of_singleChar? hsingle ?_)
      simpa [passes] using hpass
    · obtain rfl := Option.some.inj h
      simpa [FilterMode.admits, hhead, passes] using hreject

/-- A string ends where its first character is not the next one. -/
theorem string_forward_eq_none {fold : Char → Char} {chars : List Char} {x : Char}
    (hchars : chars.head? = some x) (h : p.after.head?.map fold ≠ some x) :
    string .forward fold chars p = none := by
  cases chars with
  | nil => cases hchars
  | cons y rest =>
    obtain rfl := Option.some.inj hchars
    rw [string, literal]
    cases hr : p.read .forward with
    | none => rfl
    | some r =>
      rw [Place.head?_after hr] at h
      have hne : fold r.1 ≠ y := fun heq => h (congrArg some heq)
      simp [hne]

theorem string_backward_eq_none {fold : Char → Char} {chars : List Char} {x : Char}
    (hchars : chars.getLast? = some x) (h : p.before.head?.map fold ≠ some x) :
    string .backward fold chars p = none := by
  rw [← List.head?_reverse] at hchars
  rw [string]
  cases hrev : chars.reverse with
  | nil =>
    rw [hrev] at hchars
    cases hchars
  | cons y rest =>
    rw [hrev] at hchars
    obtain rfl := Option.some.inj hchars
    rw [literal]
    cases hr : p.read .backward with
    | none => rfl
    | some r =>
      rw [Place.head?_before hr] at h
      have hne : fold r.1 ≠ y := fun heq => h (congrArg some heq)
      simp [hne]

theorem string_eq_none_of_isPrefixOf {chars : List Char} (h : chars.isPrefixOf p.after = false) :
    string .forward (fun c => c) chars p = none := by
  rw [string]
  induction chars generalizing p with
  | nil => cases h
  | cons x rest ih =>
    rw [literal]
    cases hr : p.read .forward with
    | none => rfl
    | some r =>
      obtain ⟨before, after⟩ := p
      cases after with
      | nil => cases hr
      | cons a after =>
        cases hr
        by_cases hx : a = x
        · subst hx
          simp only [List.isPrefixOf, beq_self_eq_true, Bool.true_and] at h
          have hrest := ih (p := ⟨a :: before, after⟩) h
          simpa using hrest
        · simp [hx]

end Matcher

section

variable {ctx : LayoutContext} (hculture : ctx.culture = env.culture) {mode : FilterMode}

include hculture

/-- A leaf that has no outcome from a state rejects it. -/
theorem rejects_char (id : Nat) (options : Options) (atom : Atom) (children : List Node)
    (h : ∀ c q, s.place.read options.direction = some (c, q) →
      passes env.culture options.ignoreCase atom c = false) :
    Rejects env (ctx.block env.program (.node id options (.char atom) children)) s := by
  rw [LayoutContext.block_node]
  cases children with
  | nil =>
    refine (realizes_char hculture options atom).rejects ?_
    rw [exactly_eq_none h (Nat.le_refl 1), goTo]
  | cons c rest => exact rejects_nowhere

theorem rejects_charLoop (id : Nat) (options : Options) (atom : Atom) {min : Nat} (hmin : 1 ≤ min)
    (max : Nat) (isLazy : Bool) (children : List Node)
    (h : ∀ c q, s.place.read options.direction = some (c, q) →
      passes env.culture options.ignoreCase atom c = false) :
    Rejects env (ctx.block env.program (.node id options (.charLoop atom min max isLazy) children))
      s := by
  rw [LayoutContext.block_node]
  cases children with
  | nil =>
    refine (realizes_charLoopBlock hculture id options atom min max isLazy).rejects ?_
    rw [Matcher.charLoop, exactly_eq_none h hmin]
  | cons c rest => exact rejects_nowhere

omit hculture in
theorem rejects_anchor (id : Nat) (options : Options) {anchor : Anchor} (hanchor : anchor ≠ .endZ)
    (children : List Node) (h : holdsAt env.textStart s.place anchor = false) :
    Rejects env (ctx.block env.program (.node id options (.anchor anchor) children)) s := by
  rw [LayoutContext.block_node]
  cases children with
  | nil =>
    refine (realizes_anchor anchor fun heq => absurd heq hanchor).rejects ?_
    simp [h]
  | cons c rest => exact rejects_nowhere

theorem rejects_multi (id : Nat) (options : Options) (chars : List Char) (children : List Node)
    (h : Matcher.string options.direction
      (fun c => if options.ignoreCase then env.culture.fold c else c)
      (chars.map fun c => if options.ignoreCase then env.culture.fold c else c) s.place = none) :
    Rejects env (ctx.block env.program (.node id options (.multi chars) children)) s := by
  rw [LayoutContext.block_node]
  cases children with
  | nil =>
    simp only [LayoutContext.blockOf, hculture]
    refine (realizes_multi options _).rejects ?_
    rw [h, goTo]
  | cons c rest => exact rejects_nowhere

/-- Where the mode of what a node runs first does not hold, the node fails. -/
theorem rejects_leading {n : Node} : ∀ {mode : FilterMode},
    FilterMode.leading env.culture n = some mode →
      mode.admits env.culture env.textStart s.place = false →
        Rejects env (ctx.block env.program n) s := by
  induction n using Node.induction with
  | step id options kind children ih =>
    intro mode hmode hreject
    unfold FilterMode.leading at hmode
    split at hmode
    · cases hmode
    next hforward =>
    have hdirection : options.direction = .forward := if_neg hforward
    have hin : kind.Opens → FilterMode.leadingIn env.culture children = some mode →
        Rejects env (ctx.block env.program (.node id options kind children)) s := by
      intro hopens hmode
      rw [FilterMode.leadingIn_eq] at hmode
      obtain ⟨n, hn, hmode⟩ := Option.bind_eq_some_iff.1 hmode
      refine rejects_construct id options hopens ?_
        (ih n (List.mem_of_find?_eq_some hn) hmode hreject)
      rwa [hdirection]
    have hatom : ∀ atom, FilterMode.ofAtom env.culture options.ignoreCase atom = some mode →
        ∀ c q, s.place.read options.direction = some (c, q) →
          passes env.culture options.ignoreCase atom c = false := by
      intro atom hmode c q hread
      rw [hdirection] at hread
      exact passes_of_ofAtom hmode hreject hread
    split at hmode
    case h_1 | h_2 | h_3 => exact hin trivial hmode
    case h_4 min max isLazy =>
      split at hmode
      · next hmin => exact hin hmin hmode
      · cases hmode
    case h_5 =>
      obtain rfl := Option.some.inj hmode
      exact rejects_anchor id options (by decide) children hreject
    case h_6 =>
      obtain rfl := Option.some.inj hmode
      exact rejects_anchor id options (by decide) children hreject
    case h_7 chars =>
      refine rejects_multi hculture id options chars children ?_
      rw [hdirection]
      split at hmode
      · next hcase =>
        obtain ⟨c, hc, rfl⟩ := Option.map_eq_some_iff.1 hmode
        simp only [hcase, if_true]
        refine string_forward_eq_none (by rw [List.head?_map, hc]; rfl) fun heq => ?_
        rw [FilterMode.admits, heq] at hreject
        exact absurd hreject (by simp)
      · next hcase =>
        obtain rfl := Option.some.inj hmode
        simp only [hcase, Bool.false_eq_true, if_false, List.map_id']
        exact string_eq_none_of_isPrefixOf hreject
    case h_8 atom => exact rejects_char hculture id options atom children (hatom atom hmode)
    case h_9 atom min max isLazy =>
      split at hmode
      · next hmin =>
        exact rejects_charLoop hculture id options atom hmin max isLazy children (hatom atom hmode)
      · cases hmode
    case h_10 => cases hmode

/-- Where the mode of what a node runs first backward does not hold, the node fails. -/
theorem rejects_trailing {n : Node} : ∀ {mode : FilterMode},
    FilterMode.trailing n = some mode →
      mode.admits env.culture env.textStart s.place = false →
        Rejects env (ctx.block env.program n) s := by
  induction n using Node.induction with
  | step id options kind children ih =>
    intro mode hmode hreject
    unfold FilterMode.trailing at hmode
    split at hmode
    · cases hmode
    next hbackward =>
    have hdirection : options.direction = .backward := if_pos (by simpa using hbackward)
    have hin : kind.Opens → (FilterMode.trailingIn children).join = some mode →
        Rejects env (ctx.block env.program (.node id options kind children)) s := by
      intro hopens hmode
      rw [FilterMode.join_trailingIn] at hmode
      obtain ⟨n, hn, hmode⟩ := Option.bind_eq_some_iff.1 hmode
      refine rejects_construct id options hopens ?_
        (ih n (List.mem_reverse.1 (List.mem_of_find?_eq_some hn)) hmode hreject)
      rwa [hdirection]
    have hone : ∀ x, options.ignoreCase = false → mode = .trailingChar x →
        ∀ c q, s.place.read options.direction = some (c, q) →
          passes env.culture options.ignoreCase (.one x) c = false := by
      rintro x hcase rfl c q hread
      rw [hdirection] at hread
      simpa [FilterMode.admits, Place.head?_before hread, passes, hcase] using hreject
    split at hmode
    case h_1 | h_2 | h_3 => exact hin trivial hmode
    case h_4 min max isLazy =>
      split at hmode
      · next hmin => exact hin hmin hmode
      · cases hmode
    case h_5 =>
      obtain rfl := Option.some.inj hmode
      exact rejects_anchor id options (by decide) children hreject
    case h_6 chars =>
      split at hmode
      · cases hmode
      · next hcase =>
        obtain ⟨c, hc, rfl⟩ := Option.map_eq_some_iff.1 hmode
        refine rejects_multi hculture id options chars children ?_
        simp only [hdirection, hcase, Bool.false_eq_true, if_false, List.map_id']
        refine string_backward_eq_none hc fun heq => ?_
        have hhead : s.place.before.head? = some c := by simpa using heq
        rw [FilterMode.admits, hhead] at hreject
        exact absurd hreject (by simp)
    case h_7 x =>
      split at hmode
      · cases hmode
      · next hcase =>
        obtain rfl := Option.some.inj hmode
        exact rejects_char hculture id options _ children (hone x (by simpa using hcase) rfl)
    case h_8 x min max isLazy =>
      split at hmode
      · next hcond =>
        obtain rfl := Option.some.inj hmode
        obtain ⟨hmin, hcase⟩ : 1 ≤ min ∧ options.ignoreCase = false := by simpa using hcond
        exact rejects_charLoop hculture id options _ hmin max isLazy children (hone x hcase rfl)
      · cases hmode
    case h_9 => cases hmode

end

/-- Where the filter of a tree does not let a match start, the block of the tree fails. -/
theorem rejects_root {t : Tree} {ctx : LayoutContext} (hculture : ctx.culture = env.culture)
    (hreject : (StartFilter.ofTree t env.culture).mode.admits env.culture env.textStart s.place =
      false) : Rejects env (ctx.block env.program t.root) s := by
  have hmode : ∀ mode? : Option FilterMode,
      (mode?.getD .noSearch).admits env.culture env.textStart s.place = false →
        ∃ mode, mode? = some mode ∧ mode.admits env.culture env.textStart s.place = false := by
    intro mode? h
    cases mode? with
    | none => cases h
    | some mode => exact ⟨mode, rfl, h⟩
  rw [StartFilter.ofTree] at hreject
  cases hdirection : t.direction with
  | forward =>
    rw [hdirection] at hreject
    obtain ⟨mode, hleading, hreject⟩ := hmode _ hreject
    exact rejects_leading hculture hleading hreject
  | backward =>
    rw [hdirection] at hreject
    obtain ⟨mode, htrailing, hreject⟩ := hmode _ hreject
    exact rejects_trailing hculture htrailing hreject

/-- A program that runs a rejecting block between its first instruction and its last ends where it
started. -/
theorem reaches_end_of_rejects {B : Block} {last : Nat} (hB : Rejects env B s)
    (hopening : env.program.instructions[0]? = some (Block.jumping .lazybranch last))
    (hblock : B 1 last) (hstop : env.program.instructions[last]? = some { opcode := .stop })
    {m : Machine} (hm : m.Enters env 0 s) :
    ∃ m' : Machine, Reaches env (.running m) (.ended (m'.captures.isMatched 0) m') ∧
      m'.Enters env last s := by
  have hi := hopening
  rw [← hm.address_eq] at hi
  have hreach := reaches_lazybranch hm.entry_eq hi
  have hentered : ((m.leave m.cursor).continueAt (m.address + 1)).Enters env 1 s :=
    hm.stay (congrArg (· + 1) hm.address_eq) rfl rfl (.refl _)
  obtain ⟨x, hfail, hstands⟩ := hB 1 last hblock _ hentered
  have hbranched : x.Stands
      { m.frame with choices := m.choices.push (branchPoint 0 m.cursor) } := by
    rw [← hm.address_eq]
    exact hstands
  obtain ⟨y, hback, hy, -⟩ := enters_branch hopening hm hbranched
  rw [← hy.address_eq] at hstop
  exact ⟨y, hreach.trans (hfail.trans (hback.trans (.execute hstop rfl))), hy⟩

end RegexMachine
