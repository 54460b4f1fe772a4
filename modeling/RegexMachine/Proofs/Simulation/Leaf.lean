import RegexMachine.Proofs.Simulation.Delivers
import RegexMachine.Proofs.Simulation.Reading

/-!
# Blocks of single characters, strings and assertions

Blocks that leave no choice point move on to one place or fail. A repeated character leaves a choice
point for the next of the places where its run may end, and delivers them in turn.
-/

namespace RegexMachine

open Status Machine Matcher

namespace Machine.Enters

variable {env : Surroundings} {address : Nat} {s : MatchState} {m : Machine}

/-- Another machine with the same captures enters where it has moved to. -/
theorem goTo (h : m.Enters env address s) {m' : Machine} {last : Nat} {p : Place}
    (haddress : m'.address = last) (hentry : m'.entry = .forward)
    (hcursor : m'.cursor = markOf p.offset) (hcaptures : m'.captures.Back m.captures)
    (hp : p.In env.text) : m'.Enters env last (s.moveTo p) where
  address_eq := haddress
  entry_eq := hentry
  cursor_eq := hcursor
  left_eq := hcaptures.left.trans h.left_eq
  proper := hcaptures.proper h.proper
  size_eq := by rw [hcaptures.groups, h.size_eq]
  sound := h.sound.moveTo hp

theorem stay (h : m.Enters env address s) {m' : Machine} {last : Nat}
    (haddress : m'.address = last) (hentry : m'.entry = .forward) (hcursor : m'.cursor = m.cursor)
    (hcaptures : m'.captures.Back m.captures) : m'.Enters env last s :=
  h.goTo (p := s.place) haddress hentry (hcursor.trans h.cursor_eq) hcaptures h.sound.place_in

theorem position_eq (h : m.Enters env address s) : m.position = s.place.offset := by
  rw [position, h.cursor_eq, positionOf_markOf]

end Machine.Enters

variable {env : Surroundings} {A : Status → Prop} {i : Instruction}

theorem realizes_nothing : Realizes env A Block.nothing stay := by
  intro first last hB m s hm
  cases hB
  exact .single (.refl _) ⟨⟨hm, rfl, .refl _⟩, fun x hx => ⟨x, .refl _, hx⟩⟩

section

variable {m : Machine} {s : MatchState} {first last : Nat}
  (hB : Block.one env.program.instructions i first last) (hm : m.Enters env first s)

include hB hm

/-- An instruction that moves on to one place, or backtracks. -/
theorem delivers_moveOn {p? : Option Place}
    (hexecute : m.execute env i = .ok (m.moveOn (p?.map Place.offset)))
    (hin : ∀ p, p? = some p → p.In env.text) :
    Delivers env A last m.values m.frame (.running m) (goTo s p?) := by
  obtain ⟨hi, rfl⟩ := hB
  rw [← hm.address_eq] at hi
  have hreach := Reaches.execute hi hexecute
  cases p? with
  | none => exact .failed hreach (.refl m)
  | some p =>
    refine .single hreach ⟨⟨?_, rfl, .refl _⟩, fun x hx => ⟨x, .refl _, hx⟩⟩
    exact hm.goTo (congrArg (· + 1) hm.address_eq) rfl rfl (.refl _) (hin p rfl)

theorem delivers_check (holds : Bool) (hexecute : m.execute env i = .ok (m.check holds)) :
    Delivers env A last m.values m.frame (.running m) (if holds then [s] else []) := by
  obtain ⟨hi, rfl⟩ := hB
  rw [← hm.address_eq] at hi
  have hreach := Reaches.execute hi hexecute
  cases holds with
  | false => exact .failed hreach (.refl m)
  | true =>
    refine .single hreach ⟨⟨?_, rfl, .refl _⟩, fun x hx => ⟨x, .refl _, hx⟩⟩
    exact hm.stay (congrArg (· + 1) hm.address_eq) rfl rfl (.refl _)

end

theorem realizes_fail :
    Realizes env A (Block.one env.program.instructions { opcode := .nothing }) (fun _ => []) := by
  rintro first last ⟨hi, rfl⟩ m s hm
  rw [← hm.address_eq] at hi
  exact .failed (.execute hi rfl) (.refl m)

theorem realizes_anchor (anchor : Anchor)
    (hsize : anchor = .endZ → env.text.size < lastPosition) :
    Realizes env A
      (Block.one env.program.instructions { opcode := LayoutContext.anchorOpcode anchor })
      (fun s => if holdsAt env.textStart s.place anchor then [s] else []) := by
  intro first last hB m s hm
  refine delivers_check hB hm _ ?_
  have hassert := assertion?_eq hm.sound.place_in anchor hsize
  have hexecute : m.execute env { opcode := LayoutContext.anchorOpcode anchor } =
      assertion env { opcode := LayoutContext.anchorOpcode anchor } m := by
    cases anchor <;> rfl
  rw [hexecute, assertion, hm.entry_eq, hm.position_eq]
  simp only [hassert]
  rfl

theorem in_of_exactly {text : Text} {d : Direction} {pass : Char → Bool} {n : Nat} {p q : Place}
    (hp : p.In text) (h : exactly d pass n p = some q) : q.In text :=
  place_of_exactly (fun _ _ _ (hp : Place.In _ text) hr => hp.of_read hr) hp h

theorem in_of_string {text : Text} {d : Direction} {fold : Char → Char} {chars : List Char}
    {p q : Place} (hp : p.In text) (h : Matcher.string d fold chars p = some q) : q.In text :=
  place_of_string (fun _ _ _ (hp : Place.In _ text) hr => hp.of_read hr) hp h

section

variable {ctx : LayoutContext} (hculture : ctx.culture = env.culture) (options : Options)

include hculture in
theorem realizes_char (atom : Atom) :
    Realizes env A (fun first last => ∃ test, ctx.Tests env.program options.ignoreCase atom test ∧
        Block.one env.program.instructions
          (LayoutContext.consuming options .char (.atom test)) first last)
      (fun s => goTo s (exactly options.direction
        (Matcher.passes env.culture options.ignoreCase atom) 1 s.place)) := by
  rintro first last ⟨test, htest, hB⟩ m s hm
  refine delivers_moveOn hB hm ?_ fun p hp => in_of_exactly hm.sound.place_in hp
  have hpass := Surroundings.passes_eq hculture htest
  have hread := Text.read_offset hm.sound.place_in options.direction
  change char env _ m = _
  rw [char, hm.entry_eq, hm.position_eq]
  simp only [LayoutContext.consuming, Instruction.atom, hread, bind, Except.bind, exactly]
  cases hr : s.place.read options.direction with
  | none => rfl
  | some r =>
    obtain ⟨c, q⟩ := r
    simp only [Option.map_some, hpass]
    by_cases hc : Matcher.passes env.culture options.ignoreCase atom c = true
    · rw [if_pos hc, if_pos hc]
      rfl
    · rw [if_neg hc, if_neg hc]
      rfl

theorem realizes_multi (chars : List Char) :
    Realizes env A
      (Block.one env.program.instructions (LayoutContext.consuming options .multi (.multi chars)))
      (fun s => goTo s (Matcher.string options.direction
        (fun c => if options.ignoreCase then env.culture.fold c else c) chars s.place)) := by
  intro first last hB m s hm
  refine delivers_moveOn hB hm ?_ fun p hp => in_of_string hm.sound.place_in hp
  have hstring : env.readString (LayoutContext.consuming options .multi (.multi chars)) _ _ = _ :=
    Surroundings.readString_eq chars hm.sound.place_in
  change multi env _ m = _
  rw [multi, hm.entry_eq, hm.position_eq]
  simp only [Instruction.string, LayoutContext.consuming, bind, Except.bind] at hstring ⊢
  rw [hstring]
  rfl

/-- A reference to a group that took part reads what the group captured. -/
theorem execute_backreference {m : Machine} {group : Nat} {span : Span} {chars : List Char}
    (hop : i.opcode = .backreference) (hentry : m.entry = .forward) (hgroup : i.group = .ok group)
    (hspan : m.captures.span? group = some span)
    (hchars : env.text.charsBetween span.start span.stop = .ok chars) :
    m.execute env i = (env.readString i
      (chars.map fun c => if i.ignoreCase then env.culture.fold c else c) m.position).map
        m.moveOn := by
  have hfold : (if i.ignoreCase then chars.map env.culture.fold else chars) =
      chars.map fun c => if i.ignoreCase then env.culture.fold c else c := by
    cases i.ignoreCase <;> simp
  have hexecute : m.execute env i = Machine.backreference env i m := by rw [execute, hop]
  rw [hexecute, Machine.backreference, hentry]
  simp only [hgroup, hspan, hchars, bind, Except.bind, hfold]
  cases env.readString i (chars.map fun c => if i.ignoreCase then env.culture.fold c else c)
    m.position <;> rfl

theorem realizes_backreference (group : Nat) :
    Realizes env A
      (Block.one env.program.instructions
        (LayoutContext.consuming options .backreference (.group group)))
      (Matcher.backreference env.setting options group) := by
  intro first last hB m s hm
  have hspan : m.captures.span? group = (s.captured group).head? := by
    rw [Captures.span?_eq hm.proper, hm.left_eq]
  rw [Matcher.backreference]
  cases hhead : (s.captured group).head? with
  | none =>
    refine delivers_check hB hm env.program.options.ecmaScript ?_
    change Machine.backreference env _ m = _
    rw [Machine.backreference, hm.entry_eq]
    simp only [Instruction.group, LayoutContext.consuming, hspan, hhead, bind, Except.bind]
    rfl
  | some span =>
    have hbounds := hm.sound.spans group span (List.mem_of_mem_head? hhead)
    obtain ⟨chars, hchars⟩ := Text.charsBetween_of_boundaries (Nat.le_add_right _ _)
      hbounds.1 hbounds.2
    have hexpected : (env.setting.text.charsBetween span.start span.stop).toOption.getD [] =
        chars := by
      change (env.text.charsBetween span.start (span.start + span.length)).toOption.getD [] = _
      rw [hchars]
      rfl
    refine delivers_moveOn hB hm ?_ fun p hp => in_of_string hm.sound.place_in hp
    rw [execute_backreference rfl hm.entry_eq rfl (hspan.trans hhead) hchars, hm.position_eq,
      Surroundings.readString_eq _ hm.sound.place_in, hexpected]
    rfl

end

end RegexMachine
