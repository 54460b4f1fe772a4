import RegexMachine.Proofs.Attempts.Results

/-!
# Extents of matches

A match extends from the place of its attempt to a place that is not behind it. A scan enters the
match at the one and leaves it at the other, whichever its direction.
-/

namespace RegexMachine

namespace Span

/-- Where a scan enters the span. -/
def entry (d : Direction) (s : Span) : Nat :=
  match d with
  | .forward => s.start
  | .backward => s.stop

/-- Where a scan leaves the span. -/
def exit (d : Direction) (s : Span) : Nat :=
  match d with
  | .forward => s.stop
  | .backward => s.start

theorem entry_exit_between {d : Direction} {p q : Place} (hchars : p.chars = q.chars)
    (hle : q.ahead d ≤ p.ahead d) :
    let s : Span := ⟨min p.offset q.offset, max p.offset q.offset - min p.offset q.offset⟩
    s.entry d = p.offset ∧ s.exit d = q.offset := by
  intro s
  cases d with
  | forward =>
    have hoffset := Place.offset_le_of_ahead_le hchars hle
    change min p.offset q.offset = p.offset ∧
      min p.offset q.offset + (max p.offset q.offset - min p.offset q.offset) = q.offset
    omega
  | backward =>
    have hoffset := Place.offset_le_of_ahead_le_backward hchars hle
    change min p.offset q.offset + (max p.offset q.offset - min p.offset q.offset) = p.offset ∧
      min p.offset q.offset = q.offset
    omega

theorem length_eq_zero_iff (d : Direction) (s : Span) : s.length = 0 ↔ s.entry d = s.exit d := by
  cases d with
  | forward =>
    change s.length = 0 ↔ s.start = s.start + s.length
    omega
  | backward =>
    change s.length = 0 ↔ s.start + s.length = s.start
    omega

end Span

namespace Tree

variable {t : Tree} {body : Node}

/-- The whole match of an outcome lies between the place of the attempt and its own. -/
theorem Sound.captured_zero_eq (h : t.Sound body) {reading : Reading} {σ : Setting}
    {s u : MatchState} (hu : u ∈ t.root.matcher reading σ s) :
    (u.captured 0).head? = some ⟨min s.place.offset u.place.offset,
      max s.place.offset u.place.offset - min s.place.offset u.place.offset⟩ := by
  obtain ⟨id, options, hroot⟩ := h.root_eq
  rw [hroot, Node.matcher_node] at hu
  obtain ⟨v, -, hclose⟩ := List.mem_filterMap.1 hu
  obtain ⟨captured, hcaptured, rfl⟩ := Option.map_eq_some_iff.1 hclose
  cases hcaptured
  simp

end Tree

/-- The hit ends where the outcome does, with its captures. -/
structure Hit.Reaches (env : Surroundings) (hit : Hit) (o : MatchState) : Prop where
  cursor : hit.cursor = o.place.offset
  proper : hit.captures.Proper
  left : hit.captures.left = o.captured
  size : hit.captures.groups.size = env.program.groupCount

namespace Surroundings

variable {env : Surroundings} {t : Tree} {config : CompileConfig} {p : Place}

/-- What an attempt of a plain tree gives is the first outcome of the tree, or nothing when there is
none. -/
theorem Gives.first_outcome (hplain : t.Plain env.culture)
    (hcompile : Program.compile t env.culture config = .ok env.program)
    (hlimit : env.text.chars.length < unbounded) (hp : p.In env.text) {result : Option Hit}
    (h : env.Gives p result) :
    let outcomes := t.root.matcher Reading.plain (t.setting env.culture env.text env.textStart) p.start
    result.isSome = outcomes.head?.isSome ∧ ∀ hit ∈ result, ∀ o ∈ outcomes.head?, hit.Reaches env o := by
  intro outcomes
  obtain ⟨enough, hgives⟩ := h
  have hat := ScanState.at_standing env p
  obtain ⟨enough', hsettles⟩ := hplain.attempt_settles hcompile hlimit hp hat.textPos hat.size hat.untimed
  obtain ⟨x, hx, -, -, -, hhit⟩ := hgives (max enough enough') (Nat.le_max_left _ _) _ hat
  obtain ⟨y, hy, hpos, hproper, hleft, hsize⟩ := hsettles (max enough enough') (Nat.le_max_right _ _)
  obtain ⟨hfound, rfl⟩ := EStateM.Result.ok.inj (hx.symm.trans hy)
  refine ⟨hfound, fun hit hresult o ho => ?_⟩
  obtain ⟨hcursor, hcaptures⟩ := hhit hit hresult
  have hhead : (t.root.matcher Reading.plain
      (t.setting env.culture env.text (ScanState.standing env p).textStart) p.start).head? =
        some o := ho
  rw [Matcher.settled, hhead] at hpos hleft
  rw [hcaptures] at hproper hleft hsize
  exact ⟨hcursor.symm.trans hpos, hproper, hleft, hsize⟩

/-- The hit of a plain tree is an outcome of the tree. -/
theorem Gives.exists_outcome (hplain : t.Plain env.culture)
    (hcompile : Program.compile t env.culture config = .ok env.program)
    (hlimit : env.text.chars.length < unbounded) (hp : p.In env.text) {hit : Hit}
    (h : env.Gives p (some hit)) :
    ∃ o ∈ t.root.matcher Reading.plain (t.setting env.culture env.text env.textStart) p.start,
      hit.cursor = o.place.offset ∧ hit.captures.Proper ∧ hit.captures.left = o.captured := by
  obtain ⟨hfound, hreaches⟩ := h.first_outcome hplain hcompile hlimit hp
  obtain ⟨o, ho⟩ := Option.isSome_iff_exists.1 hfound.symm
  have hhit := hreaches hit rfl o ho
  exact ⟨o, List.mem_of_mem_head? ho, hhit.cursor, hhit.proper, hhit.left⟩

/-- A hit of a plain tree is a match that starts at the place of the attempt and does not end behind
it. -/
theorem Gives.exists_exit (hplain : t.Plain env.culture) (hlinear : t.Linear)
    (hcompile : Program.compile t env.culture config = .ok env.program)
    (hlimit : env.text.chars.length < unbounded) (hp : p.In env.text) {hit : Hit}
    (h : env.Gives p (some hit)) :
    ∃ (q : Place) (spans : Spans), q.In env.text ∧
      q.ahead env.program.direction ≤ p.ahead env.program.direction ∧
        hit.captures.publish? = some spans ∧
          spans.whole.entry env.program.direction = p.offset ∧
            spans.whole.exit env.program.direction = q.offset := by
  obtain ⟨body, hsound⟩ := hplain.unshared.sound
  obtain ⟨last, hcompiled⟩ := Program.compiled_of_compile hcompile
  obtain ⟨o, ho, -, hproper, hleft⟩ := h.exists_outcome hplain hcompile hlimit hp
  have hin : o.place.In env.text :=
    (Node.keepsSound_matcher _ _ _ _ o ho (Machine.enters_initial hp).sound).place_in
  have hle := hlinear.onward _ _ _ o ho
  rw [← hcompiled.options] at hle
  have hhead := hsound.captured_zero_eq ho
  rw [← hleft] at hhead
  obtain ⟨spans, hpublish, hwhole⟩ := Captures.whole_publish hproper hhead
  refine ⟨o.place, spans, hin, hle, hpublish, ?_⟩
  rw [hwhole]
  exact Span.entry_exit_between (hp.trans hin.symm) hle

end Surroundings

end RegexMachine
