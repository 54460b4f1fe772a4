import RegexMachine.Proofs.Text.Passing
import RegexMachine.Proofs.Tree.Occurrences
import RegexMachine.StartFilter

/-!
# Candidates

What the mode of a filter asks of a place, and that the filter of a tree goes from a place to the
next one where its mode holds. It never goes back and does not fail at a boundary.
-/

namespace RegexMachine

theorem CharClass.eq_of_singleChar? {k : CharClass} {x c : Char} (hk : k.singleChar? = some x)
    (hc : k.contains c = true) : c = x := by
  obtain ⟨⟨negated, ranges, categories⟩, subtracted⟩ := k
  simp only [singleChar?] at hk
  split at hk
  · cases hk
  · next hplain =>
    simp only [Bool.or_eq_true, Bool.not_eq_true', not_or, Bool.not_eq_true,
      Bool.not_eq_false, Categories.isEmpty, beq_iff_eq] at hplain
    obtain ⟨⟨rfl, rfl⟩, -⟩ := hplain
    split at hk
    · next first last =>
      split at hk
      · next heq =>
        obtain rfl := Option.some.inj hk
        subst heq
        simp only [contains, inLayers, ClassLayer.contains, ClassLayer.inRanges, Categories.contains,
          List.any_cons, List.any_nil, Bool.false_and, Bool.or_false, Bool.bne_false,
          Bool.and_eq_true, decide_eq_true_eq] at hc
        exact Char.le_antisymm hc.1.2 hc.1.1
      · cases hk
    · cases hk

namespace FilterMode

/-- Whether a mode lets a match start at a place. -/
def admits (culture : Culture) (textStart : Nat) (p : Place) : FilterMode → Bool
  | noSearch => true
  | leadingBeginning => p.before.isEmpty
  | leadingStart => p.offset == textStart
  | leadingString chars => chars.isPrefixOf p.after
  | leadingChar c => p.after.head? == some c
  | leadingCharIgnoreCase c => p.after.head?.map culture.fold == some c
  | leadingSet k ignoreCase =>
      p.after.head?.any fun c => k.contains (if ignoreCase then culture.fold c else c)
  | trailingEnd => p.after.isEmpty
  | trailingChar c => p.before.head? == some c

/-- A mode that moves on in this direction. -/
def Faces (d : Direction) : FilterMode → Prop
  | noSearch => True
  | trailingEnd | trailingChar _ => d = .backward
  | _ => d = .forward

theorem leadingIn_eq (culture : Culture) (ns : List Node) :
    leadingIn culture ns = (ns.find? (!·.isEmpty)).bind (leading culture) := by
  induction ns with
  | nil => rfl
  | cons n rest ih =>
    rw [leadingIn, List.find?_cons, ih]
    cases n.isEmpty <;> rfl

theorem trailingIn_eq (ns : List Node) :
    trailingIn ns = (ns.reverse.find? (!·.isEmpty)).map trailing := by
  induction ns with
  | nil => rfl
  | cons n rest ih =>
    rw [trailingIn, List.reverse_cons, List.find?_append, ih]
    cases rest.reverse.find? (!·.isEmpty) with
    | some x => rfl
    | none => cases h : n.isEmpty <;> simp [h]

theorem join_trailingIn (ns : List Node) :
    (trailingIn ns).join = (ns.reverse.find? (!·.isEmpty)).bind trailing := by
  rw [trailingIn_eq]
  cases ns.reverse.find? (!·.isEmpty) <;> rfl

theorem faces_ofAtom {culture : Culture} {ignoreCase : Bool} {a : Atom} {mode : FilterMode}
    (h : ofAtom culture ignoreCase a = some mode) : mode.Faces .forward := by
  unfold ofAtom at h
  cases a with
  | one c =>
    simp only at h
    split at h <;> cases h <;> rfl
  | set k =>
    simp only at h
    split at h <;> cases h <;> rfl
  | notOne c => cases h

theorem faces_leading {culture : Culture} {n : Node} : ∀ {mode : FilterMode},
    leading culture n = some mode → mode.Faces .forward := by
  induction n using Node.induction with
  | step id options kind children ih =>
    intro mode h
    have hin : leadingIn culture children = some mode → mode.Faces .forward := by
      intro h
      rw [leadingIn_eq] at h
      obtain ⟨n, hn, hmode⟩ := Option.bind_eq_some_iff.1 h
      exact ih n (List.mem_of_find?_eq_some hn) hmode
    unfold leading at h
    split at h
    · cases h
    · split at h
      case h_1 | h_2 | h_3 => exact hin h
      case h_4 =>
        split at h
        · exact hin h
        · cases h
      case h_5 | h_6 =>
        cases h
        rfl
      case h_7 =>
        split at h
        · obtain ⟨c, -, rfl⟩ := Option.map_eq_some_iff.1 h
          rfl
        · cases h
          rfl
      case h_8 => exact faces_ofAtom h
      case h_9 =>
        split at h
        · exact faces_ofAtom h
        · cases h
      case h_10 => cases h

theorem faces_trailing {n : Node} : ∀ {mode : FilterMode},
    trailing n = some mode → mode.Faces .backward := by
  induction n using Node.induction with
  | step id options kind children ih =>
    intro mode h
    have hin : (trailingIn children).join = some mode → mode.Faces .backward := by
      intro h
      rw [join_trailingIn] at h
      obtain ⟨n, hn, hmode⟩ := Option.bind_eq_some_iff.1 h
      exact ih n (List.mem_reverse.1 (List.mem_of_find?_eq_some hn)) hmode
    unfold trailing at h
    split at h
    · cases h
    · split at h
      case h_1 | h_2 | h_3 => exact hin h
      case h_4 =>
        split at h
        · exact hin h
        · cases h
      case h_5 =>
        cases h
        rfl
      case h_6 =>
        split at h
        · cases h
        · obtain ⟨c, -, rfl⟩ := Option.map_eq_some_iff.1 h
          rfl
      case h_7 | h_8 =>
        split at h <;> cases h
        rfl
      case h_9 => cases h

end FilterMode

theorem StartFilter.faces_ofTree (t : Tree) (culture : Culture) :
    (ofTree t culture).mode.Faces t.direction := by
  rw [ofTree]
  cases t.direction with
  | forward =>
    simp only
    cases h : FilterMode.leading culture t.root with
    | none => trivial
    | some mode => exact FilterMode.faces_leading h
  | backward =>
    simp only
    cases h : FilterMode.trailing t.root with
    | none => trivial
    | some mode => exact FilterMode.faces_trailing h

namespace Text

theorem startsWith_offset {t : Text} (chars : List Char) {p : Place} (hp : p.In t) :
    t.startsWith chars p.offset = chars.isPrefixOf p.after := by
  induction chars generalizing p with
  | nil => rfl
  | cons c rest ih =>
    rw [startsWith, charAt?, cell?_offset hp]
    cases hafter : p.after with
    | nil => rfl
    | cons d after =>
      have hread : p.read .forward = some (d, ⟨d :: p.before, after⟩) := by
        rw [Place.read]
        simp only [hafter]
      by_cases hd : d = c
      · subst hd
        have hoffset : p.offset + d.utf8Size = Place.offset ⟨d :: p.before, after⟩ :=
          Nat.add_comm _ _
        simp only [Option.bind_some, Cell.after?, List.head?_cons, hoffset, ih (hp.of_read hread),
          List.isPrefixOf, beq_self_eq_true, Bool.true_and]
      · have hne : (c == d) = false := beq_eq_false_iff_ne.2 (Ne.symm hd)
        simp [Cell.after?, List.isPrefixOf, hne, hd]

variable {t : Text}

/-- A forward search for a character goes to the next place before one that passes. -/
theorem passesTo_after (test : Option Char → Bool) (hnone : test none = false) {p : Place}
    (hp : p.In t) :
    ∃ q? : Option Place,
      t.seekForward (fun _ cell => test cell.after?) p.offset = q?.map Place.offset ∧
        t.PassesTo .forward (fun r => test r.after.head? = false) p q? := by
  refine passesTo_seekForward (fun pos cell _ htest => ?_) (fun r hr cell hcell => ?_) hp
  · cases cell with
    | boundary b a => rfl
    | inside => exact absurd (hnone.symm.trans htest) Bool.false_ne_true
  · rw [cell?_offset hr] at hcell
    obtain rfl := Option.some.inj hcell
    rfl

/-- A backward search for a character goes to the next place behind one that passes. -/
theorem passesTo_before (test : Option Char → Bool) (hnone : test none = false) {p : Place}
    (hp : p.In t) :
    ∃ q? : Option Place,
      t.seekBackward (fun _ cell => test cell.before?) p.offset = q?.map Place.offset ∧
        t.PassesTo .backward (fun r => test r.before.head? = false) p q? := by
  refine passesTo_seekBackward (fun pos cell _ htest => ?_) (fun r hr cell hcell => ?_) hp
  · cases cell with
    | boundary b a => rfl
    | inside => exact absurd (hnone.symm.trans htest) Bool.false_ne_true
  · rw [cell?_offset hr] at hcell
    obtain rfl := Option.some.inj hcell
    rfl

/-- A forward search for some characters goes to the next place before them. -/
theorem passesTo_startsWith (chars : List Char) {p : Place} (hp : p.In t) :
    ∃ q? : Option Place,
      t.seekForward (fun pos _ => t.startsWith chars pos) p.offset = q?.map Place.offset ∧
        t.PassesTo .forward (fun r => chars.isPrefixOf r.after = false) p q? := by
  cases chars with
  | nil =>
    -- Every offset passes, so the search stops where it starts.
    refine ⟨some p, ?_, .refl hp⟩
    obtain ⟨n, hn⟩ := Nat.exists_eq_add_one_of_ne_zero
      (Nat.ne_of_gt (Nat.sub_pos_of_lt (offset_lt_size_cells hp)))
    rw [seekForward, hn, seek, cell?_offset hp]
    rfl
  | cons c rest =>
    refine passesTo_seekForward (fun pos cell hcell htest => ?_)
      (fun r hr _ _ => startsWith_offset _ hr) hp
    cases cell with
    | boundary b a => rfl
    | inside =>
      rw [startsWith, charAt?, hcell] at htest
      cases htest

end Text

/-- From a place a filter goes to the next place where its mode holds, or finds none. -/
theorem StartFilter.exists_find {f : StartFilter} {d : Direction} (hface : f.mode.Faces d)
    (culture : Culture) {text : Text} {textStart : Nat} {p : Place} (hp : p.In text)
    (hstart : d = .forward → textStart ≤ p.offset) :
    ∃ q? : Option Place, f.find culture text p.offset textStart = .ok (q?.map Place.offset) ∧
      text.PassesTo d (fun r => f.mode.admits culture textStart r = false) p q? := by
  have hoffset : text.checkOffset p.offset = .ok () := if_pos (Text.offset_le_size hp)
  have hboundary : text.checkBoundary p.offset = .ok () := if_pos (Text.isBoundary_offset hp)
  rw [find]
  cases hmode : f.mode with
  | noSearch => exact ⟨some p, rfl, .refl hp⟩
  | leadingBeginning =>
    rw [hmode] at hface
    obtain rfl : d = .forward := hface
    by_cases hzero : p.offset = 0
    · exact ⟨some p, by simp [hzero], .refl hp⟩
    · refine ⟨none, by simp [hzero], fun r hr hle => ?_⟩
      have hoffset := Place.offset_le_of_ahead_le (hp.trans hr.symm) hle
      have hpos : r.before ≠ [] := fun hnil => by
        rw [Place.offset_eq_zero.2 hnil] at hoffset
        omega
      simpa [FilterMode.admits] using hpos
  | leadingStart =>
    rw [hmode] at hface
    obtain rfl : d = .forward := hface
    by_cases heq : p.offset = textStart
    · exact ⟨some p, by simp [heq], .refl hp⟩
    · refine ⟨none, by simp [heq], fun r hr hle => ?_⟩
      have hoffset := Place.offset_le_of_ahead_le (hp.trans hr.symm) hle
      have hlt := hstart rfl
      have hne : r.offset ≠ textStart := by omega
      simpa [FilterMode.admits] using hne
  | trailingEnd =>
    rw [hmode] at hface
    obtain rfl : d = .backward := hface
    by_cases heq : p.offset = text.size
    · exact ⟨some p, by simp [heq], .refl hp⟩
    · refine ⟨none, by simp [heq], fun r hr hle => ?_⟩
      have hoffset := Place.offset_le_of_ahead_le_backward (hp.trans hr.symm) hle
      have hsize := Text.offset_le_size hp
      have hne : r.after ≠ [] := fun hnil => by
        rw [(Text.offset_eq_size hr).2 hnil] at hoffset
        omega
      simpa [FilterMode.admits] using hne
  | leadingString chars =>
    rw [hmode] at hface
    obtain rfl : d = .forward := hface
    obtain ⟨q?, hseek, hpasses⟩ := Text.passesTo_startsWith chars hp
    exact ⟨q?, by simp only [hoffset, hseek]; rfl, hpasses⟩
  | leadingChar c =>
    rw [hmode] at hface
    obtain rfl : d = .forward := hface
    obtain ⟨q?, hseek, hpasses⟩ := Text.passesTo_after (· == some c) rfl hp
    exact ⟨q?, by simp only [hoffset, hseek]; rfl, hpasses⟩
  | leadingCharIgnoreCase c =>
    rw [hmode] at hface
    obtain rfl : d = .forward := hface
    obtain ⟨q?, hseek, hpasses⟩ :=
      Text.passesTo_after (fun x => x.map culture.fold == some c) rfl hp
    exact ⟨q?, by simp only [hboundary, hseek]; rfl, hpasses⟩
  | leadingSet k ignoreCase =>
    rw [hmode] at hface
    obtain rfl : d = .forward := hface
    obtain ⟨q?, hseek, hpasses⟩ := Text.passesTo_after
      (fun x => x.any fun c => k.contains (if ignoreCase then culture.fold c else c)) rfl hp
    exact ⟨q?, by simp only [hboundary, hseek]; rfl, hpasses⟩
  | trailingChar c =>
    rw [hmode] at hface
    obtain rfl : d = .backward := hface
    obtain ⟨q?, hseek, hpasses⟩ := Text.passesTo_before (· == some c) rfl hp
    exact ⟨q?, by simp only [hoffset, hseek]; rfl, hpasses⟩

end RegexMachine
