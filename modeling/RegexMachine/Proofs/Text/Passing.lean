import RegexMachine.Proofs.Text.Place

/-!
# Passing over places

A search goes through a text in one direction and passes over places until it stops at one, or until
none is left. What it passes over has been ruled out, so that searches compose: where one stops and
rules out that place too, another may go on from the next. Going forward, the characters that lie
between two places are passed over one by one.
-/

namespace RegexMachine

namespace Place

variable {p q : Place}

theorem offset_le_of_ahead_le (hchars : p.chars = q.chars)
    (h : q.ahead .forward ≤ p.ahead .forward) : p.offset ≤ q.offset := by
  refine Nat.le_of_not_lt fun hlt => ?_
  have hahead := (ahead_of_offset_le hchars.symm (Nat.le_of_lt hlt)).1
  rw [eq_of_ahead (d := .forward) hchars (by omega)] at hlt
  exact Nat.lt_irrefl _ hlt

theorem offset_lt_of_ahead_lt (hchars : p.chars = q.chars)
    (h : q.ahead .forward < p.ahead .forward) : p.offset < q.offset := by
  refine Nat.lt_of_not_le fun hle => ?_
  have hahead := (ahead_of_offset_le hchars.symm hle).1
  omega

theorem offset_le_of_ahead_le_backward (hchars : p.chars = q.chars)
    (h : q.ahead .backward ≤ p.ahead .backward) : q.offset ≤ p.offset := by
  refine Nat.le_of_not_lt fun hlt => ?_
  have hahead := (ahead_of_offset_le hchars (Nat.le_of_lt hlt)).2
  rw [eq_of_ahead (d := .backward) hchars (by omega)] at hlt
  exact Nat.lt_irrefl _ hlt

theorem offset_lt_of_ahead_lt_backward (hchars : p.chars = q.chars)
    (h : q.ahead .backward < p.ahead .backward) : q.offset < p.offset := by
  refine Nat.lt_of_not_le fun hle => ?_
  have hahead := (ahead_of_offset_le hchars hle).2
  omega

end Place

namespace Text

variable {t : Text} {d : Direction}

/-- Going on from `p`, a search passes over nothing but places that are ruled out, until it stops at
one, or until no place is left. -/
def PassesTo (t : Text) (d : Direction) (RuledOut : Place → Prop) (p : Place) : Option Place → Prop
  | some q => q.In t ∧ q.ahead d ≤ p.ahead d ∧
      ∀ r : Place, r.In t → q.ahead d < r.ahead d → r.ahead d ≤ p.ahead d → RuledOut r
  | none => ∀ r : Place, r.In t → r.ahead d ≤ p.ahead d → RuledOut r

namespace PassesTo

variable {P Q : Place → Prop} {p q : Place} {q? : Option Place}

theorem refl (hp : p.In t) : t.PassesTo d P p (some p) :=
  ⟨hp, Nat.le_refl _, fun _ _ hlt hle => absurd hlt (Nat.not_lt.2 hle)⟩

theorem imp (h : t.PassesTo d P p q?)
    (himp : ∀ r : Place, r.In t → r.ahead d ≤ p.ahead d → P r → Q r) : t.PassesTo d Q p q? := by
  cases q? with
  | none => exact fun r hr hle => himp r hr hle (h r hr hle)
  | some q =>
    obtain ⟨hq, hqle, hpassed⟩ := h
    exact ⟨hq, hqle, fun r hr hlt hle => himp r hr hle (hpassed r hr hlt hle)⟩

theorem step {c : Char} {next : Place} (h : t.PassesTo d P p (some q)) (hq : P q)
    (hread : q.read d = some (c, next)) (hnext : t.PassesTo d P next q?) : t.PassesTo d P p q? := by
  obtain ⟨hin, hle, hpassed⟩ := h
  have hahead := Place.ahead_of_read hread
  have hbefore : ∀ r : Place, r.In t → next.ahead d < r.ahead d → r.ahead d ≤ p.ahead d → P r := by
    intro r hr hlt hrp
    by_cases heq : r.ahead d = q.ahead d
    · rwa [Place.eq_of_ahead (hr.trans hin.symm) heq]
    · exact hpassed r hr (by omega) hrp
  cases q? with
  | none =>
    intro r hr hrp
    by_cases hlt : next.ahead d < r.ahead d
    · exact hbefore r hr hlt hrp
    · exact hnext r hr (Nat.not_lt.1 hlt)
  | some q' =>
    obtain ⟨hin', hle', hpassed'⟩ := hnext
    refine ⟨hin', by omega, fun r hr hlt hrp => ?_⟩
    by_cases hlt' : next.ahead d < r.ahead d
    · exact hbefore r hr hlt' hrp
    · exact hpassed' r hr hlt (Nat.not_lt.1 hlt')

theorem eq_some (h : t.PassesTo d P p q?) (hp : p.In t) (hnot : ¬ P p) : q? = some p := by
  cases q? with
  | none => exact absurd (h p hp (Nat.le_refl _)) hnot
  | some q =>
    obtain ⟨hq, hle, hpassed⟩ := h
    have hge : p.ahead d ≤ q.ahead d := Nat.le_of_not_lt fun hlt =>
      hnot (hpassed p hp hlt (Nat.le_refl _))
    exact congrArg some (Place.eq_of_ahead (hq.trans hp.symm) (Nat.le_antisymm hle hge))

theorem eq_none (h : t.PassesTo d P p q?) (hp : p.In t) (hruledOut : P p)
    (hread : p.read d = none) (hq : ∀ q ∈ q?, ¬ P q) : q? = none := by
  have hzero := Place.read_eq_none.1 hread
  cases q? with
  | none => rfl
  | some q =>
    obtain ⟨hin, hle, -⟩ := h
    obtain rfl : q = p := Place.eq_of_ahead (d := d) (hin.trans hp.symm) (by omega)
    exact absurd hruledOut (hq q rfl)

theorem of_read {c : Char} {r : Place} (h : t.PassesTo d P p q?) (hp : p.In t)
    (hread : p.read d = some (c, r)) (hne : q? ≠ some p) : t.PassesTo d P r q? := by
  have hahead := Place.ahead_of_read hread
  cases q? with
  | none => exact fun x hx hle => h x hx (by omega)
  | some q =>
    obtain ⟨hq, hle, hpassed⟩ := h
    have hqp : q.ahead d ≠ p.ahead d := fun heq =>
      hne (congrArg some (Place.eq_of_ahead (hq.trans hp.symm) heq))
    exact ⟨hq, by omega, fun x hx hlt hxr => hpassed x hx hlt (by omega)⟩

/-- A search that stopped at a place that is ruled out, with nothing ahead, has passed over all. -/
theorem last (h : t.PassesTo d P p (some q)) (hq : P q) (hread : q.read d = none) :
    t.PassesTo d P p none := by
  obtain ⟨hin, -, hpassed⟩ := h
  have hzero := Place.read_eq_none.1 hread
  intro r hr hrp
  by_cases heq : r.ahead d = q.ahead d
  · rwa [Place.eq_of_ahead (hr.trans hin.symm) heq]
  · exact hpassed r hr (by omega) hrp

end PassesTo

theorem cell?_eq_none {pos : Nat} (h : t.cell? pos = none) {i : Nat} (hle : pos ≤ i) :
    t.cell? i = none := by
  rw [cell?, Array.getElem?_eq_none_iff] at h ⊢
  omega

/-- A search by offset that finds one has passed over none that passes the test. -/
theorem seek_eq_some {test : Nat → Cell → Bool} {n : Nat} : ∀ {pos found : Nat},
    t.seek test n pos = some found →
      pos ≤ found ∧ (∃ cell, t.cell? found = some cell ∧ test found cell = true) ∧
        ∀ i, pos ≤ i → i < found → ∀ cell, t.cell? i = some cell → test i cell = false := by
  induction n with
  | zero => exact fun h => by cases h
  | succ n ih =>
    intro pos found h
    rw [seek] at h
    split at h
    · next cell hcell =>
      split at h
      · next htest =>
        obtain rfl := Option.some.inj h
        exact ⟨Nat.le_refl _, ⟨cell, hcell, htest⟩, fun i hle hlt => absurd hlt (Nat.not_lt.2 hle)⟩
      · next htest =>
        obtain ⟨hle, hfound, hpassed⟩ := ih h
        refine ⟨by omega, hfound, fun i hi hlt cell' hcell' => ?_⟩
        by_cases heq : i = pos
        · subst heq
          rw [hcell] at hcell'
          cases hcell'
          exact Bool.not_eq_true _ ▸ htest
        · exact hpassed i (by omega) hlt cell' hcell'
    · cases h

theorem seek_eq_none {test : Nat → Cell → Bool} {n : Nat} : ∀ {pos : Nat},
    t.seek test n pos = none → ∀ i, pos ≤ i → i < pos + n →
      ∀ cell, t.cell? i = some cell → test i cell = false := by
  induction n with
  | zero => exact fun _ i hle hlt => absurd hlt (by omega)
  | succ n ih =>
    intro pos h i hle hlt cell' hcell'
    rw [seek] at h
    split at h
    · next cell hcell =>
      split at h
      · cases h
      · next htest =>
        by_cases heq : i = pos
        · subst heq
          rw [hcell] at hcell'
          cases hcell'
          exact Bool.not_eq_true _ ▸ htest
        · exact ih h i (by omega) (by omega) cell' hcell'
    · next hcell =>
      rw [cell?_eq_none hcell hle] at hcell'
      cases hcell'

theorem seekBackward_eq_some {test : Nat → Cell → Bool} : ∀ {pos found : Nat},
    t.seekBackward test pos = some found →
      found ≤ pos ∧ (∃ cell, t.cell? found = some cell ∧ test found cell = true) ∧
        ∀ i, found < i → i ≤ pos → ∀ cell, t.cell? i = some cell → test i cell = false := by
  intro pos
  induction pos with
  | zero =>
    intro found h
    rw [seekBackward] at h
    split at h
    · next cell hcell =>
      split at h
      · next htest =>
        obtain rfl := Option.some.inj h
        exact ⟨Nat.le_refl _, ⟨cell, hcell, htest⟩, fun i hlt hle => absurd hlt (Nat.not_lt.2 hle)⟩
      · cases h
    · cases h
  | succ pos ih =>
    intro found h
    rw [seekBackward] at h
    split at h
    · next cell hcell =>
      split at h
      · next htest =>
        obtain rfl := Option.some.inj h
        exact ⟨Nat.le_refl _, ⟨cell, hcell, htest⟩, fun i hlt hle => absurd hlt (Nat.not_lt.2 hle)⟩
      · next htest =>
        obtain ⟨hle, hfound, hpassed⟩ := ih h
        refine ⟨by omega, hfound, fun i hlt hi cell' hcell' => ?_⟩
        by_cases heq : i = pos + 1
        · subst heq
          rw [hcell] at hcell'
          cases hcell'
          exact Bool.not_eq_true _ ▸ htest
        · exact hpassed i hlt (by omega) cell' hcell'
    · cases h

theorem seekBackward_eq_none {test : Nat → Cell → Bool} : ∀ {pos : Nat}, pos < t.cells.size →
    t.seekBackward test pos = none →
      ∀ i ≤ pos, ∀ cell, t.cell? i = some cell → test i cell = false := by
  have hcell? : ∀ {pos : Nat}, pos < t.cells.size → t.cell? pos ≠ none := fun hpos hnone =>
    absurd hpos (Nat.not_lt.2 (Array.getElem?_eq_none_iff.1 hnone))
  intro pos
  induction pos with
  | zero =>
    intro hpos h i hi cell' hcell'
    obtain rfl := Nat.le_zero.1 hi
    rw [seekBackward, hcell'] at h
    simp only at h
    split at h
    · cases h
    · next htest => exact Bool.not_eq_true _ ▸ htest
  | succ pos ih =>
    intro hpos h i hi cell' hcell'
    rw [seekBackward] at h
    split at h
    · next cell hcell =>
      split at h
      · cases h
      · next htest =>
        by_cases heq : i = pos + 1
        · subst heq
          rw [hcell] at hcell'
          cases hcell'
          exact Bool.not_eq_true _ ▸ htest
        · exact ih (by omega) h i (by omega) cell' hcell'
    · next hcell => exact absurd hcell (hcell? hpos)

theorem offset_lt_size_cells {p : Place} (hp : p.In t) : p.offset < t.cells.size :=
  (Array.getElem?_eq_some_iff.1 (cell?_offset hp)).1

section

variable {test : Nat → Cell → Bool} {admits : Place → Bool}
  (hboundary : ∀ pos cell, t.cell? pos = some cell → test pos cell = true → cell.isBoundary = true)
  (hadmits : ∀ r : Place, r.In t → ∀ cell, t.cell? r.offset = some cell →
    test r.offset cell = admits r)

include hboundary in
theorem exists_place_of_test {found : Nat}
    (h : ∃ cell, t.cell? found = some cell ∧ test found cell = true) :
    ∃ q : Place, q.In t ∧ q.offset = found := by
  obtain ⟨cell, hcell, htest⟩ := h
  refine exists_place ?_
  rw [isBoundary, hcell]
  exact hboundary found cell hcell htest

include hboundary hadmits

/-- A forward search passes over the places that do not pass. -/
theorem passesTo_seekForward {p : Place} (hp : p.In t) :
    ∃ q? : Option Place, t.seekForward test p.offset = q?.map Place.offset ∧
      t.PassesTo .forward (fun r => admits r = false) p q? := by
  cases h : t.seekForward test p.offset with
  | none =>
    refine ⟨none, rfl, fun r hr hle => ?_⟩
    have hoffset := Place.offset_le_of_ahead_le (hp.trans hr.symm) hle
    have hlt := offset_lt_size_cells hr
    exact (hadmits r hr _ (cell?_offset hr)).symm.trans
      (seek_eq_none h r.offset hoffset (by omega) _ (cell?_offset hr))
  | some found =>
    obtain ⟨hle, hfound, hpassed⟩ := seek_eq_some h
    obtain ⟨q, hq, rfl⟩ := exists_place_of_test hboundary hfound
    refine ⟨some q, rfl, hq, (Place.ahead_of_offset_le (hp.trans hq.symm) hle).1,
      fun r hr hlt hrp => ?_⟩
    have hoffset := Place.offset_le_of_ahead_le (hp.trans hr.symm) hrp
    exact (hadmits r hr _ (cell?_offset hr)).symm.trans (hpassed r.offset hoffset
      (Place.offset_lt_of_ahead_lt (hr.trans hq.symm) hlt) _ (cell?_offset hr))

/-- A backward search passes over the places that do not pass. -/
theorem passesTo_seekBackward {p : Place} (hp : p.In t) :
    ∃ q? : Option Place, t.seekBackward test p.offset = q?.map Place.offset ∧
      t.PassesTo .backward (fun r => admits r = false) p q? := by
  cases h : t.seekBackward test p.offset with
  | none =>
    refine ⟨none, rfl, fun r hr hle => ?_⟩
    have hoffset := Place.offset_le_of_ahead_le_backward (hp.trans hr.symm) hle
    exact (hadmits r hr _ (cell?_offset hr)).symm.trans
      (seekBackward_eq_none (offset_lt_size_cells hp) h r.offset hoffset _ (cell?_offset hr))
  | some found =>
    obtain ⟨hle, hfound, hpassed⟩ := seekBackward_eq_some h
    obtain ⟨q, hq, rfl⟩ := exists_place_of_test hboundary hfound
    refine ⟨some q, rfl, hq, (Place.ahead_of_offset_le (hq.trans hp.symm) hle).2,
      fun r hr hlt hrp => ?_⟩
    have hoffset := Place.offset_le_of_ahead_le_backward (hp.trans hr.symm) hrp
    exact (hadmits r hr _ (cell?_offset hr)).symm.trans (hpassed r.offset
      (Place.offset_lt_of_ahead_lt_backward (hr.trans hq.symm) hlt) hoffset _ (cell?_offset hr))

end

variable {p q : Place}

/-- Within the bytes of a character none starts. -/
theorem charAt?_of_between {c : Char} {i : Nat} (hp : p.In t)
    (hread : p.read .forward = some (c, q)) (hlt : p.offset < i) (hgt : i < q.offset) :
    t.charAt? i = none := by
  rw [charAt?]
  cases hcell : t.cell? i with
  | none => rfl
  | some cell =>
    cases cell with
    | inside => rfl
    | boundary before after =>
      have hboundary : t.isBoundary i = true := by rw [isBoundary, hcell]; rfl
      obtain ⟨r, hr, rfl⟩ := exists_place hboundary
      have hq := hp.of_read hread
      have hahead := Place.ahead_of_read hread
      have hbehind : r.ahead .forward < p.ahead .forward := Nat.lt_of_not_le fun hle =>
        absurd (Place.offset_le_of_ahead_le (hr.trans hp.symm) hle) (Nat.not_le.2 hlt)
      have hbefore : q.ahead .forward < r.ahead .forward := Nat.lt_of_not_le fun hle =>
        absurd (Place.offset_le_of_ahead_le (hq.trans hr.symm) hle) (Nat.not_le.2 hgt)
      omega

theorem charsBetween_of_read {c : Char} (hp : p.In t) (hread : p.read .forward = some (c, q)) :
    t.charsBetween p.offset q.offset = .ok [c] := by
  obtain ⟨hafter, hoffset⟩ := Place.after_of_read hread
  have hstart : t.charAt? p.offset = some c := by
    rw [charAt?, cell?_offset hp, hafter]
    rfl
  obtain ⟨n, hn⟩ := Nat.exists_eq_add_one_of_ne_zero (Nat.ne_of_gt c.utf8Size_pos)
  refine charsBetween_eq_ok_iff.2
    ⟨by omega, isBoundary_offset hp, isBoundary_offset (hp.of_read hread), ?_⟩
  rw [hoffset, Nat.add_sub_cancel_left, hn, List.range'_succ, List.filterMap_cons_some hstart]
  refine congrArg (c :: ·) (List.filterMap_eq_nil_iff.2 fun i hi => ?_).symm
  obtain ⟨hge, hlt⟩ := List.mem_range'_1.1 hi
  exact charAt?_of_between hp hread (by omega) (by omega)

/-- The characters between two places lie behind the one, and in front of what lies behind the
other. -/
theorem exists_charsBetween (hp : p.In t) (hq : q.In t) (hle : p.offset ≤ q.offset) :
    ∃ chars, t.charsBetween p.offset q.offset = .ok chars ∧ p.after = chars ++ q.after := by
  induction h : p.ahead .forward using Nat.strongRecOn generalizing p with
  | _ n ih =>
    rcases Nat.eq_or_lt_of_le hle with heq | hlt
    · obtain rfl := Place.eq_of_offset (hp.trans hq.symm) heq
      have hself : t.charsBetween p.offset p.offset = .ok [] :=
        charsBetween_eq_ok_iff.2 ⟨hle, isBoundary_offset hp, isBoundary_offset hp, by simp⟩
      exact ⟨[], hself, rfl⟩
    · have hahead : q.ahead .forward < p.ahead .forward := Nat.lt_of_not_le fun hge =>
        absurd (Place.offset_le_of_ahead_le (hq.trans hp.symm) hge) (Nat.not_le.2 hlt)
      cases hread : p.read .forward with
      | none =>
        have hzero := Place.read_eq_none.1 hread
        omega
      | some r =>
        obtain ⟨c, r⟩ := r
        have hr := hp.of_read hread
        have hstep := Place.ahead_of_read hread
        obtain ⟨chars, hchars, hafter⟩ := ih _ (by omega) hr
          (Place.offset_le_of_ahead_le (hr.trans hq.symm) (by omega)) rfl
        refine ⟨c :: chars, charsBetween_append (charsBetween_of_read hp hread) hchars, ?_⟩
        rw [(Place.after_of_read hread).1, hafter, List.cons_append]

end Text

end RegexMachine
