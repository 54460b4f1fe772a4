import RegexMachine.CharClass
import RegexMachine.Proofs.Character.Lowercase

/-!
# Folding a class

Folding the case of a class adds the fold of every member of a range, unless the range is wide. So a
folded class that is made of ranges only accepts the fold of a character exactly when the character is
equivalent to a member of a range that is not wide, or to a member whose fold the class has anyway. A
member of a wide range whose fold lies elsewhere is lost.
-/

namespace RegexMachine

theorem Culture.equivalent_iff (culture : Culture) {c d : Char} :
    culture.equivalent c d = true ↔ culture.fold c = culture.fold d := by
  rw [equivalent, Bool.or_eq_true, beq_iff_eq, beq_iff_eq]
  exact or_iff_right_of_imp fun h => h ▸ rfl

namespace ClassLayer

variable {culture : Culture} {ranges : List (Char × Char)} {c x : Char}

theorem inRanges_iff : inRanges ranges c = true ↔ ∃ r ∈ ranges, r.1 ≤ c ∧ c ≤ r.2 := by
  simp [inRanges]

theorem inRanges_concat (r : Char × Char) :
    inRanges (ranges ++ [r]) x = true ↔ inRanges ranges x = true ∨ (r.1 ≤ x ∧ x ≤ r.2) := by
  simp [inRanges]

theorem inRanges_addFold (hc : inRanges ranges c = true) :
    inRanges (addFold culture ranges c) x = true ↔
      inRanges ranges x = true ∨ x = culture.fold c := by
  rw [addFold]
  split
  · rw [inRanges_concat]
    have hsingle : culture.fold c ≤ x ∧ x ≤ culture.fold c ↔ x = culture.fold c :=
      ⟨fun h => Char.le_antisymm h.2 h.1, fun h => h ▸ ⟨Char.le_refl _, Char.le_refl _⟩⟩
    rw [hsingle]
  · next hkept =>
    have hfold : inRanges ranges (culture.fold c) = true := by
      by_cases heq : culture.fold c = c
      · rw [heq]
        exact hc
      · simpa [heq] using hkept
    constructor
    · exact .inl
    · rintro (hx | rfl)
      · exact hx
      · exact hfold

theorem inRanges_foldl_addFold (cs : List Char) (ranges : List (Char × Char))
    (hcs : ∀ c ∈ cs, inRanges ranges c = true) :
    inRanges (cs.foldl (addFold culture) ranges) x = true ↔
      inRanges ranges x = true ∨ ∃ c ∈ cs, x = culture.fold c := by
  induction cs generalizing ranges with
  | nil => simp
  | cons c cs ih =>
    obtain ⟨hc, hcs⟩ := List.forall_mem_cons.1 hcs
    rw [List.foldl_cons, ih _ fun d hd => (inRanges_addFold hc).2 (.inl (hcs d hd)),
      inRanges_addFold hc]
    simp [or_assoc]

theorem mem_casedMembers {r : Char × Char} : c ∈ casedMembers r ↔
    (r.1 ≤ c ∧ c ≤ r.2) ∧ (Character.isAscii c = false ∨ c.isAlpha = true) := by
  have hle : ∀ a b : Char, a ≤ b ↔ a.toNat ≤ b.toNat := fun a b => UInt32.le_iff_toNat_le
  rw [casedMembers, List.mem_filterMap, hle, hle]
  constructor
  · rintro ⟨i, hi, h⟩
    rw [List.mem_range] at hi
    dsimp only at h
    split at h
    · next hcased =>
      obtain ⟨hvalid, hcased⟩ := Bool.and_eq_true_iff.1 hcased
      obtain rfl := Option.some.inj h
      have hchar : Char.ofNat (r.1.toNat + i) = Char.ofNatAux _ (of_decide_eq_true hvalid) :=
        dif_pos _
      have hcode : (Char.ofNat (r.1.toNat + i)).toNat = r.1.toNat + i := by
        rw [hchar]
        rfl
      refine ⟨by omega, ?_⟩
      simpa using hcased
    · cases h
  · rintro ⟨⟨hfirst, hlast⟩, hcased⟩
    refine ⟨c.toNat - r.1.toNat, List.mem_range.2 (by omega), ?_⟩
    have hcode : r.1.toNat + (c.toNat - r.1.toNat) = c.toNat := by omega
    rw [if_pos]
    · rw [hcode, Char.ofNat_toNat]
    · rw [hcode, Char.ofNat_toNat]
      have hvalid : c.toNat.isValidChar := c.valid
      simpa [hvalid] using hcased

/-- The range is not too wide to be folded. -/
def Narrow (r : Char × Char) : Prop := r.2.toNat - r.1.toNat ≤ widestFoldedRange

/-- Adding the folds of a range adds them for every member, if the range is not wide. What is left out
of a range folds to itself. -/
theorem inRanges_addRangeFolds (hculture : culture.Supplied) {r : Char × Char}
    (hr : ∀ c, r.1 ≤ c → c ≤ r.2 → inRanges ranges c = true) :
    inRanges (addRangeFolds culture ranges r) x = true ↔
      inRanges ranges x = true ∨ Narrow r ∧ ∃ c, (r.1 ≤ c ∧ c ≤ r.2) ∧ x = culture.fold c := by
  rw [addRangeFolds]
  split
  · next hwide => simp [Narrow, Nat.not_le.2 hwide]
  · next hnarrow =>
    rw [inRanges_foldl_addFold _ _ fun c hc =>
      hr c (mem_casedMembers.1 hc).1.1 (mem_casedMembers.1 hc).1.2]
    constructor
    · rintro (hx | ⟨c, hc, rfl⟩)
      · exact .inl hx
      · exact .inr ⟨Nat.not_lt.1 hnarrow, c, (mem_casedMembers.1 hc).1, rfl⟩
    · rintro (hx | ⟨-, c, hc, rfl⟩)
      · exact .inl hx
      · by_cases hcased : Character.isAscii c = false ∨ c.isAlpha = true
        · exact .inr ⟨c, mem_casedMembers.2 ⟨hc, hcased⟩, rfl⟩
        · obtain ⟨hascii, halpha⟩ := not_or.1 hcased
          rw [hculture.fold_of_not_isAlpha (by simpa using hascii) (by simpa using halpha)]
          exact .inl (hr c hc.1 hc.2)

theorem inRanges_foldl_addRangeFolds (hculture : culture.Supplied) (rs ranges : List (Char × Char))
    (hrs : ∀ r ∈ rs, ∀ c, r.1 ≤ c → c ≤ r.2 → inRanges ranges c = true) :
    inRanges (rs.foldl (addRangeFolds culture) ranges) x = true ↔
      inRanges ranges x = true ∨
        ∃ r ∈ rs, Narrow r ∧ ∃ c, (r.1 ≤ c ∧ c ≤ r.2) ∧ x = culture.fold c := by
  induction rs generalizing ranges with
  | nil => simp
  | cons r rs ih =>
    obtain ⟨hr, hrs⟩ := List.forall_mem_cons.1 hrs
    rw [List.foldl_cons, ih _ fun r' hr' c hfirst hlast =>
      (inRanges_addRangeFolds hculture hr).2 (.inl (hrs r' hr' c hfirst hlast)),
      inRanges_addRangeFolds hculture hr]
    simp [or_assoc]

end ClassLayer

open ClassLayer

namespace CharClass

/-- The class of some ranges. -/
def ofRanges (ranges : List (Char × Char)) : CharClass := { base := { ranges } }

variable {culture : Culture} {ranges : List (Char × Char)} {c : Char}

theorem contains_ofRanges : (ofRanges ranges).contains c = inRanges ranges c := by
  simp [ofRanges, contains, inLayers, ClassLayer.contains, Categories.contains]

/-- Folding keeps every member, and adds the folds of the members of ranges that are not wide. -/
theorem contains_foldCase (hculture : culture.Supplied) :
    ((ofRanges ranges).foldCase culture).contains c = true ↔ (ofRanges ranges).contains c = true ∨
      ∃ r ∈ ranges, Narrow r ∧ ∃ d, (r.1 ≤ d ∧ d ≤ r.2) ∧ c = culture.fold d := by
  have hfolded : (ofRanges ranges).foldCase culture =
      ofRanges (ranges.foldl (addRangeFolds culture) ranges) := rfl
  rw [hfolded, contains_ofRanges, contains_ofRanges]
  exact inRanges_foldl_addRangeFolds hculture ranges ranges fun r hr d hfirst hlast =>
    inRanges_iff.2 ⟨r, hr, hfirst, hlast⟩

/-- The class has the fold of the member, or the member is in a range that is not wide. -/
def Covers (culture : Culture) (ranges : List (Char × Char)) (d : Char) : Prop :=
  (ofRanges ranges).contains (culture.fold d) = true ∨
    ∃ r ∈ ranges, Narrow r ∧ r.1 ≤ d ∧ d ≤ r.2

/-- A folded class accepts the fold of a character exactly when the character is equivalent to a member
that is in a range that is not wide, or whose fold is a member too. -/
theorem contains_fold_iff (hculture : culture.Supplied) :
    ((ofRanges ranges).foldCase culture).contains (culture.fold c) = true ↔
      ∃ d, (ofRanges ranges).contains d = true ∧ culture.equivalent c d = true ∧
        Covers culture ranges d := by
  rw [contains_foldCase hculture]
  constructor
  · rintro (hc | ⟨r, hr, hnarrow, d, hd, hfold⟩)
    · refine ⟨culture.fold c, hc, culture.equivalent_iff.2 (hculture.fold_fold c).symm, .inl ?_⟩
      rw [hculture.fold_fold]
      exact hc
    · have hmem : (ofRanges ranges).contains d = true := by
        rw [contains_ofRanges]
        exact inRanges_iff.2 ⟨r, hr, hd⟩
      exact ⟨d, hmem, culture.equivalent_iff.2 hfold, .inr ⟨r, hr, hnarrow, hd⟩⟩
  · rintro ⟨d, -, hd, hfold | ⟨r, hr, hnarrow, hrange⟩⟩
    · rw [culture.equivalent_iff.1 hd]
      exact .inl hfold
    · exact .inr ⟨r, hr, hnarrow, d, hrange, culture.equivalent_iff.1 hd⟩

/-- Folding loses no member exactly when all members are covered, up to equivalence; it never invents
one. -/
theorem contains_fold_iff_exists_equivalent (hculture : culture.Supplied) :
    (∀ c, ((ofRanges ranges).foldCase culture).contains (culture.fold c) = true ↔
      ∃ d, (ofRanges ranges).contains d = true ∧ culture.equivalent c d = true) ↔
        ∀ d, (ofRanges ranges).contains d = true →
          ∃ d', (ofRanges ranges).contains d' = true ∧ culture.equivalent d d' = true ∧
            Covers culture ranges d' := by
  constructor
  · intro h d hd
    exact (contains_fold_iff hculture).1 ((h d).2 ⟨d, hd, culture.equivalent_iff.2 rfl⟩)
  · intro h c
    rw [contains_fold_iff hculture]
    constructor
    · rintro ⟨d, hd, hequivalent, -⟩
      exact ⟨d, hd, hequivalent⟩
    · rintro ⟨d, hd, hequivalent⟩
      obtain ⟨d', hd', hequivalent', hcovered⟩ := h d hd
      have htrans := (culture.equivalent_iff.1 hequivalent).trans (culture.equivalent_iff.1 hequivalent')
      exact ⟨d', hd', culture.equivalent_iff.2 htrans, hcovered⟩

/-- The capital sharp s is in the wide range from it to U+5000, and the sharp s that it folds to is not:
ignoring case, the class accepts neither of the two. -/
theorem contains_foldCase_wide :
    let k := ofRanges [('\u1e9e', '\u5000')]
    k.contains '\u1e9e' = true ∧ Culture.invariant.equivalent 'ß' '\u1e9e' = true ∧
      (k.foldCase .invariant).contains (Culture.invariant.fold 'ß') = false ∧
      (k.foldCase .invariant).contains (Culture.invariant.fold '\u1e9e') = false := by
  decide +kernel

end CharClass

end RegexMachine
