import RegexMachine.Proofs.Text.Folding

/-!
# A lowercase form is its own

The codes of the characters that have a lowercase form and the codes of these forms have none in common.
The rows of the table list a good thousand of either, too many to compare each with each, so both sets
are written as the bits of one number.
-/

namespace RegexMachine

namespace Character

/-- A set of numbers as the bits of one number. -/
def bits (codes : List Nat) : Nat :=
  codes.foldr (fun n m => Nat.lor (Nat.shiftLeft 1 n) m) 0

theorem testBit_bits (codes : List Nat) (n : Nat) : (bits codes).testBit n = decide (n ∈ codes) := by
  induction codes with
  | nil => simp [bits]
  | cons m codes ih =>
    have hbits : bits (m :: codes) = 1 <<< m ||| bits codes := rfl
    rw [hbits, Nat.testBit_or, ih, Nat.one_shiftLeft, Nat.testBit_two_pow]
    simp [Bool.decide_or, eq_comm]

theorem not_mem_of_land {codes codes' : List Nat} (h : Nat.land (bits codes) (bits codes') = 0) {n : Nat}
    (hn : n ∈ codes) : n ∉ codes' := by
  intro hn'
  have hbit := Nat.testBit_and (bits codes) (bits codes') n
  rw [show bits codes &&& bits codes' = 0 from h, testBit_bits, testBit_bits] at hbit
  simp [hn, hn'] at hbit

/-- Every `stride`-th of the `length` codes from `first` on. -/
def codesFrom (first length stride : Nat) : List Nat :=
  (List.range length).filterMap fun n => if n % stride = 0 then some (first + n) else none

theorem mem_codesFrom {first length stride n : Nat} (hlt : n < length) (hstride : n % stride = 0) :
    first + n ∈ codesFrom first length stride :=
  List.mem_filterMap.2 ⟨n, List.mem_range.2 hlt, if_pos hstride⟩

/-- The codes of all characters that a supplied culture folds to another. -/
def upperCodes : List Nat :=
  '\u0130'.toNat :: lowercaseRows.toList.flatMap fun row =>
    codesFrom row.1 (row.2.1 + 1 - row.1) row.2.2.1

def lowerCodes : List Nat :=
  lowercaseRows.toList.flatMap fun row => codesFrom row.2.2.2 (row.2.1 + 1 - row.1) row.2.2.1

theorem not_mem_upperCodes {n : Nat} (h : n ∈ lowerCodes) : n ∉ upperCodes :=
  not_mem_of_land (by decide +kernel) h

theorem lowercase_ascii : ∀ n ∈ List.range 0x80, lowercase (Char.ofNat n) = Char.ofNat n ∨
    n ∈ upperCodes ∧ (lowercase (Char.ofNat n)).toNat ∈ lowerCodes := by
  decide +kernel

/-- A character is its own lowercase form, or both are in the table. A code that is none of a character
stands for the null character. -/
theorem lowercase_cases (c : Char) : lowercase c = c ∨ c.toNat ∈ upperCodes ∧
    ((lowercase c).toNat ∈ lowerCodes ∨ lowercase c = '\x00') := by
  by_cases hascii : isAscii c = true
  · have hlt : c.toNat < 0x80 := of_decide_eq_true hascii
    have hcases := lowercase_ascii c.toNat (List.mem_range.2 hlt)
    rw [Char.ofNat_toNat] at hcases
    exact hcases.imp_right fun h => ⟨h.1, .inl h.2⟩
  · rw [lowercase, if_neg hascii]
    split
    · next first stride image hfound =>
      split
      · next hstride =>
        obtain ⟨last, hlast, hrow⟩ := RangeMap.exists_row_of_find? hfound
        obtain ⟨row, hmem, hrow⟩ := Array.mem_map.1 hrow
        cases hrow
        have hfirst : row.1 ≤ c.toNat := RangeMap.le_of_find? hfound
        have hlt : c.toNat - row.1 < row.2.1 + 1 - row.1 := by omega
        have hupper : row.1 + (c.toNat - row.1) ∈
            codesFrom row.1 (row.2.1 + 1 - row.1) row.2.2.1 := mem_codesFrom hlt hstride
        rw [Nat.add_sub_cancel' hfirst] at hupper
        refine .inr ⟨List.mem_cons_of_mem _ (List.mem_flatMap.2 ⟨row, hmem.val, hupper⟩), ?_⟩
        by_cases hvalid : (row.2.2.2 + (c.toNat - row.1)).isValidChar
        · have hchar : Char.ofNat (row.2.2.2 + (c.toNat - row.1)) = Char.ofNatAux _ hvalid :=
            dif_pos hvalid
          rw [hchar]
          exact .inl (List.mem_flatMap.2 ⟨row, hmem.val, mem_codesFrom hlt hstride⟩)
        · exact .inr (dif_neg hvalid)
      · exact .inl rfl
    · exact .inl rfl

theorem lowercase_of_not_mem {c : Char} (h : c.toNat ∉ upperCodes) : lowercase c = c :=
  (lowercase_cases c).resolve_right fun hc => h hc.1

theorem lowercase_settled (c : Char) : lowercase c = c ∨ (lowercase c).toNat ∉ upperCodes := by
  refine (lowercase_cases c).imp_right fun ⟨_, h⟩ => ?_
  rcases h with h | h
  · exact not_mem_upperCodes h
  · rw [h]
    decide +kernel

theorem lowercase_lowercase (c : Char) : lowercase (lowercase c) = lowercase c := by
  rcases lowercase_settled c with h | h
  · rw [h, h]
  · exact lowercase_of_not_mem h

end Character

open Character

namespace Culture

theorem Supplied.fold_fold {culture : Culture} (h : culture.Supplied) (c : Char) :
    culture.fold (culture.fold c) = culture.fold c := by
  cases h with
  | invariant => exact lowercase_lowercase c
  | turkish =>
    by_cases hi : c = 'I'
    · subst hi
      decide +kernel
    by_cases hdotted : c = '\u0130'
    · subst hdotted
      decide +kernel
    have hfold : ∀ c, c ≠ 'I' → c ≠ '\u0130' → Culture.turkish.fold c = lowercase c :=
      fun c hi hdotted => by rw [turkish_fold, if_neg hi, if_neg hdotted]
    have hc : Culture.turkish.fold c = lowercase c := hfold c hi hdotted
    rw [hc]
    rcases lowercase_settled c with h | h
    · rw [h, hc, h]
    · have hne : lowercase c ≠ 'I' ∧ lowercase c ≠ '\u0130' := by
        constructor
        · intro heq
          rw [heq] at h
          exact h (by decide +kernel)
        · intro heq
          rw [heq] at h
          exact h (by decide +kernel)
      rw [hfold _ hne.1 hne.2, lowercase_of_not_mem h]

theorem Supplied.fold_of_not_isAlpha {culture : Culture} (h : culture.Supplied) {c : Char}
    (hascii : isAscii c = true) (halpha : c.isAlpha = false) : culture.fold c = c := by
  have hall : ∀ n ∈ List.range 0x80, (Char.ofNat n).isAlpha = false →
      culture.fold (Char.ofNat n) = Char.ofNat n := by
    cases h <;> decide +kernel
  have hc := hall c.toNat (List.mem_range.2 (of_decide_eq_true hascii))
  rw [Char.ofNat_toNat] at hc
  exact hc halpha

end Culture

end RegexMachine
