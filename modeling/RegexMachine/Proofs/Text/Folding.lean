import Mathlib.Data.List.Forall2
import RegexMachine.Character.Basic
import RegexMachine.Text.Basic

/-!
# Texts that fold alike

Two texts fold alike when they have equally many characters and those at the same place fold to the
same character and take the same number of bytes. Then all offsets mean the same in both, and they
cannot be told apart by looking at characters only after folding them, nor, in a culture that is
supplied, by looking for line feeds.
-/

namespace RegexMachine

/-- What is found in a tree of rows is in one of the rows. -/
theorem RangeMap.exists_row_of_find? {α : Type} {rows : Array (Nat × Nat × α)} {x first : Nat}
    {value : α} (h : (ofRows rows).find? x = some (first, value)) :
    ∃ last, x ≤ last ∧ (first, last, value) ∈ rows := by
  rw [ofRows] at h
  generalize rows.size.log2 + 1 = height at h
  generalize 0 = lo at h
  generalize rows.size = hi at h
  induction height generalizing lo hi with
  | zero => cases h
  | succ height ih =>
    rw [build] at h
    split at h
    · dsimp only at h
      split at h
      · next row last v hrow =>
        rw [find?] at h
        split at h
        · exact ih _ _ h
        · split at h
          · exact ih _ _ h
          · next hlast =>
            cases h
            exact ⟨last, Nat.not_lt.1 hlast, Array.mem_of_getElem? hrow⟩
      · cases h
    · cases h

theorem Character.le_of_mem_lowercaseRows :
    ∀ row ∈ lowercaseRows, 'a'.toNat ≤ row.2.2.2 := by decide +kernel

theorem Character.lowercase_eq_newline {c : Char} (h : lowercase c = '\n') : c = '\n' := by
  rw [lowercase] at h
  split at h
  · delta Char.toLower at h
    split at h
    · next hupper =>
      have hval : (c.val + ('a'.val - 'A'.val)).toNat = 10 := congrArg Char.toNat h
      rw [UInt32.toNat_add] at hval
      change (c.val.toNat + 32) % 2 ^ 32 = 10 at hval
      have hle : 65 ≤ c.val.toNat := UInt32.le_iff_toNat_le.1 hupper.1
      have hge : c.val.toNat ≤ 90 := UInt32.le_iff_toNat_le.1 hupper.2
      omega
    · exact h
  · split at h
    · next first stride image hfound =>
      split at h
      · obtain ⟨last, -, hrow⟩ := RangeMap.exists_row_of_find? hfound
        obtain ⟨row, hmem, hrow⟩ := Array.mem_map.1 hrow
        cases hrow
        have hle : 97 ≤ row.2.2.2 := le_of_mem_lowercaseRows row hmem
        generalize hn : row.2.2.2 + (c.toNat - row.1) = n at h
        by_cases hvalid : n.isValidChar
        · have hchar : Char.ofNat n = Char.ofNatAux n hvalid := dif_pos hvalid
          have himage : n = 10 := congrArg Char.toNat (hchar.symm.trans h)
          omega
        · have hchar : Char.ofNat n = '\x00' := dif_neg hvalid
          cases hchar.symm.trans h
      · exact h
    · exact h

namespace Culture

theorem turkish_fold (c : Char) : turkish.fold c =
    if c = 'I' then '\u0131' else if c = '\u0130' then 'i' else Character.lowercase c := rfl

theorem Supplied.fold_newline {culture : Culture} (h : culture.Supplied) :
    culture.fold '\n' = '\n' := by
  cases h <;> decide +kernel

theorem Supplied.eq_newline_of_fold {culture : Culture} (h : culture.Supplied) {c : Char}
    (hc : culture.fold c = '\n') : c = '\n' := by
  cases h with
  | invariant => exact Character.lowercase_eq_newline hc
  | turkish =>
    rw [turkish_fold] at hc
    split at hc
    · cases hc
    · split at hc
      · cases hc
      · exact Character.lowercase_eq_newline hc

/-- The characters fold alike and take the same number of bytes. -/
structure SameFold (culture : Culture) (c d : Char) : Prop where
  fold : culture.fold c = culture.fold d
  bytes : c.utf8Size = d.utf8Size

theorem SameFold.beq_newline {culture : Culture} (hculture : culture.Supplied) {c d : Char}
    (h : culture.SameFold c d) : (c == '\n') = (d == '\n') := by
  rw [Bool.eq_iff_iff, beq_iff_eq, beq_iff_eq]
  constructor
  · rintro rfl
    exact hculture.eq_newline_of_fold (h.fold.symm.trans hculture.fold_newline)
  · rintro rfl
    exact hculture.eq_newline_of_fold (h.fold.trans hculture.fold_newline)

theorem beq_newline_of_rel {culture : Culture} (hculture : culture.Supplied) {c d : Option Char}
    (h : Option.Rel culture.SameFold c d) : (c == some '\n') = (d == some '\n') := by
  cases h with
  | none => rfl
  | some hc => exact hc.beq_newline hculture

end Culture

/-- The characters around the offset fold alike. -/
inductive Cell.FoldsLike (culture : Culture) : Cell → Cell → Prop
  | boundary {b b' a a' : Option Char} (hbefore : Option.Rel culture.SameFold b b')
      (hafter : Option.Rel culture.SameFold a a') : FoldsLike culture (.boundary b a) (.boundary b' a')
  | inside : FoldsLike culture .inside .inside

/-- The texts fold alike, character by character. -/
def Text.FoldsLike (culture : Culture) (t t' : Text) : Prop :=
  List.Forall₂ culture.SameFold t.chars t'.chars

namespace Cell

variable {culture : Culture}

theorem foldsLike_push {cells cells' : Array Cell} {cell cell' : Cell}
    (h : List.Forall₂ (FoldsLike culture) cells.toList cells'.toList)
    (hcell : cell.FoldsLike culture cell') :
    List.Forall₂ (FoldsLike culture) (cells.push cell).toList (cells'.push cell').toList := by
  rw [Array.toList_push, Array.toList_push]
  exact List.rel_append h (.cons hcell .nil)

theorem foldsLike_pushInside {cells cells' : Array Cell}
    (h : List.Forall₂ (FoldsLike culture) cells.toList cells'.toList) (n : Nat) :
    List.Forall₂ (FoldsLike culture) (pushInside cells n).toList (pushInside cells' n).toList := by
  induction n generalizing cells cells' with
  | zero => exact h
  | succ n ih => exact ih (foldsLike_push h .inside)

theorem foldsLike_tableFrom {cells cells' : Array Cell} {before before' : Option Char}
    {chars chars' : List Char} (hcells : List.Forall₂ (FoldsLike culture) cells.toList cells'.toList)
    (hbefore : Option.Rel culture.SameFold before before')
    (hchars : List.Forall₂ culture.SameFold chars chars') :
    List.Forall₂ (FoldsLike culture) (tableFrom cells before chars).toList
      (tableFrom cells' before' chars').toList := by
  induction hchars generalizing cells cells' before before' with
  | nil => exact foldsLike_push hcells (.boundary hbefore .none)
  | cons hc _ ih =>
    rw [tableFrom, tableFrom, hc.bytes]
    exact ih (foldsLike_pushInside (foldsLike_push hcells (.boundary hbefore (.some hc))) _) (.some hc)

end Cell

namespace Text.FoldsLike

variable {culture : Culture} {t t' : Text} (h : t.FoldsLike culture t')

include h

theorem cells : List.Forall₂ (Cell.FoldsLike culture) t.cells.toList t'.cells.toList := by
  rw [t.cells_eq, t'.cells_eq]
  exact Cell.foldsLike_tableFrom .nil .none h

theorem cell? (pos : Nat) : Option.Rel (Cell.FoldsLike culture) (t.cell? pos) (t'.cell? pos) := by
  rw [Text.cell?, Text.cell?, ← Array.getElem?_toList, ← Array.getElem?_toList]
  have hcells := h.cells
  generalize t.cells.toList = cells at hcells
  generalize t'.cells.toList = cells' at hcells
  induction hcells generalizing pos with
  | nil => exact .none
  | cons hcell _ ih =>
    cases pos with
    | zero => exact .some hcell
    | succ pos => exact ih pos

theorem size_cells : t.cells.size = t'.cells.size := h.cells.length_eq

theorem size : t.size = t'.size := congrArg (· - 1) h.size_cells

theorem isBoundary (pos : Nat) : t.isBoundary pos = t'.isBoundary pos := by
  have hcell := h.cell? pos
  rw [Text.isBoundary, Text.isBoundary]
  generalize t.cell? pos = cell at hcell
  generalize t'.cell? pos = cell' at hcell
  cases hcell with
  | none => rfl
  | some hcell => cases hcell <;> rfl

/-- What is read at an offset fails alike, is nothing, or is characters that fold alike before the same
offset. -/
theorem read (d : Direction) (pos : Nat) :
    (t.read d pos = .error .outOfBounds ∧ t'.read d pos = .error .outOfBounds) ∨
      (t.read d pos = .ok none ∧ t'.read d pos = .ok none) ∨
        ∃ c c' next, t.read d pos = .ok (some (c, next)) ∧ t'.read d pos = .ok (some (c', next)) ∧
          culture.SameFold c c' := by
  have hcell := h.cell? pos
  rw [Text.read, Text.read]
  generalize t.cell? pos = cell at hcell
  generalize t'.cell? pos = cell' at hcell
  cases hcell with
  | none => exact .inl ⟨rfl, rfl⟩
  | some hcell =>
    cases hcell with
    | inside => exact .inl ⟨rfl, rfl⟩
    | boundary hbefore hafter =>
      cases d with
      | forward =>
        cases hafter with
        | none => exact .inr (.inl ⟨rfl, rfl⟩)
        | some hc => exact .inr (.inr ⟨_, _, _, rfl, by simp [hc.bytes], hc⟩)
      | backward =>
        cases hbefore with
        | none => exact .inr (.inl ⟨rfl, rfl⟩)
        | some hc => exact .inr (.inr ⟨_, _, _, rfl, by simp [hc.bytes], hc⟩)

/-- What goes on alike from characters that fold alike goes on alike from what is read. -/
theorem bind_read {α : Type} {d : Direction} {pos : Nat}
    {f g : Option (Char × Nat) → Except Fault α} (hnone : f none = g none)
    (hsome : ∀ c c' next, culture.SameFold c c' → f (some (c, next)) = g (some (c', next))) :
    t.read d pos >>= f = t'.read d pos >>= g := by
  obtain ⟨hx, hy⟩ | ⟨hx, hy⟩ | ⟨c, c', next, hx, hy, hc⟩ := h.read d pos
  · rw [hx, hy]
    rfl
  · rw [hx, hy]
    exact hnone
  · rw [hx, hy]
    exact hsome c c' next hc

theorem bump (d : Direction) (pos : Nat) : t.bump d pos = t'.bump d pos :=
  h.bind_read rfl fun _ _ _ _ => rfl

theorem charAt? (pos : Nat) : Option.Rel culture.SameFold (t.charAt? pos) (t'.charAt? pos) := by
  have hcell := h.cell? pos
  rw [Text.charAt?, Text.charAt?]
  generalize t.cell? pos = cell at hcell
  generalize t'.cell? pos = cell' at hcell
  cases hcell with
  | none => exact .none
  | some hcell =>
    cases hcell with
    | boundary _ hafter => exact hafter
    | inside => exact .none

theorem charBefore? (pos : Nat) :
    Option.Rel culture.SameFold (t.charBefore? pos) (t'.charBefore? pos) := by
  have hcell := h.cell? pos
  rw [Text.charBefore?, Text.charBefore?]
  generalize t.cell? pos = cell at hcell
  generalize t'.cell? pos = cell' at hcell
  cases hcell with
  | none => exact .none
  | some hcell =>
    cases hcell with
    | boundary hbefore _ => exact hbefore
    | inside => exact .none

/-- What goes on alike from characters that fold to the same goes on alike from those between two
offsets. -/
theorem bind_charsBetween {α : Type} {first last : Nat} {f g : List Char → Except Fault α}
    (hfg : ∀ chars chars', chars.map culture.fold = chars'.map culture.fold → f chars = g chars') :
    t.charsBetween first last >>= f = t'.charsBetween first last >>= g := by
  rw [Text.charsBetween, Text.charsBetween, h.isBoundary, h.isBoundary]
  split
  · apply hfg
    rw [List.map_filterMap, List.map_filterMap]
    congr 1
    funext pos
    have hchar := h.charAt? pos
    generalize t.charAt? pos = c at hchar
    generalize t'.charAt? pos = c' at hchar
    cases hchar with
    | none => rfl
    | some hc => exact congrArg some hc.fold
  · rfl

/-- A search for cells that pass a test stops at the same offset when cells that fold alike pass
alike. -/
theorem seekForward (test : Cell → Bool)
    (htest : ∀ x y, Cell.FoldsLike culture x y → test x = test y) (pos : Nat) :
    t.seekForward (fun _ cell => test cell) pos = t'.seekForward (fun _ cell => test cell) pos := by
  rw [Text.seekForward, Text.seekForward, h.size_cells]
  generalize t'.cells.size - pos = n
  induction n generalizing pos with
  | zero => rfl
  | succ n ih =>
    have hcell := h.cell? pos
    rw [seek, seek, ih]
    generalize t.cell? pos = cell at hcell
    generalize t'.cell? pos = cell' at hcell
    cases hcell with
    | none => rfl
    | some hcell => simp only [htest _ _ hcell]

end Text.FoldsLike

end RegexMachine
