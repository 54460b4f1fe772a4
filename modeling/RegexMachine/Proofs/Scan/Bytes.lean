import Mathlib.Data.List.Find
import RegexMachine.Proofs.Scan.Candidates

/-!
# Searching bytes

A filter that looks for characters can look for their bytes. In UTF-8 no byte within a character can be
taken for the first byte of one, so bytes of characters stand in the bytes of a text only where the
characters stand in the text, and every occurrence begins and ends at a boundary.
-/

namespace RegexMachine

/-- Some characters in UTF-8. -/
def utf8 (chars : List Char) : List UInt8 := chars.flatMap String.utf8EncodeChar

/-- The first offset from `pos` on at which some bytes stand. -/
def firstAt (needle hay : List UInt8) (pos : Nat) : Option Nat :=
  (List.range' pos (hay.length + 1 - pos)).find? fun i => needle.isPrefixOf (hay.drop i)

/-- The end of the last occurrence of some bytes that ends at `pos` or before. -/
def lastEnd (needle hay : List UInt8) (pos : Nat) : Option Nat :=
  (List.range (pos + 1)).reverse.find? fun i => needle.isSuffixOf (hay.take i)

@[simp] theorem utf8_nil : utf8 [] = [] := rfl

@[simp] theorem utf8_cons (c : Char) (cs : List Char) :
    utf8 (c :: cs) = String.utf8EncodeChar c ++ utf8 cs := rfl

@[simp] theorem utf8_append (xs ys : List Char) : utf8 (xs ++ ys) = utf8 xs ++ utf8 ys :=
  List.flatMap_append

@[simp] theorem length_utf8 (cs : List Char) : (utf8 cs).length = bytes cs := by
  induction cs with
  | nil => rfl
  | cons c cs ih => rw [utf8_cons, List.length_append, String.length_utf8EncodeChar, ih, bytes_cons]

theorem utf8_prefix_iff {xs ys : List Char} : utf8 xs <+: utf8 ys ↔ xs <+: ys := by
  constructor
  · rintro ⟨rest, hrest⟩
    apply List.isPrefix_of_utf8Encode_append_eq_utf8Encode rest.toByteArray
    show (utf8 xs).toByteArray ++ rest.toByteArray = (utf8 ys).toByteArray
    rw [← List.toByteArray_append, hrest]
  · rintro ⟨rest, rfl⟩
    exact ⟨utf8 rest, (utf8_append xs rest).symm⟩

theorem exists_append_of_isFirstByte {cs : List Char} {i : Nat} {b : UInt8}
    (h : (utf8 cs)[i]? = some b) (hfirst : b.IsUTF8FirstByte) :
    ∃ xs ys, cs = xs ++ ys ∧ i = bytes xs := by
  induction cs generalizing i with
  | nil => cases h
  | cons c cs ih =>
    rw [utf8_cons] at h
    by_cases hi : i < (String.utf8EncodeChar c).length
    · rw [List.getElem?_append_left hi, List.getElem?_eq_getElem hi, Option.some.injEq] at h
      have hzero : i = 0 := by
        rw [← h] at hfirst
        exact UInt8.isUTF8FirstByte_getElem_utf8EncodeChar.1 hfirst
      exact ⟨[], c :: cs, rfl, hzero⟩
    · rw [List.getElem?_append_right (Nat.not_lt.1 hi)] at h
      obtain ⟨xs, ys, rfl, hxs⟩ := ih h
      refine ⟨c :: xs, ys, rfl, ?_⟩
      rw [String.length_utf8EncodeChar] at hi hxs
      rw [bytes_cons]
      omega

namespace Text

variable {t : Text}

/-- The bytes of a text. -/
def utf8 (t : Text) : List UInt8 := RegexMachine.utf8 t.chars

theorem length_utf8 (t : Text) : t.utf8.length = t.size := by
  rw [utf8, RegexMachine.length_utf8, size_eq_bytes]

theorem utf8_offset {p : Place} (hp : p.In t) :
    t.utf8.take p.offset = RegexMachine.utf8 p.before.reverse ∧
      t.utf8.drop p.offset = RegexMachine.utf8 p.after := by
  have hlength : (RegexMachine.utf8 p.before.reverse).length = p.offset := by simp [Place.offset]
  rw [utf8, ← hp, Place.chars, utf8_append, ← hlength]
  exact ⟨List.take_left, List.drop_left⟩

/-- The bytes of some characters stand only at places. -/
theorem exists_place_of_utf8_prefix {c : Char} {cs : List Char} {i : Nat}
    (h : RegexMachine.utf8 (c :: cs) <+: t.utf8.drop i) : ∃ p : Place, p.In t ∧ p.offset = i := by
  have hpos : 0 < (String.utf8EncodeChar c).length := by
    rw [String.length_utf8EncodeChar]
    exact c.utf8Size_pos
  obtain ⟨rest, hrest⟩ := h
  have hbyte : t.utf8[i]? = some (String.utf8EncodeChar c)[0] := by
    rw [← Nat.add_zero i, ← List.getElem?_drop, ← hrest, utf8_cons, List.append_assoc,
      List.getElem?_append_left hpos, List.getElem?_eq_getElem hpos]
  obtain ⟨xs, ys, hchars, rfl⟩ := exists_append_of_isFirstByte hbyte
    UInt8.isUTF8FirstByte_getElem_zero_utf8EncodeChar
  exact ⟨⟨xs.reverse, ys⟩, by simp [Place.In, Place.chars, hchars], by simp [Place.offset]⟩

theorem isPrefixOf_utf8 (cs : List Char) (i : Nat) :
    (RegexMachine.utf8 cs).isPrefixOf (t.utf8.drop i) = t.startsWith cs i := by
  cases cs with
  | nil => rfl
  | cons c cs =>
    have hplace {p : Place} (hp : p.In t) : (RegexMachine.utf8 (c :: cs)).isPrefixOf
        (t.utf8.drop p.offset) = t.startsWith (c :: cs) p.offset := by
      rw [startsWith_offset _ hp, (utf8_offset hp).2, Bool.eq_iff_iff, List.isPrefixOf_iff_prefix,
        List.isPrefixOf_iff_prefix, utf8_prefix_iff]
    rw [Bool.eq_iff_iff]
    constructor
    · intro h
      obtain ⟨p, hp, rfl⟩ := exists_place_of_utf8_prefix (List.isPrefixOf_iff_prefix.1 h)
      exact (hplace hp).symm.trans h
    · intro h
      have hboundary : t.isBoundary i = true := by
        rw [startsWith, charAt?] at h
        rw [isBoundary]
        cases hcell : t.cell? i with
        | none => simp [hcell] at h
        | some cell =>
          cases cell with
          | boundary => rfl
          | inside => simp [hcell, Cell.after?] at h
      obtain ⟨p, hp, rfl⟩ := exists_place hboundary
      exact (hplace hp).trans h

theorem isSuffixOf_utf8 (c : Char) {i : Nat} (hi : i ≤ t.size) :
    (String.utf8EncodeChar c).isSuffixOf (t.utf8.take i) = (t.charBefore? i == some c) := by
  rw [Bool.eq_iff_iff, List.isSuffixOf_iff_suffix, beq_iff_eq]
  constructor
  · intro h
    -- The place where the bytes begin is one before the character.
    obtain ⟨front, hfront⟩ := h
    have hlength : front.length + c.utf8Size = i := by
      have htake := congrArg List.length hfront
      rwa [List.length_append, String.length_utf8EncodeChar, List.length_take_of_le
        (by rwa [length_utf8])] at htake
    have hdrop : RegexMachine.utf8 [c] <+: t.utf8.drop front.length := by
      refine ⟨t.utf8.drop i, ?_⟩
      have hsplit : t.utf8 = front ++ (String.utf8EncodeChar c ++ t.utf8.drop i) := by
        rw [← List.append_assoc, hfront, List.take_append_drop]
      rw [utf8_cons, utf8_nil, List.append_nil]
      conv => rhs; rw [hsplit, List.drop_left]
    obtain ⟨p, hp, hoffset⟩ := exists_place_of_utf8_prefix hdrop
    rw [← hoffset, (utf8_offset hp).2, utf8_prefix_iff] at hdrop
    obtain ⟨rest, hafter⟩ := hdrop
    have hread : p.read .forward = some (c, ⟨c :: p.before, rest⟩) := by
      rw [Place.read]
      simp only [← hafter, List.singleton_append]
    have hend : Place.offset ⟨c :: p.before, rest⟩ = i := by
      rw [← hlength, ← hoffset, Nat.add_comm]
      rfl
    rw [charBefore?, ← hend, cell?_offset (hp.of_read hread)]
    rfl
  · intro h
    obtain ⟨p, hp, rfl⟩ : ∃ p : Place, p.In t ∧ p.offset = i := by
      apply exists_place
      rw [charBefore?] at h
      rw [isBoundary]
      cases hcell : t.cell? i with
      | none => simp [hcell] at h
      | some cell =>
        cases cell with
        | boundary => rfl
        | inside => simp [hcell, Cell.before?] at h
    rw [charBefore?, cell?_offset hp] at h
    obtain ⟨before, hbefore⟩ := List.head?_eq_some_iff.1 h
    rw [(utf8_offset hp).1, hbefore, List.reverse_cons, utf8_append, utf8_cons, utf8_nil,
      List.append_nil]
    exact List.suffix_append _ _

theorem startsWith_singleton (c : Char) (i : Nat) :
    t.startsWith [c] i = (t.charAt? i == some c) := by
  rw [startsWith]
  cases t.charAt? i <;> simp [startsWith]

/-- A line break stands where its byte stands, so what asks for line breaks may look at bytes. -/
theorem newline_byte (i : Nat) : (t.utf8[i]? == some 10) = (t.charAt? i == some '\n') := by
  have hbytes : RegexMachine.utf8 ['\n'] = [10] := by decide
  rw [← startsWith_singleton, ← isPrefixOf_utf8, hbytes, ← List.head?_drop]
  cases t.utf8.drop i <;> simp [List.isPrefixOf, Bool.beq_comm]

/-- A line break ends behind its byte. -/
theorem newline_byte_before {i : Nat} (hi : i < t.size) :
    (t.utf8[i]? == some 10) = (t.charBefore? (i + 1) == some '\n') := by
  have hbytes : String.utf8EncodeChar '\n' = [10] := by decide
  have hlt : i < t.utf8.length := by rwa [length_utf8]
  rw [← isSuffixOf_utf8 _ hi, hbytes, List.take_add_one, List.getElem?_eq_getElem hlt]
  simp only [Option.toList_some, List.isSuffixOf, List.reverse_append, List.reverse_singleton,
    List.singleton_append, List.isPrefixOf, Bool.and_true, Option.some_beq_some, Bool.beq_comm]

theorem seek_eq_find? (test : Nat → Cell → Bool) (n pos : Nat) :
    t.seek test n pos = (List.range' pos n).find? fun i => (t.cell? i).any (test i) := by
  induction n generalizing pos with
  | zero => rfl
  | succ n ih =>
    rw [seek, List.range'_succ, List.find?_cons]
    cases hcell : t.cell? pos with
    | none =>
      have hnone : ∀ i ∈ List.range' (pos + 1) n, ¬ (t.cell? i).any (test i) = true := by
        intro i hi
        rw [cell?_eq_none hcell (Nat.le_of_lt (List.mem_range'_1.1 hi).1)]
        exact Bool.false_ne_true
      exact (List.find?_eq_none.2 hnone).symm
    | some cell =>
      cases htest : test pos cell with
      | true => simp [htest]
      | false => simp [htest, ih]

theorem seekBackward_eq_find? (test : Nat → Cell → Bool) {pos : Nat} (hpos : pos ≤ t.size) :
    t.seekBackward test pos =
      (List.range (pos + 1)).reverse.find? fun i => (t.cell? i).any (test i) := by
  have hcell {i : Nat} (hi : i ≤ t.size) : ∃ cell, t.cell? i = some cell :=
    ⟨_, Array.getElem?_eq_getElem (by rw [size_cells]; omega)⟩
  induction pos with
  | zero =>
    obtain ⟨cell, hzero⟩ := hcell hpos
    rw [seekBackward, hzero]
    cases htest : test 0 cell <;> simp [hzero, htest]
  | succ pos ih =>
    obtain ⟨cell, hsucc⟩ := hcell hpos
    rw [seekBackward, hsucc, List.range_succ, List.reverse_append, List.reverse_singleton,
      List.singleton_append, List.find?_cons, ← ih (Nat.le_of_succ_le hpos)]
    cases htest : test (pos + 1) cell <;> simp [hsucc, htest]

/-- A forward search for characters is one for their bytes. -/
theorem seekForward_startsWith (chars : List Char) (pos : Nat) :
    t.seekForward (fun i _ => t.startsWith chars i) pos =
      firstAt (RegexMachine.utf8 chars) t.utf8 pos := by
  rw [seekForward, seek_eq_find?, firstAt, length_utf8, size_cells]
  apply List.find?_congr
  intro i hi
  have hlt : i < t.cells.size := by
    have hrange := List.mem_range'_1.1 hi
    rw [size_cells]
    omega
  rw [isPrefixOf_utf8, cell?, Array.getElem?_eq_getElem hlt, Option.any_some]

theorem seekForward_after (c : Char) (pos : Nat) :
    t.seekForward (fun _ cell => cell.after? == some c) pos =
      firstAt (String.utf8EncodeChar c) t.utf8 pos := by
  have hsame : t.seekForward (fun _ cell => cell.after? == some c) pos =
      t.seekForward (fun i _ => t.startsWith [c] i) pos := by
    rw [seekForward, seekForward, seek_eq_find?, seek_eq_find?]
    congr 1
    funext i
    rw [startsWith_singleton, charAt?]
    cases t.cell? i <;> rfl
  rw [hsame, seekForward_startsWith, utf8_cons, utf8_nil, List.append_nil]

/-- A backward search for a character is one for its bytes. -/
theorem seekBackward_before (c : Char) {pos : Nat} (hpos : pos ≤ t.size) :
    t.seekBackward (fun _ cell => cell.before? == some c) pos =
      lastEnd (String.utf8EncodeChar c) t.utf8 pos := by
  rw [seekBackward_eq_find? _ hpos, lastEnd]
  apply List.find?_congr
  intro i hi
  have hle : i ≤ t.size := by
    have hrange := List.mem_range.1 (List.mem_reverse.1 hi)
    omega
  rw [isSuffixOf_utf8 c hle, charBefore?]
  cases t.cell? i <;> rfl

end Text

namespace StartFilter

/-- The search of a filter that looks for characters, made in the bytes of the text. -/
def findInBytes (f : StartFilter) (culture : Culture) (t : Text) (pos textStart : Nat) :
    Except Fault (Option Nat) :=
  match f.mode with
  | .leadingString chars => do
      t.checkOffset pos
      return firstAt (utf8 chars) t.utf8 pos
  | .leadingChar c => do
      t.checkOffset pos
      return firstAt (String.utf8EncodeChar c) t.utf8 pos
  | .trailingChar c => do
      t.checkOffset pos
      return lastEnd (String.utf8EncodeChar c) t.utf8 pos
  | _ => f.find culture t pos textStart

/-- A search of the bytes of a text finds what a search of its characters finds. -/
theorem findInBytes_eq_find (f : StartFilter) (culture : Culture) (t : Text) (pos textStart : Nat) :
    f.findInBytes culture t pos textStart = f.find culture t pos textStart := by
  obtain ⟨mode, direction⟩ := f
  cases mode with
  | leadingString chars =>
    simp only [findInBytes, find, Text.seekForward_startsWith]
  | leadingChar c =>
    simp only [findInBytes, find, Text.seekForward_after]
  | trailingChar c =>
    simp only [findInBytes, find, Text.checkOffset]
    split
    · next hpos => rw [Text.seekBackward_before c hpos]
    · rfl
  | _ => rfl

end StartFilter

end RegexMachine
