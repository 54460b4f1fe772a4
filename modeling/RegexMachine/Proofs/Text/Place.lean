import Mathlib.Data.List.Basic
import RegexMachine.Machine.Basic

/-!
# Places

A place lies between two characters of a text and is given by what stands on either side of it. It
has an offset in bytes, and every boundary of a text is the offset of exactly one place, so that
what the machine reads by offset can be stated character by character.
-/

namespace RegexMachine

/-- The number of bytes of some characters. -/
def bytes : List Char → Nat
  | [] => 0
  | c :: cs => c.utf8Size + bytes cs

@[simp] theorem bytes_nil : bytes [] = 0 := rfl

@[simp] theorem bytes_cons (c : Char) (cs : List Char) :
    bytes (c :: cs) = c.utf8Size + bytes cs := rfl

@[simp] theorem bytes_append (xs ys : List Char) : bytes (xs ++ ys) = bytes xs + bytes ys := by
  induction xs with
  | nil => simp
  | cons c cs ih => rw [List.cons_append, bytes_cons, bytes_cons, ih, Nat.add_assoc]

@[simp] theorem bytes_reverse (cs : List Char) : bytes cs.reverse = bytes cs := by
  induction cs with
  | nil => rfl
  | cons c cs ih => simp [ih, Nat.add_comm]

theorem bytes_eq_zero {cs : List Char} : bytes cs = 0 ↔ cs = [] := by
  cases cs with
  | nil => simp
  | cons c cs =>
    have hpos := c.utf8Size_pos
    simp
    omega

theorem length_le_bytes (cs : List Char) : cs.length ≤ bytes cs := by
  induction cs with
  | nil => simp
  | cons c cs ih =>
    have hpos := c.utf8Size_pos
    rw [bytes_cons, List.length_cons]
    omega

theorem bytes_le_four_mul (cs : List Char) : bytes cs ≤ 4 * cs.length := by
  induction cs with
  | nil => simp
  | cons c cs ih =>
    have hfour := c.utf8Size_le_four
    rw [bytes_cons, List.length_cons]
    omega

namespace Cell

theorem size_pushInside (cells : Array Cell) (n : Nat) :
    (pushInside cells n).size = cells.size + n := by
  induction n generalizing cells with
  | zero => rfl
  | succ n ih =>
    rw [pushInside, ih, Array.size_push]
    omega

theorem getElem?_pushInside (cells : Array Cell) (n i : Nat) :
    (pushInside cells n)[i]? =
      if i < cells.size then cells[i]? else if i < cells.size + n then some inside else none := by
  induction n generalizing cells with
  | zero =>
    by_cases h : i < cells.size
    · simp [pushInside, h]
    · simp [pushInside, h]
  | succ n ih =>
    rw [pushInside, ih, Array.size_push]
    by_cases h : i < cells.size
    · have hlt : i < cells.size + 1 := by omega
      rw [if_pos hlt, if_pos h, Array.getElem?_push_lt h]
      simp [h]
    · rw [if_neg h]
      by_cases he : i = cells.size
      · subst he
        simp
      · have hlt : ¬ i < cells.size + 1 := by omega
        rw [if_neg hlt]
        have hiff : i < cells.size + 1 + n ↔ i < cells.size + (n + 1) := by omega
        simp only [hiff]

/-- The cells of the first character and the table of the others. -/
theorem tableFrom_cons (cells : Array Cell) (before : Option Char) (c : Char) (rest : List Char) :
    tableFrom cells before (c :: rest) =
      tableFrom (pushInside (cells.push (boundary before (some c))) (c.utf8Size - 1)) (some c)
        rest := rfl

theorem size_pushChar (cells : Array Cell) (cell : Cell) (c : Char) :
    (pushInside (cells.push cell) (c.utf8Size - 1)).size = cells.size + c.utf8Size := by
  have hpos := c.utf8Size_pos
  rw [size_pushInside, Array.size_push]
  omega

theorem size_tableFrom (cells : Array Cell) (before : Option Char) (chars : List Char) :
    (tableFrom cells before chars).size = cells.size + bytes chars + 1 := by
  induction chars generalizing cells before with
  | nil => simp [tableFrom]
  | cons c rest ih =>
    rw [tableFrom_cons, ih, size_pushChar, bytes_cons]
    omega

theorem getElem?_tableFrom_of_lt (cells : Array Cell) (before : Option Char) (chars : List Char)
    {i : Nat} (h : i < cells.size) : (tableFrom cells before chars)[i]? = cells[i]? := by
  induction chars generalizing cells before with
  | nil => rw [tableFrom, Array.getElem?_push_lt h, Array.getElem?_eq_getElem h]
  | cons c rest ih =>
    have hsize := size_pushChar cells (boundary before (some c)) c
    rw [tableFrom_cons, ih _ _ (by omega), getElem?_pushInside, Array.size_push,
      if_pos (by omega), Array.getElem?_push_lt h, Array.getElem?_eq_getElem h]

/-- Between the characters `xs` and `ys` there is a boundary. -/
theorem getElem?_tableFrom_append (cells : Array Cell) (before : Option Char) (xs ys : List Char) :
    (tableFrom cells before (xs ++ ys))[cells.size + bytes xs]? =
      some (boundary (xs.getLast?.or before) ys.head?) := by
  induction xs generalizing cells before with
  | nil =>
    cases ys with
    | nil => simp [tableFrom]
    | cons y ys =>
      rw [List.nil_append, tableFrom_cons, bytes_nil, Nat.add_zero, getElem?_tableFrom_of_lt _ _ _
        (by rw [size_pushChar]; have := y.utf8Size_pos; omega), getElem?_pushInside,
        Array.size_push, if_pos (by omega)]
      simp
  | cons x xs ih =>
    have h := ih (pushInside (cells.push (boundary before (some x))) (x.utf8Size - 1)) (some x)
    rw [size_pushChar] at h
    rw [List.cons_append, tableFrom_cons, bytes_cons, ← Nat.add_assoc, h]
    cases xs with
    | nil => simp
    | cons z zs =>
      rw [List.getLast?_cons_cons, List.getLast?_eq_some_getLast (List.cons_ne_nil z zs)]
      rfl

/-- A boundary splits the characters. -/
theorem exists_append_of_tableFrom (cells : Array Cell) (before : Option Char) (chars : List Char)
    {k : Nat} {b a : Option Char}
    (h : (tableFrom cells before chars)[cells.size + k]? = some (boundary b a)) :
    ∃ xs ys, chars = xs ++ ys ∧ k = bytes xs := by
  induction chars generalizing cells before k with
  | nil =>
    refine ⟨[], [], rfl, ?_⟩
    rw [tableFrom, Array.getElem?_push] at h
    by_cases hk : k = 0
    · simp [hk]
    · simp [hk] at h
  | cons c rest ih =>
    rw [tableFrom_cons] at h
    by_cases hk : k < c.utf8Size
    · by_cases hzero : k = 0
      · exact ⟨[], c :: rest, rfl, by simp [hzero]⟩
      · rw [getElem?_tableFrom_of_lt _ _ _ (by rw [size_pushChar]; omega), getElem?_pushInside,
          Array.size_push, if_neg (by omega), if_pos (by omega)] at h
        cases h
    · have hsize := size_pushChar cells (boundary before (some c)) c
      have he : cells.size + k =
          (pushInside (cells.push (boundary before (some c))) (c.utf8Size - 1)).size +
            (k - c.utf8Size) := by
        rw [hsize]
        omega
      rw [he] at h
      obtain ⟨xs, ys, rfl, hbytes⟩ := ih _ _ h
      refine ⟨c :: xs, ys, rfl, ?_⟩
      rw [bytes_cons]
      omega

end Cell

/-- A place in a text: the characters before it, nearest first, and those after it. -/
@[ext] structure Place where
  before : List Char
  after : List Char
  deriving DecidableEq, Repr, Inhabited

namespace Place

/-- The number of bytes before a place. -/
def offset (p : Place) : Nat := bytes p.before

/-- The whole text that a place is in. -/
def chars (p : Place) : List Char := p.before.reverse ++ p.after

/-- The next character in a direction, and the place beyond it. -/
def read (d : Direction) (p : Place) : Option (Char × Place) :=
  match d with
  | .forward =>
      match p.after with
      | [] => none
      | c :: rest => some (c, ⟨c :: p.before, rest⟩)
  | .backward =>
      match p.before with
      | [] => none
      | c :: rest => some (c, ⟨rest, c :: p.after⟩)

/-- How many characters lie ahead in a direction. -/
def ahead (d : Direction) (p : Place) : Nat :=
  match d with
  | .forward => p.after.length
  | .backward => p.before.length

theorem ahead_le_length (d : Direction) (p : Place) : p.ahead d ≤ p.chars.length := by
  cases d <;> simp [ahead, chars]

theorem chars_of_read {d : Direction} {p q : Place} {c : Char} (h : p.read d = some (c, q)) :
    q.chars = p.chars := by
  obtain ⟨before, after⟩ := p
  cases d with
  | forward =>
    cases after with
    | nil => cases h
    | cons a rest =>
      simp only [read, Option.some.injEq, Prod.mk.injEq] at h
      obtain ⟨rfl, rfl⟩ := h
      simp [chars]
  | backward =>
    cases before with
    | nil => cases h
    | cons b rest =>
      simp only [read, Option.some.injEq, Prod.mk.injEq] at h
      obtain ⟨rfl, rfl⟩ := h
      simp [chars]

theorem ahead_of_read {d : Direction} {p q : Place} {c : Char} (h : p.read d = some (c, q)) :
    q.ahead d + 1 = p.ahead d := by
  obtain ⟨before, after⟩ := p
  cases d with
  | forward =>
    cases after with
    | nil => cases h
    | cons a rest =>
      simp only [read, Option.some.injEq, Prod.mk.injEq] at h
      obtain ⟨rfl, rfl⟩ := h
      simp [ahead]
  | backward =>
    cases before with
    | nil => cases h
    | cons b rest =>
      simp only [read, Option.some.injEq, Prod.mk.injEq] at h
      obtain ⟨rfl, rfl⟩ := h
      simp [ahead]

theorem after_of_read {p q : Place} {c : Char} (h : p.read .forward = some (c, q)) :
    p.after = c :: q.after ∧ q.offset = p.offset + c.utf8Size := by
  obtain ⟨before, after⟩ := p
  cases after with
  | nil => cases h
  | cons x rest =>
    cases h
    exact ⟨rfl, Nat.add_comm _ _⟩

theorem read_eq_none {d : Direction} {p : Place} : p.read d = none ↔ p.ahead d = 0 := by
  obtain ⟨before, after⟩ := p
  cases d with
  | forward => cases after <;> simp [read, ahead]
  | backward => cases before <;> simp [read, ahead]

theorem read_flip {d : Direction} {p q : Place} {c : Char} (h : p.read d = some (c, q)) :
    q.read d.flip = some (c, p) := by
  obtain ⟨before, after⟩ := p
  cases d with
  | forward =>
    cases after with
    | nil => cases h
    | cons a rest =>
      simp only [read, Option.some.injEq, Prod.mk.injEq] at h
      obtain ⟨rfl, rfl⟩ := h
      rfl
  | backward =>
    cases before with
    | nil => cases h
    | cons b rest =>
      simp only [read, Option.some.injEq, Prod.mk.injEq] at h
      obtain ⟨rfl, rfl⟩ := h
      rfl

theorem eq_of_ahead {d : Direction} {p q : Place} (hchars : p.chars = q.chars)
    (h : p.ahead d = q.ahead d) : p = q := by
  obtain ⟨xs, ys⟩ := p
  obtain ⟨zs, ws⟩ := q
  have hlen : xs.length = zs.length := by
    have hsum := congrArg List.length hchars
    simp only [chars, List.length_append, List.length_reverse] at hsum
    cases d with
    | forward =>
      change ys.length = ws.length at h
      omega
    | backward => exact h
  obtain ⟨hx, hy⟩ := List.append_inj hchars (by simpa using hlen)
  exact Place.ext (List.reverse_inj.1 hx) hy

theorem ahead_of_offset_le {p q : Place} (hchars : p.chars = q.chars) (h : p.offset ≤ q.offset) :
    q.ahead .forward ≤ p.ahead .forward ∧ p.ahead .backward ≤ q.ahead .backward := by
  obtain ⟨xs, ys⟩ := p
  obtain ⟨zs, ws⟩ := q
  change xs.reverse ++ ys = zs.reverse ++ ws at hchars
  change bytes xs ≤ bytes zs at h
  change ws.length ≤ ys.length ∧ xs.length ≤ zs.length
  rw [← bytes_reverse xs, ← bytes_reverse zs] at h
  have hlength : ∀ cs : List Char, cs.length = cs.reverse.length := fun _ => List.length_reverse.symm
  rw [hlength xs, hlength zs]
  rcases List.append_eq_append_iff.1 hchars with ⟨between, hzs, hys⟩ | ⟨between, hxs, hws⟩
  · rw [hzs, hys, List.length_append, List.length_append]
    omega
  · rw [hxs, bytes_append] at h
    obtain rfl : between = [] := bytes_eq_zero.1 (by omega)
    rw [hxs, hws, List.append_nil]
    exact ⟨Nat.le_refl _, Nat.le_refl _⟩

theorem eq_of_offset {p q : Place} (hchars : p.chars = q.chars) (h : p.offset = q.offset) :
    p = q := by
  have key : ∀ (xs zs ys ws : List Char), xs ++ ys = zs ++ ws → bytes xs = bytes zs →
      xs = zs ∧ ys = ws := by
    intro xs
    induction xs with
    | nil =>
      intro zs ys ws happ hb
      have hz : zs = [] := bytes_eq_zero.1 (by simpa using hb.symm)
      subst hz
      exact ⟨rfl, happ⟩
    | cons x xs ih =>
      intro zs ys ws happ hb
      cases zs with
      | nil => exact absurd (bytes_eq_zero.1 hb) (List.cons_ne_nil x xs)
      | cons z zs =>
        simp only [List.cons_append, List.cons.injEq] at happ
        obtain ⟨rfl, happ⟩ := happ
        obtain ⟨rfl, rfl⟩ := ih zs ys ws happ (by simpa using hb)
        exact ⟨rfl, rfl⟩
  obtain ⟨xs, ys⟩ := p
  obtain ⟨zs, ws⟩ := q
  obtain ⟨hx, hy⟩ := key xs.reverse zs.reverse ys ws hchars (by simpa [offset] using h)
  exact Place.ext (List.reverse_inj.1 hx) hy

theorem offset_eq_zero {p : Place} : p.offset = 0 ↔ p.before = [] := bytes_eq_zero

/-- The place is in the text. -/
def In (p : Place) (t : Text) : Prop := p.chars = t.chars

theorem In.of_read {t : Text} {d : Direction} {p q : Place} {c : Char} (hp : p.In t)
    (h : p.read d = some (c, q)) : q.In t :=
  (chars_of_read h).trans hp

end Place

namespace Text

theorem size_eq_bytes (t : Text) : t.size = bytes t.chars := by
  rw [size, t.cells_eq, Cell.table, Cell.size_tableFrom]
  simp

theorem size_cells (t : Text) : t.cells.size = t.size + 1 := by
  rw [size_eq_bytes, t.cells_eq, Cell.table, Cell.size_tableFrom]
  simp

theorem cell?_offset {t : Text} {p : Place} (h : p.In t) :
    t.cell? p.offset = some (.boundary p.before.head? p.after.head?) := by
  have hcell := Cell.getElem?_tableFrom_append #[] none p.before.reverse p.after
  rw [cell?, t.cells_eq, ← h]
  simpa [Cell.table, Place.chars, Place.offset] using hcell

theorem isBoundary_offset {t : Text} {p : Place} (h : p.In t) : t.isBoundary p.offset = true := by
  rw [isBoundary, cell?_offset h]
  rfl

/-- Every boundary is the offset of a place. -/
theorem exists_place {t : Text} {pos : Nat} (h : t.isBoundary pos = true) :
    ∃ p : Place, p.In t ∧ p.offset = pos := by
  rw [isBoundary] at h
  cases hcell : t.cell? pos with
  | none =>
    rw [hcell] at h
    cases h
  | some cell =>
    cases cell with
    | inside =>
      rw [hcell] at h
      cases h
    | boundary b a =>
      rw [cell?, t.cells_eq, Cell.table] at hcell
      obtain ⟨xs, ys, hchars, hpos⟩ :=
        Cell.exists_append_of_tableFrom #[] none t.chars (k := pos) (by simpa using hcell)
      exact ⟨⟨xs.reverse, ys⟩, by simp [Place.In, Place.chars, hchars], by
        simp [Place.offset, hpos]⟩

theorem offset_le_size {t : Text} {p : Place} (h : p.In t) : p.offset ≤ t.size := by
  rw [size_eq_bytes, ← h, Place.chars, bytes_append, bytes_reverse, Place.offset]
  omega

theorem offset_eq_size {t : Text} {p : Place} (hp : p.In t) : p.offset = t.size ↔ p.after = [] := by
  rw [size_eq_bytes, ← hp, Place.chars, bytes_append, bytes_reverse, Place.offset]
  constructor
  · intro h
    exact bytes_eq_zero.1 (by omega)
  · intro h
    rw [h, bytes_nil]
    omega

/-- Reading by offset is reading by place. -/
theorem read_offset {t : Text} {p : Place} (h : p.In t) (d : Direction) :
    t.read d p.offset = .ok ((p.read d).map fun r => (r.1, r.2.offset)) := by
  rw [read, cell?_offset h]
  obtain ⟨before, after⟩ := p
  cases d with
  | forward =>
    cases after with
    | nil => rfl
    | cons c rest => simp [Place.read, Place.offset, Nat.add_comm]
  | backward =>
    cases before with
    | nil => rfl
    | cons c rest => simp [Place.read, Place.offset]

theorem bump_flip {t : Text} {p q : Place} {d : Direction} {c : Char} (hp : p.In t)
    (h : p.read d = some (c, q)) : t.bump d.flip q.offset = .ok p.offset := by
  rw [bump, read_offset (hp.of_read h), Place.read_flip h]
  rfl

/-- The characters between two boundaries can be asked for. -/
theorem charsBetween_of_boundaries {t : Text} {first last : Nat} (hle : first ≤ last)
    (hfirst : t.isBoundary first = true) (hlast : t.isBoundary last = true) :
    ∃ chars, t.charsBetween first last = .ok chars :=
  ⟨_, charsBetween_eq_ok_iff.2 ⟨hle, hfirst, hlast, rfl⟩⟩

end Text

end RegexMachine
