import RegexMachine.Failure
import RegexMachine.Options

/-!
# Texts

A text is a list of characters addressed by UTF-8 byte offsets. Beside the characters it keeps one
cell for every byte offset, from 0 to its size, which says whether a character starts or ends there.
Reading at an offset that lies inside a character or past the end is a fault.
-/

namespace RegexMachine

/-- What lies at one byte offset. -/
inductive Cell where
  /-- Between two characters: the one that ends here and the one that starts here. -/
  | boundary (before after : Option Char)
  /-- Within the bytes of a character. -/
  | inside
  deriving DecidableEq, Repr, Inhabited

namespace Cell

/-- The character that starts here. -/
def after? : Cell → Option Char
  | boundary _ after => after
  | inside => none

/-- The character that ends here. -/
def before? : Cell → Option Char
  | boundary before _ => before
  | inside => none

def isBoundary : Cell → Bool
  | boundary _ _ => true
  | inside => false

/-- Appends `n` cells that lie within a character. -/
def pushInside (cells : Array Cell) : Nat → Array Cell
  | 0 => cells
  | n + 1 => pushInside (cells.push inside) n

/-- Appends the cells of `chars`, when `before` is the character that precedes them. -/
def tableFrom (cells : Array Cell) (before : Option Char) : List Char → Array Cell
  | [] => cells.push (boundary before none)
  | c :: rest =>
      tableFrom (pushInside (cells.push (boundary before (some c))) (c.utf8Size - 1)) (some c) rest

/-- One cell for every byte offset of a text with these characters. -/
def table (chars : List Char) : Array Cell := tableFrom #[] none chars

end Cell

structure Text where
  chars : List Char := []
  cells : Array Cell := Cell.table chars
  cells_eq : cells = Cell.table chars := by rfl
  deriving DecidableEq

namespace Text

instance : Inhabited Text := ⟨{}⟩

def ofChars (chars : List Char) : Text := { chars }

def ofString (s : String) : Text := ofChars s.toList

def toString (t : Text) : String := String.ofList t.chars

/-- The number of bytes. -/
def size (t : Text) : Nat := t.cells.size - 1

def cell? (t : Text) (pos : Nat) : Option Cell := t.cells[pos]?

/-- The character that starts at an offset. -/
def charAt? (t : Text) (pos : Nat) : Option Char := (t.cell? pos).bind Cell.after?

/-- The character that ends at an offset. -/
def charBefore? (t : Text) (pos : Nat) : Option Char := (t.cell? pos).bind Cell.before?

def isBoundary (t : Text) (pos : Nat) : Bool :=
  match t.cell? pos with
  | some cell => cell.isBoundary
  | none => false

/-- The character next to `pos` in a direction and the position beyond it; `none` at the border of
the text. -/
def read (t : Text) (direction : Direction) (pos : Nat) : Except Fault (Option (Char × Nat)) :=
  match t.cell? pos with
  | some (.boundary before after) =>
      match direction with
      | .forward => .ok (after.map fun c => (c, pos + c.utf8Size))
      | .backward => .ok (before.map fun c => (c, pos - c.utf8Size))
  | _ => .error .outOfBounds

/-- Moves one character from `pos`, or not at all at the border of the text. -/
def bump (t : Text) (direction : Direction) (pos : Nat) : Except Fault Nat := do
  match ← t.read direction pos with
  | some (_, next) => return next
  | none => return pos

/-- Where a scan in this direction stops. -/
def border (t : Text) : Direction → Nat
  | .forward => t.size
  | .backward => 0

/-- Where a scan in this direction starts. -/
def origin (t : Text) (direction : Direction) : Nat := t.border direction.flip

/-- The characters between two boundaries of the text: those that start at the offsets from `first`
up to, not including, `last`. -/
def charsBetween (t : Text) (first last : Nat) : Except Fault (List Char) :=
  if first ≤ last && t.isBoundary first && t.isBoundary last then
    .ok ((List.range' first (last - first)).filterMap t.charAt?)
  else .error .outOfBounds

theorem charsBetween_eq_ok_iff {t : Text} {first last : Nat} {chars : List Char} :
    t.charsBetween first last = .ok chars ↔
      first ≤ last ∧ t.isBoundary first ∧ t.isBoundary last ∧
        chars = (List.range' first (last - first)).filterMap t.charAt? := by
  by_cases h : first ≤ last ∧ t.isBoundary first ∧ t.isBoundary last
  · obtain ⟨hle, hfirst, hlast⟩ := h
    simp [charsBetween, hle, hfirst, hlast, eq_comm]
  · have hcond : (decide (first ≤ last) && t.isBoundary first && t.isBoundary last) = false := by
      rw [Bool.eq_false_iff]
      simpa [and_assoc] using h
    simp only [charsBetween, hcond]
    constructor
    · intro h'
      cases h'
    · rintro ⟨hle, hfirst, hlast, -⟩
      exact absurd ⟨hle, hfirst, hlast⟩ h

theorem charsBetween_append {t : Text} {first middle last : Nat} {xs ys : List Char}
    (hx : t.charsBetween first middle = .ok xs) (hy : t.charsBetween middle last = .ok ys) :
    t.charsBetween first last = .ok (xs ++ ys) := by
  obtain ⟨hle, hfirst, -, rfl⟩ := charsBetween_eq_ok_iff.1 hx
  obtain ⟨hle', -, hlast, rfl⟩ := charsBetween_eq_ok_iff.1 hy
  refine charsBetween_eq_ok_iff.2 ⟨Nat.le_trans hle hle', hfirst, hlast, ?_⟩
  have hlen : last - first = (middle - first) + (last - middle) := by omega
  have hmid : first + (middle - first) = middle := by omega
  rw [hlen, ← List.range'_append_1, List.filterMap_append, hmid]

/-- The text between two of its boundaries. -/
def slice (t : Text) (first last : Nat) : Except Fault String :=
  (t.charsBetween first last).map String.ofList

/-- Whether the characters start at `pos`. -/
def startsWith (t : Text) : List Char → Nat → Bool
  | [], _ => true
  | c :: rest, pos =>
      match t.charAt? pos with
      | some d => d == c && t.startsWith rest (pos + c.utf8Size)
      | none => false

/-- The first of the `n` offsets from `pos` on that passes the test. -/
def seek (t : Text) (test : Nat → Cell → Bool) : (n pos : Nat) → Option Nat
  | 0, _ => none
  | n + 1, pos =>
      match t.cell? pos with
      | some cell => if test pos cell then some pos else t.seek test n (pos + 1)
      | none => none

/-- The first offset at or after `pos` that passes the test. -/
def seekForward (t : Text) (test : Nat → Cell → Bool) (pos : Nat) : Option Nat :=
  t.seek test (t.cells.size - pos) pos

/-- The last offset at or before `pos` that passes the test. -/
def seekBackward (t : Text) (test : Nat → Cell → Bool) : (pos : Nat) → Option Nat
  | 0 =>
      match t.cell? 0 with
      | some cell => if test 0 cell then some 0 else none
      | none => none
  | pos + 1 =>
      match t.cell? (pos + 1) with
      | some cell => if test (pos + 1) cell then some (pos + 1) else t.seekBackward test pos
      | none => none

/-- Refuses offsets past the end. -/
def checkOffset (t : Text) (pos : Nat) : Except Fault Unit :=
  if pos ≤ t.size then .ok () else .error .outOfBounds

/-- Refuses offsets that are no boundary. -/
def checkBoundary (t : Text) (pos : Nat) : Except Fault Unit :=
  if t.isBoundary pos then .ok () else .error .outOfBounds

/-- Every boundary, in ascending order. -/
def boundaries (t : Text) : List Nat :=
  (List.range (t.size + 1)).filter t.isBoundary

end Text

end RegexMachine
