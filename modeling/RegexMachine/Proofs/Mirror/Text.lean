import RegexMachine.Capture.Spans
import RegexMachine.Proofs.Text.Passing

/-!
# Texts from their other end

A text whose characters are reversed, with the places and spans of the text as they lie in it. Going
forward in the one is going backward in the other.
-/

namespace RegexMachine

/-- The place as it lies in the reversed text. -/
def Place.mirror (p : Place) : Place := ⟨p.after, p.before⟩

/-- The text with its characters reversed. -/
def Text.reversed (t : Text) : Text := .ofChars t.chars.reverse

/-- The span as it lies in the reversed text, when the text has that many bytes. -/
def Span.mirror (size : Nat) (s : Span) : Span := ⟨size - s.stop, s.length⟩

/-- The mirror image of a span starts where the span stops, seen from the other end, and stops where it
starts. -/
theorem Span.bounds_mirror {size : Nat} {span : Span} (h : span.stop ≤ size) :
    (span.mirror size).start + span.stop = size ∧ (span.mirror size).stop + span.start = size := by
  have hstop : span.stop = span.start + span.length := rfl
  refine ⟨Nat.sub_add_cancel h, ?_⟩
  show size - span.stop + span.length + span.start = size
  omega

theorem Span.mirror_mirror {size : Nat} {span : Span} (h : span.stop ≤ size) :
    (span.mirror size).mirror size = span := by
  have hbounds := (bounds_mirror h).2
  obtain ⟨start, length⟩ := span
  simp only [mirror, mk.injEq, and_true] at hbounds ⊢
  omega

namespace Place

variable {t : Text} {p q : Place}

theorem chars_mirror (p : Place) : p.mirror.chars = p.chars.reverse := by
  simp [chars, mirror]

theorem ahead_mirror (d : Direction) (p : Place) : p.mirror.ahead d.flip = p.ahead d := by
  cases d <;> rfl

theorem read_mirror (d : Direction) (p : Place) :
    p.mirror.read d.flip = (p.read d).map fun r => (r.1, r.2.mirror) := by
  obtain ⟨before, after⟩ := p
  cases d with
  | forward => cases after <;> rfl
  | backward => cases before <;> rfl

theorem In.mirror (hp : p.In t) : p.mirror.In t.reversed :=
  (chars_mirror p).trans (congrArg List.reverse hp)

end Place

namespace Text

variable {t : Text} {p q : Place}

theorem reversed_reversed (t : Text) : t.reversed.reversed = t := by
  obtain ⟨chars, cells, rfl⟩ := t
  simp [reversed, ofChars]

theorem size_reversed (t : Text) : t.reversed.size = t.size := by
  rw [size_eq_bytes, size_eq_bytes, reversed, ofChars, bytes_reverse]

theorem length_reversed (t : Text) : t.reversed.chars.length = t.chars.length := List.length_reverse

theorem offset_add_mirror (hp : p.In t) : p.offset + p.mirror.offset = t.size := by
  rw [size_eq_bytes, ← hp, Place.chars, bytes_append, bytes_reverse]
  rfl

theorem offset_mirror (hp : p.In t) : p.mirror.offset = t.size - p.offset := by
  have hsum := offset_add_mirror hp
  omega

theorem in_of_reversed (hp : p.In t.reversed) : p.mirror.In t := by
  have hin := hp.mirror
  rwa [reversed_reversed] at hin

theorem le_size_of_isBoundary {pos : Nat} (h : t.isBoundary pos = true) : pos ≤ t.size := by
  obtain ⟨p, hp, rfl⟩ := exists_place h
  exact offset_le_size hp

theorem isBoundary_reversed {pos : Nat} (h : t.isBoundary pos = true) :
    t.reversed.isBoundary (t.size - pos) = true := by
  obtain ⟨p, hp, rfl⟩ := exists_place h
  rw [← offset_mirror hp]
  exact isBoundary_offset hp.mirror

/-- The characters of a stretch are met in reverse in the reversed text. -/
theorem charsBetween_reversed {span : Span} (hstart : t.isBoundary span.start = true)
    (hstop : t.isBoundary span.stop = true) :
    ∃ chars, t.charsBetween span.start span.stop = .ok chars ∧
      t.reversed.charsBetween (span.mirror t.size).start (span.mirror t.size).stop =
        .ok chars.reverse := by
  obtain ⟨p, hp, hpoffset⟩ := exists_place hstart
  obtain ⟨q, hq, hqoffset⟩ := exists_place hstop
  have hle : p.offset ≤ q.offset := by
    rw [hpoffset, hqoffset]
    exact Nat.le_add_right _ _
  have hpsum := offset_add_mirror hp
  have hqsum := offset_add_mirror hq
  obtain ⟨chars, hchars, hafter⟩ := exists_charsBetween hp hq hle
  obtain ⟨chars', hchars', hafter'⟩ := exists_charsBetween hq.mirror hp.mirror (by omega)
  -- Both stretches lie between the same two ends of the text.
  have hreverse : chars' = chars.reverse := by
    have hwhole : p.before.reverse ++ p.after = q.before.reverse ++ q.after := hp.trans hq.symm
    have hafter' : q.before = chars' ++ p.before := hafter'
    rw [hafter, hafter', List.reverse_append, List.append_assoc, List.append_cancel_left_eq,
      List.append_cancel_right_eq] at hwhole
    rw [hwhole, List.reverse_reverse]
  subst hreverse
  refine ⟨chars, by rw [← hpoffset, ← hqoffset]; exact hchars, ?_⟩
  have hfirst : (span.mirror t.size).start = q.mirror.offset := by
    rw [offset_mirror hq, hqoffset]
    rfl
  have hlast : (span.mirror t.size).stop = p.mirror.offset := by
    have hbounds := (Span.bounds_mirror (hqoffset ▸ offset_le_size hq)).2
    omega
  rw [hfirst, hlast]
  exact hchars'

end Text

/-- What is captured between two places of the text lies between the same places of the reversed
text. -/
theorem Span.mirror_between {t : Text} {p q : Place} (hp : p.In t) (hq : q.In t) :
    Span.mirror t.size ⟨min p.offset q.offset, max p.offset q.offset - min p.offset q.offset⟩ =
      ⟨min p.mirror.offset q.mirror.offset,
        max p.mirror.offset q.mirror.offset - min p.mirror.offset q.mirror.offset⟩ := by
  have hpsum := Text.offset_add_mirror hp
  have hqsum := Text.offset_add_mirror hq
  simp only [Span.mirror, Span.stop, Span.mk.injEq]
  omega

end RegexMachine
