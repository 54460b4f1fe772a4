import Mathlib.Algebra.Ring.Nat
import RegexMachine.Proofs.Replacement.Literal
import RegexMachine.Proofs.Text.Passing

/-!
# Splicing

Replacing matches means to cut the text at them and to put their expansions between the pieces. All
ways in which a regex assembles a replacement come to this: going forward or backward, and with the
kept spans noted first and written at the end. Whatever may go wrong is an offset out of bounds, so it
does not matter in which order the pieces are cut.
-/

namespace RegexMachine

open Regex (Assembled Kept)

/-- The text from `first` to `last` with the matches in it replaced by their expansions. -/
def Text.splice (text : Text) (expansion : Match → Except Fault String) (last : Nat) :
    (first : Nat) → List Match → Except Fault String
  | first, [] => text.slice first last
  | first, m :: ms => do
      let kept ← text.slice first m.start
      let new ← expansion m
      let rest ← text.splice expansion last m.stop ms
      return kept ++ new ++ rest

/-- Matches in the order of the text. -/
def Direction.inTextOrder (d : Direction) (ms : List Match) : List Match :=
  match d with
  | .forward => ms
  | .backward => ms.reverse

/-- The text with the matches of a search replaced, or the text itself when there are none. -/
def Text.replacing (text : Text) (expansion : Match → Except Fault String) (d : Direction)
    (ms : List Match) : Except Fault Replaced :=
  if ms.isEmpty then .ok .unchanged
  else (text.splice expansion text.size 0 (d.inTextOrder ms)).map .changed

/-- The one thing that may go wrong is that an offset is out of bounds. -/
def FailsOutOfBounds {α : Type} (r : Except Fault α) : Prop := ∀ f, r = .error f → f = .outOfBounds

namespace FailsOutOfBounds

variable {α β : Type} {r : Except Fault α}

theorem ok (a : α) : FailsOutOfBounds (.ok a) := fun _ h => by cases h

theorem error : FailsOutOfBounds (.error .outOfBounds : Except Fault α) :=
  fun _ h => (Except.error.inj h).symm

theorem bind (h : FailsOutOfBounds r) {f : α → Except Fault β}
    (hf : ∀ a, FailsOutOfBounds (f a)) : FailsOutOfBounds (r >>= f) := by
  cases r with
  | ok a => exact hf a
  | error e => exact fun e' he' => h e' (congrArg Except.error (Except.error.inj he'))

theorem map (h : FailsOutOfBounds r) (f : α → β) : FailsOutOfBounds (r.map f) := by
  cases r with
  | ok a => exact ok (f a)
  | error e => exact fun e' he' => h e' (congrArg Except.error (Except.error.inj he'))

theorem slice (text : Text) (first last : Nat) : FailsOutOfBounds (text.slice first last) := by
  apply map
  rw [Text.charsBetween]
  split
  · exact ok _
  · exact error

theorem bind_comm {r' : Except Fault β} (h : FailsOutOfBounds r) (h' : FailsOutOfBounds r')
    {γ : Type} (f : α → β → Except Fault γ) :
    (r >>= fun a => r' >>= fun b => f a b) = r' >>= fun b => r >>= fun a => f a b := by
  cases r with
  | ok a => rfl
  | error e =>
    cases r' with
    | ok b => rfl
    | error e' =>
      obtain rfl := h e rfl
      obtain rfl := h' e' rfl
      rfl

theorem mapM {f : β → Except Fault α} (h : ∀ b, FailsOutOfBounds (f b)) (bs : List β) :
    FailsOutOfBounds (bs.mapM f) := by
  induction bs with
  | nil => exact ok []
  | cons b bs ih =>
    rw [List.mapM_cons]
    exact (h b).bind fun a => ih.bind fun as => ok (a :: as)

theorem groupString (m : Match) (i : Nat) : FailsOutOfBounds (m.groupString i) := by
  rw [Match.groupString]
  split
  · exact slice _ _ _
  · exact ok _

theorem expand (t : Template) (m : Match) : FailsOutOfBounds (t.expand m) := by
  refine map (mapM (fun r => ?_) t.rules) String.join
  cases r with
  | literal | wholeText => exact ok _
  | leftPortion | rightPortion => exact slice _ _ _
  | group | lastGroup => exact groupString _ _

theorem splice {text : Text} {expansion : Match → Except Fault String}
    (h : ∀ m, FailsOutOfBounds (expansion m)) (last : Nat) (ms : List Match) :
    ∀ first, FailsOutOfBounds (text.splice expansion last first ms) := by
  induction ms with
  | nil => exact fun first => slice text first last
  | cons m ms ih =>
    exact fun first => (slice _ _ _).bind fun _ => (h m).bind fun _ => (ih m.stop).bind fun _ => ok _

end FailsOutOfBounds

namespace Text

variable {text : Text} {first last : Nat} {s s' : String}

theorem slice_of_lt (h : last < first) : text.slice first last = .error .outOfBounds := by
  rw [slice, charsBetween, if_neg]
  · rfl
  · simp [Nat.not_le.2 h]

theorem exists_chars_of_slice (h : text.slice first last = .ok s) :
    ∃ chars, text.charsBetween first last = .ok chars ∧ s = String.ofList chars := by
  rw [slice] at h
  cases hchars : text.charsBetween first last with
  | error f =>
    rw [hchars] at h
    cases h
  | ok chars =>
    rw [hchars] at h
    cases h
    exact ⟨chars, rfl, rfl⟩

theorem slice_append {middle : Nat} (h : text.slice first middle = .ok s)
    (h' : text.slice middle last = .ok s') : text.slice first last = .ok (s ++ s') := by
  obtain ⟨chars, hchars, rfl⟩ := exists_chars_of_slice h
  obtain ⟨chars', hchars', rfl⟩ := exists_chars_of_slice h'
  rw [slice, charsBetween_append hchars hchars']
  exact congrArg Except.ok String.ofList_append

theorem slice_whole (text : Text) : text.slice 0 text.size = .ok text.toString := by
  have hfirst : Place.In ⟨[], text.chars⟩ text := rfl
  have hlast : Place.In ⟨text.chars.reverse, []⟩ text := by simp [Place.In, Place.chars]
  obtain ⟨chars, hchars, hafter⟩ := exists_charsBetween hfirst hlast (Nat.zero_le _)
  rw [(offset_eq_size hlast).2 rfl] at hchars
  rw [List.append_nil] at hafter
  rw [slice, show text.charsBetween 0 text.size = .ok chars from hchars, ← hafter]
  rfl

theorem bytes_of_slice (h : text.slice first last = .ok s) : bytes s.toList = last - first := by
  obtain ⟨chars, hchars, rfl⟩ := exists_chars_of_slice h
  obtain ⟨hle, hfirst, hlast, -⟩ := charsBetween_eq_ok_iff.1 hchars
  obtain ⟨p, hp, rfl⟩ := exists_place hfirst
  obtain ⟨q, hq, rfl⟩ := exists_place hlast
  obtain ⟨chars', hchars', hafter⟩ := exists_charsBetween hp hq hle
  obtain rfl := Except.ok.inj (hchars.symm.trans hchars')
  have hsize : ∀ {r : Place}, r.In text → r.offset + bytes r.after = text.size := by
    intro r hr
    rw [size_eq_bytes, ← hr, Place.chars, bytes_append, bytes_reverse, Place.offset]
  have hp' := hsize hp
  have hq' := hsize hq
  rw [hafter, bytes_append] at hp'
  rw [String.toList_ofList]
  omega

end Text

section

variable {text : Text} {expansion : Match → Except Fault String}

/-- The last match may as well be replaced last. -/
theorem Text.splice_concat (last : Nat) (ms : List Match) (m : Match) : ∀ first,
    text.splice expansion last first (ms ++ [m]) = do
      let before ← text.splice expansion m.start first ms
      let new ← expansion m
      let kept ← text.slice m.stop last
      return before ++ new ++ kept := by
  induction ms with
  | nil => exact fun first => rfl
  | cons m' ms ih =>
    intro first
    simp only [List.cons_append, splice, ih, bind_assoc, pure_bind, String.append_assoc]

section

variable {replacement : Nat → Match → Except Fault (List String)}
  (hexpansion : ∀ i m, (replacement i m).map String.join = expansion m)

include hexpansion

/-- Pieces that are gathered going forward are the text spliced from the border on. -/
theorem Regex.Assembled.finish_forward (ms : List Match) : ∀ a : Assembled,
    (ms.foldlM (Assembled.add .forward text replacement) a >>= Assembled.finish .forward text) =
      if a.count = 0 ∧ ms = [] then .ok .unchanged
      else (text.splice expansion text.size a.border ms).map fun s =>
        .changed (String.join a.pieces.reverse ++ s) := by
  induction ms with
  | nil =>
    intro a
    simp only [List.foldlM_nil, pure_bind, Assembled.finish, Regex.remainder, Text.splice, and_true]
    split
    · rfl
    · cases text.slice a.border text.size with
      | error f => rfl
      | ok s =>
        simp [Except.map, bind, Except.bind, pure, Except.pure, String.join_append, String.join_cons]
  | cons m ms ih =>
    intro a
    simp only [List.foldlM_cons, bind_assoc, ih, Assembled.add, Regex.keepUpTo, Text.splice, pure_bind,
      reduceCtorEq, and_false, if_false, Nat.add_eq_zero_iff, Nat.one_ne_zero, false_and]
    cases text.slice a.border m.start with
    | error f => rfl
    | ok kept =>
      simp only [bind, Except.bind]
      rw [← hexpansion a.count m]
      cases replacement a.count m with
      | error f => rfl
      | ok segments =>
        simp only [Except.map, pure, Except.pure]
        cases text.splice expansion text.size m.stop ms with
        | error f => rfl
        | ok rest =>
          simp [String.join_append, String.join_cons, String.append_assoc]

/-- Pieces that are gathered going backward are the text spliced up to the border. -/
theorem Regex.Assembled.finish_backward (hfails : ∀ m, FailsOutOfBounds (expansion m))
    (ms : List Match) : ∀ a : Assembled,
    (ms.foldlM (Assembled.add .backward text replacement) a >>= Assembled.finish .backward text) =
      if a.count = 0 ∧ ms = [] then .ok .unchanged
      else (text.splice expansion a.border 0 ms.reverse).map fun s =>
        .changed (s ++ String.join a.pieces) := by
  induction ms with
  | nil =>
    intro a
    simp only [List.foldlM_nil, pure_bind, Assembled.finish, Regex.remainder, Text.splice, and_true,
      List.reverse_nil]
    split
    · rfl
    · cases text.slice 0 a.border with
      | error f => rfl
      | ok s => simp [Except.map, bind, Except.bind, pure, Except.pure, String.join_cons]
  | cons m ms ih =>
    intro a
    simp only [List.foldlM_cons, bind_assoc, ih, Assembled.add, Regex.keepUpTo, pure_bind,
      List.reverse_cons, Text.splice_concat, reduceCtorEq, and_false, if_false, Nat.add_eq_zero_iff,
      Nat.one_ne_zero, false_and, List.reverse_reverse]
    -- Going backward, the pieces are cut in the other order; what fails fails alike.
    have hbefore : FailsOutOfBounds (text.splice expansion m.start 0 ms.reverse) :=
      .splice hfails m.start ms.reverse 0
    have hkept := FailsOutOfBounds.slice text m.stop a.border
    have hreorder : (do
        let before ← text.splice expansion m.start 0 ms.reverse
        let new ← expansion m
        let kept ← text.slice m.stop a.border
        return before ++ new ++ kept) = do
        let kept ← text.slice m.stop a.border
        let new ← expansion m
        let before ← text.splice expansion m.start 0 ms.reverse
        return before ++ new ++ kept := by
      rw [hbefore.bind_comm (hfails m)]
      simp only [hbefore.bind_comm hkept]
      rw [(hfails m).bind_comm hkept]
    rw [hreorder, ← hexpansion a.count m]
    cases text.slice m.stop a.border with
    | error f => rfl
    | ok kept =>
      cases replacement a.count m with
      | error f => rfl
      | ok segments =>
        simp only [Except.map, bind, Except.bind, pure, Except.pure]
        cases text.splice expansion m.start 0 ms.reverse with
        | error f => rfl
        | ok before => simp [String.join_append, String.join_cons, String.append_assoc]

end

theorem intercalate_concat (separator last : String) (pieces : List String) :
    separator.intercalate (pieces ++ [last]) =
      String.join (pieces.map (· ++ separator)) ++ last := by
  induction pieces with
  | nil => simp
  | cons piece pieces ih =>
    rw [List.cons_append, String.intercalate_cons_of_ne_nil (by simp), ih]
    simp [String.join_cons, String.append_assoc]

/-- The text of spans that are kept. -/
def Text.cuts (text : Text) (spans : List Span) : Except Fault (List String) :=
  spans.mapM fun s => text.slice s.start s.stop

theorem Text.cuts_concat (spans : List Span) {first last : Nat} (h : first ≤ last) :
    text.cuts (spans ++ [⟨first, last - first⟩]) = do
      let pieces ← text.cuts spans
      let piece ← text.slice first last
      return pieces ++ [piece] := by
  have hstop : first + (last - first) = last := by omega
  simp only [cuts, List.mapM_append, List.mapM_cons, List.mapM_nil, Span.stop, hstop, bind_assoc,
    pure_bind]

/-- Spans that are noted going forward, with a text that does not depend on the match between them,
are the text spliced from the border on. -/
theorem Regex.Kept.finish_eq (new : String) (ms : List Match) : ∀ k : Kept,
    (ms.foldlM Kept.add k >>= Kept.finish text new) =
      if k.spans = [] ∧ ms = [] then .ok .unchanged
      else do
        let pieces ← text.cuts k.spans.reverse
        let rest ← text.splice (fun _ => .ok new) text.size k.border ms
        return .changed (String.join (pieces.map (· ++ new)) ++ rest) := by
  have hcuts : ∀ spans, FailsOutOfBounds (text.cuts spans) :=
    FailsOutOfBounds.mapM fun s => .slice text s.start s.stop
  induction ms with
  | nil =>
    intro k
    simp only [List.foldlM_nil, pure_bind, Kept.finish, List.isEmpty_iff, and_true]
    split
    · rfl
    · by_cases hborder : text.size < k.border
      · rw [if_pos hborder, Text.splice, Text.slice_of_lt hborder]
        cases hpieces : text.cuts k.spans.reverse with
        | error f =>
          rw [hcuts _ f hpieces]
          rfl
        | ok pieces => rfl
      · have hlast := text.cuts_concat k.spans.reverse (Nat.not_lt.1 hborder)
        rw [Text.cuts] at hlast
        rw [if_neg hborder, List.reverse_cons, hlast]
        simp only [pure_bind, bind_assoc, intercalate_concat, Text.splice]
  | cons m ms ih =>
    intro k
    simp only [List.foldlM_cons, bind_assoc, Kept.add, reduceCtorEq, and_false, if_false, Text.splice]
    by_cases hborder : k.border ≤ m.start
    · let noted : Kept :=
        { spans := ⟨k.border, m.start - k.border⟩ :: k.spans, border := m.stop }
      have hnoted := ih noted
      rw [if_neg (by simp [noted]), show noted.spans.reverse = _ from List.reverse_cons,
        Text.cuts_concat _ hborder] at hnoted
      rw [if_pos hborder]
      refine Eq.trans hnoted ?_
      have hnew : ∀ f : String → Except Fault Replaced, (Except.ok new >>= f) = f new := fun _ => rfl
      simp [noted, hnew, String.join_append, String.append_assoc]
    · simp only [if_neg hborder, Text.slice_of_lt (Nat.not_le.1 hborder)]
      cases hpieces : text.cuts k.spans.reverse with
      | error f =>
        rw [hcuts _ f hpieces]
        rfl
      | ok pieces => rfl

/-- With the text between them, the kept spans have as many bytes as they tell. -/
theorem Text.bytes_cuts (new : String) {spans : List Span} : ∀ {pieces : List String},
    text.cuts spans = .ok pieces →
      bytes (String.join (pieces.map (· ++ new))).toList =
        (spans.map Span.length).sum + spans.length * bytes new.toList := by
  induction spans with
  | nil =>
    intro pieces h
    obtain rfl := Except.ok.inj h
    simp
  | cons span spans ih =>
    intro pieces h
    rw [cuts, List.mapM_cons] at h
    obtain ⟨piece, hpiece, h⟩ := exists_of_bind h
    obtain ⟨rest, hrest, h⟩ := exists_of_bind h
    obtain rfl := Except.ok.inj h
    have hsize := bytes_of_slice hpiece
    rw [Span.stop, Nat.add_sub_cancel_left] at hsize
    rw [List.map_cons, String.join_cons, String.toList_append, bytes_append, ih hrest,
      String.toList_append, bytes_append, hsize, List.map_cons, List.sum_cons, List.length_cons,
      Nat.add_one_mul]
    omega

/-- What is written has as many bytes as were reckoned before: those of the kept spans, of the text
behind the border and of the text that stands between them. -/
theorem Regex.Kept.bytes_finish {k : Kept} {new s : String}
    (h : k.finish text new = .ok (.changed s)) :
    bytes s.toList = (k.spans.map Span.length).sum + (text.size - k.border) +
      k.spans.length * bytes new.toList := by
  have heq := @Kept.finish_eq text new [] k
  rw [List.foldlM_nil, pure_bind, h] at heq
  split at heq
  · cases heq
  · obtain ⟨pieces, hpieces, heq⟩ := exists_of_bind heq.symm
    obtain ⟨rest, hrest, heq⟩ := exists_of_bind heq
    obtain rfl := Replaced.changed.inj (Except.ok.inj heq)
    have hkept := Text.bytes_cuts new hpieces
    have hsize := Text.bytes_of_slice hrest
    rw [List.map_reverse, List.sum_reverse, List.length_reverse] at hkept
    rw [String.toList_append, bytes_append, hkept, hsize]
    omega

end

/-- What the groups of the match captured last starts and stops at boundaries of its text. -/
def Match.InText (m : Match) : Prop :=
  ∀ i, ∀ span ∈ m.spans.group? i,
    m.text.isBoundary span.start = true ∧ m.text.isBoundary span.stop = true

namespace Text

theorem isBoundary_zero (text : Text) : text.isBoundary 0 = true :=
  isBoundary_offset (p := ⟨[], text.chars⟩) rfl

theorem isBoundary_size (text : Text) : text.isBoundary text.size = true := by
  have hp : Place.In ⟨text.chars.reverse, []⟩ text := by simp [Place.In, Place.chars]
  have hboundary := isBoundary_offset hp
  rwa [(offset_eq_size hp).2 rfl] at hboundary

theorem le_size {text : Text} {pos : Nat} (h : text.isBoundary pos = true) : pos ≤ text.size := by
  obtain ⟨p, hp, rfl⟩ := exists_place h
  exact offset_le_size hp

theorem exists_slice {text : Text} {first last : Nat} (hle : first ≤ last)
    (hfirst : text.isBoundary first = true) (hlast : text.isBoundary last = true) :
    ∃ s, text.slice first last = .ok s := by
  obtain ⟨chars, hchars⟩ := charsBetween_of_boundaries hle hfirst hlast
  exact ⟨String.ofList chars, by rw [slice, hchars]; rfl⟩

end Text

theorem Except.exists_mapM {ε α β : Type} {f : α → Except ε β} {l : List α}
    (h : ∀ a ∈ l, ∃ b, f a = .ok b) : ∃ bs, l.mapM f = .ok bs := by
  induction l with
  | nil => exact ⟨[], rfl⟩
  | cons a l ih =>
    obtain ⟨b, hb⟩ := h a List.mem_cons_self
    obtain ⟨bs, hbs⟩ := ih fun x hx => h x (List.mem_cons_of_mem _ hx)
    exact ⟨b :: bs, by rw [List.mapM_cons, hb, hbs]; rfl⟩

namespace Match.InText

variable {m : Match}

theorem whole (h : m.InText) :
    m.text.isBoundary m.start = true ∧ m.text.isBoundary m.stop = true := by
  rw [start, stop, Spans.whole]
  cases hspan : m.spans.group? 0 with
  | none => exact ⟨m.text.isBoundary_zero, m.text.isBoundary_zero⟩
  | some span => exact h 0 span hspan

theorem exists_groupString (h : m.InText) (i : Nat) : ∃ s, m.groupString i = .ok s := by
  rw [groupString, group?]
  cases hspan : m.spans.group? i with
  | none => exact ⟨"", rfl⟩
  | some span =>
    obtain ⟨hstart, hstop⟩ := h i span hspan
    exact Text.exists_slice (Nat.le_add_right _ _) hstart hstop

theorem exists_expand (h : m.InText) (t : Template) : ∃ s, t.expand m = .ok s := by
  obtain ⟨hstart, hstop⟩ := h.whole
  have hsegment : ∀ r, ∃ s, t.segment m r = .ok s := by
    intro r
    cases r with
    | literal | wholeText => exact ⟨_, rfl⟩
    | leftPortion => exact Text.exists_slice (Nat.zero_le _) m.text.isBoundary_zero hstart
    | rightPortion => exact Text.exists_slice (Text.le_size hstop) hstop m.text.isBoundary_size
    | group number => exact h.exists_groupString number
    | lastGroup => exact h.exists_groupString m.lastGroup
  obtain ⟨ss, hss⟩ := Except.exists_mapM (l := t.rules) fun r _ => hsegment r
  exact ⟨String.join ss, by rw [Template.expand, Template.segments, hss]; rfl⟩

end Match.InText

/-- Where matches lie in the text one behind the other, splicing fails only if an expansion does. -/
theorem Text.exists_splice {text : Text} {expansion : Match → Except Fault String}
    {ms : List Match} (hms : ∀ m ∈ ms, m.InText ∧ m.text = text ∧ ∃ s, expansion m = .ok s)
    (horder : ms.Pairwise fun m m' => m.stop ≤ m'.start) : ∀ {first : Nat},
      text.isBoundary first = true → (∀ m ∈ ms, first ≤ m.start) →
        ∃ s, text.splice expansion text.size first ms = .ok s := by
  induction ms with
  | nil => exact fun hfirst _ => exists_slice (le_size hfirst) hfirst text.isBoundary_size
  | cons m ms ih =>
    intro first hfirst hle
    obtain ⟨hbehind, horder⟩ := List.pairwise_cons.1 horder
    obtain ⟨hm, rfl, new, hnew⟩ := hms m List.mem_cons_self
    obtain ⟨hstart, hstop⟩ := hm.whole
    obtain ⟨kept, hkept⟩ := exists_slice (hle m List.mem_cons_self) hfirst hstart
    obtain ⟨rest, hrest⟩ :=
      ih (fun m' hm' => hms m' (List.mem_cons_of_mem _ hm')) horder hstop hbehind
    exact ⟨kept ++ new ++ rest, by rw [splice, hkept, hnew, hrest]; rfl⟩

end RegexMachine
