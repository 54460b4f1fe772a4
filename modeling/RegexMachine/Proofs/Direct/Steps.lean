import RegexMachine.Matcher.Engine
import RegexMachine.Proofs.Capture.Undo
import RegexMachine.Proofs.Simulation.CharLoop
import RegexMachine.Proofs.State.Concurs
import RegexMachine.Proofs.Text.Passing

/-!
# Steps of direct matchers

A direct matcher reads the text by offset and captures by offset. At the offset of a place it reads
what stands there, and what it captures comes on top of what the groups are left with, as for a
matcher that goes from place to place.
-/

namespace RegexMachine

open Matcher

namespace Matcher

theorem passes_digit (culture : Culture) :
    passes culture false (.set .digit) = Character.isDigit := by
  funext c
  simp [passes, CharClass.contains, CharClass.inLayers, CharClass.digit, CharClass.withCategories,
    ClassLayer.contains, ClassLayer.inRanges, Categories.contains, Categories.union]

theorem passes_word (culture : Culture) :
    passes culture false (.set .word) = Character.isWord := by
  funext c
  simp [passes, CharClass.contains, CharClass.inLayers, CharClass.word, CharClass.withCategories,
    ClassLayer.contains, ClassLayer.inRanges, Categories.contains, Categories.union]

end Matcher

namespace Direct

variable {text : Text} {test : Char → Bool} {p q : Place}

theorem charAt_offset (test : Char → Bool) (hp : p.In text) : charAt text test p.offset =
    .ok ((p.read .forward).bind fun r => if test r.1 then some (r.1, r.2.offset) else none) := by
  rw [charAt, Text.read_offset hp]
  cases hread : p.read .forward with
  | none => rfl
  | some r =>
    simp only [bind, Except.bind, Option.map_some, Option.bind_some]
    split <;> rfl

theorem charAt_eq_some (hp : p.In text) (h : exactly .forward test 1 p = some q) :
    ∃ c, charAt text test p.offset = .ok (some (c, q.offset)) := by
  rw [charAt_offset test hp]
  simp only [exactly] at h
  split at h
  · next c r hread =>
    split at h
    · next htest =>
      obtain rfl := Option.some.inj h
      exact ⟨c, by rw [hread, Option.bind_some, if_pos htest]⟩
    · cases h
  · cases h

theorem charAt_eq_none (hp : p.In text) (h : exactly .forward test 1 p = none) :
    charAt text test p.offset = .ok none := by
  rw [charAt_offset test hp]
  simp only [exactly] at h
  split at h
  · next c r hread =>
    split at h
    · cases h
    · next htest => rw [hread, Option.bind_some, if_neg htest]
  · next hread =>
    rw [hread]
    rfl

/-- The search for a character passes over the places that it does not follow. -/
theorem exists_seek (test : Char → Bool) (hp : p.In text) : ∃ q? : Option Place,
    text.seekForward (fun _ cell => cell.after?.any test) p.offset = q?.map Place.offset ∧
      text.PassesTo .forward (fun r => r.after.head?.any test = false) p q? ∧
      ∀ q ∈ q?, q.after.head?.any test = true := by
  have hboundary : ∀ pos cell, text.cell? pos = some cell → cell.after?.any test = true →
      cell.isBoundary = true := by
    intro _ cell _ htest
    cases cell with
    | boundary before after => rfl
    | inside => cases htest
  have hadmits : ∀ r : Place, r.In text → ∀ cell, text.cell? r.offset = some cell →
      cell.after?.any test = r.after.head?.any test := by
    intro r hr cell hcell
    obtain rfl := Option.some.inj ((Text.cell?_offset hr).symm.trans hcell)
    rfl
  obtain ⟨q?, hseek, hpasses⟩ := Text.passesTo_seekForward hboundary hadmits hp
  refine ⟨q?, hseek, hpasses, fun q hq => ?_⟩
  obtain rfl : q? = some q := hq
  obtain ⟨-, ⟨cell, hcell, htest⟩, -⟩ := Text.seek_eq_some hseek
  rw [← hadmits q hpasses.1 cell hcell]
  exact htest

/-- What looking for a character from a place on comes to. -/
theorem findNext_eq (hp : p.In text) {s : ScanState} (hpos : s.textPos = p.offset)
    {q? : Option Place} (hseek : text.seekForward (fun _ cell => cell.after?.any test) p.offset =
      q?.map Place.offset) :
    (do
      Scan.lift (text.checkBoundary (← get).textPos)
      findChar text test : Scan Bool) s =
        .ok q?.isSome { s with textPos := (q?.map Place.offset).getD text.size } := by
  have hcheck : text.checkBoundary s.textPos = .ok () := by
    rw [Text.checkBoundary, hpos, Text.isBoundary_offset hp]
    rfl
  have hfound : text.seekForward (fun _ cell => cell.after?.any test) s.textPos = _ := hpos ▸ hseek
  simp only [findChar, bind, EStateM.bind, run_get, Scan.lift, hcheck, hfound]
  cases q? <;> rfl

end Direct

theorem Place.eq_false_of_read {test : Char → Bool} {p : Place}
    (h : p.after.head?.any test = false) (c : Char) (q : Place) (hread : p.read .forward = some (c, q)) :
    test c = false := by
  obtain ⟨before, after⟩ := p
  cases after with
  | nil => cases hread
  | cons x rest =>
    obtain ⟨rfl, -⟩ := Prod.mk.inj (Option.some.inj hread)
    exact h

/-- The places where a run of one character or more may end, furthest first. -/
def Matcher.runEnds (d : Direction) (test : Char → Bool) (p : Place) : List Place :=
  match exactly d test 1 p with
  | some q => (stops d test (q.ahead d) q).reverse
  | none => []

theorem Place.ahead_le_bytes {text : Text} {p : Place} (hp : p.In text) :
    p.ahead .forward ≤ text.size - p.offset := by
  have hlength := length_le_bytes p.after
  have hsize : text.size = p.offset + bytes p.after := by
    rw [Text.size_eq_bytes, ← hp, chars, bytes_append, bytes_reverse, offset]
  change p.after.length ≤ text.size - p.offset
  omega

/-- What follows each end of a run and comes to one outcome or none makes a list of outcomes. -/
theorem MatchState.filterMap_flatMap_map {outcome? : Place → Option MatchState}
    {start : Place → MatchState} {next : Matcher} {close : MatchState → Option MatchState}
    (h : ∀ e, (next (start e)).filterMap close = (outcome? e).toList) (ends : List Place) :
    ((ends.map start).flatMap next).filterMap close = ends.filterMap outcome? := by
  rw [List.flatMap_map, List.filterMap_flatMap, List.filterMap_eq_flatMap_toList]
  exact congrArg ends.flatMap (funext h)

/-- What every group is left with when one more has captured the text between two positions. -/
def Captures.leftBy (left : Nat → List Span) (group start stop : Nat) : Nat → List Span :=
  Function.update left group (⟨min start stop, max start stop - min start stop⟩ :: left group)

/-- The scan holds the captures that every group is left with. -/
structure ScanState.Holds (s : ScanState) (groupCount : Nat) (left : Nat → List Span) : Prop where
  proper : s.captures.Proper
  left : s.captures.left = left
  size : s.captures.groups.size = groupCount

/-- The scans differ in their captures at most. -/
structure ScanState.Beside (s s' : ScanState) : Prop where
  textStart : s'.textStart = s.textStart
  textPos : s'.textPos = s.textPos
  values : s'.values = s.values
  watch : s'.watch = s.watch

namespace ScanState

variable {s s' s'' : ScanState} {groupCount : Nat} {left : Nat → List Span}

theorem Beside.trans (h : s.Beside s') (h' : s'.Beside s'') : s.Beside s'' where
  textStart := h'.textStart.trans h.textStart
  textPos := h'.textPos.trans h.textPos
  values := h'.values.trans h.values
  watch := h'.watch.trans h.watch

theorem holds_resetAttempt (s : ScanState) :
    s.resetAttempt.Holds s.captures.groups.size fun _ => [] where
  proper := Captures.proper_none _
  left := Captures.left_none _
  size := Array.size_replicate

theorem Holds.moved (h : s.Holds groupCount left) (pos : Nat) :
    { s with textPos := pos }.Holds groupCount left :=
  ⟨h.proper, h.left, h.size⟩

theorem Holds.capture (h : s.Holds groupCount left) {group : Nat} (hgroup : group < groupCount)
    (start stop : Nat) : ∃ s', Scan.capture group start stop s = .ok () s' ∧ s.Beside s' ∧
      s'.Holds groupCount (Captures.leftBy left group start stop) := by
  obtain ⟨captures, hrecord⟩ := Captures.exists_record s.captures
    (.captured ⟨min start stop, max start stop - min start stop⟩) (h.size.symm ▸ hgroup)
  have hcapture : s.captures.capture group start stop = .ok captures := hrecord
  have hleft := Captures.left_of_capture hrecord
  rw [h.left] at hleft
  refine ⟨{ s with captures }, ?_, ⟨rfl, rfl, rfl, rfl⟩,
    Captures.proper_of_capture h.proper hrecord, hleft, (Captures.size_of_record hrecord).trans h.size⟩
  simp only [Scan.capture, bind, EStateM.bind, run_get, Scan.lift, hcapture]
  rfl

end ScanState

theorem Scan.undoUntil_capture {s s' : ScanState} {group start stop : Nat}
    (h : Scan.capture group start stop s = .ok () s') :
    Scan.undoUntil s.captures.trail.depth s' = .ok () s := by
  simp only [Scan.capture, bind, EStateM.bind, run_get, Scan.lift] at h
  cases hcapture : s.captures.capture group start stop with
  | error f =>
    rw [hcapture] at h
    cases h
  | ok captures =>
    rw [hcapture] at h
    obtain rfl : { s with captures } = s' := (EStateM.Result.ok.inj h).2
    have hundo : captures.undoUntil s.captures.trail.depth = .ok s.captures := by
      rw [Captures.undoUntil, Captures.depth_of_record hcapture, Nat.add_sub_cancel_left,
        Captures.undoTimes, Captures.undo_record hcapture]
      rfl
    simp only [Scan.undoUntil, bind, EStateM.bind, run_get, Scan.lift, hundo]
    rfl

end RegexMachine
