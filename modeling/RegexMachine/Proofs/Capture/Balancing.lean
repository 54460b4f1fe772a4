import RegexMachine.Proofs.Capture.Ledger

/-!
# What a balancing group captures

A balancing group captures what lies between the capture it cancels and its own text: the gap
between the two or, where they meet, the overlap. Text that ends before the cancelled capture starts
has a gap as well, but the capture of it fails, since only its start is moved to the other span.
-/

namespace RegexMachine.Captures

/-- What lies between the span `old` and the text `[start, stop)`: the gap after `old`, the gap
before it, or the overlap. -/
def innermost (old : Span) (start stop : Nat) : Span :=
  if old.stop ≤ start then ⟨old.stop, start - old.stop⟩
  else if stop ≤ old.start then ⟨stop, old.start - stop⟩
  else ⟨max start old.start, min stop old.stop - max start old.start⟩

section

variable {old span : Span} {start stop : Nat}

/-- The innermost span leaves neither side of the two. -/
theorem innermost_within (h : start ≤ stop) :
    min start old.start ≤ (innermost old start stop).start ∧
      (innermost old start stop).stop ≤ max stop old.stop := by
  have hold : old.stop = old.start + old.length := rfl
  rw [innermost]
  split
  · simp only [Span.stop]
    omega
  · split <;> simp only [Span.stop] <;> omega

theorem between_eq_error_iff (h : start ≤ stop) :
    between old start stop = .error .invertedSpan ↔ stop < old.start := by
  have hold : old.stop = old.start + old.length := rfl
  rw [between]
  split
  · simp only [reduceCtorEq, false_iff]
    omega
  · split <;> simp_all

theorem between_eq_ok_iff (h : start ≤ stop) :
    between old start stop = .ok span ↔ old.start ≤ stop ∧ span = innermost old start stop := by
  have hold : old.stop = old.start + old.length := rfl
  rw [between, innermost]
  split
  · have hreached : old.start ≤ stop := by omega
    simp [hreached, eq_comm]
  · split
    · next hbefore => simp [Nat.not_le.2 hbefore]
    · next hreached =>
      split
      -- The text ends where `old` starts, so gap and overlap are both empty.
      · have hmeet : stop = old.start := by omega
        have hmax : max start old.start = stop := by omega
        have hmin : min stop old.stop = stop := by omega
        rw [hmax, hmin, ← hmeet]
        simp [eq_comm]
      · simp [Nat.not_lt.1 hreached, eq_comm]

end

section

variable {groupCount group uncapture start stop : Nat} {c : Captures} {old : Span}

theorem lt_size_of_span? (h : c.span? uncapture = some old) : uncapture < c.groups.size := by
  by_contra hsize
  rw [span?, getElem?_neg c.groups uncapture hsize] at h
  cases h

variable (group start stop) in
/-- A balancing capture cancels, and then captures what `between` gives. -/
theorem transfer_eq (hc : c.Proper) (hspan : c.span? uncapture = some old) :
    ∃ d, c.cancel uncapture = .ok d ∧
      d.left = Function.update c.left uncapture (c.left uncapture).tail ∧
      d.groups.size = c.groups.size ∧
      c.transfer (some group) uncapture start stop =
        (between old (min start stop) (max start stop)).bind fun span =>
          d.record group (.captured span) := by
  obtain ⟨d, hcancel, -, hleft⟩ := exists_cancel hc (lt_size_of_span? hspan)
  refine ⟨d, hcancel, hleft, (Extends.of_cancel hcancel).size, ?_⟩
  rw [transfer, hspan, hcancel]
  rfl

/-- In every state that changes lead to, a balancing capture fails exactly when its text ends before
the capture that it cancels starts. Otherwise it takes that capture away, and captures the innermost
span of the two, which lies within their hull. -/
theorem Changed.transfer_innermost (hc : Changed 0 (none groupCount) c)
    (hspan : c.span? uncapture = some old) (hgroup : group < c.groups.size) :
    (c.transfer (some group) uncapture start stop = .error .invertedSpan ↔
      max start stop < old.start) ∧
    (old.start ≤ max start stop →
      ∃ d, c.transfer (some group) uncapture start stop = .ok d ∧
        d.left group = innermost old (min start stop) (max start stop) ::
          (if group = uncapture then (c.left group).tail else c.left group)) ∧
    min (min start stop) old.start ≤ (innermost old (min start stop) (max start stop)).start ∧
    (innermost old (min start stop) (max start stop)).stop ≤ max (max start stop) old.stop := by
  have horder : min start stop ≤ max start stop := by omega
  obtain ⟨d, -, hleft, hsize, htransfer⟩ :=
    transfer_eq group start stop (hc.proper (proper_none groupCount)) hspan
  refine ⟨?_, fun hreached => ?_, innermost_within horder⟩
  · rw [htransfer, ← between_eq_error_iff horder]
    cases between old (min start stop) (max start stop) with
    | error f => simp [Except.bind]
    | ok span =>
      obtain ⟨e, hrecord⟩ := exists_record d (.captured span) (hsize ▸ hgroup)
      simp [Except.bind, hrecord]
  · obtain ⟨e, hrecord⟩ := exists_record d
      (.captured (innermost old (min start stop) (max start stop))) (hsize ▸ hgroup)
    refine ⟨e, ?_, ?_⟩
    · rw [htransfer, (between_eq_ok_iff horder).2 ⟨hreached, rfl⟩]
      exact hrecord
    · rw [left_of_capture hrecord, Function.update_self, hleft, Function.update_apply]
      split
      · next heq => rw [heq]
      · rfl

/-- Group 1 captured `[2, 3)`, and a balancing group ends at 1, as a pattern that runs to the left
has it. The gap `[1, 2)` is not captured. -/
theorem transfer_before_cancelled :
    innermost ⟨2, 1⟩ 0 1 = ⟨1, 1⟩ ∧
      makeAll [.capture 1 2 3, .transfer (some 2) 1 0 1] (none 3) = .error .invertedSpan :=
  ⟨rfl, rfl⟩

end

end RegexMachine.Captures
