import RegexMachine.Proofs.Regex.History

/-!
# Searches

What is done with the matches of a search one after the other is a fold over the list of them, as far
as the count goes. The matches have the groups and the names of their regex.
-/

namespace RegexMachine

theorem answer_lift {α : Type} (r : Except Fault α) (re : Regex) :
    answer (Regex.lift r re) = Fault.guard r := by
  cases r <;> rfl

namespace Regex

theorem answer_bind_lift {α β : Type} {x : RegexM α} {re : Regex} {r : Except Fault α}
    (h : answer (x re) = Fault.guard r) (g : α → Except Fault β) :
    answer ((x >>= fun a => lift (g a)) re) = Fault.guard (r >>= g) := by
  simp only [bind, EStateM.bind]
  cases hx : x re with
  | ok a re' =>
    rw [hx] at h
    cases r with
    | ok b =>
      cases h
      exact answer_lift _ _
    | error f => cases h
  | error e re' =>
    rw [hx] at h
    cases r with
    | ok b => cases h
    | error f =>
      cases h
      rfl

theorem checkStart_of_isBoundary {text : Text} {start : Nat} (h : text.isBoundary start = true)
    (re : Regex) : checkStart text start re = .ok () re := by
  obtain ⟨p, hp, rfl⟩ := Text.exists_place h
  rw [checkStart, if_neg (Nat.not_lt.2 (Text.offset_le_size hp)), h]
  rfl

theorem searchAt_of_isBoundary {text : Text} {start : Nat} (h : text.isBoundary start = true)
    (re : Regex) : searchAt text start re = .ok { text, textStart := start } re := by
  simp only [searchAt, bind, EStateM.bind, checkStart_of_isBoundary h]
  rfl

/-- The items of a search are its next one and those that follow. -/
theorem answer_nextTimes_succ {s s' : Search} {re re' : Regex} {item : Option (Except Error Match)}
    (h : next s re = .ok (item, s') re') (n : Nat) :
    answer (nextTimes (n + 1) s re) = (answer (nextTimes n s' re')).map (item :: ·) := by
  simp only [nextTimes, bind, EStateM.bind, h]
  cases nextTimes n s' re' <;> rfl

theorem next_of_nextTimes {n : Nat} {s : Search} {re : Regex} {item : Option (Except Error Match)}
    {items : List (Option (Except Error Match))}
    (h : answer (nextTimes (n + 1) s re) = .ok (item :: items)) :
    ∃ s' re', next s re = .ok (item, s') re' ∧ answer (nextTimes n s' re') = .ok items := by
  simp only [nextTimes, bind, EStateM.bind] at h
  cases hnext : next s re with
  | error e re' =>
    rw [hnext] at h
    cases h
  | ok a re' =>
    obtain ⟨item', s'⟩ := a
    rw [hnext] at h
    simp only at h
    cases hrest : nextTimes n s' re' with
    | error e re'' =>
      rw [hrest] at h
      cases h
    | ok items' re'' =>
      rw [hrest] at h
      cases h
      exact ⟨s', re', rfl, by rw [hrest]; rfl⟩

/-- The items of a search begin with those of any shorter one. -/
theorem answer_nextTimes_take {k n : Nat} {s : Search} {re : Regex}
    {items : List (Option (Except Error Match))}
    (h : answer (nextTimes (k + n) s re) = .ok items) :
    answer (nextTimes k s re) = .ok (items.take k) := by
  induction k generalizing s re items with
  | zero => rfl
  | succ k ih =>
    rw [Nat.add_right_comm] at h
    cases hnext : next s re with
    | error e re' =>
      simp only [nextTimes, bind, EStateM.bind, hnext] at h
      cases h
    | ok a re' =>
      obtain ⟨item, s'⟩ := a
      rw [answer_nextTimes_succ hnext] at h ⊢
      cases hrest : answer (nextTimes (k + n) s' re') with
      | error e =>
        rw [hrest] at h
        cases h
      | ok rest =>
        rw [hrest] at h
        cases h
        rw [ih hrest]
        rfl

/-- The items from where a search stands begin with these matches, as many as the count allows, or
all that there are. -/
def Finds (re : Regex) (s : Search) (count : Option Nat) (ms : List Match) : Prop :=
  (count = some ms.length ∧
      answer (nextTimes ms.length s re) = .ok (ms.map fun m => some (.ok m))) ∨
    ((∀ k ∈ count, ms.length < k) ∧
      answer (nextTimes (ms.length + 1) s re) = .ok ((ms.map fun m => some (.ok m)) ++ [none]))

namespace Finds

variable {re : Regex} {s : Search} {count : Option Nat} {m : Match} {ms : List Match}

theorem next_nil (h : Finds re s count []) (hcount : count ≠ some 0) :
    ∃ s' re', next s re = .ok (none, s') re' := by
  rcases h with ⟨hzero, -⟩ | ⟨-, hitems⟩
  · exact absurd hzero hcount
  · obtain ⟨s', re', hnext, -⟩ := next_of_nextTimes hitems
    exact ⟨s', re', hnext⟩

theorem next_cons (h : Finds re s count (m :: ms)) : ∃ s' re',
    next s re = .ok (some (.ok m), s') re' ∧ Finds re' s' (count.map (· - 1)) ms := by
  rcases h with ⟨rfl, hitems⟩ | ⟨hcount, hitems⟩
  · obtain ⟨s', re', hnext, hrest⟩ := next_of_nextTimes hitems
    exact ⟨s', re', hnext, .inl ⟨rfl, hrest⟩⟩
  · obtain ⟨s', re', hnext, hrest⟩ := next_of_nextTimes hitems
    refine ⟨s', re', hnext, .inr ⟨fun k hk => ?_, hrest⟩⟩
    obtain ⟨k', hk', rfl⟩ := Option.map_eq_some_iff.1 hk
    have hlt := hcount k' hk'
    rw [List.length_cons] at hlt
    omega

theorem eq_nil (h : Finds re s (some 0) ms) : ms = [] := by
  rcases h with ⟨hlength, -⟩ | ⟨hcount, -⟩
  · exact List.length_eq_zero_iff.1 (Option.some.inj hlength).symm
  · exact absurd (hcount 0 rfl) (Nat.not_lt_zero _)

end Finds

/-- Going through the matches of a search is a fold over the list of them. -/
theorem foldMatches_eq {σ : Type} (f : σ → Match → Except Fault σ) (ms : List Match) :
    ∀ {fuel : Nat} {count : Option Nat} {s : Search} {re : Regex} (acc : σ), Finds re s count ms →
      count ≠ some 0 → ms.length < fuel →
        answer (foldMatches f fuel count s acc re) = Fault.guard (ms.foldlM f acc) := by
  induction ms with
  | nil =>
    intro fuel count s re acc h hcount hfuel
    obtain ⟨s', re', hnext⟩ := h.next_nil hcount
    obtain ⟨fuel, rfl⟩ := Nat.exists_eq_add_one_of_ne_zero (Nat.ne_of_gt hfuel)
    simp only [foldMatches, bind, EStateM.bind, hnext]
    rfl
  | cons m ms ih =>
    intro fuel count s re acc h hcount hfuel
    obtain ⟨s', re', hnext, hrest⟩ := h.next_cons
    rw [List.length_cons] at hfuel
    obtain ⟨fuel, rfl⟩ := Nat.exists_eq_add_one_of_ne_zero (show fuel ≠ 0 by omega)
    simp only [foldMatches, bind, EStateM.bind, hnext, List.foldlM_cons]
    cases hacc : f acc m with
    | error e => rfl
    | ok acc' =>
      simp only [lift, Except.bind]
      by_cases hlast : count.map (· - 1) = some 0
      · rw [hlast] at hrest
        obtain rfl := hrest.eq_nil
        rw [if_pos hlast]
        rfl
      · rw [if_neg hlast]
        exact ih acc' hrest hlast (by omega)

section

variable {re₀ re : Regex} {s : Search} {m : Match}

theorem exists_of_scan_some {text : Text} {textStart textPos : Nat} {spans : Spans} {re' : Regex}
    (h : scan text textStart textPos re = .ok (some spans) re') :
    ∃ left, re'.matcher = some left ∧ left.captures.publish? = some spans := by
  rw [scan] at h
  split at h
  · next left hleft =>
    obtain ⟨hpublish, rfl⟩ := EStateM.Result.ok.inj h
    exact ⟨left, rfl, hpublish⟩
  · cases h

/-- A match that a search comes to was published by a scan of its text. -/
theorem exists_scan_of_next {s' : Search} {re' : Regex}
    (h : next s re = .ok (some (.ok m), s') re') : ∃ pos spans,
      scan s.text s.textStart pos re = .ok (some spans) re' ∧ m = re'.wrap s.text spans ∧
        s'.text = s.text := by
  rw [next] at h
  split at h
  · cases h
  · split at h
    · cases h
    · cases h
    · next pos _ =>
      split at h
      · next spans _ hscan =>
        cases h
        exact ⟨pos, spans, hscan, rfl, rfl⟩
      · cases h
      · cases h
      · cases h

variable (hprovided : re₀.engine.Provided)

include hprovided

/-- What a scan publishes has the groups of the regex. -/
theorem Serves.of_scan_some (h : Serves re₀ re) {text : Text} {textStart textPos : Nat}
    {spans : Spans} {re' : Regex} (hscan : scan text textStart textPos re = .ok (some spans) re') :
    Serves re₀ re' ∧ spans.groupCount = re₀.groupCount := by
  have hsteady := (steady_scan hprovided text textStart textPos).answer_eq
    (show Alike re₀ re re from ⟨h, h, rfl⟩)
  rw [hscan] at hsteady
  have hserves : Serves re₀ re' := hsteady.2.left
  obtain ⟨left, hleft, hpublish⟩ := exists_of_scan_some hscan
  exact ⟨hserves, (Captures.groupCount_publish hpublish).trans (hserves.matcher left hleft)⟩

/-- A match has the text of its search, and the groups and names of its regex. -/
theorem Serves.next_some (h : Serves re₀ re) {s' : Search} {re' : Regex}
    (hnext : next s re = .ok (some (.ok m), s') re') :
    Serves re₀ re' ∧ s'.text = s.text ∧ m.text = s.text ∧ m.groupCount = re₀.groupCount ∧
      m.names = re₀.names := by
  obtain ⟨pos, spans, hscan, rfl, htext⟩ := exists_scan_of_next hnext
  obtain ⟨hserves, hcount⟩ := h.of_scan_some hprovided hscan
  exact ⟨hserves, htext, rfl, hcount, hserves.names_eq⟩

theorem Finds.of_mem {ms : List Match} : ∀ {re : Regex} {s : Search} {count : Option Nat},
    Serves re₀ re → Finds re s count ms →
      ∀ m ∈ ms, m.text = s.text ∧ m.groupCount = re₀.groupCount ∧ m.names = re₀.names := by
  induction ms with
  | nil => exact fun _ _ m hm => absurd hm List.not_mem_nil
  | cons m ms ih =>
    intro re s count h hfinds m' hm'
    obtain ⟨s', re', hnext, hrest⟩ := hfinds.next_cons
    obtain ⟨hserves, htext, hm⟩ := h.next_some hprovided hnext
    rcases List.mem_cons.1 hm' with rfl | hm'
    · exact hm
    · obtain ⟨hmtext, hgroups⟩ := ih hserves hrest m' hm'
      exact ⟨hmtext.trans htext, hgroups⟩

theorem Finds.of_alike {re' : Regex} {count : Option Nat} {ms : List Match}
    (h : Finds re s count ms) (halike : Alike re₀ re re') : Finds re' s count ms := by
  have hitems : ∀ n, answer (nextTimes n s re) = answer (nextTimes n s re') := fun n =>
    ((steady_nextTimes hprovided n s).answer_eq halike).1
  rcases h with ⟨hlength, h⟩ | ⟨hcount, h⟩
  · exact .inl ⟨hlength, (hitems _).symm.trans h⟩
  · exact .inr ⟨hcount, (hitems _).symm.trans h⟩

end

end Regex

/-- The matches of `(a)+?b+` in `abxaab`. -/
def lazyRunMatches : List Match :=
  [{ text := .ofString "abxaab", spans := ⟨#[[⟨0, 2⟩], [⟨0, 1⟩]]⟩ },
    { text := .ofString "abxaab", spans := ⟨#[[⟨3, 3⟩], [⟨3, 1⟩, ⟨4, 1⟩]]⟩ }]

end RegexMachine
