import RegexMachine.Proofs.Regex.Search
import RegexMachine.Proofs.Replacement.Splice

/-!
# Replacing is splicing

However a regex replaces matches, with a template or an evaluator, forward or backward, the result is
the text spliced with the expansions of the matches.
-/

namespace RegexMachine

/-- A search leaves the first match before it enters the second. -/
def Match.Apart (d : Direction) (m m' : Match) : Prop :=
  match d with
  | .forward => m.stop ≤ m'.start
  | .backward => m'.stop ≤ m.start

instance : ∀ (d : Direction) (m m' : Match), Decidable (m.Apart d m')
  | .forward, m, m' => inferInstanceAs (Decidable (m.stop ≤ m'.start))
  | .backward, m, m' => inferInstanceAs (Decidable (m'.stop ≤ m.start))

namespace Regex

variable {re : Regex} {text : Text} {start : Nat} {count : Int} {ms : List Match}

theorem allowed_eq_zero (h : allowed count = some 0) : count = 0 := by
  rw [allowed] at h
  split at h
  · cases h
  · have hzero := Option.some.inj h
    omega

section

variable (hstart : text.isBoundary start = true) (hcount : count ≠ 0)
  (hfinds : Finds re { text, textStart := start } (allowed count) ms)
  (hpatience : ms.length < re.patience)

include hstart hcount hfinds hpatience

/-- Assembling from pieces is splicing. -/
theorem answer_assemble {replacement : Nat → Match → Except Fault (List String)}
    {expansion : Match → Except Fault String}
    (hexpansion : ∀ i m, (replacement i m).map String.join = expansion m)
    (hfails : ∀ m, FailsOutOfBounds (expansion m)) :
    answer (assemble text count start replacement re) =
      Fault.guard (text.replacing expansion re.direction ms) := by
  have hassemble : assemble text count start replacement re =
      (foldMatches (Assembled.add re.direction text replacement) re.patience (allowed count)
        { text, textStart := start } { border := text.origin re.direction } >>= fun a =>
          lift (a.finish re.direction text)) re := by
    simp only [assemble, bind, EStateM.bind, run_get, searchAt_of_isBoundary hstart]
  have hfold := answer_bind_lift
    (foldMatches_eq (Assembled.add re.direction text replacement) ms
      { border := text.origin re.direction } hfinds (hcount ∘ allowed_eq_zero) hpatience)
    (Assembled.finish re.direction text)
  rw [hassemble, hfold]
  cases re.direction with
  | forward =>
    rw [Assembled.finish_forward hexpansion, Text.replacing]
    cases ms with
    | nil => rfl
    | cons m ms => simp [Direction.inTextOrder, Text.origin, Text.border, Direction.flip]
  | backward =>
    rw [Assembled.finish_backward hexpansion hfails, Text.replacing]
    cases ms with
    | nil => rfl
    | cons m ms => simp [Direction.inTextOrder, Text.origin, Text.border, Direction.flip]

/-- Noting what is kept is splicing with the same text for every match. -/
theorem answer_replaceLiteral (new : String) :
    answer (replaceLiteral text new count start re) =
      Fault.guard (text.replacing (fun _ => .ok new) .forward ms) := by
  have hliteral : replaceLiteral text new count start re =
      (foldMatches Kept.add re.patience (allowed count) { text, textStart := start } {} >>= fun k =>
        lift (k.finish text new)) re := by
    simp only [replaceLiteral, bind, EStateM.bind, run_get, searchAt_of_isBoundary hstart]
  have hfold := answer_bind_lift
    (foldMatches_eq Kept.add ms {} hfinds (hcount ∘ allowed_eq_zero) hpatience) (Kept.finish text new)
  rw [hliteral, hfold, Kept.finish_eq, Text.replacing]
  cases ms with
  | nil => rfl
  | cons m ms =>
    simp [Direction.inTextOrder, Text.cuts]
    rfl

end

/-- All ways to replace matches with the expansion of a template are splicing. -/
theorem answer_replaceTemplate (pattern : String) (groupCount : Nat) (names : GroupNames)
    (hstart : text.isBoundary start = true)
    (hfinds : Finds re { text, textStart := start } (allowed count) ms)
    (hpatience : ms.length < re.patience) :
    answer (replaceTemplate (Template.parse pattern groupCount names) text count start re) =
      Fault.guard
        (text.replacing (Template.parse pattern groupCount names).expand re.direction ms) := by
  unfold replaceTemplate
  by_cases hcount : count = 0
  · subst hcount
    obtain rfl := hfinds.eq_nil
    rfl
  · simp only [if_neg hcount, bind, EStateM.bind, run_get]
    split
    · next hsimple =>
      obtain ⟨hreferences, hforward⟩ := Bool.and_eq_true_iff.1 hsimple
      rw [Bool.not_eq_true'] at hreferences
      rw [answer_replaceLiteral hstart hcount hfinds hpatience, beq_iff_eq.1 hforward,
        funext (Template.expand_of_no_references hreferences)]
    · exact answer_assemble hstart hcount hfinds hpatience (fun _ _ => rfl)
        (FailsOutOfBounds.expand _)

end Regex

theorem Text.replacing_congr {text : Text} {expansion expansion' : Match → Except Fault String}
    {d : Direction} {ms : List Match} (h : ∀ m ∈ ms, expansion m = expansion' m) :
    text.replacing expansion d ms = text.replacing expansion' d ms := by
  have hsplice : ∀ (ms : List Match), (∀ m ∈ ms, expansion m = expansion' m) → ∀ first,
      text.splice expansion text.size first ms = text.splice expansion' text.size first ms := by
    intro ms
    induction ms with
    | nil => exact fun _ _ => rfl
    | cons m ms ih =>
      intro h first
      rw [splice, splice, h m List.mem_cons_self]
      simp only [ih fun m' hm' => h m' (List.mem_cons_of_mem _ hm')]
  rw [replacing, replacing, hsplice]
  cases d with
  | forward => exact h
  | backward => exact fun m hm => h m (List.mem_reverse.1 hm)

namespace Regex

variable {re₀ re : Regex} {text : Text} {start : Nat} {count : Int} {ms : List Match}

theorem checkCount_of_le (h : -1 ≤ count) (re : Regex) : checkCount count re = .ok () re := by
  rw [checkCount, if_neg (by omega)]
  rfl

theorem pairwise_inTextOrder {d : Direction} (h : ms.Pairwise (Match.Apart d)) :
    (d.inTextOrder ms).Pairwise fun m m' => m.stop ≤ m'.start := by
  cases d with
  | forward => exact h
  | backward => exact List.pairwise_reverse.2 h

theorem mem_inTextOrder {d : Direction} {m : Match} : m ∈ d.inTextOrder ms ↔ m ∈ ms := by
  cases d with
  | forward => exact Iff.rfl
  | backward => exact List.mem_reverse

theorem replacing_eq_unchanged {expansion : Match → Except Fault String} {d : Direction}
    (hfinds : Finds re { text, textStart := start } (allowed count) ms) :
    Fault.guard (text.replacing expansion d ms) = .ok .unchanged ↔
      count = 0 ∨ Finds re { text, textStart := start } none [] := by
  constructor
  · intro h
    cases ms with
    | nil =>
      by_cases hcount : allowed count = some 0
      · exact .inl (allowed_eq_zero hcount)
      · rcases hfinds with ⟨hzero, -⟩ | ⟨-, hitems⟩
        · exact absurd hzero hcount
        · exact .inr (.inr ⟨fun _ hk => (Option.some_ne_none _ hk.symm).elim, hitems⟩)
    | cons m ms =>
      rw [Text.replacing, if_neg (by simp)] at h
      cases hsplice : text.splice expansion text.size 0 (d.inTextOrder (m :: ms)) with
      | error f =>
        rw [hsplice] at h
        cases h
      | ok s =>
        rw [hsplice] at h
        cases h
  · intro h
    have hnil : ms = [] := by
      rcases h with rfl | hnone
      · exact hfinds.eq_nil
      · cases ms with
        | nil => rfl
        | cons m ms =>
          obtain ⟨s', re', hnext, -⟩ := hfinds.next_cons
          obtain ⟨s'', re'', hnext'⟩ := hnone.next_nil (Option.some_ne_none _).symm
          cases (EStateM.Result.ok.inj (hnext.symm.trans hnext')).1
    subst hnil
    rfl

/-- Replacing the matches of a search with a template, or with an evaluator that expands the template,
gives the text in which each of them is replaced with its expansion and everything else is kept. The
text itself is given back when the count is zero or there is no match, and then only. -/
theorem Created.replaceN_eq_splice (hre₀ : re₀.Created) (hre : Serves re₀ re) (pattern : String)
    (hstart : text.isBoundary start = true) (hcount : -1 ≤ count)
    (hfinds : Finds re { text, textStart := start } (allowed count) ms)
    (horder : ms.Pairwise (Match.Apart re₀.direction)) (hpatience : ms.length < re₀.patience) :
    let naive := Fault.guard (text.replacing (fun m => m.expand pattern) re₀.direction ms)
    answer (replaceN text pattern count start re) = naive ∧
      answer (replaceWithN text count start (.template pattern) re) = naive ∧
      (naive = .ok .unchanged ↔ count = 0 ∨ Finds re { text, textStart := start } none []) ∧
      (re₀.direction.inTextOrder ms).Pairwise (fun m m' => m.stop ≤ m'.start) ∧
      ((∀ m ∈ ms, m.InText) → ∃ r, naive = .ok r) := by
  intro naive
  have hmem := hfinds.of_mem hre₀.provided hre
  have hexpand : ∀ m ∈ ms,
      (Template.parse pattern re₀.groupCount re₀.names).expand m = m.expand pattern := by
    intro m hm
    obtain ⟨-, hgroups, hnames⟩ := hmem m hm
    rw [Match.expand, hgroups, hnames]
  have hfails : ∀ m : Match, FailsOutOfBounds (m.expand pattern) := fun m => .expand _ m
  refine ⟨?_, ?_, replacing_eq_unchanged hfinds, pairwise_inTextOrder horder, fun hin => ?_⟩
  · obtain ⟨c, re₁, hc, htemplate, hre₁, hclock⟩ := hre.compileTemplate pattern
    have hfinds₁ := hfinds.of_alike hre₀.provided ⟨hre, hre₁, hclock.symm⟩
    have hanswer := answer_replaceTemplate pattern re₀.groupCount re₀.names hstart hfinds₁
      (hre₁.patience ▸ hpatience)
    rw [hre₁.direction_eq, Text.replacing_congr hexpand] at hanswer
    simp only [replaceN, bind, EStateM.bind, checkCount_of_le hcount, checkStart_of_isBoundary hstart,
      hc, htemplate]
    exact hanswer
  · simp only [replaceWithN, bind, EStateM.bind, checkCount_of_le hcount,
      checkStart_of_isBoundary hstart]
    by_cases hzero : count = 0
    · subst hzero
      obtain rfl := hfinds.eq_nil
      rfl
    · rw [if_neg hzero]
      have hjoin : ∀ (i : Nat) (m : Match), Except.map String.join (do
          return [← Evaluator.template pattern i m]) = m.expand pattern := by
        intro i m
        rw [Evaluator.template]
        cases m.expand pattern with
        | error f => rfl
        | ok s => simp [bind, Except.bind, pure, Except.pure, Except.map]
      have hanswer := answer_assemble hstart hzero hfinds (hre.patience ▸ hpatience) hjoin hfails
      rw [hre.direction_eq] at hanswer
      exact hanswer
  · show ∃ r, Fault.guard (text.replacing _ _ ms) = .ok r
    rw [Text.replacing]
    split
    · exact ⟨.unchanged, rfl⟩
    · have hms : ∀ m ∈ re₀.direction.inTextOrder ms,
          m.InText ∧ m.text = text ∧ ∃ s, m.expand pattern = .ok s := by
        intro m hm
        have hm := mem_inTextOrder.1 hm
        exact ⟨hin m hm, (hmem m hm).1, (hin m hm).exists_expand _⟩
      obtain ⟨s, hs⟩ := Text.exists_splice hms (pairwise_inTextOrder horder) text.isBoundary_zero
        fun _ _ => Nat.zero_le _
      exact ⟨.changed s, by rw [hs]; rfl⟩

end Regex

/-- Both matches of `(a)+?b+` in `abxaab` are replaced with what their group captured last. -/
theorem replace_lazyRun : ∃ re : Regex, Regex.ofTree lazyRun {} = .ok re ∧
    answer (Regex.replaceN (.ofString "abxaab") "<$1>" (-1) 0 re) = .ok (.changed "<a>x<a>") ∧
    answer (Regex.replaceWithN (.ofString "abxaab") (-1) 0 (.template "<$1>") re) =
      .ok (.changed "<a>x<a>") := by
  have hitems : (Regex.ofTree lazyRun {}).toOption.map (fun re =>
      (re.direction, answer (Regex.nextTimes 3 { text := .ofString "abxaab", textStart := 0 } re))) =
        some (.forward, .ok (lazyRunMatches.map (fun m => some (.ok m)) ++ [none])) := by
    decide +kernel
  cases hre : Regex.ofTree lazyRun {} with
  | error e =>
    rw [hre] at hitems
    cases hitems
  | ok re =>
    rw [hre] at hitems
    obtain ⟨hdirection, hitems⟩ := Prod.mk.inj (Option.some.inj hitems)
    obtain ⟨program, -, hmade⟩ := Regex.ofTree_eq_ok.1 hre
    have hpatience : lazyRunMatches.length < re.patience := by
      rw [hmade]
      show 2 < amplePatience
      decide
    have hfinds : Regex.Finds re { text := .ofString "abxaab", textStart := 0 }
        (Regex.allowed (-1)) lazyRunMatches := by
      apply Or.inr
      exact ⟨fun k hk => absurd hk (Option.some_ne_none k).symm, hitems⟩
    have horder : lazyRunMatches.Pairwise (Match.Apart re.direction) := by
      rw [hdirection]
      decide
    have hserves : Regex.Serves re re := (Regex.Created.ofTree hre).serves re.clock
    obtain ⟨htemplate, hevaluator, -⟩ := (Regex.Created.ofTree hre).replaceN_eq_splice hserves "<$1>"
      (by decide) (by decide) hfinds horder hpatience
    have hspliced : Fault.guard (Text.replacing (.ofString "abxaab") (fun m => m.expand "<$1>") .forward
        lazyRunMatches) = .ok (.changed "<a>x<a>") := by decide +kernel
    rw [hdirection] at htemplate hevaluator
    exact ⟨re, rfl, htemplate.trans hspliced, hevaluator.trans hspliced⟩

end RegexMachine
