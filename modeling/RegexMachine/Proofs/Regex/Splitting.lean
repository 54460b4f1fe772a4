import RegexMachine.Proofs.Regex.Replacing
import RegexMachine.Proofs.Replacement.Written

/-!
# Splitting

Where no group but the whole match captures, splitting cuts the text at the matches and leaves them
out. So the pieces, joined with a text, are what comes of replacing as many matches with that text.
-/

namespace RegexMachine

namespace Text

/-- The pieces of the text from `first` to `last` around the matches in it. -/
def around (text : Text) (last : Nat) : (first : Nat) → List Match → Except Fault (List String)
  | first, [] => do return [← text.slice first last]
  | first, m :: ms => do
      let kept ← text.slice first m.start
      let rest ← text.around last m.stop ms
      return kept :: rest

/-- The text cut at the matches of a search. -/
def splitting (text : Text) (d : Direction) (ms : List Match) : Except Fault (List String) :=
  if ms.isEmpty then .ok [text.toString] else text.around text.size 0 (d.inTextOrder ms)

variable {text : Text} {first last : Nat} {m : Match} {ms : List Match} {pieces : List String}

theorem of_around_nil (h : text.around last first [] = .ok pieces) :
    ∃ s, text.slice first last = .ok s ∧ pieces = [s] := by
  rw [around] at h
  obtain ⟨s, hs, heq⟩ := exists_of_bind h
  cases heq
  exact ⟨s, hs, rfl⟩

theorem of_around_cons (h : text.around last first (m :: ms) = .ok pieces) :
    ∃ kept rest, text.slice first m.start = .ok kept ∧ text.around last m.stop ms = .ok rest ∧
      pieces = kept :: rest := by
  rw [around] at h
  obtain ⟨kept, hkept, h⟩ := exists_of_bind h
  obtain ⟨rest, hrest, heq⟩ := exists_of_bind h
  cases heq
  exact ⟨kept, rest, hkept, hrest, rfl⟩

theorem length_around (h : text.around last first ms = .ok pieces) :
    pieces.length = ms.length + 1 := by
  induction ms generalizing first pieces with
  | nil =>
    obtain ⟨s, -, rfl⟩ := of_around_nil h
    rfl
  | cons m ms ih =>
    obtain ⟨kept, rest, -, hrest, rfl⟩ := of_around_cons h
    rw [List.length_cons, List.length_cons, ih hrest]

theorem around_ne_nil (h : text.around last first ms = .ok pieces) : pieces ≠ [] := by
  have hlength := length_around h
  exact List.ne_nil_of_length_pos (by omega)

theorem splice_eq_around (new : String) (ms : List Match) : ∀ first,
    text.splice (fun _ => .ok new) last first ms =
      (text.around last first ms).map new.intercalate := by
  induction ms with
  | nil =>
    intro first
    rw [splice, around]
    cases text.slice first last with
    | error f => rfl
    | ok s => exact congrArg Except.ok (String.intercalate_singleton).symm
  | cons m ms ih =>
    intro first
    rw [splice, around, ih]
    cases text.slice first m.start with
    | error f => rfl
    | ok kept =>
      cases hrest : text.around last m.stop ms with
      | error f => rfl
      | ok rest =>
        exact congrArg Except.ok (String.intercalate_cons_of_ne_nil (around_ne_nil hrest)).symm

/-- The last match may as well be cut out last. -/
theorem around_concat (last : Nat) (ms : List Match) (m : Match) : ∀ first,
    text.around last first (ms ++ [m]) = do
      let before ← text.around m.start first ms
      let kept ← text.slice m.stop last
      return before ++ [kept] := by
  induction ms with
  | nil =>
    intro first
    simp only [List.nil_append, around, bind_assoc, pure_bind, List.singleton_append]
  | cons m' ms ih =>
    intro first
    simp only [List.cons_append, around, ih, bind_assoc, pure_bind]

/-- The pieces and the matched texts in turn are the text again. -/
theorem exists_matched (hms : ∀ m ∈ ms, m.text = text) (h : text.around last first ms = .ok pieces) :
    ∃ matched, ms.mapM Match.string = .ok matched ∧
      text.slice first last =
        .ok (String.join (pieces.zipWith (· ++ ·) (matched ++ [""]))) := by
  induction ms generalizing first pieces with
  | nil =>
    obtain ⟨s, hs, rfl⟩ := of_around_nil h
    exact ⟨[], rfl, by simpa using hs⟩
  | cons m ms ih =>
    obtain ⟨hm, hms⟩ := List.forall_mem_cons.1 hms
    obtain ⟨kept, rest, hkept, hrest, rfl⟩ := of_around_cons h
    obtain ⟨matched, hmatched, hjoined⟩ := ih hms hrest
    obtain ⟨chars, hchars, -⟩ := exists_chars_of_slice hkept
    obtain ⟨chars', hchars', -⟩ := exists_chars_of_slice hjoined
    obtain ⟨s, hs⟩ := exists_slice (Nat.le_add_right _ _)
      (charsBetween_eq_ok_iff.1 hchars).2.2.1 (charsBetween_eq_ok_iff.1 hchars').2.1
    have hstring : m.string = .ok s := by rw [Match.string, hm]; exact hs
    refine ⟨s :: matched, ?_, ?_⟩
    · rw [List.mapM_cons, hstring, hmatched]
      rfl
    · rw [slice_append (slice_append hkept hs) hjoined]
      simp [String.join_cons]

end Text

theorem FailsOutOfBounds.around (text : Text) (last : Nat) (ms : List Match) :
    ∀ first, FailsOutOfBounds (text.around last first ms) := by
  induction ms with
  | nil => exact fun first => (slice text first last).bind fun s => ok [s]
  | cons m ms ih =>
    exact fun first => (slice _ _ _).bind fun kept => (ih m.stop).bind fun rest => ok (kept :: rest)

namespace Regex

/-- The pieces of the whole text, when no match is left to cut at. -/
def Assembled.cut (d : Direction) (text : Text) (a : Assembled) : Except Fault (List String) :=
  if a.count = 0 then .ok [text.toString]
  else do
    let rest ← remainder d text a.border
    match d with
    | .forward => return (rest :: a.pieces).reverse
    | .backward => return rest :: a.pieces

theorem groupStrings_of_groupCount {m : Match} (h : m.groupCount = 1) : groupStrings m = .ok [] := by
  rw [groupStrings, h]
  rfl

section

variable {text : Text} {ms : List Match}

/-- Going forward, the pieces that are gathered are those around the matches from the border on. -/
theorem gather_forward (hms : ∀ m ∈ ms, m.groupCount = 1) : ∀ a : Assembled,
    (ms.foldlM (addSplit .forward text) a >>= Assembled.cut .forward text) =
      if a.count = 0 ∧ ms = [] then .ok [text.toString]
      else (text.around text.size a.border ms).map (a.pieces.reverse ++ ·) := by
  induction ms with
  | nil =>
    intro a
    simp only [List.foldlM_nil, pure_bind, Assembled.cut, remainder, Text.around, and_true]
    split
    · rfl
    · cases text.slice a.border text.size with
      | error f => rfl
      | ok s => simp [Except.map, bind, Except.bind, pure, Except.pure]
  | cons m ms ih =>
    intro a
    obtain ⟨hm, hms⟩ := List.forall_mem_cons.1 hms
    simp only [List.foldlM_cons, bind_assoc, ih hms, addSplit, keepUpTo, Text.around, pure_bind,
      reduceCtorEq, and_false, if_false, Nat.add_eq_zero_iff, Nat.one_ne_zero, false_and,
      groupStrings_of_groupCount hm]
    cases text.slice a.border m.start with
    | error f => rfl
    | ok kept =>
      cases text.around text.size m.stop ms with
      | error f => rfl
      | ok rest => simp [Except.map, bind, Except.bind, pure, Except.pure]

/-- Going backward, the pieces that are gathered are those around the matches up to the border. -/
theorem gather_backward (hms : ∀ m ∈ ms, m.groupCount = 1) : ∀ a : Assembled,
    (ms.foldlM (addSplit .backward text) a >>= Assembled.cut .backward text) =
      if a.count = 0 ∧ ms = [] then .ok [text.toString]
      else (text.around a.border 0 ms.reverse).map (· ++ a.pieces) := by
  induction ms with
  | nil =>
    intro a
    simp only [List.foldlM_nil, pure_bind, Assembled.cut, remainder, Text.around, and_true,
      List.reverse_nil]
    split
    · rfl
    · cases text.slice 0 a.border with
      | error f => rfl
      | ok s => simp [Except.map, bind, Except.bind, pure, Except.pure]
  | cons m ms ih =>
    intro a
    obtain ⟨hm, hms⟩ := List.forall_mem_cons.1 hms
    -- Going backward, the pieces are cut in the other order; what fails fails alike.
    have hreorder := (FailsOutOfBounds.around text m.start ms.reverse 0).bind_comm
      (FailsOutOfBounds.slice text m.stop a.border) fun before kept =>
        (pure (before ++ [kept]) : Except Fault (List String))
    simp only [List.foldlM_cons, bind_assoc, ih hms, addSplit, keepUpTo, pure_bind, List.reverse_cons,
      Text.around_concat, reduceCtorEq, and_false, if_false, Nat.add_eq_zero_iff, Nat.one_ne_zero,
      false_and, groupStrings_of_groupCount hm, hreorder]
    cases text.slice m.stop a.border with
    | error f => rfl
    | ok kept =>
      cases text.around m.start 0 ms.reverse with
      | error f => rfl
      | ok before => simp [Except.map, bind, Except.bind, pure, Except.pure]

end

variable {re₀ re : Regex} {text : Text} {start : Nat} {count : Int} {ms : List Match}

/-- The pieces of a count are one more than the matches that it allows. -/
theorem allowed_pred (hcount : 0 ≤ count) :
    (if count = 0 then none else some (count.toNat - 1)) = allowed (count - 1) := by
  rw [allowed]
  split
  · next hzero =>
    subst hzero
    rfl
  · next hzero =>
    rw [if_neg (by omega)]
    exact congrArg some (by omega)

theorem lift_cut (d : Direction) (a : Assembled) :
    (lift (a.cut d text) : RegexM (List String)) =
      if a.count = 0 then pure [text.toString]
      else do
        let rest ← lift (remainder d text a.border)
        match d with
        | .forward => return (rest :: a.pieces).reverse
        | .backward => return rest :: a.pieces := by
  rw [Assembled.cut]
  split
  · rfl
  · cases remainder d text a.border with
    | error f => rfl
    | ok rest => cases d <;> rfl

/-- Splitting cuts the text at the matches that the count allows. -/
theorem answer_split (hstart : text.isBoundary start = true) (hcount : 0 ≤ count)
    (hfinds : Finds re { text, textStart := start } (allowed (count - 1)) ms)
    (hms : ∀ m ∈ ms, m.groupCount = 1) (hpatience : ms.length < re.patience) :
    answer (split text count start re) = Fault.guard (text.splitting re.direction ms) := by
  by_cases hone : count = 1
  · subst hone
    obtain rfl := hfinds.eq_nil
    simp only [split, if_neg (Int.not_lt.2 hcount), if_true, bind, EStateM.bind,
      checkStart_of_isBoundary hstart]
    rfl
  · have hsplit : split text count start re =
        (foldMatches (addSplit re.direction text) re.patience (allowed (count - 1))
          { text, textStart := start } { border := text.origin re.direction } >>= fun a =>
            lift (a.cut re.direction text)) re := by
      simp only [split, if_neg (Int.not_lt.2 hcount), if_neg hone, bind, EStateM.bind, run_get,
        checkStart_of_isBoundary hstart, searchAt_of_isBoundary hstart, allowed_pred hcount]
      cases foldMatches (addSplit re.direction text) re.patience (allowed (count - 1))
        { text, textStart := start } { border := text.origin re.direction } re with
      | error e re' => rfl
      | ok a re' => exact congrFun (lift_cut re.direction a).symm re'
    have hallowed : allowed (count - 1) ≠ some 0 := fun hzero => by
      have hpred := allowed_eq_zero hzero
      omega
    have hfold := answer_bind_lift
      (foldMatches_eq (addSplit re.direction text) ms { border := text.origin re.direction } hfinds
        hallowed hpatience) (Assembled.cut re.direction text)
    rw [hsplit, hfold]
    cases re.direction with
    | forward =>
      rw [gather_forward hms, Text.splitting]
      cases ms with
      | nil => rfl
      | cons m ms =>
        simp [Direction.inTextOrder, Text.origin, Text.border, Direction.flip]
        exact congrArg Fault.guard (congrFun Except.map_id _)
    | backward =>
      rw [gather_backward hms, Text.splitting]
      cases ms with
      | nil => rfl
      | cons m ms =>
        simp [Direction.inTextOrder, Text.origin, Text.border, Direction.flip]
        exact congrArg Fault.guard (congrFun Except.map_id _)

/-- Replacing with a template splices in what it expands to. -/
theorem Serves.answer_replaceN (hre₀ : re₀.Created) (hre : Serves re₀ re) (pattern : String)
    (hstart : text.isBoundary start = true) (hcount : -1 ≤ count)
    (hfinds : Finds re { text, textStart := start } (allowed count) ms)
    (hpatience : ms.length < re₀.patience) :
    answer (replaceN text pattern count start re) = Fault.guard (text.replacing
      (Template.parse pattern re₀.groupCount re₀.names).expand re₀.direction ms) := by
  obtain ⟨c, re₁, hc, htemplate, hre₁, hclock⟩ := hre.compileTemplate pattern
  have hfinds₁ := hfinds.of_alike hre₀.provided ⟨hre, hre₁, hclock.symm⟩
  have hanswer := answer_replaceTemplate pattern re₀.groupCount re₀.names hstart hfinds₁
    (hre₁.patience ▸ hpatience)
  rw [hre₁.direction_eq] at hanswer
  simp only [replaceN, bind, EStateM.bind, checkCount_of_le hcount, checkStart_of_isBoundary hstart,
    hc, htemplate]
  exact hanswer

/-- Putting a text between the pieces is replacing the matches with it. -/
theorem intercalate_splitting (new : String) (d : Direction) (ms : List Match) :
    (Fault.guard (text.splitting d ms)).map new.intercalate =
      (Fault.guard (text.replacing (fun _ => .ok new) d ms)).map (Replaced.string text) := by
  rw [Text.splitting, Text.replacing, Text.splice_eq_around]
  split
  · exact congrArg Except.ok String.intercalate_singleton
  · cases text.around text.size 0 (d.inTextOrder ms) with
    | error f => rfl
    | ok pieces => rfl

theorem exists_splitting {d : Direction} (hms : ∀ m ∈ ms, m.InText ∧ m.text = text)
    (horder : ms.Pairwise (Match.Apart d)) : ∃ pieces, text.splitting d ms = .ok pieces := by
  rw [Text.splitting]
  split
  · exact ⟨_, rfl⟩
  · have hordered : ∀ m ∈ d.inTextOrder ms,
        m.InText ∧ m.text = text ∧ ∃ s, (Except.ok "" : Except Fault String) = .ok s :=
      fun m hm => ⟨(hms m (mem_inTextOrder.1 hm)).1, (hms m (mem_inTextOrder.1 hm)).2, "", rfl⟩
    obtain ⟨s, hs⟩ : ∃ s, text.splice (fun _ => .ok "") text.size 0 (d.inTextOrder ms) = .ok s :=
      Text.exists_splice hordered (pairwise_inTextOrder horder) text.isBoundary_zero
        fun _ _ => Nat.zero_le _
    rw [Text.splice_eq_around] at hs
    cases haround : text.around text.size 0 (d.inTextOrder ms) with
    | error f =>
      rw [haround] at hs
      cases hs
    | ok pieces => exact ⟨pieces, rfl⟩

/-- The pieces are one more than the matches, and with the matched texts between them they are the
text again. -/
theorem of_splitting {d : Direction} {pieces : List String} (hms : ∀ m ∈ ms, m.text = text)
    (h : text.splitting d ms = .ok pieces) : pieces.length = ms.length + 1 ∧
      ∃ matched, (d.inTextOrder ms).mapM Match.string = .ok matched ∧
        String.join (pieces.zipWith (· ++ ·) (matched ++ [""])) = text.toString := by
  rw [Text.splitting] at h
  split at h
  · next hempty =>
    cases h
    rw [List.isEmpty_iff.1 hempty]
    refine ⟨rfl, [], by cases d <;> rfl, ?_⟩
    simp
  · have hlength : (d.inTextOrder ms).length = ms.length := by
      cases d with
      | forward => rfl
      | backward => exact List.length_reverse
    obtain ⟨matched, hmatched, hjoined⟩ :=
      Text.exists_matched (fun m hm => hms m (mem_inTextOrder.1 hm)) h
    rw [Text.slice_whole] at hjoined
    exact ⟨hlength ▸ Text.length_around h, matched, hmatched, (Except.ok.inj hjoined).symm⟩

theorem Finds.length_le {s : Search} (hcount : 1 ≤ count)
    (h : Finds re s (allowed (count - 1)) ms) : ms.length + 1 ≤ count.toNat := by
  have hallowed : allowed (count - 1) = some (count.toNat - 1) := by
    rw [← allowed_pred (by omega), if_neg (by omega)]
  rw [hallowed] at h
  rcases h with ⟨hlength, -⟩ | ⟨hlength, -⟩
  · have heq := Option.some.inj hlength
    omega
  · have hlt := hlength _ rfl
    omega

/-- Where no group but the whole match captures, the pieces of a split, joined with any text, are the
text with as many matches replaced by it, forward and backward. There are no more pieces than the
count, and with the matched texts between them they are the text again. Where matches lie in the text
one behind the other, the pieces are given. -/
theorem Created.join_split_eq_replaceN (hre₀ : re₀.Created) (hre : Serves re₀ re)
    (hgroups : re₀.groupCount = 1) (hstart : text.isBoundary start = true) (hcount : 0 ≤ count)
    (hfinds : Finds re { text, textStart := start } (allowed (count - 1)) ms)
    (horder : ms.Pairwise (Match.Apart re₀.direction)) (hpatience : ms.length < re₀.patience) :
    let cut := answer (split text count start re)
    (∀ new : String, cut.map new.intercalate =
      (answer (replaceN text (String.ofList (Template.escape new.toList)) (count - 1) start re)).map
        (Replaced.string text)) ∧
      (∀ pieces, cut = .ok pieces → (1 ≤ count → pieces.length ≤ count.toNat) ∧
        pieces.length = ms.length + 1 ∧
        ∃ matched, (re₀.direction.inTextOrder ms).mapM Match.string = .ok matched ∧
          String.join (pieces.zipWith (· ++ ·) (matched ++ [""])) = text.toString) ∧
      ((∀ m ∈ ms, m.InText) → ∃ pieces, cut = .ok pieces) := by
  have hmem := hfinds.of_mem hre₀.provided hre
  have hcut := answer_split hstart hcount hfinds (fun m hm => (hmem m hm).2.1.trans hgroups)
    (hre.patience ▸ hpatience)
  rw [hre.direction_eq] at hcut
  simp only [hcut]
  refine ⟨fun new => ?_, fun pieces hpieces => ?_, fun hin => ?_⟩
  · have hreplace := hre.answer_replaceN hre₀ (String.ofList (Template.escape new.toList)) hstart
      (by omega) hfinds hpatience
    rw [hreplace, funext (Template.expand_escape new)]
    exact intercalate_splitting new re₀.direction ms
  · have hsplitting : text.splitting re₀.direction ms = .ok pieces := by
      cases h : text.splitting re₀.direction ms with
      | error f =>
        rw [h] at hpieces
        cases hpieces
      | ok pieces' =>
        rw [h] at hpieces
        cases hpieces
        rfl
    obtain ⟨hlength, hmatched⟩ := of_splitting (fun m hm => (hmem m hm).1) hsplitting
    exact ⟨fun hone => hlength ▸ hfinds.length_le hone, hlength, hmatched⟩
  · obtain ⟨pieces, hpieces⟩ := exists_splitting (fun m hm => ⟨hin m hm, (hmem m hm).1⟩) horder
    exact ⟨pieces, by rw [hpieces]; rfl⟩

end Regex

/-- `x*`, from right to left. -/
def backwardStar : Tree :=
  Tree.build { rightToLeft := true } do
    let x ← Builder.one 'x'
    Builder.star x

/-- The matches of `x*` in `axb` from right to left; all but one are empty. -/
def backwardStarMatches : List Match :=
  [⟨3, 0⟩, ⟨1, 1⟩, ⟨1, 0⟩, ⟨0, 0⟩].map fun span =>
    { text := .ofString "axb", spans := ⟨#[[span]]⟩ }

/-- Five pieces lie around the matches of `x*` in `axb`, and four dollar signs replace the matches. -/
theorem split_backwardStar : ∃ re : Regex, Regex.ofTree backwardStar {} = .ok re ∧
    answer (Regex.split (.ofString "axb") 0 3 re) = .ok ["", "a", "", "b", ""] ∧
    (answer (Regex.replaceN (.ofString "axb") "$$" (-1) 3 re)).map (Replaced.string (.ofString "axb")) =
      .ok "$a$$b$" := by
  have hitems : (Regex.ofTree backwardStar {}).toOption.map (fun re => (re.direction,
      answer (Regex.nextTimes 5 { text := .ofString "axb", textStart := 3 } re))) =
        some (.backward, .ok (backwardStarMatches.map (fun m => some (.ok m)) ++ [none])) := by
    decide +kernel
  have hsplit : (Regex.ofTree backwardStar {}).toOption.map (fun re => (re.groupCount,
      answer (Regex.split (.ofString "axb") 0 3 re))) = some (1, .ok ["", "a", "", "b", ""]) := by
    decide +kernel
  obtain ⟨re, hre, hitems⟩ := Regex.exists_of_ofTree hitems
  rw [hre] at hsplit
  obtain ⟨hdirection, hitems⟩ := Prod.mk.inj hitems
  obtain ⟨hgroups, hsplit⟩ := Prod.mk.inj (Option.some.inj hsplit)
  obtain ⟨program, -, hmade⟩ := Regex.ofTree_eq_ok.1 hre
  have hpatience : backwardStarMatches.length < re.patience := by
    rw [hmade]
    show 4 < amplePatience
    decide
  have hfinds : Regex.Finds re { text := .ofString "axb", textStart := 3 }
      (Regex.allowed (0 - 1)) backwardStarMatches := by
    apply Or.inr
    exact ⟨fun k hk => absurd hk (Option.some_ne_none k).symm, hitems⟩
  have horder : backwardStarMatches.Pairwise (Match.Apart re.direction) := by
    rw [hdirection]
    decide
  obtain ⟨hjoin, -, -⟩ := (Regex.Created.ofTree hre).join_split_eq_replaceN
    ((Regex.Created.ofTree hre).serves re.clock) hgroups (by decide) (by decide) hfinds horder
    hpatience
  have hjoined := hjoin "$"
  rw [hsplit] at hjoined
  exact ⟨re, hre, hsplit, hjoined.symm⟩

end RegexMachine
