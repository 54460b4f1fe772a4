import RegexMachine.Proofs.Program.CaseBlind
import RegexMachine.Proofs.Regex.Lockstep
import RegexMachine.Proofs.Regex.Replacing
import RegexMachine.Proofs.Text.Folding

/-!
# Case is not seen

A program that cannot see case reads the same in texts that fold alike, so a search that ignores case
gives the same spans in both, or fails alike in both.
-/

namespace RegexMachine

/-- The surroundings have a supplied culture and differ at most in their texts, which fold alike. -/
structure Surroundings.FoldLike (env env' : Surroundings) : Prop where
  culture : env.culture.Supplied
  text : env.text.FoldsLike env.culture env'.text
  eq : env' = { env with text := env'.text }

namespace Surroundings

variable {env env' : Surroundings} (h : env.FoldLike env')

include h

theorem FoldLike.passes (test : CharTest) {c c' : Char} (hc : env.culture.SameFold c c') :
    env.passes test true c = env'.passes test true c' := by
  rw [h.eq]
  simp only [Surroundings.passes, if_true, hc.fold]

theorem FoldLike.readChars (d : Direction) (chars : List Char) (pos : Nat) :
    env.readChars d true chars pos = env'.readChars d true chars pos := by
  have hculture : env'.culture = env.culture := by rw [h.eq]
  induction chars generalizing pos with
  | nil => rfl
  | cons expected rest ih =>
    refine h.text.bind_read rfl fun c c' next hc => ?_
    simp only [if_true, hculture, hc.fold, ih]

theorem FoldLike.takeExactly {i : Instruction} (hi : i.ignoreCase = true) (test : CharTest)
    (n pos : Nat) : env.takeExactly i test n pos = env'.takeExactly i test n pos := by
  induction n generalizing pos with
  | zero => rfl
  | succ n ih =>
    refine h.text.bind_read rfl fun c c' next hc => ?_
    simp only [hi, h.passes test hc, ih]

theorem FoldLike.takeUpTo {i : Instruction} (hi : i.ignoreCase = true) (test : CharTest)
    (n taken pos : Nat) : env.takeUpTo i test n taken pos = env'.takeUpTo i test n taken pos := by
  induction n generalizing taken pos with
  | zero => rfl
  | succ n ih =>
    refine h.text.bind_read rfl fun c c' next hc => ?_
    simp only [hi, h.passes test hc, ih]

theorem FoldLike.readString {i : Instruction} (hi : i.ignoreCase = true) (chars : List Char)
    (pos : Nat) : env.readString i chars pos = env'.readString i chars pos := by
  rw [Surroundings.readString, Surroundings.readString, hi, h.readChars]

end Surroundings

namespace Machine

variable {env env' : Surroundings} (h : env.FoldLike env') {i : Instruction} (m : Machine)

include h

theorem assertion?_foldLike (pos : Nat) {opcode : Opcode} (hwordless : opcode.asksForWords = false) :
    assertion? env pos opcode = assertion? env' pos opcode := by
  have hstart : env'.textStart = env.textStart := by rw [h.eq]
  have hbefore := Culture.beq_newline_of_rel h.culture (h.text.charBefore? pos)
  have hafter := Culture.beq_newline_of_rel h.culture (h.text.charAt? pos)
  cases opcode
  case boundary | nonBoundary | ecmaBoundary | nonEcmaBoundary => cases hwordless
  all_goals simp only [assertion?, Text.checkOffset, h.text.size, hbefore, hafter, hstart]

theorem char_foldLike (hi : i.ignoreCase = true) : char env i m = char env' i m := by
  unfold char
  split
  · refine h.text.bind_read rfl fun c c' next hc => ?_
    simp only [hi, h.passes _ hc]
  · rfl

theorem backreference_foldLike (hi : i.ignoreCase = true) :
    backreference env i m = backreference env' i m := by
  have hculture : env'.culture = env.culture := by rw [h.eq]
  have hprogram : env'.program = env.program := by rw [h.eq]
  unfold backreference
  split
  · refine congrArg (i.group >>= ·) (funext fun group => ?_)
    split
    · -- What was captured may differ, but it is folded before it is compared.
      refine h.text.bind_charsBetween fun captured captured' hfold => ?_
      simp only [hi, if_true, hculture, hfold, h.readString hi]
    · rw [hprogram]
  · rfl

theorem charLoop_foldLike (hi : i.ignoreCase = true) (givesBack : Bool) :
    charLoop env i givesBack m = charLoop env' i givesBack m := by
  unfold charLoop
  simp only [h.takeUpTo hi, h.text.bump]

theorem charLazy_foldLike (hi : i.ignoreCase = true) : charLazy env i m = charLazy env' i m := by
  unfold charLazy
  split
  · refine congrArg (i.count >>= ·) (funext fun count => ?_)
    split
    · exact h.text.bind_read rfl fun _ _ _ _ => rfl
    · rfl
  · refine h.text.bind_read rfl fun c c' next hc => ?_
    simp only [hi, h.passes _ hc]
  · rfl

/-- An instruction that cannot see case does the same in both surroundings. -/
theorem execute_foldLike (hblind : i.CaseBlind) : m.execute env i = m.execute env' i := by
  obtain ⟨hfolds, hwordless⟩ := hblind
  unfold execute
  split <;> rename_i hopcode <;> rw [hopcode] at hfolds hwordless
  case h_19 => exact char_foldLike h m (hfolds rfl)
  case h_20 =>
    unfold multi
    simp only [h.readString (hfolds rfl)]
  case h_21 => exact backreference_foldLike h m (hfolds rfl)
  case h_22 =>
    unfold charRep
    simp only [h.takeExactly (hfolds rfl)]
  case h_23 | h_24 => exact charLoop_foldLike h m (hfolds rfl) _
  case h_25 => exact charLazy_foldLike h m (hfolds rfl)
  all_goals first
    | rfl
    | (unfold assertion
       rw [hopcode, assertion?_foldLike h _ hwordless])

end Machine

/-- A filter that looks only at folded characters finds the same. -/
theorem Text.FoldsLike.find {culture : Culture} {t t' : Text} (h : t.FoldsLike culture t')
    {f : StartFilter} (hblind : f.mode.CaseBlind) (pos textStart : Nat) :
    f.find culture t pos textStart = f.find culture t' pos textStart := by
  -- The character that starts at a cell folds alike on both sides.
  have hafter : ∀ {x y : Cell}, x.FoldsLike culture y →
      x.after?.map culture.fold = y.after?.map culture.fold := by
    rintro _ _ (⟨-, hafter⟩ | -)
    · cases hafter with
      | none => rfl
      | some hc => exact congrArg some hc.fold
    · rfl
  unfold StartFilter.find
  cases hmode : f.mode with
  | leadingString chars | leadingChar c | trailingChar c =>
    rw [hmode] at hblind
    exact hblind.elim
  | leadingCharIgnoreCase c =>
    have hseek := h.seekForward (fun cell => cell.after?.map culture.fold == some c)
      (fun x y hxy => by rw [hafter hxy]) pos
    simp only [Text.checkBoundary, h.isBoundary, hseek]
  | leadingSet k ignoreCase =>
    rw [hmode] at hblind
    obtain rfl : ignoreCase = true := hblind
    have hany : ∀ c? : Option Char, (c?.any fun c => k.contains (culture.fold c)) =
        (c?.map culture.fold).any k.contains := fun c? => by cases c? <;> rfl
    have hseek := h.seekForward
      (fun cell => cell.after?.any fun c => k.contains (culture.fold c))
      (fun x y hxy => by rw [hany, hany, hafter hxy]) pos
    simp only [Text.checkBoundary, h.isBoundary, if_true, hseek]
  | trailingEnd => simp only [h.size]
  | noSearch | leadingBeginning | leadingStart => rfl

theorem Program.CaseBlind.readsAlike {program : Program} (h : program.CaseBlind) {culture : Culture}
    (hculture : culture.Supplied) {t t' : Text} (ht : t.FoldsLike culture t') :
    program.ReadsAlike culture t t' where
  size := ht.size
  isBoundary := ht.isBoundary
  bump := ht.bump _
  find := ht.find h.filter
  execute _ m i hi := Machine.execute_foldLike ⟨hculture, ht, rfl⟩ m (h.instructions i hi)

theorem Culture.Supplied.cultureOf {config : RegexConfig} (h : config.culture.Supplied) (t : Tree) :
    (config.cultureOf t).Supplied := by
  rw [RegexConfig.cultureOf]
  split
  · exact .invariant
  · exact h

/-- In a supplied culture, a search by a tree all of whose nodes ignore case, and which looks for no
word boundaries, cannot see case: in a text that folds alike it gives items with the same spans in every
group, or it fails alike, wherever it starts, whatever its limits are and whatever the regex was called
for before. -/
theorem Regex.iterate_sees_no_case {t : Tree} {config : RegexConfig} {re₀ : Regex}
    (hre₀ : Regex.ofTree t config = .ok re₀) (hculture : config.culture.Supplied)
    (hblind : ∀ x ∈ t.root.preorder, x.CaseBlind) {text text' : Text}
    (hfold : text.FoldsLike (config.cultureOf t) text') (patience : Nat) (limit : Option Duration)
    {re : Regex} (hre : Serves { re₀ with patience, limit } re)
    (start items : Nat) :
    answer ((Call.iterate text' start items).perform re) =
      (answer ((Call.iterate text start items).perform re)).map
        (List.map (Search.itemOnto text')) := by
  obtain ⟨program, hcompile, rfl⟩ := ofTree_eq_ok.1 hre₀
  have halike := (Program.caseBlind_of_compile hblind hcompile).readsAlike (hculture.cultureOf t) hfold
  exact answer_iterate_onto halike hre.engine start items

/-- The pattern `(é)\1`, matched without regard to case. -/
def letterTwice : Tree :=
  Tree.build { ignoreCase := true } do
    let letter ← Builder.one 'é'
    let group ← Builder.capture 1 letter
    let again ← Builder.backreference 1
    Builder.concat [group, again]

/-- In `XéÉ` a search for `(é)\1` finds what it finds in `xÉé`. -/
theorem search_letterTwice : ∃ re₀ : Regex, Regex.ofTree letterTwice {} = .ok re₀ ∧
    let r := answer ((Regex.Call.iterate (.ofString "xÉé") 0 2).perform re₀)
    r = .ok [some (.ok { text := .ofString "xÉé", spans := ⟨#[[⟨1, 4⟩], [⟨1, 2⟩]]⟩ }), none] ∧
      answer ((Regex.Call.iterate (.ofString "XéÉ") 0 2).perform re₀) =
        r.map (List.map (Search.itemOnto (.ofString "XéÉ"))) := by
  obtain ⟨hitems, hx, hé⟩ : (Regex.ofTree letterTwice {}).toOption.map (fun re =>
      answer ((Regex.Call.iterate (.ofString "xÉé") 0 2).perform re)) = some (.ok
        [some (.ok { text := .ofString "xÉé", spans := ⟨#[[⟨1, 4⟩], [⟨1, 2⟩]]⟩ }), none]) ∧
      Culture.invariant.fold 'x' = Culture.invariant.fold 'X' ∧
      Culture.invariant.fold 'É' = Culture.invariant.fold 'é' := by
    decide +kernel
  have hfold : (Text.ofString "xÉé").FoldsLike .invariant (.ofString "XéÉ") := by
    have htext : (Text.ofString "xÉé").chars = ['x', 'É', 'é'] := by decide +kernel
    have htext' : (Text.ofString "XéÉ").chars = ['X', 'é', 'É'] := by decide +kernel
    rw [Text.FoldsLike, htext, htext']
    exact .cons ⟨hx, rfl⟩ (.cons ⟨hé, rfl⟩ (.cons ⟨hé.symm, rfl⟩ .nil))
  cases hre : Regex.ofTree letterTwice {} with
  | error e =>
    rw [hre] at hitems
    cases hitems
  | ok re₀ =>
    rw [hre] at hitems
    have hblind : ∀ x ∈ letterTwice.root.preorder, x.CaseBlind := by decide +kernel
    have hserves := (Regex.Created.ofTree hre).serves re₀.clock
    exact ⟨re₀, rfl, Option.some.inj hitems,
      Regex.iterate_sees_no_case hre .invariant hblind hfold re₀.patience re₀.limit hserves 0 2⟩

end RegexMachine
