import RegexMachine.Proofs.Direct.Date
import RegexMachine.Proofs.Direct.Quoted
import RegexMachine.Proofs.Direct.WordThenDigit

/-!
# Direct matchers agree with the interpreter

For each pattern that has a direct matcher, a search with that matcher gives the same matches, with
the same captures of every group, as a search with the program of the pattern.
-/

namespace RegexMachine

open Regex (Serves)

/-- The patterns that have a matcher of their own. -/
inductive DirectPattern where
  | date
  | wordThenDigit
  | quoted
  deriving DecidableEq, Repr

namespace DirectPattern

def engine : DirectPattern → Engine
  | date => .date
  | wordThenDigit => .wordThenDigit
  | quoted => .quoted

def tree : DirectPattern → Tree
  | date => DateMatcher.tree
  | wordThenDigit => WordThenDigitMatcher.tree
  | quoted => QuotedMatcher.tree

variable (pattern : DirectPattern)

theorem linear_tree : pattern.tree.Linear := by
  cases pattern with
  | date => exact DateMatcher.linear_tree
  | wordThenDigit => exact WordThenDigitMatcher.linear_tree
  | quoted => exact QuotedMatcher.linear_tree

theorem plain_tree (culture : Culture) : pattern.tree.Plain culture := by
  cases pattern with
  | date => exact DateMatcher.plain_tree culture
  | wordThenDigit => exact WordThenDigitMatcher.plain_tree culture
  | quoted => exact QuotedMatcher.plain_tree culture

theorem imitates_tree (culture : Culture) : pattern.engine.Imitates pattern.tree culture := by
  cases pattern with
  | date => exact ⟨trivial, rfl, rfl, rfl, rfl, _, DateMatcher.imitates_tree culture, fun _ _ => rfl⟩
  | wordThenDigit =>
    exact ⟨trivial, rfl, rfl, rfl, rfl, _, WordThenDigitMatcher.imitates_tree culture, fun _ _ => rfl⟩
  | quoted => exact ⟨trivial, rfl, rfl, rfl, rfl, _, QuotedMatcher.imitates_tree culture, fun _ _ => rfl⟩

/-- Without a time limit a search by the direct matcher and one by the program of the pattern give the
same matches, and nothing after them. -/
theorem iterates_alike (config : RegexConfig) (hlimit : config.limit = none) :
    (config.compile.strictAnalysis = false → ∃ re, Regex.ofTree pattern.tree config = .ok re) ∧
      ∀ re₀, Regex.ofTree pattern.tree config = .ok re₀ → ∀ (text : Text) (start : Nat),
        text.chars.length < unbounded → text.isBoundary start = true →
          ∃ ms : List Match, ∃ enough, ∀ patience, enough ≤ patience → ∀ re direct,
            Serves { re₀ with patience } re →
              Serves { Regex.ofEngine pattern.engine none with patience } direct → ∀ n,
                let items := ms.map (fun m => some (.ok m)) ++ List.replicate n none
                answer ((Regex.Call.iterate text start (ms.length + n)).perform re) = .ok items ∧
                  answer ((Regex.Call.iterate text start (ms.length + n)).perform direct) =
                    .ok items := by
  have hplain := pattern.plain_tree (config.cultureOf pattern.tree)
  refine ⟨Regex.ofTree_total hplain.unshared, fun re₀ hre₀ text start hlength hstart => ?_⟩
  obtain ⟨program, hcompile, rfl⟩ := Regex.ofTree_eq_ok.1 hre₀
  obtain ⟨p, hp, rfl⟩ := Text.exists_place hstart
  let env : Surroundings :=
    { program, culture := config.cultureOf pattern.tree, text, textStart := p.offset }
  have hcompile : Program.compile pattern.tree env.culture config.compile = .ok env.program := hcompile
  obtain ⟨ms, hms⟩ :=
    Surroundings.exists_iterates hplain pattern.linear_tree hcompile hlength hp false
  have hfollows := (pattern.imitates_tree env.culture).follows hplain hcompile hlength
  obtain ⟨enough, hanswer⟩ := hms.answer_iterate hcompile hp
  obtain ⟨enough', hanswer'⟩ := hms.answer_iterateBy hfollows hp
  refine ⟨ms, max enough enough', fun patience hpatience re direct hre hdirect n => ⟨?_, ?_⟩⟩
  · exact hanswer _ ⟨rfl, hlimit⟩ (Nat.max_le.1 hpatience).1 re hre n
  · exact hanswer' _ ⟨rfl, rfl⟩ (Nat.max_le.1 hpatience).2 direct hdirect n

end DirectPattern

/-- The words that end in a digit in `x1 y22 z`. -/
def numberedWords : List Match :=
  [{ text := .ofString "x1 y22 z", spans := ⟨#[[⟨0, 2⟩], [⟨0, 1⟩], [⟨1, 1⟩]]⟩ },
    { text := .ofString "x1 y22 z", spans := ⟨#[[⟨3, 3⟩], [⟨3, 2⟩], [⟨5, 1⟩]]⟩ }]

/-- In `x1 y22 z` both find the same two words that end in a digit. -/
theorem iterates_alike_words : ∃ re₀ : Regex, Regex.ofTree WordThenDigitMatcher.tree {} = .ok re₀ ∧
    ∃ enough, ∀ patience, enough ≤ patience → ∀ n,
      let items := numberedWords.map (fun m => some (.ok m)) ++ List.replicate n none
      answer ((Regex.Call.iterate (.ofString "x1 y22 z") 0 (numberedWords.length + n)).perform
          { re₀ with patience }) = .ok items ∧
        answer ((Regex.Call.iterate (.ofString "x1 y22 z") 0 (numberedWords.length + n)).perform
          { Regex.ofEngine .wordThenDigit none with patience }) = .ok items := by
  obtain ⟨-, hsearch⟩ := DirectPattern.iterates_alike .wordThenDigit {} rfl
  have hseen : (Regex.ofTree WordThenDigitMatcher.tree {}).toOption.map (fun re =>
      answer ((Regex.Call.iterate (.ofString "x1 y22 z") 0 (numberedWords.length + 1)).perform re)) =
        some (.ok (numberedWords.map (fun m => some (.ok m)) ++ [none])) := by
    decide +kernel
  obtain ⟨re₀, hre₀, hseen⟩ := Regex.exists_of_ofTree hseen
  obtain ⟨ms, enough, hitems⟩ := hsearch re₀ hre₀ (.ofString "x1 y22 z") 0 (by decide) (by decide)
  have hdirect (patience : Nat) : Regex.Created { Regex.ofEngine .wordThenDigit none with patience } :=
    .granted (.wordThenDigit none) none .ticking patience
  have hitems := fun patience hpatience => hitems patience hpatience _ _
    (Regex.serves_ofTree hre₀ patience) ((hdirect patience).serves .ticking)
  obtain rfl := Regex.eq_of_iterate hre₀ (fun patience hpatience n => (hitems patience hpatience n).1)
    hseen
  exact ⟨re₀, hre₀, enough, hitems⟩

end RegexMachine
