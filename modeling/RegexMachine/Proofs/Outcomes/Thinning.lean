import Mathlib.Data.List.Basic
import RegexMachine.Proofs.Outcomes.Within
import RegexMachine.Proofs.Program.Block

/-!
# The compiled reading

A compiler reads a tree with two changes: a large enough bound stands for none, and repeated
characters in atomic position are cut to the end they like best. The first changes nothing in a text
that is short enough. The second leaves out outcomes, but only such as follow another outcome that
leaves every group with as many captures. Nothing that runs after a node in atomic position can tell
them apart, so the first outcome of the tree stays what it was.
-/

namespace RegexMachine

/-- How often a loop may go on beyond its minimum when it is compiled. -/
def compiledSpare (min max : Nat) : Option Nat :=
  if Emitter.isCounted min max then some (Emitter.extra min max) else none

/-- How many characters a repetition may take beyond those that it must when it is compiled. -/
def compiledCharSpare (min max : Nat) : Nat := if min < max then Emitter.extra min max else 0

/-- How a compiler that has this analysis reads repetitions. -/
def Reading.compiled (analysis : Analysis) : Reading where
  isCut := analysis.isAtomicByAncestor
  loopSpare := compiledSpare
  charSpare min max := some (compiledCharSpare min max)

/-- The states have as many captures left in every group. -/
def MatchState.Alike (s t : MatchState) : Prop :=
  ∀ group, (s.captured group).length = (t.captured group).length

theorem MatchState.Alike.refl (s : MatchState) : s.Alike s := fun _ => rfl

/-- The second list is the first where runs of alike outcomes are cut to their first. -/
inductive Thins : List MatchState → List MatchState → Prop
  | nil : Thins [] []
  | cons {o : MatchState} {dropped xs ys : List MatchState} (alike : ∀ t ∈ dropped, o.Alike t)
      (rest : Thins xs ys) : Thins (o :: (dropped ++ xs)) (o :: ys)

namespace Thins

variable {xs ys xs' ys' : List MatchState}

theorem refl (xs : List MatchState) : Thins xs xs := by
  induction xs with
  | nil => exact .nil
  | cons x xs ih => exact @cons x [] xs xs (fun t ht => absurd ht List.not_mem_nil) ih

theorem append (h : Thins xs ys) (h' : Thins xs' ys') : Thins (xs ++ xs') (ys ++ ys') := by
  induction h with
  | nil => exact h'
  | cons alike _ ih =>
    rw [List.cons_append, List.cons_append, List.append_assoc]
    exact .cons alike ih

theorem flatMap {α : Type} {f g : α → List MatchState} {l : List α}
    (h : ∀ a ∈ l, Thins (f a) (g a)) : Thins (l.flatMap f) (l.flatMap g) := by
  induction l with
  | nil => exact .nil
  | cons a l ih =>
    rw [List.flatMap_cons, List.flatMap_cons]
    exact (h a List.mem_cons_self).append (ih fun b hb => h b (List.mem_cons_of_mem _ hb))

theorem head?_eq (h : Thins xs ys) : xs.head? = ys.head? := by
  cases h <;> rfl

theorem isEmpty_eq (h : Thins xs ys) : xs.isEmpty = ys.isEmpty := by
  cases h <;> rfl

theorem take_one_eq (h : Thins xs ys) : xs.take 1 = ys.take 1 := by
  cases h <;> rfl

theorem filterMap {f : MatchState → Option MatchState}
    (hf : ∀ s t, s.Alike t → Option.Rel MatchState.Alike (f s) (f t)) (h : Thins xs ys) :
    Thins (xs.filterMap f) (ys.filterMap f) := by
  induction h with
  | nil => exact .nil
  | @cons o dropped xs ys alike rest ih =>
    rw [List.filterMap_cons, List.filterMap_cons, List.filterMap_append]
    cases ho : f o with
    | none =>
      have hnone : dropped.filterMap f = [] := by
        rw [List.filterMap_eq_nil_iff]
        intro t ht
        have hrel := hf o t (alike t ht)
        rw [ho] at hrel
        cases hft : f t with
        | none => rfl
        | some t' =>
          rw [hft] at hrel
          cases hrel
      rw [hnone]
      exact ih
    | some o' =>
      refine .cons (fun t' ht' => ?_) ih
      obtain ⟨t, ht, hft⟩ := List.mem_filterMap.1 ht'
      have hrel := hf o t (alike t ht)
      rw [ho, hft] at hrel
      cases hrel with
      | some halike => exact halike

end Thins

end RegexMachine
