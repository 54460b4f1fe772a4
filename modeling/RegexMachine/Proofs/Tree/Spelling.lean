import Mathlib.Data.List.Forall2
import RegexMachine.Proofs.Attempts.Plain
import RegexMachine.Proofs.Outcomes.Spelling

/-!
# Nodes that are spelled out

A node is spelled out when every repeated character under it is a loop over the sealed character and
every string a sequence of characters. What is spelled out has the same outcomes in the plain reading,
and no loop comes up in it that can run in place.
-/

namespace RegexMachine

open Matcher

/-- The construct reads whether case is ignored. -/
def Kind.readsCase : Kind → Bool
  | .char _ | .multi _ | .charLoop .. | .backreference _ => true
  | _ => false

/-- The construct stays as it is when a tree is spelled out. -/
def Kind.isGeneral : Kind → Bool
  | .char _ | .multi _ | .charLoop .. => false
  | _ => true

/-- The options agree in what a construct reads of them. -/
structure Options.AgreesOn (kind : Kind) (o o' : Options) : Prop where
  rightToLeft : o'.rightToLeft = o.rightToLeft
  ignoreCase : kind.readsCase = true → o'.ignoreCase = o.ignoreCase

namespace Options.AgreesOn

variable {kind : Kind} {o o' : Options}

theorem refl (kind : Kind) (o : Options) : o.AgreesOn kind o := ⟨rfl, fun _ => rfl⟩

theorem direction (h : o.AgreesOn kind o') : o'.direction = o.direction := by
  rw [Options.direction, Options.direction, h.rightToLeft]

theorem union (h : o.AgreesOn kind o') (added : Options) :
    (o.union added).AgreesOn kind (o'.union added) where
  rightToLeft := congrArg (· || added.rightToLeft) h.rightToLeft
  ignoreCase hcase := congrArg (· || added.ignoreCase) (h.ignoreCase hcase)

end Options.AgreesOn

theorem exists_mem_of_forall₂ {α β : Type} {R : α → β → Prop} {xs : List α} {ys : List β}
    (h : List.Forall₂ R xs ys) {y : β} (hy : y ∈ ys) : ∃ x ∈ xs, R x y := by
  induction h with
  | nil => cases hy
  | cons hR _ ih =>
    rcases List.mem_cons.1 hy with rfl | hy
    · exact ⟨_, List.mem_cons_self, hR⟩
    · obtain ⟨x, hx, hR⟩ := ih hy
      exact ⟨x, List.mem_cons_of_mem _ hx, hR⟩

namespace Node

/-- Numbers apart, the matcher of a construct depends on what it reads of the options. -/
theorem matcherOf_congr {kind : Kind} {o o' : Options} (h : o.AgreesOn kind o') (σ : Setting)
    (id id' : Nat) (parts : List Matcher) :
    matcherOf Reading.plain σ id' o' kind parts = matcherOf Reading.plain σ id o kind parts := by
  have hcase : kind.readsCase = true → o'.ignoreCase = o.ignoreCase := h.ignoreCase
  cases kind with
  | char | multi | charLoop => simp only [matcherOf, h.direction, hcase rfl, Reading.plain]
  | backreference group =>
    funext s
    simp only [matcherOf, Matcher.backreference, h.direction, hcase rfl]
  | _ =>
    rcases parts with _ | ⟨_, _ | ⟨_, _ | ⟨_, _ | _⟩⟩⟩ <;> simp only [matcherOf, h.direction]

/-- The node is a character, sealed any number of times. -/
inductive SealsChar (atom : Atom) (o : Options) : Node → Prop
  | char {id : Nat} {o' : Options} (h : o.AgreesOn (.char atom) o') :
      SealsChar atom o (node id o' (.char atom) [])
  | atomic {id : Nat} {o' : Options} {n : Node} (h : SealsChar atom o n) :
      SealsChar atom o (node id o' .atomic [n])

/-- The second node is the first spelled out. -/
inductive SpelledOut : Node → Node → Prop
  | char {id : Nat} {o : Options} {atom : Atom} {n : Node} (h : SealsChar atom o n) :
      SpelledOut (node id o (.char atom) []) n
  | multi {id id' : Nat} {o o' : Options} {chars : List Char} {letters : List Node}
      (ho : o.AgreesOn .concat o')
      (h : List.Forall₂ (fun c letter => ∃ id o', o.AgreesOn (.char (.one c)) o' ∧
        letter = node id o' (.char (.one c)) []) chars letters) :
      SpelledOut (node id o (.multi chars) []) (node id' o' .concat letters)
  | charLoop {id id' id'' : Nat} {o o' o'' : Options} {atom : Atom} {min max : Nat} {isLazy : Bool}
      {body : Node} (ho : o.AgreesOn (.loop min max isLazy) o') (h : SealsChar atom o body) :
      SpelledOut (node id o (.charLoop atom min max isLazy) [])
        (node id' o' (.loop min max isLazy) [node id'' o'' .atomic [body]])
  | general {id id' : Nat} {o o' : Options} {kind : Kind} {children children' : List Node}
      (hkind : kind.isGeneral = true) (ho : o.AgreesOn kind o')
      (h : List.Forall₂ SpelledOut children children') :
      SpelledOut (node id o kind children) (node id' o' kind children')

theorem SealsChar.matcher_eq {atom : Atom} {o : Options} {n : Node} (h : SealsChar atom o n)
    (σ : Setting) : n.matcher Reading.plain σ =
      single o.direction (passes σ.culture o.ignoreCase atom) := by
  induction h with
  | char h =>
    rw [matcher_node, matcherOf_congr h σ 0]
    rfl
  | atomic _ ih =>
    rw [matcher_node, List.map_singleton, ih]
    exact atomic_eq_self length_single_le

theorem SealsChar.not_matchesEmpty {atom : Atom} {o : Options} {n : Node} (h : SealsChar atom o n)
    (culture : Culture) (ecmaScript : Bool) : ¬ n.MatchesEmpty culture ecmaScript := by
  rintro ⟨text, textStart, s, u, hs, hu, hplace⟩
  rw [h.matcher_eq] at hu
  refine not_matchesEmpty_char culture ecmaScript 0 o atom
    ⟨text, textStart, s, u, hs, ?_, hplace⟩
  rw [matcher_node]
  exact hu

/-- What is spelled out has the same outcomes. -/
theorem SpelledOut.matcher_eq {n n' : Node} (h : SpelledOut n n') (σ : Setting) :
    n'.matcher Reading.plain σ = n.matcher Reading.plain σ := by
  induction n using Node.induction generalizing n' with
  | step id o kind children ih =>
    cases h with
    | char h =>
      rw [h.matcher_eq, matcher_node]
      rfl
    | @multi _ id' _ o' chars letters ho hletters =>
      have hmatchers : letters.map (matcher Reading.plain σ) =
          chars.map fun c => single o.direction (passes σ.culture o.ignoreCase (.one c)) := by
        clear ih
        induction hletters with
        | nil => rfl
        | cons hletter _ ihrest =>
          obtain ⟨_, _, hagrees, rfl⟩ := hletter
          rw [List.map_cons, List.map_cons, ihrest, (SealsChar.char hagrees).matcher_eq]
      rw [matcher_node, matcher_node, matcherOf_congr ho σ 0, hmatchers]
      funext s
      simp only [matcherOf]
      rw [string_eq_sequence]
      cases o.direction <;> rfl
    | @charLoop _ id' id'' _ o' o'' atom min max isLazy body ho h =>
      rw [matcher_node, matcher_node, matcherOf_congr ho σ 0, List.map_singleton, matcher_node,
        List.map_singleton, h.matcher_eq]
      exact (charLoop_eq_loop min (Reading.plain.charSpare min max) isLazy).symm
    | general hkind ho hchildren =>
      rw [matcher_node, matcher_node, matcherOf_congr ho σ id]
      refine congrArg _ ?_
      induction hchildren with
      | nil => rfl
      | cons hc _ ihrest =>
        rw [List.map_cons, List.map_cons, ih _ List.mem_cons_self hc,
          ihrest fun c hc => ih c (List.mem_cons_of_mem _ hc)]

theorem SpelledOut.matchesEmpty {n n' : Node} (h : SpelledOut n n') {culture : Culture}
    {ecmaScript : Bool} (hempty : n'.MatchesEmpty culture ecmaScript) :
    n.MatchesEmpty culture ecmaScript := by
  obtain ⟨text, textStart, s, u, hs, hu, hplace⟩ := hempty
  rw [h.matcher_eq] at hu
  exact ⟨text, textStart, s, u, hs, hu, hplace⟩

/-- What a spelled out node is made of: constructs of the node over spelled out parts, simple ones,
and loops over bodies that take text. -/
def Stems (n x : Node) : Prop :=
  (∃ y ∈ n.preorder, x.kind = y.kind ∧ List.Forall₂ SpelledOut y.children x.children) ∨
    x.kind.isSimple = true ∨
    ((∀ g u, x.kind ≠ .capture g u) ∧ ∀ body ∈ x.children, ∃ atom o, SealsChar atom o body)

theorem SealsChar.stems {atom : Atom} {o : Options} {n : Node} (h : SealsChar atom o n)
    (root : Node) : ∀ x ∈ n.preorder, root.Stems x := by
  induction h with
  | char _ => exact forall_preorder_node.2 ⟨.inr (.inl rfl), fun _ hc => absurd hc List.not_mem_nil⟩
  | atomic _ ih =>
    refine forall_preorder_node.2 ⟨.inr (.inl rfl), fun c hc => ?_⟩
    rw [List.mem_singleton.1 hc]
    exact ih

theorem SpelledOut.stems {n n' : Node} (h : SpelledOut n n') : ∀ x ∈ n'.preorder, n.Stems x := by
  induction n using Node.induction generalizing n' with
  | step id o kind children ih =>
    cases h with
    | char h => exact h.stems _
    | multi ho hletters =>
      refine forall_preorder_node.2 ⟨.inr (.inl rfl), fun letter hletter x hx => ?_⟩
      obtain ⟨c, -, _, _, hagrees, rfl⟩ := exists_mem_of_forall₂ hletters hletter
      exact (SealsChar.char hagrees).stems _ x hx
    | charLoop ho h =>
      refine forall_preorder_node.2 ⟨.inr (.inr ⟨nofun, fun body hbody => ?_⟩), fun c hc => ?_⟩
      · rw [List.mem_singleton.1 hbody]
        exact ⟨_, _, h.atomic⟩
      · rw [List.mem_singleton.1 hc]
        exact h.atomic.stems _
    | general hkind ho hchildren =>
      refine forall_preorder_node.2
        ⟨.inl ⟨_, mem_preorder_self _, rfl, hchildren⟩, fun c' hc' x hx => ?_⟩
      obtain ⟨c, hc, hspelled⟩ := exists_mem_of_forall₂ hchildren hc'
      exact (ih c hc hspelled x hx).imp_left fun ⟨y, hy, hstems⟩ =>
        ⟨y, preorder_trans (mem_preorder_child hc) hy, hstems⟩

end Node

end RegexMachine
