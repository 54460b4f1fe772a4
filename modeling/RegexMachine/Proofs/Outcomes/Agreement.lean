import RegexMachine.Proofs.Outcomes.Thinning
import RegexMachine.Proofs.Tree.AtomicPosition

/-!
# Agreement of the readings

In a text with fewer characters than the bound that stands for none, a node has the same outcomes
in the plain reading and as it is compiled, up to what is cut in atomic position.
-/

namespace RegexMachine

open Matcher

/-- The second list is the first, or the first thinned out in atomic position. -/
def Agrees (atomic : Bool) (xs ys : List MatchState) : Prop :=
  if atomic then Thins xs ys else xs = ys

namespace Agrees

variable {atomic : Bool} {xs ys xs' ys' : List MatchState}

theorem refl (atomic : Bool) (xs : List MatchState) : Agrees atomic xs xs := by
  cases atomic with
  | false => exact rfl
  | true => exact Thins.refl xs

theorem of_eq (h : xs = ys) : Agrees atomic xs ys := h ▸ refl atomic xs

theorem thins (h : Agrees atomic xs ys) : Thins xs ys := by
  cases atomic with
  | false =>
    have heq : xs = ys := h
    exact heq ▸ .refl xs
  | true => exact h

theorem append (h : Agrees atomic xs ys) (h' : Agrees atomic xs' ys') :
    Agrees atomic (xs ++ xs') (ys ++ ys') := by
  cases atomic with
  | false => exact congrArg₂ (· ++ ·) h h'
  | true => exact Thins.append h h'

theorem flatMap {α : Type} {f g : α → List MatchState} {l : List α}
    (h : ∀ a ∈ l, Agrees atomic (f a) (g a)) : Agrees atomic (l.flatMap f) (l.flatMap g) := by
  cases atomic with
  | false => exact List.flatMap_congr h
  | true => exact Thins.flatMap h

theorem filterMap {f : MatchState → Option MatchState}
    (hf : ∀ s t, s.Alike t → Option.Rel MatchState.Alike (f s) (f t)) (h : Agrees atomic xs ys) :
    Agrees atomic (xs.filterMap f) (ys.filterMap f) := by
  cases atomic with
  | false => exact congrArg (List.filterMap f) h
  | true => exact Thins.filterMap hf h

end Agrees

/-- The matchers agree in this text. -/
def Matcher.Reads (t : Text) (atomic : Bool) (M M' : Matcher) : Prop :=
  ∀ s, s.Sound t → Agrees atomic (M s) (M' s)

namespace Matcher

variable {t : Text} {atomic : Bool}

theorem reads_refl (t : Text) (atomic : Bool) (M : Matcher) : Reads t atomic M M :=
  fun s _ => .refl atomic (M s)

/-- Bounds that allow the same in a short text. -/
def SameSpare (limit : Nat) (spare spare' : Option Nat) : Prop :=
  ∀ k ≤ limit, spare.all (k < ·) = spare'.all (k < ·)

theorem loop_congr {d : Direction} {body body' : Matcher} {min : Nat} {spare spare' : Option Nat}
    (hbody : ∀ s, s.Sound t → body s = body' s) (hsound : KeepsSound t body)
    (honward : Onward d body) (hspare : SameSpare t.chars.length spare spare') (isLazy : Bool) :
    ∀ done s, s.Sound t → done - min + s.place.ahead d ≤ t.chars.length →
      loop d body min spare isLazy done s = loop d body' min spare' isLazy done s := by
  refine loop_induction d min fun done s ih hs hlimit => ?_
  have hagain : again d body min spare isLazy done s = again d body' min spare' isLazy done s := by
    rw [again, again, ← hbody s hs]
    refine List.flatMap_congr fun u hu => ?_
    rw [afterRun, afterRun]
    by_cases hrun : done + 1 < min ∨ u.place.ahead d < s.place.ahead d
    · have hle := honward s u hu
      rw [if_pos hrun, if_pos hrun]
      exact ih u hrun (hsound s u hu hs) (by omega)
    · rw [if_neg hrun, if_neg hrun]
  rw [loop_eq, loop_eq, hagain, hspare (done - min) (by omega)]

theorem sameSpare_compiled {limit min max : Nat} (hlimit : limit < unbounded)
    (hbounded : min ≤ max ∧ max ≤ unbounded) :
    SameSpare limit (Reading.plain.loopSpare min max) (compiledSpare min max) := by
  intro k hk
  simp only [Reading.plain, compiledSpare, Emitter.extra]
  by_cases hmax : max = unbounded
  · subst hmax
    have hlt : k < unbounded := by omega
    cases Emitter.isCounted min unbounded with
    | true => simp [hlt]
    | false => rfl
  · have hcounted : Emitter.isCounted min max = true := by
      have hlt : max < unbounded := by omega
      rw [Emitter.isCounted, decide_eq_true hlt, Bool.true_or]
    simp [hcounted, hmax]

/-- A loop that runs its body once at most. -/
theorem loop_once (d : Direction) (body : Matcher) {min : Nat} (hmin : min ≤ 1) (isLazy : Bool)
    (s : MatchState) : loop d body min (some (1 - min)) isLazy 0 s =
      if min = 0 then if isLazy then s :: body s else body s ++ [s] else body s := by
  have hafter : ∀ u, afterRun d body min (some (1 - min)) isLazy 1 s u = [u] := by
    intro u
    rw [afterRun]
    split
    · rw [loop_eq, if_neg (by omega), if_neg (by simp)]
    · rfl
  have hagain : again d body min (some (1 - min)) isLazy 0 s = body s := by
    rw [again, List.flatMap_congr fun u _ => hafter u, List.flatMap_singleton']
  rw [loop_eq, hagain]
  by_cases hzero : min = 0
  · subst hzero
    rfl
  · rw [if_pos (by omega), if_neg hzero]

/-- The two readings of a loop. What is cut in its body is in atomic position only where the body is
run once at most. -/
theorem reads_loop {d : Direction} {body body' : Matcher} {min max : Nat}
    (hbody : Reads t (atomic && max == 1) body body') (hsound : KeepsSound t body)
    (honward : Onward d body) (hlimit : t.chars.length < unbounded)
    (hbounded : min ≤ max ∧ max ≤ unbounded) (isLazy : Bool) :
    Reads t atomic (loop d body min (Reading.plain.loopSpare min max) isLazy 0)
      (loop d body' min (compiledSpare min max) isLazy 0) := by
  intro s hs
  by_cases hmax : max = 1
  · subst hmax
    have hplain : Reading.plain.loopSpare min 1 = some (1 - min) := rfl
    have hcompiled : compiledSpare min 1 = some (1 - min) := rfl
    rw [hplain, hcompiled, loop_once d body hbounded.1, loop_once d body' hbounded.1]
    have hb := hbody s hs
    rw [beq_self_eq_true, Bool.and_true] at hb
    split
    · split
      · exact .append (.refl atomic [s]) hb
      · exact hb.append (.refl atomic [s])
    · exact hb
  · have hne : (atomic && max == 1) = false := by simp [hmax]
    rw [hne] at hbody
    refine .of_eq (loop_congr hbody hsound honward (sameSpare_compiled hlimit hbounded) isLazy 0 s hs
      ?_)
    have hahead := s.place.ahead_le_length d
    have hin : s.place.chars.length = t.chars.length := congrArg List.length hs.place_in
    omega

theorem stops_of_ahead_le (d : Direction) (pass : Char → Bool) {n : Nat} : ∀ {p : Place},
    p.ahead d ≤ n → stops d pass n p = stops d pass (p.ahead d) p := by
  induction n with
  | zero =>
    intro p h
    rw [Nat.le_zero.1 h]
  | succ n ih =>
    intro p h
    cases hr : p.read d with
    | none =>
      rw [stops, hr, Place.read_eq_none.1 hr]
      rfl
    | some r =>
      obtain ⟨c, q⟩ := r
      have hahead := Place.ahead_of_read hr
      rw [← hahead, stops, stops, hr]
      simp only
      rw [ih (by omega)]

theorem le_ahead_of_exactly {d : Direction} {pass : Char → Bool} {n : Nat} {p q : Place}
    (h : exactly d pass n p = some q) : n ≤ p.ahead d := by
  induction n generalizing p with
  | zero => exact Nat.zero_le _
  | succ n ih =>
    rw [exactly] at h
    cases hr : p.read d with
    | none =>
      rw [hr] at h
      cases h
    | some r =>
      obtain ⟨c, p'⟩ := r
      have hahead := Place.ahead_of_read hr
      rw [hr] at h
      simp only at h
      split at h
      · have hle := ih h
        omega
      · cases h

/-- The two readings of a repeated character. -/
theorem reads_charLoop (d : Direction) (pass : Char → Bool) {min max : Nat}
    (hlimit : t.chars.length < unbounded) (hbounded : min ≤ max ∧ max ≤ unbounded) (isLazy : Bool)
    {isCut : Bool} (hcut : isCut = true → atomic = true) :
    Reads t atomic (charLoop d pass min (Reading.plain.charSpare min max) isLazy false)
      (charLoop d pass min (some (compiledCharSpare min max)) isLazy isCut) := by
  intro s hs
  rw [charLoop, charLoop]
  cases he : exactly d pass min s.place with
  | none => exact .refl atomic []
  | some p =>
    have hin : p.In t :=
      place_of_exactly (P := (·.In t)) (fun _ _ _ hp hr => hp.of_read hr) hs.place_in he
    have hlength : p.chars.length = t.chars.length := congrArg List.length hin
    have hlength' : s.place.chars.length = t.chars.length := congrArg List.length hs.place_in
    have hahead := p.ahead_le_length d
    have hahead' := s.place.ahead_le_length d
    have hmin := le_ahead_of_exactly he
    have hstops : stops d pass ((Reading.plain.charSpare min max).getD (p.ahead d)) p =
        stops d pass (compiledCharSpare min max) p := by
      simp only [Reading.plain, compiledCharSpare, Emitter.extra]
      by_cases hmax : max = unbounded
      · subst hmax
        rw [if_pos rfl, if_pos (by omega), if_pos rfl]
        exact (stops_of_ahead_le d pass (by omega)).symm
      · rw [if_neg hmax, if_neg hmax]
        split
        · rfl
        · rw [Nat.sub_eq_zero_of_le (by omega)]
          rfl
    simp only [hstops, Option.getD_some, Bool.false_eq_true, if_false]
    generalize (if isLazy = true then stops d pass (compiledCharSpare min max) p
      else (stops d pass (compiledCharSpare min max) p).reverse) = ends
    cases isCut with
    | false => exact .refl atomic _
    | true =>
      rw [hcut rfl]
      cases ends with
      | nil => exact Thins.nil
      | cons q rest =>
        have hthins := @Thins.cons (s.moveTo q) (rest.map s.moveTo) [] [] (fun u hu => ?_) .nil
        · rw [List.append_nil] at hthins
          exact hthins
        · obtain ⟨r, -, rfl⟩ := List.mem_map.1 hu
          exact .refl _

theorem reads_choice {Ms Ms' : List Matcher} (h : List.Forall₂ (Reads t atomic) Ms Ms') :
    Reads t atomic (choice Ms) (choice Ms') := by
  intro s hs
  induction h with
  | nil => exact .refl atomic _
  | cons hM _ ih =>
    rw [choice, choice, List.flatMap_cons, List.flatMap_cons]
    exact (hM s hs).append ih

/-- In a sequence only the last part may be cut. -/
theorem reads_sequence {Ms : List Matcher} {M M' : Matcher} (hsound : ∀ N ∈ Ms, KeepsSound t N)
    (h : Reads t atomic M M') {Ms' : List Matcher} (hMs : List.Forall₂ (Reads t false) Ms Ms') :
    Reads t atomic (sequence (Ms ++ [M])) (sequence (Ms' ++ [M'])) := by
  induction hMs with
  | nil =>
    intro s hs
    have hone : ∀ N : Matcher, sequence [N] s = N s := fun N => List.flatMap_singleton' (N s)
    rw [List.nil_append, List.nil_append, hone, hone]
    exact h s hs
  | cons hN _ ih =>
    intro s hs
    rw [List.cons_append, List.cons_append, sequence, sequence, ← hN s hs]
    exact .flatMap fun u hu => ih (fun N hN => hsound N (List.mem_cons_of_mem _ hN)) u
      (hsound _ List.mem_cons_self s u hu hs)

theorem alike_update {s u : MatchState} (h : s.Alike u) (group : Nat) {xs ys : List Span}
    (hlength : xs.length = ys.length) :
    MatchState.Alike { s with captured := Function.update s.captured group xs }
      { u with captured := Function.update u.captured group ys } := by
  intro g
  by_cases hg : g = group
  · subst hg
    simpa using hlength
  · simpa [hg] using h g

/-- Where a group is closed, alike outcomes stay alike, unless it captures between two spans. -/
theorem reads_capture {group uncapture : Option Nat} (hplain : group = none ∨ uncapture = none)
    {body body' : Matcher} (hbody : Reads t atomic body body') :
    Reads t atomic (capture group uncapture body) (capture group uncapture body') := by
  intro s hs
  refine (hbody s hs).filterMap fun u v huv => ?_
  cases uncapture with
  | none =>
    cases group with
    | none => exact .some huv
    | some g =>
      refine .some (alike_update huv g ?_)
      rw [List.length_cons, List.length_cons, huv g]
  | some w =>
    obtain rfl : group = none := hplain.resolve_right (by simp)
    have hlength := huv w
    simp only [close]
    cases hu : u.captured w with
    | nil =>
      rw [hu] at hlength
      rw [List.eq_nil_of_length_eq_zero hlength.symm]
      exact .none
    | cons old rest =>
      cases hv : v.captured w with
      | nil =>
        rw [hu, hv] at hlength
        cases hlength
      | cons old' rest' =>
        rw [hu, hv] at hlength
        exact .some (alike_update huv w (Nat.succ.inj hlength))

theorem reads_atomic {body body' : Matcher} (hbody : Reads t true body body') :
    Reads t atomic (Matcher.atomic body) (Matcher.atomic body') :=
  fun s hs => .of_eq (Thins.take_one_eq (hbody s hs))

theorem reads_positiveLook {body body' : Matcher} (hbody : Reads t true body body') :
    Reads t atomic (positiveLook body) (positiveLook body') :=
  fun s hs => .of_eq (congrArg (List.map _) (Thins.take_one_eq (hbody s hs)))

theorem reads_negativeLook {body body' : Matcher} (hbody : Reads t true body body') :
    Reads t atomic (negativeLook body) (negativeLook body') := by
  intro s hs
  refine .of_eq ?_
  rw [negativeLook, negativeLook, Thins.isEmpty_eq (hbody s hs)]

theorem reads_backreferenceConditional (group : Nat) {yes yes' no no' : Matcher}
    (hyes : Reads t atomic yes yes') (hno : Reads t atomic no no') :
    Reads t atomic (backreferenceConditional group yes no)
      (backreferenceConditional group yes' no') := by
  intro s hs
  rw [backreferenceConditional, backreferenceConditional]
  split
  · exact hno s hs
  · exact hyes s hs

theorem reads_expressionConditional {condition condition' yes yes' no no' : Matcher}
    (hcondition : Reads t atomic condition condition') (hsound : KeepsSound t condition)
    (hyes : Reads t atomic yes yes') (hno : Reads t atomic no no') :
    Reads t atomic (expressionConditional condition yes no)
      (expressionConditional condition' yes' no') := by
  intro s hs
  rw [expressionConditional, expressionConditional, ← (hcondition s hs).thins.head?_eq]
  split
  · next u hu =>
    exact hyes _ ((hsound s u (List.mem_of_mem_head? hu) hs).moveTo hs.place_in)
  · exact hno s hs

end Matcher

namespace Node

/-- What reading a node as it is compiled relies on. -/
structure Readable (n : Node) : Prop where
  bounded : n.kind.Bounded
  oriented : n.kind.isLoop = true → ∀ x ∈ n.preorder, x.Oriented
  /-- No group captures between two spans. -/
  unbalanced : ∀ g u, n.kind ≠ .capture (some g) (some u)

theorem reads_matcher (analysis : Analysis) {σ : Setting}
    (hlimit : σ.text.chars.length < unbounded) {n : Node} : ∀ {atomic : Bool},
      n.CutsAtomic analysis.isAtomicByAncestor atomic → (∀ x ∈ n.preorder, x.Readable) →
        Reads σ.text atomic (n.matcher Reading.plain σ) (n.matcher (Reading.compiled analysis) σ) := by
  induction n using Node.induction with
  | step id options kind children ih =>
    intro atomic hcuts hreadable
    obtain ⟨hself, hchildren⟩ := Node.forall_preorder_node.1 hreadable
    obtain ⟨hid, hcuts⟩ := hcuts
    have hpart : ∀ {a : Bool}, ∀ c ∈ children, c.CutsAtomic analysis.isAtomicByAncestor a →
        Reads σ.text a (c.matcher Reading.plain σ) (c.matcher (Reading.compiled analysis) σ) :=
      fun c hc hcut => ih c hc hcut (hchildren c hc)
    have hsound := fun c : Node => Node.keepsSound_matcher Reading.plain σ c
    have hparts : ∀ {a : Bool} {ns : List Node}, (∀ c ∈ ns, c ∈ children) →
        (∀ c ∈ ns, c.CutsAtomic analysis.isAtomicByAncestor a) →
        List.Forall₂ (Reads σ.text a) (ns.map (Node.matcher Reading.plain σ))
          (ns.map (Node.matcher (Reading.compiled analysis) σ)) := by
      intro a ns hns hcut
      rw [List.forall₂_map_left_iff, List.forall₂_map_right_iff, List.forall₂_same]
      exact fun c hc => hpart c (hns c hc) (hcut c hc)
    rw [Node.matcher_node, Node.matcher_node]
    cases kind with
    | empty => exact reads_refl _ _ _
    | nothing => exact reads_refl _ _ _
    | char atom => exact reads_refl _ _ _
    | multi chars => exact reads_refl _ _ _
    | charLoop atom min max isLazy =>
      exact reads_charLoop _ _ hlimit hself.bounded isLazy hid
    | anchor anchor => exact reads_refl _ _ _
    | backreference group => exact reads_refl _ _ _
    | concat =>
      replace hcuts := cuts_of_unsealed rfl hcuts
      simp only [Node.matcherOf]
      cases hd : options.direction with
      | forward =>
        rw [hd] at hcuts
        rcases List.eq_nil_or_concat children with rfl | ⟨init, last, rfl⟩
        · exact reads_refl _ _ _
        · rw [List.concat_eq_append] at hcuts hparts hpart ⊢
          obtain ⟨hinit, hlast⟩ := cutsAtomic_forward hcuts
          rw [List.map_append, List.map_append]
          refine reads_sequence (fun N hN => ?_) (hpart last (by simp) hlast)
            (hparts (fun c hc => List.mem_append_left _ hc) hinit)
          obtain ⟨c, -, rfl⟩ := List.mem_map.1 hN
          exact hsound c
      | backward =>
        rw [hd] at hcuts
        cases children with
        | nil => exact reads_refl _ _ _
        | cons first rest =>
          obtain ⟨hfirst, hrest⟩ := cutsAtomic_backward hcuts
          rw [List.map_cons, List.map_cons, List.reverse_cons, List.reverse_cons]
          refine reads_sequence (fun N hN => ?_) (hpart first List.mem_cons_self hfirst)
            (List.forall₂_reverse_iff.2 (hparts (fun c hc => List.mem_cons_of_mem _ hc) hrest))
          obtain ⟨c, -, rfl⟩ := List.mem_map.1 (List.mem_reverse.1 hN)
          exact hsound c
    | alternate =>
      exact reads_choice (hparts (fun c hc => hc)
        (cutsAtomic_handed (fun _ _ => rfl) (cuts_of_unsealed rfl hcuts)))
    | loop min max isLazy =>
      rcases children with _ | ⟨body, _ | _⟩
      · exact reads_refl _ _ _
      · have hbody := (cuts_of_unsealed rfl hcuts).1
        exact reads_loop (hpart body List.mem_cons_self hbody) (hsound body)
          (onward_child _ _ (hself.oriented rfl) body List.mem_cons_self) hlimit hself.bounded isLazy
      · exact reads_refl _ _ _
    | capture group uncapture =>
      rcases children with _ | ⟨body, _ | _⟩
      · exact reads_refl _ _ _
      · have hbody := cutsAtomic_handed (fun _ _ => rfl) (cuts_of_unsealed rfl hcuts) body
          List.mem_cons_self
        refine reads_capture ?_ (hpart body List.mem_cons_self hbody)
        cases group with
        | none => exact .inl rfl
        | some g =>
          cases uncapture with
          | none => exact .inr rfl
          | some u => exact absurd rfl (hself.unbalanced g u)
      · exact reads_refl _ _ _
    | atomic =>
      rcases children with _ | ⟨body, _ | _⟩
      · exact reads_refl _ _ _
      · exact reads_atomic (hpart body List.mem_cons_self (cutsAtomic_handed (fun _ _ => rfl)
          (cuts_of_sealed rfl hcuts) body List.mem_cons_self))
      · exact reads_refl _ _ _
    | positiveLook =>
      rcases children with _ | ⟨body, _ | _⟩
      · exact reads_refl _ _ _
      · exact reads_positiveLook (hpart body List.mem_cons_self (cutsAtomic_handed
          (fun _ _ => rfl) (cuts_of_sealed rfl hcuts) body List.mem_cons_self))
      · exact reads_refl _ _ _
    | negativeLook =>
      rcases children with _ | ⟨body, _ | _⟩
      · exact reads_refl _ _ _
      · exact reads_negativeLook (hpart body List.mem_cons_self (cutsAtomic_handed
          (fun _ _ => rfl) (cuts_of_sealed rfl hcuts) body List.mem_cons_self))
      · exact reads_refl _ _ _
    | backreferenceConditional group =>
      have hall := cutsAtomic_handed (fun _ _ => rfl) (cuts_of_unsealed rfl hcuts)
      rcases children with _ | ⟨yes, _ | ⟨no, _ | _⟩⟩
      · exact reads_refl _ _ _
      · exact reads_backreferenceConditional group (hpart yes (by simp) (hall yes (by simp)))
          (reads_refl _ _ _)
      · exact reads_backreferenceConditional group (hpart yes (by simp) (hall yes (by simp)))
          (hpart no (by simp) (hall no (by simp)))
      · exact reads_refl _ _ _
    | expressionConditional =>
      have hall := cutsAtomic_handed (fun _ _ => rfl) (cuts_of_unsealed rfl hcuts)
      rcases children with _ | ⟨condition, _ | ⟨yes, _ | ⟨no, _ | _⟩⟩⟩
      · exact reads_refl _ _ _
      · exact reads_refl _ _ _
      · exact reads_expressionConditional (hpart condition (by simp) (hall condition (by simp)))
          (hsound condition) (hpart yes (by simp) (hall yes (by simp))) (reads_refl _ _ _)
      · exact reads_expressionConditional (hpart condition (by simp) (hall condition (by simp)))
          (hsound condition) (hpart yes (by simp) (hall yes (by simp)))
          (hpart no (by simp) (hall no (by simp)))
      · exact reads_refl _ _ _

end Node

end RegexMachine
