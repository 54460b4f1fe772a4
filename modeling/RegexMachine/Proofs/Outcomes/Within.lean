import RegexMachine.Proofs.Outcomes.Matcher
import RegexMachine.Proofs.Tree.Occurrences

/-!
# Where outcomes lie

Two facts about every outcome: it lies in the text, with captures that start and stop at boundaries,
and it never lies behind the state it was reached from, seen in the direction of the node. Both say
that a relation which every step respects holds between a state and its outcomes.
-/

namespace RegexMachine

namespace Matcher

/-- The relation holds between every state and its outcomes. -/
def Within (R : MatchState → MatchState → Prop) (m : Matcher) : Prop := ∀ s, ∀ t ∈ m s, R s t

section

variable {R : MatchState → MatchState → Prop} (refl : ∀ s, R s s)
  (trans : ∀ s t u, R s t → R t u → R s u)

include refl

theorem within_stay : Within R stay := by
  intro s t ht
  rw [List.mem_singleton.1 ht]
  exact refl s

theorem within_negativeLook (body : Matcher) : Within R (negativeLook body) := by
  intro s t ht
  rw [negativeLook] at ht
  split at ht
  · rw [List.mem_singleton.1 ht]
    exact refl s
  · cases ht

include trans

theorem within_sequence {parts : List Matcher} (h : ∀ part ∈ parts, Within R part) :
    Within R (sequence parts) := by
  induction parts with
  | nil =>
    intro s t ht
    rw [List.mem_singleton.1 ht]
    exact refl s
  | cons part rest ih =>
    intro s u hu
    obtain ⟨t, ht, hu⟩ := List.mem_flatMap.1 hu
    exact trans s t u (h part List.mem_cons_self s t ht)
      (ih (fun p hp => h p (List.mem_cons_of_mem _ hp)) t u hu)

theorem within_loop (d : Direction) {body : Matcher} (h : Within R body) (min : Nat)
    (spare : Option Nat) (isLazy : Bool) (done : Nat) :
    Within R (loop d body min spare isLazy done) := by
  intro s
  revert done s
  refine loop_induction d min fun done s ih => ?_
  have hagain : ∀ t ∈ again d body min spare isLazy done s, R s t := by
    intro u hu
    obtain ⟨t, ht, hu⟩ := List.mem_flatMap.1 hu
    rw [afterRun] at hu
    split at hu
    · next hrun => exact trans s t u (h s t ht) (ih t hrun u hu)
    · obtain rfl := List.mem_singleton.1 hu
      exact h s _ ht
  intro t ht
  rw [loop_eq] at ht
  split at ht
  · exact hagain t ht
  · split at ht
    · split at ht
      · rcases List.mem_cons.1 ht with rfl | ht
        · exact refl _
        · exact hagain t ht
      · rcases List.mem_append.1 ht with ht | ht
        · exact hagain t ht
        · rw [List.mem_singleton.1 ht]
          exact refl s
    · rw [List.mem_singleton.1 ht]
      exact refl s

omit refl trans

theorem within_choice {parts : List Matcher} (h : ∀ part ∈ parts, Within R part) :
    Within R (choice parts) := by
  intro s t ht
  obtain ⟨part, hpart, ht⟩ := List.mem_flatMap.1 ht
  exact h part hpart s t ht

theorem within_atomic {body : Matcher} (h : Within R body) : Within R (atomic body) :=
  fun s t ht => h s t (List.mem_of_mem_take ht)

theorem within_backreferenceConditional (group : Nat) {yes no : Matcher} (hyes : Within R yes)
    (hno : Within R no) : Within R (backreferenceConditional group yes no) := by
  intro s t ht
  rw [backreferenceConditional] at ht
  split at ht
  · exact hno s t ht
  · exact hyes s t ht

end

section

variable {d : Direction} {test : Char → Bool} {fold : Char → Char}

theorem place_of_stops {P : Place → Prop} (hread : ∀ p q c, P p → p.read d = some (c, q) → P q)
    {n : Nat} {p q : Place} (hp : P p) (hq : q ∈ stops d test n p) : P q := by
  induction n generalizing p with
  | zero => rwa [List.mem_singleton.1 hq]
  | succ n ih =>
    rw [stops] at hq
    cases hr : p.read d with
    | none =>
      rw [hr] at hq
      rwa [List.mem_singleton.1 hq]
    | some r =>
      obtain ⟨c, p'⟩ := r
      rw [hr] at hq
      simp only at hq
      split at hq
      · rcases List.mem_cons.1 hq with rfl | hq
        · exact hp
        · exact ih (hread p p' c hp hr) hq
      · rwa [List.mem_singleton.1 hq]

theorem place_of_exactly {P : Place → Prop} (hread : ∀ p q c, P p → p.read d = some (c, q) → P q)
    {n : Nat} {p q : Place} (hp : P p) (hq : exactly d test n p = some q) : P q := by
  induction n generalizing p with
  | zero =>
    cases hq
    exact hp
  | succ n ih =>
    rw [exactly] at hq
    cases hr : p.read d with
    | none =>
      rw [hr] at hq
      cases hq
    | some r =>
      obtain ⟨c, p'⟩ := r
      rw [hr] at hq
      simp only at hq
      split at hq
      · exact ih (hread p p' c hp hr) hq
      · cases hq

theorem place_of_literal {P : Place → Prop} (hread : ∀ p q c, P p → p.read d = some (c, q) → P q)
    {chars : List Char} {p q : Place} (hp : P p) (hq : literal d fold chars p = some q) : P q := by
  induction chars generalizing p with
  | nil =>
    cases hq
    exact hp
  | cons x rest ih =>
    rw [literal] at hq
    cases hr : p.read d with
    | none =>
      rw [hr] at hq
      cases hq
    | some r =>
      obtain ⟨c, p'⟩ := r
      rw [hr] at hq
      simp only at hq
      split at hq
      · exact ih (hread p p' c hp hr) hq
      · cases hq

theorem place_of_string {P : Place → Prop} (hread : ∀ p q c, P p → p.read d = some (c, q) → P q)
    {chars : List Char} {p q : Place} (hp : P p) (hq : string d fold chars p = some q) : P q := by
  cases d with
  | forward => exact place_of_literal hread hp hq
  | backward => exact place_of_literal hread hp hq

theorem mem_goTo {s t : MatchState} {p? : Option Place} :
    t ∈ goTo s p? ↔ ∃ p, p? = some p ∧ t = s.moveTo p := by
  cases p? <;> simp [goTo]

/-- A repeated character leads to places that reading characters leads to. -/
theorem place_of_charLoop {P : Place → Prop}
    (hread : ∀ p q c, P p → p.read d = some (c, q) → P q) {min : Nat} {spare : Option Nat}
    {isLazy isCut : Bool} {s t : MatchState} (hp : P s.place)
    (ht : t ∈ charLoop d test min spare isLazy isCut s) :
    ∃ p, t = s.moveTo p ∧ P p := by
  rw [charLoop] at ht
  cases he : exactly d test min s.place with
  | none =>
    rw [he] at ht
    cases ht
  | some p =>
    rw [he] at ht
    obtain ⟨q, hq, rfl⟩ := List.mem_map.1 ht
    refine ⟨q, rfl, ?_⟩
    have hmem : q ∈ stops d test (spare.getD (p.ahead d)) p := by
      split at hq
      · replace hq := List.mem_of_mem_take hq
        split at hq
        · exact hq
        · exact List.mem_reverse.1 hq
      · split at hq
        · exact hq
        · exact List.mem_reverse.1 hq
    exact place_of_stops hread (place_of_exactly hread hp he) hmem

end

end Matcher

open Matcher

/-- All spans start and stop at boundaries of the text. -/
def SpansIn (t : Text) (captured : Nat → List Span) : Prop :=
  ∀ group, ∀ span ∈ captured group, t.isBoundary span.start = true ∧ t.isBoundary span.stop = true

/-- A state that an attempt on the text can be in. -/
structure MatchState.Sound (t : Text) (s : MatchState) : Prop where
  place_in : s.place.In t
  spans : SpansIn t s.captured

section

variable {t : Text}

theorem MatchState.Sound.moveTo {s : MatchState} (h : s.Sound t) {p : Place} (hp : p.In t) :
    (s.moveTo p).Sound t :=
  ⟨hp, h.spans⟩

theorem SpansIn.push {captured : Nat → List Span} (h : SpansIn t captured) (g : Nat) {span : Span}
    (hstart : t.isBoundary span.start = true) (hstop : t.isBoundary span.stop = true) :
    SpansIn t (Function.update captured g (span :: captured g)) := by
  intro group span' hmem
  by_cases hg : group = g
  · subst hg
    rw [Function.update_self] at hmem
    rcases List.mem_cons.1 hmem with rfl | hmem
    · exact ⟨hstart, hstop⟩
    · exact h group span' hmem
  · rw [Function.update_of_ne hg] at hmem
    exact h group span' hmem

theorem SpansIn.cancel {captured : Nat → List Span} (h : SpansIn t captured) {u : Nat} {old : Span}
    {rest : List Span} (hu : captured u = old :: rest) :
    SpansIn t (Function.update captured u rest) := by
  intro group span hmem
  by_cases hg : group = u
  · subst hg
    rw [Function.update_self] at hmem
    exact h group span (by rw [hu]; exact List.mem_cons_of_mem _ hmem)
  · rw [Function.update_of_ne hg] at hmem
    exact h group span hmem

theorem isBoundary_min {m n : Nat} (hm : t.isBoundary m = true) (hn : t.isBoundary n = true) :
    t.isBoundary (min m n) = true := by
  rcases Nat.le_total m n with hle | hle
  · rwa [Nat.min_eq_left hle]
  · rwa [Nat.min_eq_right hle]

theorem isBoundary_max {m n : Nat} (hm : t.isBoundary m = true) (hn : t.isBoundary n = true) :
    t.isBoundary (max m n) = true := by
  rcases Nat.le_total m n with hle | hle
  · rwa [Nat.max_eq_right hle]
  · rwa [Nat.max_eq_left hle]

/-- What lies between two spans of the text is a span of the text. -/
theorem isBoundary_between {old span : Span} {start stop : Nat}
    (hold : t.isBoundary old.start = true ∧ t.isBoundary old.stop = true)
    (hstart : t.isBoundary start = true) (hstop : t.isBoundary stop = true) (hle : start ≤ stop)
    (h : Captures.between old start stop = .ok span) :
    t.isBoundary span.start = true ∧ t.isBoundary span.stop = true := by
  rw [Captures.between] at h
  split at h
  · next hgap =>
    cases h
    have he : old.stop + (start - old.stop) = start := by omega
    exact ⟨hold.2, by rwa [Span.stop, he]⟩
  · next hgap =>
    split at h
    · cases h
    · next hbefore =>
      cases h
      refine ⟨isBoundary_max hstart hold.1, ?_⟩
      have hold' : old.start ≤ old.stop := Nat.le_add_right _ _
      have he : max start old.start + (min stop old.stop - max start old.start) =
          min stop old.stop := by omega
      change t.isBoundary (max start old.start + (min stop old.stop - max start old.start)) = true
      rw [he]
      exact isBoundary_min hstop hold.2

/-- Closing a group between two places of the text makes spans of the text. -/
theorem SpansIn.close {group uncapture : Option Nat} {p q : Place} (hp : p.In t) (hq : q.In t)
    {captured captured' : Nat → List Span} (hspans : SpansIn t captured)
    (h : Matcher.close group uncapture p.offset q.offset captured = some captured') :
    SpansIn t captured' := by
  have hmin := isBoundary_min (Text.isBoundary_offset hp) (Text.isBoundary_offset hq)
  have hmax := isBoundary_max (Text.isBoundary_offset hp) (Text.isBoundary_offset hq)
  have hle : min p.offset q.offset ≤ max p.offset q.offset := by omega
  rw [close.eq_def] at h
  split at h
  · cases h
    exact hspans
  · cases h
    have he : min p.offset q.offset + (max p.offset q.offset - min p.offset q.offset) =
        max p.offset q.offset := by omega
    exact hspans.push _ hmin (by rwa [Span.stop, he])
  · next u =>
    cases hu : captured u with
    | nil =>
      rw [hu] at h
      cases h
    | cons old rest =>
      have hold := hspans u old (by rw [hu]; exact List.mem_cons_self)
      have hcancelled := hspans.cancel hu
      rw [hu] at h
      simp only at h
      split at h
      · cases h
        exact hcancelled
      · split at h
        · next span hbetween =>
          cases h
          have hboth := isBoundary_between hold hmin hmax hle hbetween
          exact hcancelled.push _ hboth.1 hboth.2
        · cases h

end

/-- The matcher keeps states sound. -/
abbrev Matcher.KeepsSound (t : Text) (m : Matcher) : Prop :=
  Within (fun s u => s.Sound t → u.Sound t) m

namespace Matcher

variable {t : Text}

theorem sound_goTo {s u : MatchState} {p? : Option Place} (hs : s.Sound t)
    (hp : ∀ p, p? = some p → p.In t) (hu : u ∈ goTo s p?) : u.Sound t := by
  obtain ⟨p, hp?, rfl⟩ := mem_goTo.1 hu
  exact hs.moveTo (hp p hp?)

private theorem in_of_read {d : Direction} (p q : Place) (c : Char) (hp : p.In t)
    (h : p.read d = some (c, q)) : q.In t := hp.of_read h

theorem keepsSound_capture (group uncapture : Option Nat) {body : Matcher}
    (h : KeepsSound t body) : KeepsSound t (capture group uncapture body) := by
  intro s u hu hs
  obtain ⟨v, hv, hclose⟩ := List.mem_filterMap.1 hu
  obtain ⟨captured, hcaptured, rfl⟩ := Option.map_eq_some_iff.1 hclose
  have hsound := h s v hv hs
  exact ⟨hsound.place_in,
    hsound.spans.close hs.place_in hsound.place_in hcaptured⟩

theorem keepsSound_positiveLook {body : Matcher} (h : KeepsSound t body) :
    KeepsSound t (positiveLook body) := by
  intro s u hu hs
  obtain ⟨v, hv, rfl⟩ := List.mem_map.1 hu
  exact (h s v (List.mem_of_mem_take hv) hs).moveTo hs.place_in

theorem keepsSound_expressionConditional {condition yes no : Matcher}
    (hcondition : KeepsSound t condition) (hyes : KeepsSound t yes) (hno : KeepsSound t no) :
    KeepsSound t (expressionConditional condition yes no) := by
  intro s u hu hs
  rw [expressionConditional] at hu
  split at hu
  · next v hv =>
    have hsound := hcondition s v (List.mem_of_mem_head? hv) hs
    exact hyes _ u hu (hsound.moveTo hs.place_in)
  · exact hno s u hu hs

end Matcher

/-- The outcomes of a node lie in the text. -/
theorem Node.keepsSound_matcher (reading : Reading) (σ : Setting) (n : Node) :
    KeepsSound σ.text (n.matcher reading σ) := by
  let R : MatchState → MatchState → Prop := fun s u => s.Sound σ.text → u.Sound σ.text
  have refl : ∀ s, R s s := fun _ h => h
  have trans : ∀ s u v, R s u → R u v → R s v := fun _ _ _ f g => g ∘ f
  induction n using Node.induction with
  | step id options kind children ih =>
    rw [Node.matcher_node]
    have hparts : ∀ part ∈ children.map (Node.matcher reading σ), KeepsSound σ.text part := by
      intro part hpart
      obtain ⟨c, hc, rfl⟩ := List.mem_map.1 hpart
      exact ih c hc
    generalize children.map (Node.matcher reading σ) = parts at hparts
    rw [Node.matcherOf.eq_def]
    simp only
    split
    · exact within_stay refl
    · intro s u hu
      cases hu
    · intro s u hu hs
      exact sound_goTo hs (fun p hp => place_of_exactly in_of_read hs.place_in hp) hu
    · intro s u hu hs
      exact sound_goTo hs (fun p hp => place_of_string in_of_read hs.place_in hp) hu
    · intro s u hu hs
      obtain ⟨p, rfl, hp⟩ := place_of_charLoop in_of_read hs.place_in hu
      exact hs.moveTo hp
    · intro s u hu
      simp only at hu
      split at hu
      · obtain rfl := List.mem_singleton.1 hu
        exact refl _
      · cases hu
    · intro s u hu hs
      rw [backreference] at hu
      split at hu
      · split at hu
        · obtain rfl := List.mem_singleton.1 hu
          exact hs
        · cases hu
      · exact sound_goTo hs (fun p hp => place_of_string in_of_read hs.place_in hp) hu
    · split
      · exact within_sequence refl trans hparts
      · exact within_sequence refl trans fun p hp => hparts p (List.mem_reverse.1 hp)
    · exact within_choice hparts
    · exact within_loop refl trans _ (hparts _ List.mem_cons_self) _ _ _ _
    · exact keepsSound_capture _ _ (hparts _ List.mem_cons_self)
    · exact within_atomic (hparts _ List.mem_cons_self)
    · exact keepsSound_positiveLook (hparts _ List.mem_cons_self)
    · exact within_negativeLook refl _
    · exact within_backreferenceConditional _ (hparts _ List.mem_cons_self) (within_stay refl)
    · exact within_backreferenceConditional _ (hparts _ (by simp)) (hparts _ (by simp))
    · exact keepsSound_expressionConditional (hparts _ (by simp)) (hparts _ (by simp))
        (within_stay refl)
    · exact keepsSound_expressionConditional (hparts _ (by simp)) (hparts _ (by simp))
        (hparts _ (by simp))
    · intro s u hu
      cases hu

/-- Lookarounds, which end where they started. -/
def Kind.isLook : Kind → Bool
  | .positiveLook | .negativeLook => true
  | _ => false

/-- The children of the node take text in its direction; lookarounds take none. -/
def Node.Oriented (n : Node) : Prop :=
  ∀ c ∈ n.children, c.direction = n.direction ∨ c.kind.isLook = true

/-- In this text, no outcome of the matcher is where it started. -/
abbrev Matcher.Moves (t : Text) (m : Matcher) : Prop :=
  Within (fun s u => s.Sound t → u.place ≠ s.place) m

/-- No outcome of the matcher lies behind. -/
abbrev Matcher.Onward (d : Direction) (m : Matcher) : Prop :=
  Within (fun s u => u.place.ahead d ≤ s.place.ahead d) m

namespace Matcher

variable {d : Direction}

private theorem ahead_le_of_read {a : Nat} (p q : Place) (c : Char) (hp : p.ahead d ≤ a)
    (h : p.read d = some (c, q)) : q.ahead d ≤ a := by
  have hread := Place.ahead_of_read h
  omega

theorem onward_of_place {m : Matcher} (h : ∀ s, ∀ u ∈ m s, u.place = s.place) : Onward d m := by
  intro s u hu
  exact Nat.le_of_eq (congrArg (Place.ahead d) (h s u hu))

theorem place_of_positiveLook {body : Matcher} {s u : MatchState}
    (hu : u ∈ positiveLook body s) : u.place = s.place := by
  obtain ⟨v, -, rfl⟩ := List.mem_map.1 hu
  rfl

theorem place_of_negativeLook {body : Matcher} {s u : MatchState}
    (hu : u ∈ negativeLook body s) : u.place = s.place := by
  rw [negativeLook] at hu
  split at hu
  · rw [List.mem_singleton.1 hu]
  · cases hu

theorem onward_goTo {s u : MatchState} {p? : Option Place}
    (hp : ∀ p, p? = some p → p.ahead d ≤ s.place.ahead d) (hu : u ∈ goTo s p?) :
    u.place.ahead d ≤ s.place.ahead d := by
  obtain ⟨p, hp?, rfl⟩ := mem_goTo.1 hu
  exact hp p hp?

theorem onward_capture (group uncapture : Option Nat) {body : Matcher} (h : Onward d body) :
    Onward d (capture group uncapture body) := by
  intro s u hu
  obtain ⟨v, hv, hclose⟩ := List.mem_filterMap.1 hu
  obtain ⟨captured, -, rfl⟩ := Option.map_eq_some_iff.1 hclose
  exact h s v hv

theorem onward_expressionConditional {condition yes no : Matcher} (hyes : Onward d yes)
    (hno : Onward d no) : Onward d (expressionConditional condition yes no) := by
  intro s u hu
  rw [expressionConditional] at hu
  split at hu
  · next t _ => exact hyes (t.moveTo s.place) u hu
  · exact hno s u hu

end Matcher

/-- A lookaround ends where it started. -/
theorem Node.place_of_look {reading : Reading} {σ : Setting} {n : Node}
    (h : n.kind.isLook = true) {s u : MatchState} (hu : u ∈ n.matcher reading σ s) :
    u.place = s.place := by
  obtain ⟨id, options, kind, children⟩ := n
  rw [Node.matcher_node] at hu
  change kind.isLook = true at h
  generalize children.map (Node.matcher reading σ) = parts at hu
  cases kind with
  | positiveLook =>
    rcases parts with _ | ⟨body, _ | ⟨_, _⟩⟩
    · cases hu
    · exact place_of_positiveLook hu
    · cases hu
  | negativeLook =>
    rcases parts with _ | ⟨body, _ | ⟨_, _⟩⟩
    · cases hu
    · exact place_of_negativeLook hu
    · cases hu
  | _ => cases h

/-- Where all directions agree, no outcome of a node lies behind in its direction. -/
theorem Node.onward_matcher (reading : Reading) (σ : Setting) {n : Node}
    (h : ∀ x ∈ n.preorder, x.Oriented) : Onward n.direction (n.matcher reading σ) := by
  induction n using Node.induction with
  | step id options kind children ih =>
    obtain ⟨hself, hchildren⟩ := Node.forall_preorder_node.1 h
    change Onward options.direction _
    have hparts : ∀ part ∈ children.map (Node.matcher reading σ),
        Onward options.direction part := by
      intro part hpart
      obtain ⟨c, hc, rfl⟩ := List.mem_map.1 hpart
      rcases hself c hc with hd | hlook
      · have hn := ih c hc (hchildren c hc)
        rwa [hd] at hn
      · exact onward_of_place fun s u hu => Node.place_of_look hlook hu
    let R : MatchState → MatchState → Prop := fun s u =>
      u.place.ahead options.direction ≤ s.place.ahead options.direction
    have refl : ∀ s, R s s := fun _ => Nat.le_refl _
    have trans : ∀ s u v, R s u → R u v → R s v := fun _ _ _ f g => Nat.le_trans g f
    rw [Node.matcher_node]
    generalize children.map (Node.matcher reading σ) = parts at hparts
    rw [Node.matcherOf.eq_def]
    simp only
    split
    · exact within_stay refl
    · intro s u hu
      cases hu
    · intro s u hu
      exact onward_goTo (fun p hp => place_of_exactly ahead_le_of_read (Nat.le_refl _) hp) hu
    · intro s u hu
      exact onward_goTo (fun p hp => place_of_string ahead_le_of_read (Nat.le_refl _) hp) hu
    · intro s u hu
      obtain ⟨p, rfl, hp⟩ := place_of_charLoop ahead_le_of_read (Nat.le_refl _) hu
      exact hp
    · intro s u hu
      simp only at hu
      split at hu
      · obtain rfl := List.mem_singleton.1 hu
        exact refl _
      · cases hu
    · intro s u hu
      rw [backreference] at hu
      split at hu
      · split at hu
        · obtain rfl := List.mem_singleton.1 hu
          exact refl _
        · cases hu
      · exact onward_goTo (fun p hp => place_of_string ahead_le_of_read (Nat.le_refl _) hp) hu
    · split
      · exact within_sequence refl trans hparts
      · exact within_sequence refl trans fun p hp => hparts p (List.mem_reverse.1 hp)
    · exact within_choice hparts
    · exact within_loop refl trans _ (hparts _ List.mem_cons_self) _ _ _ _
    · exact onward_capture _ _ (hparts _ List.mem_cons_self)
    · exact within_atomic (hparts _ List.mem_cons_self)
    · exact onward_of_place fun s u hu => place_of_positiveLook hu
    · exact onward_of_place fun s u hu => place_of_negativeLook hu
    · exact within_backreferenceConditional _ (hparts _ List.mem_cons_self) (within_stay refl)
    · exact within_backreferenceConditional _ (hparts _ (by simp)) (hparts _ (by simp))
    · exact onward_expressionConditional (hparts _ (by simp)) (within_stay refl)
    · exact onward_expressionConditional (hparts _ (by simp)) (hparts _ (by simp))
    · intro s u hu
      cases hu

theorem Node.onward_child (reading : Reading) (σ : Setting) {id : Nat} {options : Options} {kind : Kind}
    {children : List Node} (h : ∀ x ∈ (Node.node id options kind children).preorder, x.Oriented) :
    ∀ c ∈ children, Onward options.direction (c.matcher reading σ) := by
  obtain ⟨hself, hchildren⟩ := Node.forall_preorder_node.1 h
  intro c hc
  rcases hself c hc with hd | hlook
  · have hn := Node.onward_matcher reading σ (hchildren c hc)
    rwa [hd] at hn
  · exact onward_of_place fun s u hu => Node.place_of_look hlook hu

end RegexMachine
