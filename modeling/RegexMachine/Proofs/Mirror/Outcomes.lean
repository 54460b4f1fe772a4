import Mathlib.Data.List.Forall2
import RegexMachine.Proofs.Mirror.Text
import RegexMachine.Proofs.Outcomes.Within

/-!
# Outcomes of mirrored nodes

A node that takes text backward has, on a text, the mirror images of the outcomes that its mirror
image has on the reversed text, in the same order. The mirror image of a node takes text forward; its
sequences and strings are reversed, and its anchors change sides.
-/

namespace RegexMachine

/-- The anchor at the other side. -/
def Anchor.mirror : Anchor → Anchor
  | .bol => .eol
  | .eol => .bol
  | .beginning => .end
  | .end => .beginning
  | a => a

namespace Kind

def mirror : Kind → Kind
  | .multi chars => .multi chars.reverse
  | .anchor a => .anchor a.mirror
  | kind => kind

/-- What lies under a construct, in the order of its mirror image. -/
def arrange {α : Type} : Kind → List α → List α
  | .concat, children => children.reverse
  | _, children => children

/-- The construct looks the same from both ends of the text: it is no assertion about the last line
feed, and no group that cancels a capture. -/
def isTwoSided : Kind → Bool
  | .anchor .endZ | .capture _ (some _) => false
  | _ => true

theorem eq_of_mirror {kind k : Kind} (h : kind.mirror = k) (hmulti : ∀ chars, k ≠ .multi chars)
    (hanchor : ∀ a, k ≠ .anchor a) : kind = k := by
  cases kind with
  | multi chars => exact absurd h.symm (hmulti _)
  | anchor a => exact absurd h.symm (hanchor _)
  | _ => exact h

theorem map_arrange {α β : Type} (f : α → β) (kind : Kind) (xs : List α) :
    (kind.arrange xs).map f = kind.arrange (xs.map f) := by
  cases kind with
  | concat => exact List.map_reverse
  | _ => rfl

theorem mem_arrange {α : Type} {kind : Kind} {xs : List α} {x : α} :
    x ∈ kind.arrange xs ↔ x ∈ xs := by
  cases kind with
  | concat => exact List.mem_reverse
  | _ => exact Iff.rfl

end Kind

theorem Options.direction_eq_backward {o : Options} (h : o.rightToLeft = true) :
    o.direction = .backward := by
  rw [direction, h]
  rfl

/-- The options without the one to match backward. -/
def Options.leftToRight (o : Options) : Options := { o with rightToLeft := false }

namespace Node

mutual

/-- The node with all that lies under it seen in a mirror. -/
def mirror : Node → Node
  | .node id options kind children =>
      .node id options.leftToRight kind.mirror (kind.arrange (mirrors children))

def mirrors : List Node → List Node
  | [] => []
  | n :: rest => mirror n :: mirrors rest

end

theorem mirrors_eq_map (ns : List Node) : mirrors ns = ns.map mirror := by
  induction ns with
  | nil => rfl
  | cons n rest ih => rw [mirrors, ih, List.map_cons]

theorem mirror_node (id : Nat) (options : Options) (kind : Kind) (children : List Node) :
    (node id options kind children).mirror =
      node id options.leftToRight kind.mirror (kind.arrange (children.map mirror)) := by
  rw [mirror, mirrors_eq_map]

/-- The node takes text backward and has a mirror image. -/
structure Mirrorable (n : Node) : Prop where
  backward : n.options.rightToLeft = true
  twoSided : n.kind.isTwoSided = true

end Node

/-- The state as it is met in the reversed text. -/
def MatchState.mirror (size : Nat) (s : MatchState) : MatchState where
  place := s.place.mirror
  captured g := (s.captured g).map (Span.mirror size)

namespace MatchState

variable {t : Text} {s : MatchState}

theorem mirror_mirror (h : s.Sound t) : (s.mirror t.size).mirror t.size = s := by
  obtain ⟨place, captured⟩ := s
  refine congrArg (MatchState.mk place) (funext fun g => ?_)
  refine (List.map_map ..).trans ((List.map_congr_left fun span hspan => ?_).trans (List.map_id _))
  exact Span.mirror_mirror (Text.le_size_of_isBoundary (h.spans g span hspan).2)

theorem Sound.mirror (h : s.Sound t) : (s.mirror t.size).Sound t.reversed where
  place_in := h.place_in.mirror
  spans g := by
    intro span hspan
    obtain ⟨old, hold, rfl⟩ := List.mem_map.1 hspan
    obtain ⟨hstart, hstop⟩ := h.spans g old hold
    have hbounds := (Span.bounds_mirror (Text.le_size_of_isBoundary hstop)).2
    refine ⟨Text.isBoundary_reversed hstop, ?_⟩
    rw [show (old.mirror t.size).stop = t.size - old.start by omega]
    exact Text.isBoundary_reversed hstart

end MatchState

/-- In the second setting the reversed text is matched, by a scan that began at the same place, if the
first began at a place. -/
structure Setting.Mirrors (σ σ' : Setting) : Prop where
  culture : σ'.culture = σ.culture
  text : σ'.text = σ.text.reversed
  textStart : ∀ p : Place, p.In σ.text → (p.mirror.offset = σ'.textStart ↔ p.offset = σ.textStart)
  ecmaScript : σ'.ecmaScript = σ.ecmaScript

namespace Matcher

/-- On the reversed text the second matcher has the mirror images of the outcomes of the first. -/
def Mirrored (t : Text) (M M' : Matcher) : Prop :=
  ∀ s, s.Sound t → M' (s.mirror t.size) = (M s).map (MatchState.mirror t.size)

section

variable (d : Direction) (test : Char → Bool) (fold : Char → Char)

theorem exactly_mirror (n : Nat) (p : Place) :
    exactly d.flip test n p.mirror = (exactly d test n p).map Place.mirror := by
  induction n generalizing p with
  | zero => rfl
  | succ n ih =>
    rw [exactly, exactly, Place.read_mirror]
    cases p.read d with
    | none => rfl
    | some r =>
      simp only [Option.map_some]
      split
      · exact ih r.2
      · rfl

theorem stops_mirror (n : Nat) (p : Place) :
    stops d.flip test n p.mirror = (stops d test n p).map Place.mirror := by
  induction n generalizing p with
  | zero => rfl
  | succ n ih =>
    rw [stops, stops, Place.read_mirror]
    cases p.read d with
    | none => rfl
    | some r =>
      simp only [Option.map_some]
      split
      · rw [List.map_cons, ih r.2]
      · rfl

theorem literal_mirror (chars : List Char) (p : Place) :
    literal d.flip fold chars p.mirror = (literal d fold chars p).map Place.mirror := by
  induction chars generalizing p with
  | nil => rfl
  | cons x rest ih =>
    rw [literal, literal, Place.read_mirror]
    cases p.read d with
    | none => rfl
    | some r =>
      simp only [Option.map_some]
      split
      · exact ih r.2
      · rfl

theorem string_mirror (chars : List Char) (p : Place) :
    string d.flip fold chars.reverse p.mirror = (string d fold chars p).map Place.mirror := by
  have hliteral := literal_mirror d fold
  cases d with
  | forward =>
    rw [Direction.flip, string, string, List.reverse_reverse]
    exact hliteral chars p
  | backward => exact hliteral chars.reverse p

variable (size : Nat) (s : MatchState)

theorem goTo_mirror (p? : Option Place) :
    goTo (s.mirror size) (p?.map Place.mirror) = (goTo s p?).map (MatchState.mirror size) := by
  cases p? <;> rfl

theorem charLoop_mirror (min : Nat) (spare : Option Nat) (isLazy isCut : Bool) :
    charLoop d.flip test min spare isLazy isCut (s.mirror size) =
      (charLoop d test min spare isLazy isCut s).map (MatchState.mirror size) := by
  rw [charLoop, charLoop]
  have hexactly : exactly d.flip test min (s.mirror size).place = _ :=
    exactly_mirror d test min s.place
  rw [hexactly]
  cases exactly d test min s.place with
  | none => rfl
  | some p =>
    simp only [Option.map_some, Place.ahead_mirror, stops_mirror]
    have hmoves : (s.mirror size).moveTo ∘ Place.mirror = MatchState.mirror size ∘ s.moveTo := rfl
    split <;> split <;>
      simp only [← List.map_take, ← List.map_reverse, List.map_map, hmoves]

end

theorem atBoundary_mirror (isWord : Char → Bool) (p : Place) :
    atBoundary isWord p.mirror = atBoundary isWord p := bne_comm

/-- An assertion holds at a place of the reversed text when the assertion about the other side holds
at the place of the text. -/
theorem holdsAt_mirror {textStart textStart' : Nat} {p : Place}
    (hstart : p.mirror.offset = textStart' ↔ p.offset = textStart) {a : Anchor} (ha : a ≠ .endZ) :
    holdsAt textStart' p.mirror a.mirror = holdsAt textStart p a := by
  cases a with
  | endZ => exact absurd rfl ha
  | start =>
    exact Bool.eq_iff_iff.2 (by simpa only [holdsAt, Anchor.mirror, beq_iff_eq] using hstart)
  | boundary | ecmaBoundary => exact atBoundary_mirror _ p
  | nonBoundary | nonEcmaBoundary => exact congrArg (! ·) (atBoundary_mirror _ p)
  | _ => rfl

/-- A group that cancels nothing captures the same text in the reversed text. -/
theorem close_mirror {t : Text} {p q : Place} (hp : p.In t) (hq : q.In t) (group : Option Nat)
    (captured : Nat → List Span) :
    close group none p.mirror.offset q.mirror.offset
        (fun g => (captured g).map (Span.mirror t.size)) =
      (close group none p.offset q.offset captured).map
        fun captured g => (captured g).map (Span.mirror t.size) := by
  cases group with
  | none => rfl
  | some group =>
    simp only [close, Option.map_some, ← Span.mirror_between hp hq]
    refine congrArg some (funext fun g => ?_)
    by_cases hg : g = group
    · subst hg
      rw [Function.update_self, Function.update_self, List.map_cons]
    · rw [Function.update_of_ne hg, Function.update_of_ne hg]

section

variable {t : Text} {M M' : Matcher}

theorem mirrored_stay (t : Text) : Mirrored t stay stay := fun _ _ => rfl

theorem flatMap_mirror {xs : List MatchState} (hxs : ∀ s ∈ xs, s.Sound t) (h : Mirrored t M M') :
    (xs.map (MatchState.mirror t.size)).flatMap M' =
      (xs.flatMap M).map (MatchState.mirror t.size) := by
  rw [List.flatMap_map, List.map_flatMap]
  exact List.flatMap_congr fun s hs => h s (hxs s hs)

theorem mirrored_sequence {Ms Ms' : List Matcher} (h : List.Forall₂ (Mirrored t) Ms Ms')
    (hsound : ∀ M ∈ Ms, KeepsSound t M) : Mirrored t (sequence Ms) (sequence Ms') := by
  induction h with
  | nil => exact mirrored_stay t
  | cons hM _ ih =>
    intro s hs
    rw [sequence, sequence, hM s hs]
    refine flatMap_mirror (fun u hu => hsound _ List.mem_cons_self s u hu hs) ?_
    exact ih fun N hN => hsound N (List.mem_cons_of_mem _ hN)

theorem mirrored_choice {Ms Ms' : List Matcher} (h : List.Forall₂ (Mirrored t) Ms Ms') :
    Mirrored t (choice Ms) (choice Ms') := by
  intro s hs
  induction h with
  | nil => rfl
  | cons hM _ ih =>
    rw [choice, choice, List.flatMap_cons, List.flatMap_cons, List.map_append, hM s hs]
    exact congrArg _ ih

theorem mirrored_loop (d : Direction) (h : Mirrored t M M') (hsound : KeepsSound t M) (min : Nat)
    (spare : Option Nat) (isLazy : Bool) (done : Nat) :
    Mirrored t (loop d M min spare isLazy done) (loop d.flip M' min spare isLazy done) := by
  intro s
  revert done s
  refine loop_induction d min fun done s ih hs => ?_
  have hagain : again d.flip M' min spare isLazy done (s.mirror t.size) =
      (again d M min spare isLazy done s).map (MatchState.mirror t.size) := by
    rw [again, again, h s hs, List.flatMap_map, List.map_flatMap]
    refine List.flatMap_congr fun u hu => ?_
    have hahead (v : MatchState) : (v.mirror t.size).place.ahead d.flip = v.place.ahead d :=
      Place.ahead_mirror d v.place
    rw [afterRun, afterRun, hahead, hahead]
    split
    · next hrun => exact ih u hrun (hsound s u hu hs)
    · rfl
  rw [loop_eq, loop_eq, hagain]
  split
  · rfl
  · split
    · split
      · rfl
      · rw [List.map_append]
        rfl
    · rfl

theorem mirrored_capture (group : Option Nat) (h : Mirrored t M M') (hsound : KeepsSound t M) :
    Mirrored t (capture group none M) (capture group none M') := by
  intro s hs
  rw [capture, capture, h s hs, List.filterMap_map, List.map_filterMap]
  refine List.filterMap_congr fun u hu => ?_
  have hclose := close_mirror hs.place_in (hsound s u hu hs).place_in group u.captured
  simp only [Function.comp_apply, MatchState.mirror, hclose, Option.map_map]
  rfl

theorem mirrored_atomic (h : Mirrored t M M') : Mirrored t (atomic M) (atomic M') := by
  intro s hs
  rw [atomic, atomic, h s hs, List.map_take]

theorem mirrored_positiveLook (h : Mirrored t M M') :
    Mirrored t (positiveLook M) (positiveLook M') := by
  intro s hs
  rw [positiveLook, positiveLook, h s hs, ← List.map_take, List.map_map, List.map_map]
  rfl

theorem mirrored_negativeLook (h : Mirrored t M M') :
    Mirrored t (negativeLook M) (negativeLook M') := by
  intro s hs
  rw [negativeLook, negativeLook, h s hs, List.isEmpty_map]
  split <;> rfl

theorem mirrored_backreferenceConditional (group : Nat) {N N' : Matcher} (h : Mirrored t M M')
    (h' : Mirrored t N N') :
    Mirrored t (backreferenceConditional group M N) (backreferenceConditional group M' N') := by
  intro s hs
  have hempty : ((s.mirror t.size).captured group).isEmpty = (s.captured group).isEmpty :=
    List.isEmpty_map
  rw [backreferenceConditional, backreferenceConditional, hempty]
  split
  · exact h' s hs
  · exact h s hs

theorem mirrored_expressionConditional {C C' N N' : Matcher} (hC : Mirrored t C C')
    (hsound : KeepsSound t C) (h : Mirrored t M M') (h' : Mirrored t N N') :
    Mirrored t (expressionConditional C M N) (expressionConditional C' M' N') := by
  intro s hs
  rw [expressionConditional, expressionConditional, hC s hs, List.head?_map]
  cases hhead : (C s).head? with
  | none => exact h' s hs
  | some u =>
    have hu := hsound s u (List.mem_of_mem_head? hhead) hs
    exact h (u.moveTo s.place) (hu.moveTo hs.place_in)

/-- A group is met again in reverse in the reversed text. -/
theorem mirrored_backreference {σ σ' : Setting} (hσ : σ.Mirrors σ') {options : Options} (group : Nat)
    (hbackward : options.rightToLeft = true) :
    Mirrored σ.text (backreference σ options group)
      (backreference σ' options.leftToRight group) := by
  obtain ⟨culture, text, textStart, ecmaScript⟩ := σ'
  obtain ⟨rfl, rfl, -, rfl⟩ := hσ
  intro s hs
  have hhead : ((s.mirror σ.text.size).captured group).head? =
      ((s.captured group).head?).map (Span.mirror σ.text.size) := List.head?_map
  rw [backreference, backreference, hhead]
  cases hspan : (s.captured group).head? with
  | none =>
    change (if σ.ecmaScript then [s.mirror σ.text.size] else []) = _
    dsimp only
    split <;> rfl
  | some span =>
    obtain ⟨hstart, hstop⟩ := hs.spans group span (List.mem_of_mem_head? hspan)
    obtain ⟨chars, hchars, hreversed⟩ := Text.charsBetween_reversed hstart hstop
    have hdirection := Options.direction_eq_backward hbackward
    let fold (c : Char) : Char := if options.ignoreCase then σ.culture.fold c else c
    have hstring := string_mirror .backward fold (chars.map fold) s.place
    rw [← List.map_reverse] at hstring
    dsimp only [Option.map_some]
    rw [hdirection, hchars, hreversed]
    exact (congrArg (goTo _) hstring).trans (goTo_mirror _ s _)

end

end Matcher

open Matcher

namespace Node

/-- A construct mirrors when the parts under it do. -/
theorem mirrored_matcherOf (reading : Reading) {σ σ' : Setting} (hσ : σ.Mirrors σ') (id : Nat)
    {options : Options} {kind : Kind} (hbackward : options.rightToLeft = true)
    (htwoSided : kind.isTwoSided = true) {parts parts' : List Matcher}
    (h : List.Forall₂ (Mirrored σ.text) parts parts')
    (hsound : ∀ M ∈ parts, KeepsSound σ.text M) :
    Mirrored σ.text (matcherOf reading σ id options kind parts)
      (matcherOf reading σ' id options.leftToRight kind.mirror (kind.arrange parts')) := by
  have hbackreference := fun group => mirrored_backreference hσ group hbackward
  obtain ⟨culture, text, textStart, ecmaScript⟩ := σ'
  obtain ⟨rfl, rfl, hstart, rfl⟩ := hσ
  have hdirection := Options.direction_eq_backward hbackward
  have hnothing : Mirrored σ.text (fun _ => []) (fun _ => []) := fun _ _ => rfl
  cases kind with
  | empty => exact mirrored_stay σ.text
  | nothing => exact hnothing
  | char atom =>
    intro s _
    let test := passes σ.culture options.ignoreCase atom
    have hexactly := exactly_mirror .backward test 1 s.place
    simp only [matcherOf, hdirection]
    exact (congrArg (goTo _) hexactly).trans (goTo_mirror _ s _)
  | multi chars =>
    intro s _
    let fold (c : Char) : Char := if options.ignoreCase then σ.culture.fold c else c
    have hstring := string_mirror .backward fold (chars.map fold) s.place
    rw [← List.map_reverse] at hstring
    simp only [matcherOf, hdirection]
    exact (congrArg (goTo _) hstring).trans (goTo_mirror _ s _)
  | charLoop atom min max isLazy =>
    intro s _
    simp only [matcherOf, hdirection]
    exact charLoop_mirror .backward (passes σ.culture options.ignoreCase atom) σ.text.size s min _
      isLazy _
  | anchor a =>
    intro s hs
    have ha : a ≠ .endZ := by
      rintro rfl
      cases htwoSided
    change (if holdsAt textStart s.place.mirror a.mirror then [s.mirror σ.text.size] else []) =
      (if holdsAt σ.textStart s.place a then [s] else []).map (MatchState.mirror σ.text.size)
    rw [holdsAt_mirror (hstart s.place hs.place_in) ha]
    split <;> rfl
  | backreference group => exact hbackreference group
  | concat =>
    simp only [matcherOf, hdirection]
    exact mirrored_sequence (List.rel_reverse h) fun M hM => hsound M (List.mem_reverse.1 hM)
  | alternate => exact mirrored_choice h
  | loop min max isLazy =>
    rcases h with _ | ⟨hbody, _ | ⟨_, _⟩⟩
    · exact hnothing
    · simp only [matcherOf, hdirection]
      exact mirrored_loop .backward hbody (hsound _ List.mem_cons_self) min _ isLazy 0
    · exact hnothing
  | capture group uncapture =>
    cases uncapture with
    | some u => cases htwoSided
    | none =>
      rcases h with _ | ⟨hbody, _ | ⟨_, _⟩⟩
      · exact hnothing
      · exact mirrored_capture group hbody (hsound _ List.mem_cons_self)
      · exact hnothing
  | atomic =>
    rcases h with _ | ⟨hbody, _ | ⟨_, _⟩⟩
    · exact hnothing
    · exact mirrored_atomic hbody
    · exact hnothing
  | positiveLook =>
    rcases h with _ | ⟨hbody, _ | ⟨_, _⟩⟩
    · exact hnothing
    · exact mirrored_positiveLook hbody
    · exact hnothing
  | negativeLook =>
    rcases h with _ | ⟨hbody, _ | ⟨_, _⟩⟩
    · exact hnothing
    · exact mirrored_negativeLook hbody
    · exact hnothing
  | backreferenceConditional group =>
    rcases h with _ | ⟨hyes, _ | ⟨hno, _ | ⟨_, _⟩⟩⟩
    · exact hnothing
    · exact mirrored_backreferenceConditional group hyes (mirrored_stay σ.text)
    · exact mirrored_backreferenceConditional group hyes hno
    · exact hnothing
  | expressionConditional =>
    rcases h with _ | ⟨hcondition, _ | ⟨hyes, _ | ⟨hno, _ | ⟨_, _⟩⟩⟩⟩
    · exact hnothing
    · exact hnothing
    · exact mirrored_expressionConditional hcondition (hsound _ List.mem_cons_self) hyes
        (mirrored_stay σ.text)
    · exact mirrored_expressionConditional hcondition (hsound _ List.mem_cons_self) hyes hno
    · exact hnothing

/-- On the reversed text the mirror image of a node has the mirror images of its outcomes. -/
theorem mirrored_matcher (reading : Reading) {σ σ' : Setting} (hσ : σ.Mirrors σ') {n : Node}
    (h : ∀ x ∈ n.preorder, x.Mirrorable) :
    Mirrored σ.text (n.matcher reading σ) (n.mirror.matcher reading σ') := by
  induction n using Node.induction with
  | step id options kind children ih =>
    obtain ⟨⟨hbackward, htwoSided⟩, hchildren⟩ := Node.forall_preorder_node.1 h
    rw [mirror_node, matcher_node, matcher_node, Kind.map_arrange, List.map_map]
    refine mirrored_matcherOf reading hσ id hbackward htwoSided ?_ ?_
    · rw [List.forall₂_map_left_iff, List.forall₂_map_right_iff]
      exact List.forall₂_same.2 fun c hc => ih c hc (hchildren c hc)
    · intro M hM
      obtain ⟨c, -, rfl⟩ := List.mem_map.1 hM
      exact keepsSound_matcher reading σ c

end Node

end RegexMachine
