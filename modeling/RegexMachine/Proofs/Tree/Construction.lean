import Mathlib.Data.List.Perm.Basic
import RegexMachine.Proofs.Outcomes.Within
import RegexMachine.Proofs.Program.Compile
import RegexMachine.Tree.Builder

/-!
# How trees are made

A tree is made by calls on a builder, each of which is given nodes that were made before. Here no
node is given away twice, so that a node of the finished tree has one place in it. What the calls
keep up among the entries of the builder is what the compiler and the machine rely on in the tree.
-/

namespace RegexMachine

/-- The groups that a construct speaks of. -/
def Kind.groups : Kind → List Nat
  | .capture group uncapture => group.toList ++ uncapture.toList
  | .backreference group | .backreferenceConditional group => [group]
  | _ => []

/-- The bounds of a repetition are in order. -/
def Kind.Bounded : Kind → Prop
  | .loop min max _ | .charLoop _ min max _ => min ≤ max ∧ max ≤ unbounded
  | _ => True

/-- A call that makes a node. -/
inductive Call where
  | empty
  | nothing
  | atom (a : Atom)
  | multi (chars : List Char)
  | anchor (a : Anchor)
  | quantify (child min max : Nat) (isLazy : Bool)
  | capture (group child : Nat)
  | namedCapture (group : Nat) (name : String) (child : Nat)
  | balancing (group : Option Nat) (uncapture child : Nat)
  | concat (children : List Nat)
  | alternate (children : List Nat)
  | atomic (child : Nat)
  | backreference (group : Nat)
  | lookahead (child : Nat)
  | negativeLookahead (child : Nat)
  | lookbehind (child : Nat)
  | negativeLookbehind (child : Nat)
  | backreferenceConditional (group yes : Nat) (no : Option Nat)
  | expressionConditional (condition yes : Nat) (no : Option Nat)

namespace Call

/-- The node that the call makes or passes on. -/
def run : Call → Build Nat
  | .empty => Builder.empty
  | .nothing => Builder.nothing
  | .atom a => Builder.atom a
  | .multi chars => Builder.multi chars
  | .anchor a => Builder.anchor a
  | .quantify child min max isLazy => Builder.quantify child min max isLazy
  | .capture group child => Builder.capture group child
  | .namedCapture group name child => Builder.namedCapture group name child
  | .balancing group uncapture child => Builder.balancing group uncapture child
  | .concat children => Builder.concat children
  | .alternate children => Builder.alternate children
  | .atomic child => Builder.atomic child
  | .backreference group => Builder.backreference group
  | .lookahead child => Builder.lookahead child
  | .negativeLookahead child => Builder.negativeLookahead child
  | .lookbehind child => Builder.lookbehind child
  | .negativeLookbehind child => Builder.negativeLookbehind child
  | .backreferenceConditional group yes no => Builder.backreferenceConditional group yes no
  | .expressionConditional condition yes no => Builder.expressionConditional condition yes no

/-- The nodes that are given to the call. -/
def given : Call → List Nat
  | .quantify child _ _ _ | .capture _ child | .namedCapture _ _ child | .balancing _ _ child
  | .atomic child | .lookahead child | .negativeLookahead child | .lookbehind child
  | .negativeLookbehind child => [child]
  | .concat children | .alternate children => children
  | .backreferenceConditional _ yes no => yes :: no.toList
  | .expressionConditional condition yes no => condition :: yes :: no.toList
  | _ => []

/-- What the calls ask for: bounds in order, and no captures into the group of the whole match. -/
def Accepted : Call → Prop
  | .quantify _ min max _ => min ≤ max ∧ max ≤ unbounded
  | .capture group _ | .namedCapture group _ _ => 0 < group
  | _ => True

end Call

/-- Builders after calls no two of which were given one node, with the nodes that were not given away.
Ignoring case in a node does not give it away. -/
inductive Builder.Unshared (options : Options) : Builder → (free : List Nat) → Prop
  | start : Unshared options { options } []
  | call {b : Builder} {free rest : List Nat} (h : Unshared options b free) (c : Call)
      (accepted : c.Accepted) (hgiven : free.Perm (c.given ++ rest)) :
      Unshared options (c.run b).2 ((c.run b).1 :: rest)
  | ignoreCase {b : Builder} {free : List Nat} (h : Unshared options b free) {child : Nat}
      (hchild : child < b.entries.size) : Unshared options ((Builder.ignoreCase child).run b).2 free

/-- Trees that were finished from such a builder around one of its nodes, given away or not. -/
def Tree.Unshared (t : Tree) : Prop :=
  ∃ options b free body, Builder.Unshared options b free ∧ body < b.entries.size ∧ t = b.finish body

/-- A part that is matched backward is under one that is, or is a lookaround; what is under it is
matched backward too. -/
def Entry.Orients (parent child : Entry) : Prop :=
  (parent.options.rightToLeft = true → child.options.rightToLeft = true) ∧
    (child.options.rightToLeft = true →
      parent.options.rightToLeft = true ∨ child.kind.isLook = true)

/-- What calls keep up among entries: an entry has the earlier entries under it that its construct
needs, its numbers are in bounds, and no entry is under two others, or under another when it is
free. -/
structure Builder.Sound (entries : Array Entry) (maxGroup : Nat) (free : List Nat) : Prop where
  below : ∀ (i : Nat) (e : Entry), entries[i]? = some e → ∀ c ∈ e.children, c < i
  arity : ∀ (i : Nat) (e : Entry), entries[i]? = some e → e.kind.Allows e.children.length
  groups : ∀ (i : Nat) (e : Entry), entries[i]? = some e → ∀ g ∈ e.kind.groups, g ≤ maxGroup
  bounded : ∀ (i : Nat) (e : Entry), entries[i]? = some e → e.kind.Bounded
  once : (free ++ entries.toList.flatMap (·.children)).Nodup
  exists_free : ∀ i ∈ free, i < entries.size

def Builder.Oriented (entries : Array Entry) : Prop :=
  ∀ (i : Nat) (e : Entry), entries[i]? = some e → ∀ c ∈ e.children, ∀ child : Entry,
    entries[c]? = some child → e.Orients child

/-- What calls keep up on a builder. What is free is matched in the direction of the whole pattern,
lookarounds apart. -/
structure Builder.Kept (b : Builder) (free : List Nat) : Prop where
  sound : Builder.Sound b.entries b.maxGroup free
  oriented : Builder.Oriented b.entries
  base : b.options.rightToLeft = true → ∀ (i : Nat) (e : Entry), b.entries[i]? = some e →
    e.options.rightToLeft = true
  upright : ∀ i ∈ free, ∀ e : Entry, b.entries[i]? = some e → e.options.rightToLeft = true →
    b.options.rightToLeft = true ∨ e.kind.isLook = true

/-- The entry has these options. -/
abbrev Entry.Has (added : Options) (e : Entry) : Prop := e.options.includes added = true

/-- The second entry is the first with or without the options added. -/
structure Entry.Gains (added : Options) (e e' : Entry) : Prop where
  kind_eq : e'.kind = e.kind
  children_eq : e'.children = e.children
  options_eq : e'.options = e.options ∨ e'.options = e.options.union added

namespace Entry.Gains

variable {added : Options} {e e' e'' : Entry}

theorem refl (e : Entry) : e.Gains added e := ⟨rfl, rfl, .inl rfl⟩

theorem trans (h : e.Gains added e') (h' : e'.Gains added e'') : e.Gains added e'' := by
  refine ⟨h'.kind_eq.trans h.kind_eq, h'.children_eq.trans h.children_eq, ?_⟩
  have hunion : (e.options.union added).union added = e.options.union added :=
    eq_of_beq (Options.includes_union e.options added)
  rcases h.options_eq with ho | ho <;> rcases h'.options_eq with ho' | ho' <;>
    simp [ho, ho', hunion]

theorem has (h : e.Gains added e') (hhas : e.Has added) : e'.Has added := by
  rcases h.options_eq with ho | ho
  · rw [Entry.Has, ho]
    exact hhas
  · rw [Entry.Has, ho]
    exact Options.includes_union _ _

end Entry.Gains

/-- What has the options has only parts that have them. -/
def Builder.Settled (added : Options) (entries : Array Entry) (i : Nat) : Prop :=
  ∀ e : Entry, entries[i]? = some e → e.Has added → ∀ c ∈ e.children, ∀ child : Entry,
    entries[c]? = some child → child.Has added

/-- Options were added to these entries and to what lies under them. -/
structure Builder.Spread (added : Options) (ids : List Nat) (entries entries' : Array Entry) :
    Prop where
  size_eq : entries'.size = entries.size
  gains : ∀ (i : Nat) (e : Entry), entries[i]? = some e →
    ∃ e', entries'[i]? = some e' ∧ e.Gains added e'
  marked : ∀ i ∈ ids, ∀ e : Entry, entries'[i]? = some e → e.Has added
  settled : ∀ i, Settled added entries i → Settled added entries' i
  /-- An entry that had not the options and has them now is one of these, or lies under one. -/
  fresh : ∀ (i : Nat) (e e' : Entry), entries[i]? = some e → entries'[i]? = some e' →
    e'.Has added → e.Has added ∨ i ∈ ids ∨
      ∃ (p : Nat) (parent : Entry), entries'[p]? = some parent ∧ parent.Has added ∧
        i ∈ parent.children

namespace Builder.Spread

variable {added : Options} {entries entries' entries'' : Array Entry}

theorem gained {ids : List Nat} (h : Spread added ids entries entries') {i : Nat} {e' : Entry}
    (he : entries'[i]? = some e') : ∃ e, entries[i]? = some e ∧ e.Gains added e' := by
  have hi : i < entries.size := by
    rw [← h.size_eq]
    exact (Array.getElem?_eq_some_iff.1 he).1
  obtain ⟨e'', he'', hgains⟩ := h.gains i entries[i] (Array.getElem?_eq_getElem hi)
  rw [he] at he''
  cases he''
  exact ⟨_, Array.getElem?_eq_getElem hi, hgains⟩

theorem refl {ids : List Nat}
    (hmarked : ∀ i ∈ ids, ∀ e : Entry, entries[i]? = some e → e.Has added) :
    Spread added ids entries entries := by
  refine ⟨rfl, fun i e he => ⟨e, he, .refl e⟩, hmarked, fun i hi => hi, ?_⟩
  intro i e e' he he' hhas
  rw [he] at he'
  cases he'
  exact .inl hhas

theorem append {xs ys : List Nat} (h : Spread added xs entries entries')
    (h' : Spread added ys entries' entries'') : Spread added (xs ++ ys) entries entries'' := by
  refine ⟨h'.size_eq.trans h.size_eq, ?_, ?_, fun i hi => h'.settled i (h.settled i hi), ?_⟩
  · intro i e he
    obtain ⟨e', he', hgains⟩ := h.gains i e he
    obtain ⟨e'', he'', hgains'⟩ := h'.gains i e' he'
    exact ⟨e'', he'', hgains.trans hgains'⟩
  · intro i hi e he
    rcases List.mem_append.1 hi with hx | hy
    · obtain ⟨e', he', hgains⟩ := h'.gained he
      exact hgains.has (h.marked i hx e' he')
    · exact h'.marked i hy e he
  · intro i e e'' he he'' hhas
    obtain ⟨e', he', -⟩ := h.gains i e he
    rcases h'.fresh i e' e'' he' he'' hhas with hhas' | hy | hunder
    · rcases h.fresh i e e' he he' hhas' with hold | hx | ⟨p, parent, hp, hparent, hi⟩
      · exact .inl hold
      · exact .inr (.inl (List.mem_append_left _ hx))
      · obtain ⟨parent', hp', hgains⟩ := h'.gains p parent hp
        refine .inr (.inr ⟨p, parent', hp', hgains.has hparent, ?_⟩)
        rwa [hgains.children_eq]
    · exact .inr (.inl (List.mem_append_right _ hy))
    · exact .inr (.inr hunder)

theorem under {id : Nat} {e : Entry} (he : entries[id]? = some e)
    (h : Spread added e.children
      (entries.modify id fun e => { e with options := e.options.union added }) entries') :
    Spread added [id] entries entries' := by
  let mark (e : Entry) : Entry := { e with options := e.options.union added }
  have hself : (entries.modify id mark)[id]? = some (mark e) := by
    rw [Array.getElem?_modify, if_pos rfl, he, Option.map_some]
  have hother : ∀ i, i ≠ id → (entries.modify id mark)[i]? = entries[i]? := by
    intro i hi
    rw [Array.getElem?_modify, if_neg (Ne.symm hi)]
  have hmark : ∀ e : Entry, (mark e).Has added := fun e => Options.includes_union _ _
  obtain ⟨e₂, he₂, hgains₂⟩ := h.gains id _ hself
  have hhas₂ : e₂.Has added := hgains₂.has (hmark e)
  refine ⟨h.size_eq.trans Array.size_modify, ?_, ?_, ?_, ?_⟩
  · intro i x hx
    by_cases hi : i = id
    · subst hi
      rw [he] at hx
      cases hx
      exact ⟨e₂, he₂, (⟨rfl, rfl, .inr rfl⟩ : e.Gains added (mark e)).trans hgains₂⟩
    · exact h.gains i x ((hother i hi).trans hx)
  · intro i hi x hx
    rw [List.mem_singleton.1 hi, he₂] at hx
    cases hx
    exact hhas₂
  · intro i hsettled
    by_cases hi : i = id
    · subst hi
      intro x hx _ c hc child hchild
      rw [he₂] at hx
      cases hx
      rw [hgains₂.children_eq] at hc
      exact h.marked c hc child hchild
    · refine h.settled i fun x hx hhas c hc child hchild => ?_
      rw [hother i hi] at hx
      by_cases hcid : c = id
      · subst hcid
        rw [hself] at hchild
        cases hchild
        exact hmark e
      · rw [hother c hcid] at hchild
        exact hsettled x hx hhas c hc child hchild
  · intro i x x' hx hx' hhas
    by_cases hi : i = id
    · exact .inr (.inl (List.mem_singleton.2 hi))
    · rcases h.fresh i x x' ((hother i hi).trans hx) hx' hhas with hold | hchild | hunder
      · exact .inl hold
      · refine .inr (.inr ⟨id, e₂, he₂, hhas₂, ?_⟩)
        rw [hgains₂.children_eq]
        exact hchild
      · exact .inr (.inr hunder)

/-- What lies under an entry stays so. -/
theorem below {ids : List Nat} (h : Spread added ids entries entries')
    (hbelow : ∀ (i : Nat) (e : Entry), entries[i]? = some e → ∀ c ∈ e.children, c < i) :
    ∀ (i : Nat) (e : Entry), entries'[i]? = some e → ∀ c ∈ e.children, c < i := by
  intro i e he c hc
  obtain ⟨e', he', hgains⟩ := h.gained he
  rw [hgains.children_eq] at hc
  exact hbelow i e' he' c hc

end Builder.Spread

/-- Marking an entry reaches all that lies under it. -/
theorem Builder.spread_spreadOptions (added : Options) (depth : Nat) : ∀ {entries : Array Entry},
    (∀ (i : Nat) (e : Entry), entries[i]? = some e → ∀ c ∈ e.children, c < i) →
    ∀ id < depth, Spread added [id] entries (spreadOptions added depth entries id) := by
  induction depth with
  | zero => exact fun _ id hid => absurd hid (Nat.not_lt_zero id)
  | succ depth ih =>
    intro entries hbelow id hid
    have hfold : ∀ (ids : List Nat) {entries : Array Entry},
        (∀ (i : Nat) (e : Entry), entries[i]? = some e → ∀ c ∈ e.children, c < i) →
        (∀ c ∈ ids, c < depth) →
        Spread added ids entries (ids.foldl (spreadOptions added depth) entries) := by
      intro ids
      induction ids with
      | nil => exact fun _ _ => .refl fun i hi => absurd hi List.not_mem_nil
      | cons c rest ihrest =>
        intro entries hbelow hids
        have hfirst := ih hbelow c (hids c List.mem_cons_self)
        exact hfirst.append (ihrest (hfirst.below hbelow) fun x hx =>
          hids x (List.mem_cons_of_mem _ hx))
    rw [spreadOptions]
    cases he : entries[id]? with
    | none =>
      refine .refl fun i hi e he' => ?_
      rw [List.mem_singleton.1 hi, he] at he'
      cases he'
    | some e =>
      simp only
      split
      · next hhas =>
        refine .refl fun i hi e' he' => ?_
        rw [List.mem_singleton.1 hi, he] at he'
        cases he'
        exact hhas
      · refine .under he (hfold e.children ?_ fun c hc => ?_)
        · intro i e' he' c hc
          rw [Array.getElem?_modify] at he'
          split at he'
          · next hi =>
            subst hi
            rw [he] at he'
            cases he'
            exact hbelow id e he c hc
          · exact hbelow i e' he' c hc
        · have hlt := hbelow id e he c hc
          omega

namespace Builder

variable {entries entries' : Array Entry} {maxGroup : Nat} {free rest : List Nat}

theorem Spread.flatMap_children {added : Options} {ids : List Nat}
    (h : Spread added ids entries entries') :
    entries'.toList.flatMap (·.children) = entries.toList.flatMap (·.children) := by
  have hmap : entries'.toList.map Entry.children = entries.toList.map Entry.children := by
    apply List.ext_getElem?
    intro i
    rw [List.getElem?_map, List.getElem?_map, Array.getElem?_toList, Array.getElem?_toList]
    cases he : entries[i]? with
    | none =>
      have hsize := h.size_eq
      rw [Array.getElem?_eq_none_iff] at he
      rw [Array.getElem?_eq_none_iff.2 (by omega)]
    | some e =>
      obtain ⟨e', he', hgains⟩ := h.gains i e he
      rw [he', Option.map_some, Option.map_some, hgains.children_eq]
  rw [List.flatMap_def, List.flatMap_def, hmap]

theorem Sound.spread {added : Options} {ids : List Nat} (hsound : Sound entries maxGroup free)
    (h : Spread added ids entries entries') : Sound entries' maxGroup free where
  below := h.below hsound.below
  arity i e he := by
    obtain ⟨e', he', hgains⟩ := h.gained he
    rw [hgains.kind_eq, hgains.children_eq]
    exact hsound.arity i e' he'
  groups i e he := by
    obtain ⟨e', he', hgains⟩ := h.gained he
    rw [hgains.kind_eq]
    exact hsound.groups i e' he'
  bounded i e he := by
    obtain ⟨e', he', hgains⟩ := h.gained he
    rw [hgains.kind_eq]
    exact hsound.bounded i e' he'
  once := by
    rw [h.flatMap_children]
    exact hsound.once
  exists_free i hi := by
    rw [h.size_eq]
    exact hsound.exists_free i hi

theorem Sound.mono (h : Sound entries maxGroup free) {maxGroup' : Nat} (hle : maxGroup ≤ maxGroup') :
    Sound entries maxGroup' free :=
  { h with groups := fun i e he g hg => Nat.le_trans (h.groups i e he g hg) hle }

theorem Sound.eq_of_mem_children (h : Sound entries maxGroup free) {i j c : Nat} {e e' : Entry}
    (he : entries[i]? = some e) (he' : entries[j]? = some e') (hc : c ∈ e.children)
    (hc' : c ∈ e'.children) : i = j := by
  have hpairwise := (List.pairwise_flatMap.1 (List.nodup_append.1 h.once).2.1).2
  rw [List.pairwise_iff_getElem] at hpairwise
  rw [← Array.getElem?_toList] at he he'
  obtain ⟨hi, rfl⟩ := List.getElem?_eq_some_iff.1 he
  obtain ⟨hj, rfl⟩ := List.getElem?_eq_some_iff.1 he'
  rcases Nat.lt_trichotomy i j with hlt | heq | hlt
  · exact absurd rfl (hpairwise i j hi hj hlt c hc c hc')
  · exact heq
  · exact absurd rfl (hpairwise j i hj hi hlt c hc' c hc)

theorem Sound.not_mem_children (h : Sound entries maxGroup free) {i c : Nat} {e : Entry}
    (he : entries[i]? = some e) (hc : c ∈ free) : c ∉ e.children := by
  intro hmem
  refine (List.nodup_append.1 h.once).2.2 c hc c (List.mem_flatMap.2 ⟨e, ?_, hmem⟩) rfl
  exact List.mem_of_getElem? (by rw [Array.getElem?_toList]; exact he)

theorem Sound.child_lt_size (h : Sound entries maxGroup free) {i c : Nat} {e : Entry}
    (he : entries[i]? = some e) (hc : c ∈ e.children) : c < entries.size := by
  have hlt := h.below i e he c hc
  have hi := (Array.getElem?_eq_some_iff.1 he).1
  omega

theorem forall_push {P : Nat → Entry → Prop} {e : Entry} (hnew : P entries.size e)
    (hold : ∀ (i : Nat) (e : Entry), entries[i]? = some e → P i e) :
    ∀ (i : Nat) (x : Entry), (entries.push e)[i]? = some x → P i x := by
  intro i x hx
  rw [Array.getElem?_push] at hx
  split at hx
  · next hi =>
    cases hx
    rw [hi]
    exact hnew
  · exact hold i x hx

/-- A new entry takes what is under it from the free ones and is free itself. -/
theorem Sound.push (h : Sound entries maxGroup free) {e : Entry}
    (hfree : free.Perm (e.children ++ rest)) (harity : e.kind.Allows e.children.length)
    (hgroups : ∀ g ∈ e.kind.groups, g ≤ maxGroup) (hbounded : e.kind.Bounded) :
    Sound (entries.push e) maxGroup (entries.size :: rest) where
  below := forall_push
    (fun c hc => h.exists_free c (hfree.mem_iff.2 (List.mem_append_left _ hc))) h.below
  arity := forall_push (P := fun _ e => e.kind.Allows e.children.length) harity h.arity
  groups := forall_push (P := fun _ e => ∀ g ∈ e.kind.groups, g ≤ maxGroup) hgroups h.groups
  bounded := forall_push (P := fun _ e => e.kind.Bounded) hbounded h.bounded
  once := by
    let old := entries.toList.flatMap (·.children)
    have hold : (rest ++ (old ++ e.children)).Perm (free ++ old) := by
      refine .trans ?_ (hfree.symm.append_right old)
      rw [← List.append_assoc]
      exact List.perm_append_comm.trans (by rw [List.append_assoc])
    have hnew : entries.size ∉ rest ++ (old ++ e.children) := by
      rw [hold.mem_iff, List.mem_append]
      rintro (hmem | hmem)
      · exact Nat.lt_irrefl _ (h.exists_free _ hmem)
      · obtain ⟨x, hx, hmem⟩ := List.mem_flatMap.1 hmem
        obtain ⟨i, hi⟩ := List.mem_iff_getElem?.1 hx
        rw [Array.getElem?_toList] at hi
        exact Nat.lt_irrefl _ (h.child_lt_size hi hmem)
    rw [Array.toList_push, List.flatMap_append, List.flatMap_singleton, List.cons_append]
    exact List.nodup_cons.2 ⟨hnew, hold.nodup_iff.2 h.once⟩
  exists_free i hi := by
    rw [Array.size_push]
    rcases List.mem_cons.1 hi with rfl | hi
    · exact Nat.lt_succ_self _
    · exact Nat.lt_succ_of_lt (h.exists_free i (hfree.mem_iff.2 (List.mem_append_right _ hi)))

/-- The options of a part that is matched backward. -/
abbrev backward : Options := { rightToLeft := true }

theorem has_backward {e : Entry} : e.Has backward ↔ e.options.rightToLeft = true := by
  obtain ⟨kind, children, ⟨ignoreCase, rightToLeft, ecmaScript, cultureInvariant⟩⟩ := e
  cases rightToLeft <;> simp [Entry.Has, Options.includes, Options.union]

theorem Oriented.spread (h : Oriented entries) (hsound : Sound entries maxGroup free) {id : Nat}
    (hid : id ∈ free) (hspread : Spread backward [id] entries entries') : Oriented entries' := by
  intro i e' he' c hc child' hchild'
  obtain ⟨e, he, hgains⟩ := hspread.gained he'
  obtain ⟨child, hchild, hgains'⟩ := hspread.gained hchild'
  have hc₀ : c ∈ e.children := hgains.children_eq ▸ hc
  obtain ⟨hdown, hup⟩ := h i e he c hc₀ child hchild
  constructor
  · intro hrtl
    refine has_backward.1 (hspread.settled i ?_ e' he' (has_backward.2 hrtl) c hc child' hchild')
    intro x hx hhas d hd y hy
    exact has_backward.2 ((h i x hx d hd y hy).1 (has_backward.1 hhas))
  · intro hrtl
    rcases hspread.fresh c child child' hchild hchild' (has_backward.2 hrtl) with
      hold | hself | ⟨p, parent, hp, hparent, hmem⟩
    · rcases hup (has_backward.1 hold) with hbackward | hlook
      · exact .inl (has_backward.1 (hgains.has (has_backward.2 hbackward)))
      · exact .inr (hgains'.kind_eq ▸ hlook)
    · rw [List.mem_singleton.1 hself] at hc₀
      exact absurd hc₀ (hsound.not_mem_children he hid)
    · obtain ⟨q, hq, hgains''⟩ := hspread.gained hp
      rw [hgains''.children_eq] at hmem
      obtain rfl := hsound.eq_of_mem_children he hq hc₀ hmem
      rw [he'] at hp
      cases hp
      exact .inl (has_backward.1 hparent)

theorem rightToLeft_of_gains {added : Options} (hadded : added.rightToLeft = false) {e e' : Entry}
    (h : e.Gains added e') : e'.options.rightToLeft = e.options.rightToLeft := by
  rcases h.options_eq with ho | ho
  · rw [ho]
  · rw [ho]
    simp [Options.union, hadded]

variable {b : Builder}

theorem Kept.perm (h : Kept b free) {free' : List Nat} (hperm : free.Perm free') :
    Kept b free' where
  sound := { h.sound with
    once := (hperm.append_right _).nodup_iff.1 h.sound.once
    exists_free := fun i hi => h.sound.exists_free i (hperm.mem_iff.2 hi) }
  oriented := h.oriented
  base := h.base
  upright i hi := h.upright i (hperm.mem_iff.2 hi)

theorem Kept.drop {given : List Nat} (h : Kept b (given ++ rest)) : Kept b rest where
  sound := { h.sound with
    once := by
      have hlinear := h.sound.once
      rw [List.append_assoc] at hlinear
      exact (List.nodup_append.1 hlinear).2.1
    exists_free := fun i hi => h.sound.exists_free i (List.mem_append_right _ hi) }
  oriented := h.oriented
  base := h.base
  upright i hi := h.upright i (List.mem_append_right _ hi)

/-- A new entry above free ones that it agrees with. -/
theorem Kept.pushEntry {e : Entry} (hsound : Sound b.entries b.maxGroup (e.children ++ rest))
    (horiented : Oriented b.entries)
    (hbase : b.options.rightToLeft = true →
      ∀ (i : Nat) (e : Entry), b.entries[i]? = some e → e.options.rightToLeft = true)
    (hupright : ∀ i ∈ rest, ∀ e : Entry, b.entries[i]? = some e → e.options.rightToLeft = true →
      b.options.rightToLeft = true ∨ e.kind.isLook = true)
    (harity : e.kind.Allows e.children.length) (hgroups : ∀ g ∈ e.kind.groups, g ≤ b.maxGroup)
    (hbounded : e.kind.Bounded)
    (horients : ∀ c ∈ e.children, ∀ child : Entry, b.entries[c]? = some child → e.Orients child)
    (hdown : b.options.rightToLeft = true → e.options.rightToLeft = true)
    (hup : e.options.rightToLeft = true → b.options.rightToLeft = true ∨ e.kind.isLook = true) :
    Kept { b with entries := b.entries.push e } (b.entries.size :: rest) where
  sound := hsound.push (.refl _) harity hgroups hbounded
  oriented := by
    have hlift : ∀ (x : Entry), (∀ c ∈ x.children, c < b.entries.size) →
        (∀ c ∈ x.children, ∀ child : Entry, b.entries[c]? = some child → x.Orients child) →
        ∀ c ∈ x.children, ∀ child : Entry, (b.entries.push e)[c]? = some child →
          x.Orients child := by
      intro x hlt horients c hc child hchild
      rw [Array.getElem?_push, if_neg (Nat.ne_of_lt (hlt c hc))] at hchild
      exact horients c hc child hchild
    refine forall_push (P := fun _ x => ∀ c ∈ x.children, ∀ child : Entry,
      (b.entries.push e)[c]? = some child → x.Orients child) ?_ fun i x hx => ?_
    · exact hlift e (fun c hc => hsound.exists_free c (List.mem_append_left _ hc)) horients
    · exact hlift x (fun c hc => hsound.child_lt_size hx hc) (horiented i x hx)
  base hrtl := forall_push (P := fun _ x => x.options.rightToLeft = true) (hdown hrtl) (hbase hrtl)
  upright i hi x hx hrtl := by
    rw [Array.getElem?_push] at hx
    split at hx
    · cases hx
      exact hup hrtl
    · next hne => exact hupright i ((List.mem_cons.1 hi).resolve_left hne) x hx hrtl

/-- A new entry with the options of the pattern. -/
theorem Kept.push (given : List Nat) (h : Kept b (given ++ rest)) (kind : Kind)
    (harity : kind.Allows given.length) (hgroups : ∀ g ∈ kind.groups, g ≤ b.maxGroup)
    (hbounded : kind.Bounded) :
    Kept (Builder.push kind given b).2 ((Builder.push kind given b).1 :: rest) := by
  refine pushEntry (e := ⟨kind, given, b.options⟩) h.sound h.oriented h.base h.drop.upright harity
    hgroups hbounded (fun c hc child hchild => ⟨fun hrtl => h.base hrtl c child hchild, ?_⟩) id .inl
  exact h.upright c (List.mem_append_left _ hc) child hchild

theorem Kept.noteGroup (h : Kept b free) (group : Nat) :
    Kept (Builder.noteGroup group b).2 free where
  sound := h.sound.mono (Nat.le_max_left _ _)
  oriented := h.oriented
  base := h.base
  upright := h.upright

/-- A repeated single character is an entry of its own with the options of the character. -/
theorem quantify_char {child min max : Nat} {isLazy : Bool} (hone : ¬ (min = 1 ∧ max = 1)) {a : Atom}
    {children : List Nat} {options : Options}
    (he : b.entries[child]? = some ⟨.char a, children, options⟩) :
    Builder.quantify child min max isLazy b = (b.entries.size,
      { b with entries := b.entries.push ⟨.charLoop a min max isLazy, [], options⟩ }) := by
  have hmodify : (b.entries.push ⟨.charLoop a min max isLazy, [], b.options⟩).modify
      b.entries.size (fun e => { e with options }) =
        b.entries.push ⟨.charLoop a min max isLazy, [], options⟩ := by
    apply Array.ext_getElem?
    intro i
    rw [Array.getElem?_modify, Array.getElem?_push, Array.getElem?_push]
    by_cases hi : b.entries.size = i
    · subst hi
      simp
    · rw [if_neg hi, if_neg (Ne.symm hi), if_neg (Ne.symm hi)]
  have hbool : ¬ ((min = 1 && max = 1) = true) := by simpa using hone
  rw [Builder.quantify, if_neg hbool]
  simp only [bind, StateT.bind, get, getThe, MonadStateOf.get, StateT.get, pure, he]
  exact congrArg (fun entries => (b.entries.size, { b with entries })) hmodify

/-- What is repeated otherwise is put under a loop. -/
theorem quantify_loop {child min max : Nat} {isLazy : Bool} (hone : ¬ (min = 1 ∧ max = 1))
    (hchar : ∀ a children options, b.entries[child]? ≠ some ⟨.char a, children, options⟩) :
    Builder.quantify child min max isLazy b = Builder.push (.loop min max isLazy) [child] b := by
  have hbool : ¬ ((min = 1 && max = 1) = true) := by simpa using hone
  rw [Builder.quantify, if_neg hbool]
  simp only [bind, StateT.bind, get, getThe, MonadStateOf.get, StateT.get, pure]

/-- All that repeating a node can make: nothing new when it is repeated once, a repeated character, or
a loop over the node. -/
theorem quantify_cases (child min max : Nat) (isLazy : Bool) (b : Builder) :
    (min = 1 ∧ max = 1 ∧ Builder.quantify child min max isLazy b = (child, b)) ∨
      (∃ a children options, b.entries[child]? = some ⟨.char a, children, options⟩ ∧
        Builder.quantify child min max isLazy b = (b.entries.size,
          { b with entries := b.entries.push ⟨.charLoop a min max isLazy, [], options⟩ })) ∨
      Builder.quantify child min max isLazy b = Builder.push (.loop min max isLazy) [child] b := by
  by_cases hone : min = 1 ∧ max = 1
  · obtain ⟨rfl, rfl⟩ := hone
    exact .inl ⟨rfl, rfl, rfl⟩
  · by_cases hchar : ∃ a children options, b.entries[child]? = some ⟨.char a, children, options⟩
    · obtain ⟨a, children, options, he⟩ := hchar
      exact .inr (.inl ⟨a, children, options, he, quantify_char hone he⟩)
    · exact .inr (.inr (quantify_loop hone fun a children options he =>
        hchar ⟨a, children, options, he⟩))

theorem multi_eq_push {chars : List Char} (h : 2 ≤ chars.length) :
    multi chars = push (.multi chars) [] := by
  match chars with
  | [] | [_] => simp at h
  | _ :: _ :: _ => rfl

theorem concat_eq_push {children : List Nat} (h : 2 ≤ children.length) :
    concat children = push .concat children := by
  match children with
  | [] | [_] => simp at h
  | _ :: _ :: _ => rfl

theorem Kept.quantify {child : Nat} (h : Kept b ([child] ++ rest)) {min max : Nat} (isLazy : Bool)
    (hbounds : min ≤ max ∧ max ≤ unbounded) :
    Kept (Builder.quantify child min max isLazy b).2
      ((Builder.quantify child min max isLazy b).1 :: rest) := by
  rcases quantify_cases child min max isLazy b with
    ⟨-, -, hsame⟩ | ⟨a, children, options, he, hchar⟩ | hloop
  · rw [hsame]
    exact h
  · rw [hchar]
    refine pushEntry (e := ⟨.charLoop a min max isLazy, [], options⟩) h.drop.sound h.oriented
      h.base h.drop.upright rfl (fun g hg => absurd hg List.not_mem_nil) hbounds
      (fun c hc => absurd hc List.not_mem_nil)
      (fun hrtl => h.base hrtl child ⟨.char a, children, options⟩ he) fun hrtl => ?_
    have hupright := h.upright child List.mem_cons_self ⟨.char a, children, options⟩ he hrtl
    exact hupright.imp_right fun hlook => by cases hlook
  · rw [hloop]
    exact h.push [child] _ rfl (fun g hg => absurd hg List.not_mem_nil) hbounds

/-- The builder with a part turned backward. -/
def turned (b : Builder) (child : Nat) : Builder :=
  { b with entries := spreadOptions backward (child + 1) b.entries child }

/-- Marking a new entry above one that is marked changes nothing but the entry. -/
theorem spreadOptions_push (kind : Kind) {added : Options} (options : Options) {child : Entry}
    {c : Nat}
    (hc : entries[c]? = some child) (hhas : child.Has added) :
    spreadOptions added (entries.size + 1) (entries.push ⟨kind, [c], options⟩) entries.size =
      entries.push ⟨kind, [c], options.union added⟩ := by
  have hlt : c < entries.size := (Array.getElem?_eq_some_iff.1 hc).1
  obtain ⟨n, hn⟩ := Nat.exists_eq_add_one_of_ne_zero (Nat.ne_of_gt (Nat.zero_lt_of_lt hlt))
  rw [spreadOptions, Array.getElem?_push_size]
  simp only
  split
  · next hincludes =>
    rw [eq_of_beq hincludes]
  · have hmodify : (entries.push ⟨kind, [c], options⟩).modify entries.size
        (fun e => { e with options := e.options.union added }) =
          entries.push ⟨kind, [c], options.union added⟩ := by
      apply Array.ext_getElem?
      intro i
      rw [Array.getElem?_modify, Array.getElem?_push, Array.getElem?_push]
      by_cases hi : entries.size = i
      · subst hi
        simp
      · rw [if_neg hi, if_neg (Ne.symm hi), if_neg (Ne.symm hi)]
    have hchild : (entries.push ⟨kind, [c], options.union added⟩)[c]? = some child := by
      rw [Array.getElem?_push, if_neg (Nat.ne_of_lt hlt), hc]
    rw [hmodify, List.foldl_cons, List.foldl_nil, hn, spreadOptions, hchild]
    exact if_pos hhas

/-- What a lookbehind puts under itself is turned backward, and so is the lookbehind. -/
theorem lookBack_eq {kind : Kind} {child : Nat}
    (hbelow : ∀ (i : Nat) (e : Entry), b.entries[i]? = some e → ∀ c ∈ e.children, c < i)
    (hchild : child < b.entries.size) :
    Builder.lookBack kind child b = (b.entries.size, { b with
      entries := (b.turned child).entries.push ⟨kind, [child], b.options.union backward⟩ }) := by
  have hspread := spread_spreadOptions backward (child + 1) hbelow child (Nat.lt_succ_self child)
  obtain ⟨e, he, -⟩ := hspread.gains child _ (Array.getElem?_eq_getElem hchild)
  have hpush := spreadOptions_push kind b.options he
    (hspread.marked child List.mem_cons_self e he)
  rw [← hspread.size_eq]
  exact congrArg (fun entries => ((b.turned child).entries.size, { b with entries })) hpush

theorem Kept.lookBack {kind : Kind} {child : Nat} (h : Kept b ([child] ++ rest))
    (harity : kind.Allows 1) (hgroups : kind.groups = []) (hbounded : kind.Bounded)
    (hlook : kind.isLook = true) :
    Kept (Builder.lookBack kind child b).2 ((Builder.lookBack kind child b).1 :: rest) := by
  have hchild := h.sound.exists_free child List.mem_cons_self
  have hspread := spread_spreadOptions backward (child + 1) h.sound.below child
    (Nat.lt_succ_self child)
  rw [lookBack_eq h.sound.below hchild]
  have hkept : Kept { b with
      entries := (b.turned child).entries.push ⟨kind, [child], b.options.union backward⟩ }
        ((b.turned child).entries.size :: rest) := by
    refine pushEntry (b := b.turned child) (e := ⟨kind, [child], b.options.union backward⟩) (h.sound.spread hspread)
      (h.oriented.spread h.sound List.mem_cons_self hspread) ?_ ?_ harity
      (by rw [hgroups]; exact fun g hg => absurd hg List.not_mem_nil) hbounded ?_ ?_
      fun _ => .inr hlook
    · intro hrtl i e' he'
      obtain ⟨e, he, hgains⟩ := hspread.gained he'
      exact has_backward.1 (hgains.has (has_backward.2 (h.base hrtl i e he)))
    · intro i hi e' he' hrtl
      obtain ⟨e, he, hgains⟩ := hspread.gained he'
      rcases hspread.fresh i e e' he he' (has_backward.2 hrtl) with
        hold | hself | ⟨p, parent, hp, -, hmem⟩
      · rw [hgains.kind_eq]
        exact h.upright i (List.mem_append_right _ hi) e he (has_backward.1 hold)
      · rw [List.mem_singleton.1 hself] at hi
        have hnodup := (List.nodup_append.1 h.sound.once).1
        exact absurd hi (List.nodup_cons.1 hnodup).1
      · have hsound := h.sound.spread hspread
        exact absurd hmem (hsound.not_mem_children hp (List.mem_append_right _ hi))
    · intro c hc e' he'
      have hmarked := hspread.marked child List.mem_cons_self e'
        (List.mem_singleton.1 hc ▸ he')
      exact ⟨fun _ => has_backward.1 hmarked, fun _ => .inl (by simp [Options.union])⟩
    · intro _
      simp [Options.union]
  have hsize : (b.turned child).entries.size = b.entries.size := hspread.size_eq
  rw [hsize] at hkept
  exact hkept

theorem Kept.ignoreCase (h : Kept b free) (child : Nat) :
    Kept (Builder.ignoreCase child b).2 free := by
  have hspread := spread_spreadOptions { ignoreCase := true } (child + 1) h.sound.below child
    (Nat.lt_succ_self child)
  have hgained : ∀ (i : Nat) (e' : Entry), (Builder.ignoreCase child b).2.entries[i]? = some e' →
      ∃ e, b.entries[i]? = some e ∧ e'.kind = e.kind ∧ e'.children = e.children ∧
        e'.options.rightToLeft = e.options.rightToLeft := by
    intro i e' he'
    obtain ⟨e, he, hgains⟩ := hspread.gained he'
    exact ⟨e, he, hgains.kind_eq, hgains.children_eq, rightToLeft_of_gains rfl hgains⟩
  refine ⟨h.sound.spread hspread, ?_, ?_, ?_⟩
  · intro i e' he' c hc child' hchild'
    obtain ⟨e, he, -, hchildren, hrtl⟩ := hgained i e' he'
    obtain ⟨child₀, hchild₀, hkind, -, hrtl'⟩ := hgained c child' hchild'
    have horients := h.oriented i e he c (hchildren ▸ hc) child₀ hchild₀
    rw [Entry.Orients, hrtl, hrtl', hkind]
    exact horients
  · intro hbase i e' he'
    obtain ⟨e, he, -, -, hrtl⟩ := hgained i e' he'
    rw [hrtl]
    exact h.base hbase i e he
  · intro i hi e' he' hbackward
    obtain ⟨e, he, hkind, -, hrtl⟩ := hgained i e' he'
    rw [hkind]
    exact h.upright i hi e he (hrtl ▸ hbackward)

theorem kept_start (options : Options) : Kept { options } [] where
  sound :=
    { below := fun i e he => by cases he
      arity := fun i e he => by cases he
      groups := fun i e he => by cases he
      bounded := fun i e he => by cases he
      once := List.nodup_nil
      exists_free := fun i hi => absurd hi List.not_mem_nil }
  oriented i e he := by cases he
  base _ i e he := by cases he
  upright i hi := absurd hi List.not_mem_nil

theorem Kept.capture {child : Nat} (h : Kept b ([child] ++ rest)) (group : Nat) :
    Kept (Builder.capture group child b).2 ((Builder.capture group child b).1 :: rest) := by
  refine (h.noteGroup group).push [child] (.capture (some group) none) rfl
    (fun g hg => ?_) trivial
  rw [List.mem_singleton.1 hg]
  exact Nat.le_max_right _ _

theorem Kept.balancing {child : Nat} (h : Kept b ([child] ++ rest)) (group : Option Nat)
    (uncapture : Nat) :
    Kept (Builder.balancing group uncapture child b).2
      ((Builder.balancing group uncapture child b).1 :: rest) := by
  cases group with
  | none =>
    refine (h.noteGroup uncapture).push [child] (.capture none (some uncapture)) rfl
      (fun g hg => ?_) trivial
    rw [List.mem_singleton.1 hg]
    exact Nat.le_max_right _ _
  | some group =>
    refine ((h.noteGroup group).noteGroup uncapture).push [child]
      (.capture (some group) (some uncapture)) rfl (fun g hg => ?_) trivial
    rcases List.mem_cons.1 hg with rfl | hg
    · exact Nat.le_trans (Nat.le_max_right _ _) (Nat.le_max_left _ _)
    · rw [List.mem_singleton.1 hg]
      exact Nat.le_max_right _ _

/-- Every call keeps it up. -/
theorem Kept.call (h : Kept b free) {c : Call} (hc : c.Accepted)
    (hgiven : free.Perm (c.given ++ rest)) : Kept (c.run b).2 ((c.run b).1 :: rest) := by
  have hb := h.perm hgiven
  have hnone : ∀ {P : Nat → Prop}, ∀ g ∈ ([] : List Nat), P g :=
    fun g hg => absurd hg List.not_mem_nil
  cases c with
  | empty => exact hb.push [] .empty rfl hnone trivial
  | nothing => exact hb.push [] .nothing rfl hnone trivial
  | atom a => exact hb.push [] (.char a) rfl hnone trivial
  | multi chars =>
    match chars with
    | [] => exact hb.push [] .empty rfl hnone trivial
    | [c] => exact hb.push [] (.char (.one c)) rfl hnone trivial
    | c :: d :: chars => exact hb.push [] (.multi (c :: d :: chars)) rfl hnone trivial
  | anchor a => exact hb.push [] (.anchor a) rfl hnone trivial
  | quantify child min max isLazy => exact hb.quantify isLazy hc
  | capture group child => exact hb.capture group
  | namedCapture group name child =>
    have hnamed : Kept { b with names := b.names.insert name group } ([child] ++ rest) :=
      ⟨hb.sound, hb.oriented, hb.base, hb.upright⟩
    exact hnamed.capture group
  | balancing group uncapture child => exact hb.balancing group uncapture
  | concat children =>
    match children with
    | [] => exact hb.push [] .empty rfl hnone trivial
    | [c] => exact hb
    | c :: d :: children =>
      exact hb.push (c :: d :: children) .concat (Nat.succ_pos _) hnone trivial
  | alternate children =>
    match children with
    | [] => exact hb.push [] .nothing rfl hnone trivial
    | [c] => exact hb
    | c :: d :: children =>
      exact hb.push (c :: d :: children) .alternate (Nat.succ_pos _) hnone trivial
  | atomic child => exact hb.push [child] .atomic rfl hnone trivial
  | backreference group =>
    exact (hb.noteGroup group).push [] (.backreference group) rfl
      (fun g hg => by
        rw [List.mem_singleton.1 hg]
        exact Nat.le_max_right _ _) trivial
  | lookahead child => exact hb.push [child] .positiveLook rfl hnone trivial
  | negativeLookahead child => exact hb.push [child] .negativeLook rfl hnone trivial
  | lookbehind child => exact hb.lookBack rfl rfl trivial rfl
  | negativeLookbehind child => exact hb.lookBack rfl rfl trivial rfl
  | backreferenceConditional group yes no =>
    refine (hb.noteGroup group).push (yes :: no.toList) (.backreferenceConditional group)
      ?_ (fun g hg => ?_) trivial
    · cases no with
      | none => exact .inl rfl
      | some n => exact .inr rfl
    · rw [List.mem_singleton.1 hg]
      exact Nat.le_max_right _ _
  | expressionConditional condition yes no =>
    refine hb.push (condition :: yes :: no.toList) .expressionConditional ?_ hnone trivial
    cases no with
    | none => exact .inl rfl
    | some n => exact .inr rfl

theorem kept_of_unshared {options : Options} (h : Unshared options b free) : Kept b free := by
  induction h with
  | start => exact kept_start options
  | call _ c accepted hgiven ih => exact ih.call accepted hgiven
  | ignoreCase _ _ ih => exact ih.ignoreCase _

end Builder

end RegexMachine
