import RegexMachine.Proofs.Tree.Finished

/-!
# Trees with shared nodes

A builder lets a node be given to any number of calls, and the node then occurs in several places of
the tree. What the layout needs of a tree is kept up all the same: it is said of each entry alone.
-/

namespace RegexMachine

/-- Builders after any calls that were given nodes made before, each to any number of them. -/
inductive Builder.Built (options : Options) : Builder → Prop
  | start : Built options { options }
  | call {b : Builder} (h : Built options b) (c : Call)
      (hgiven : ∀ i ∈ c.given, i < b.entries.size) : Built options (c.run b).2
  | ignoreCase {b : Builder} (h : Built options b) {child : Nat}
      (hchild : child < b.entries.size) : Built options ((Builder.ignoreCase child).run b).2

/-- Trees that were finished from such a builder around any of its nodes. -/
def Tree.Built (t : Tree) : Prop :=
  ∃ options b body, Builder.Built options b ∧ body < b.entries.size ∧ t = b.finish body

/-- What any calls keep up among entries: an entry has the earlier entries under it that its
construct needs, and speaks of groups in range. -/
structure Builder.Compilable (entries : Array Entry) (maxGroup : Nat) : Prop where
  below : ∀ (i : Nat) (e : Entry), entries[i]? = some e → ∀ c ∈ e.children, c < i
  arity : ∀ (i : Nat) (e : Entry), entries[i]? = some e → e.kind.Allows e.children.length
  groups : ∀ (i : Nat) (e : Entry), entries[i]? = some e → ∀ g ∈ e.kind.groups, g ≤ maxGroup

/-- What the layout relies on in a tree. -/
structure Tree.Compilable (t : Tree) : Prop where
  arity : ∀ x ∈ t.root.preorder, x.Arity
  groups : ∀ x ∈ t.root.preorder, ∀ g ∈ x.kind.groups, g < t.groupCount

namespace Builder

variable {entries entries' : Array Entry} {maxGroup : Nat} {b : Builder}

theorem Compilable.spread {added : Options} {ids : List Nat} (h : Compilable entries maxGroup)
    (hspread : Spread added ids entries entries') : Compilable entries' maxGroup where
  below := hspread.below h.below
  arity i e he := by
    obtain ⟨e', he', hgains⟩ := hspread.gained he
    rw [hgains.kind_eq, hgains.children_eq]
    exact h.arity i e' he'
  groups i e he := by
    obtain ⟨e', he', hgains⟩ := hspread.gained he
    rw [hgains.kind_eq]
    exact h.groups i e' he'

theorem Compilable.mono (h : Compilable entries maxGroup) {maxGroup' : Nat}
    (hle : maxGroup ≤ maxGroup') :
    Compilable entries maxGroup' :=
  { h with groups := fun i e he g hg => Nat.le_trans (h.groups i e he g hg) hle }

/-- A new entry above any that are there. -/
theorem Compilable.push (h : Compilable entries maxGroup) (kind : Kind) {children : List Nat}
    (options : Options) (hchildren : ∀ c ∈ children, c < entries.size)
    (harity : kind.Allows children.length) (hgroups : ∀ g ∈ kind.groups, g ≤ maxGroup) :
    Compilable (entries.push ⟨kind, children, options⟩) maxGroup where
  below := forall_push (P := fun i e => ∀ c ∈ e.children, c < i) hchildren h.below
  arity := forall_push (P := fun _ e => e.kind.Allows e.children.length) harity h.arity
  groups := forall_push (P := fun _ e => ∀ g ∈ e.kind.groups, g ≤ maxGroup) hgroups h.groups

theorem Compilable.ignoreCase (h : Compilable b.entries b.maxGroup) (child : Nat) :
    Compilable (Builder.ignoreCase child b).2.entries (Builder.ignoreCase child b).2.maxGroup :=
  h.spread (spread_spreadOptions { ignoreCase := true } (child + 1) h.below child
    (Nat.lt_succ_self child))

theorem Compilable.lookBack (h : Compilable b.entries b.maxGroup) {kind : Kind} {child : Nat}
    (hchild : child < b.entries.size) (harity : kind.Allows 1) (hgroups : kind.groups = []) :
    Compilable (Builder.lookBack kind child b).2.entries (Builder.lookBack kind child b).2.maxGroup := by
  have hspread := spread_spreadOptions backward (child + 1) h.below child (Nat.lt_succ_self child)
  have hgiven : ∀ c ∈ [child], c < (b.turned child).entries.size := by
    intro c hc
    show c < (spreadOptions backward (child + 1) b.entries child).size
    rw [List.mem_singleton.1 hc, hspread.size_eq]
    exact hchild
  rw [lookBack_eq h.below hchild]
  apply (h.spread hspread).push kind (b.options.union backward) hgiven harity
  rw [hgroups]
  exact fun g hg => absurd hg List.not_mem_nil

theorem Compilable.quantify (h : Compilable b.entries b.maxGroup) {child : Nat}
    (hchild : child < b.entries.size) (min max : Nat) (isLazy : Bool) :
    Compilable (Builder.quantify child min max isLazy b).2.entries
      (Builder.quantify child min max isLazy b).2.maxGroup := by
  have hnone : ∀ g ∈ ([] : List Nat), g ≤ b.maxGroup := fun g hg => absurd hg List.not_mem_nil
  rcases quantify_cases child min max isLazy b with ⟨-, -, hsame⟩ | ⟨a, _, options, -, hchar⟩ | hloop
  · rw [hsame]
    exact h
  · rw [hchar]
    exact h.push (.charLoop a min max isLazy) options (fun c hc => absurd hc List.not_mem_nil) rfl hnone
  · rw [hloop]
    exact h.push (.loop min max isLazy) b.options (by simpa using hchild) rfl hnone

/-- Every call keeps it up, whatever nodes it is given. -/
theorem Compilable.call (h : Compilable b.entries b.maxGroup) (c : Call)
    (hgiven : ∀ i ∈ c.given, i < b.entries.size) :
    Compilable (c.run b).2.entries (c.run b).2.maxGroup := by
  have hnone : ∀ {P : Nat → Prop}, ∀ g ∈ ([] : List Nat), P g :=
    fun g hg => absurd hg List.not_mem_nil
  cases c with
  | empty => exact h.push .empty b.options hnone rfl hnone
  | nothing => exact h.push .nothing b.options hnone rfl hnone
  | atom a => exact h.push (.char a) b.options hnone rfl hnone
  | anchor a => exact h.push (.anchor a) b.options hnone rfl hnone
  | multi chars =>
    match chars with
    | [] => exact h.push .empty b.options hnone rfl hnone
    | [c] => exact h.push (.char (.one c)) b.options hnone rfl hnone
    | c :: d :: chars => exact h.push (.multi (c :: d :: chars)) b.options hnone rfl hnone
  | quantify child min max isLazy =>
    exact h.quantify (hgiven child List.mem_cons_self) min max isLazy
  | concat children =>
    match children with
    | [] => exact h.push .empty b.options hnone rfl hnone
    | [c] => exact h
    | c :: d :: children => exact h.push .concat b.options hgiven (Nat.succ_pos _) hnone
  | alternate children =>
    match children with
    | [] => exact h.push .nothing b.options hnone rfl hnone
    | [c] => exact h
    | c :: d :: children => exact h.push .alternate b.options hgiven (Nat.succ_pos _) hnone
  | capture group child | namedCapture group name child =>
    apply (h.mono (Nat.le_max_left _ group)).push (.capture (some group) none) b.options hgiven rfl
    intro g hg
    rw [List.mem_singleton.1 hg]
    exact Nat.le_max_right _ _
  | balancing group uncapture child =>
    cases group with
    | none =>
      apply (h.mono (Nat.le_max_left _ uncapture)).push (.capture none (some uncapture)) b.options
        hgiven rfl
      intro g hg
      rw [List.mem_singleton.1 hg]
      exact Nat.le_max_right _ _
    | some group =>
      apply ((h.mono (Nat.le_max_left _ group)).mono (Nat.le_max_left _ uncapture)).push
        (.capture (some group) (some uncapture)) b.options hgiven rfl
      intro g hg
      rcases List.mem_cons.1 hg with rfl | hg
      · exact Nat.le_trans (Nat.le_max_right _ _) (Nat.le_max_left _ _)
      · rw [List.mem_singleton.1 hg]
        exact Nat.le_max_right _ _
  | backreference group =>
    apply (h.mono (Nat.le_max_left _ group)).push (.backreference group) b.options hnone rfl
    intro g hg
    rw [List.mem_singleton.1 hg]
    exact Nat.le_max_right _ _
  | atomic child => exact h.push .atomic b.options hgiven rfl hnone
  | lookahead child => exact h.push .positiveLook b.options hgiven rfl hnone
  | negativeLookahead child => exact h.push .negativeLook b.options hgiven rfl hnone
  | lookbehind child | negativeLookbehind child =>
    exact h.lookBack (hgiven child List.mem_cons_self) rfl rfl
  | backreferenceConditional group yes no =>
    apply (h.mono (Nat.le_max_left _ group)).push (.backreferenceConditional group) b.options hgiven
    · cases no with
      | none => exact .inl rfl
      | some n => exact .inr rfl
    · intro g hg
      rw [List.mem_singleton.1 hg]
      exact Nat.le_max_right _ _
  | expressionConditional condition yes no =>
    apply h.push .expressionConditional b.options hgiven ?_ hnone
    cases no with
    | none => exact .inl rfl
    | some n => exact .inr rfl

theorem compilable_of_built {options : Options} (h : Built options b) :
    Compilable b.entries b.maxGroup := by
  induction h with
  | start =>
    constructor <;> intro i e he <;> cases he
  | call _ c hgiven ih => exact ih.call c hgiven
  | ignoreCase _ _ ih => exact ih.ignoreCase _

/-- Calls that give no node away twice are such calls. -/
theorem Unshared.built {options : Options} {free : List Nat} (h : Unshared options b free) :
    Built options b := by
  induction h with
  | start => exact .start
  | call hunshared c _ hperm ih =>
    exact ih.call c fun i hi => (kept_of_unshared hunshared).sound.exists_free i
      (hperm.mem_iff.2 (List.mem_append_left _ hi))
  | ignoreCase _ hchild ih => exact ih.ignoreCase hchild

theorem Compilable.finish (h : Compilable b.entries b.maxGroup) {body : Nat}
    (hbody : body < b.entries.size) : (b.finish body).Compilable := by
  obtain ⟨n, hn, hroot⟩ := finish_root hbody
  have hentry : ∀ x ∈ n.preorder, ∃ e, b.entries[x.id]? = some e ∧ x.kind = e.kind ∧
      x.children.length = e.children.length := by
    intro x hx
    obtain ⟨e, he, -, -, hkind, hids, -⟩ :=
      node_of_nodes h.below (mem_preorder_of_nodes h.below hn x hx).1
    exact ⟨e, he, hkind, by rw [← hids, List.length_map]⟩
  constructor
  · rw [hroot, Node.forall_preorder_node]
    refine ⟨rfl, fun c hc x hx => ?_⟩
    rw [List.mem_singleton.1 hc] at hx
    obtain ⟨e, he, hkind, hlength⟩ := hentry x hx
    rw [Node.Arity, hkind, hlength]
    exact h.arity x.id e he
  · rw [hroot, Node.forall_preorder_node]
    constructor
    · intro g hg
      rw [List.mem_singleton.1 hg]
      exact Nat.succ_pos _
    · intro c hc x hx g hg
      rw [List.mem_singleton.1 hc] at hx
      obtain ⟨e, he, hkind, -⟩ := hentry x hx
      exact Nat.lt_succ_of_le (h.groups x.id e he g (hkind ▸ hg))

/-- The root has the last number, and what is under it was built before. -/
theorem Compilable.id_lt (h : Compilable b.entries b.maxGroup) {body : Nat}
    (hbody : body < b.entries.size) :
    ∀ x ∈ (b.finish body).root.preorder, x.id < (b.finish body).nodeCount := by
  have hcount : (b.finish body).nodeCount = b.entries.size + 1 := Array.size_push _
  obtain ⟨n, hn, hroot⟩ := finish_root hbody
  rw [hcount, hroot, Node.forall_preorder_node]
  refine ⟨Nat.lt_succ_self _, fun c hc x hx => ?_⟩
  rw [List.mem_singleton.1 hc] at hx
  obtain ⟨e, he, -⟩ := node_of_nodes h.below (mem_preorder_of_nodes h.below hn x hx).1
  exact Nat.lt_succ_of_lt (Array.getElem?_eq_some_iff.1 he).1

end Builder

namespace Tree.Built

/-- Every tree that a builder makes has what the layout relies on. -/
theorem compilable {t : Tree} (h : t.Built) : t.Compilable := by
  obtain ⟨options, b, body, hbuilt, hbody, rfl⟩ := h
  exact (Builder.compilable_of_built hbuilt).finish hbody

theorem id_lt {t : Tree} (h : t.Built) : ∀ x ∈ t.root.preorder, x.id < t.nodeCount := by
  obtain ⟨options, b, body, hbuilt, hbody, rfl⟩ := h
  exact (Builder.compilable_of_built hbuilt).id_lt hbody

end Tree.Built

end RegexMachine
