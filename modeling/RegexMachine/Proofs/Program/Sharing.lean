import RegexMachine.Proofs.Program.Tails
import RegexMachine.Proofs.Tree.Shared
import RegexMachine.Proofs.Tree.Unfolding

/-!
# Shared nodes

The layout of a node depends on its number in one way: through what the analysis says of its position.
That is asked of a repeated character that has an optional part and of the body of an atomic group, and
such a body is always in atomic position. So a tree is compiled like its unfolding unless a repeated
character stands both in atomic position and out of it. It is then in atomic position for the layout
wherever it stands, and loses counts that the unfolding can go back to.
-/

namespace RegexMachine

/-- What two analyses answer alike at two occurrences of one shape: all that the layout asks there. -/
structure Analysis.Concurs (a a' : Analysis) (x x' : Node) : Prop where
  tail : x.kind.hasTail = true → a.isAtomicByAncestor x.id = a'.isAtomicByAncestor x'.id
  body : x.kind = .atomic → ∀ c ∈ x.children, ∀ c' ∈ x'.children,
    a.isAtomicByAncestor c.id = a'.isAtomicByAncestor c'.id

namespace LayoutContext

variable {a a' : Analysis} (culture : Culture)

theorem leaf_eq {id id' : Nat} {options : Options} {kind : Kind} (harity : kind.Allows 0)
    (htail : kind.hasTail = true → a.isAtomicByAncestor id = a'.isAtomicByAncestor id') :
    leaf ⟨a, culture⟩ id options kind = leaf ⟨a', culture⟩ id' options kind := by
  cases kind with
  | empty | nothing | multi _ | backreference _ | anchor _ | char _ => rfl
  | charLoop atom min max isLazy =>
    funext assembly
    have htest : test ⟨a, culture⟩ options.ignoreCase atom assembly =
      test ⟨a', culture⟩ options.ignoreCase atom assembly := rfl
    simp only [leaf, charLoop, htest]
    by_cases hlt : min < max
    · rw [htail (decide_eq_true hlt)]
    · rw [if_neg hlt, if_neg hlt]
  | concat | alternate => exact absurd harity (Nat.lt_irrefl 0)
  | loop | capture | atomic | positiveLook | negativeLook => cases harity
  | backreferenceConditional | expressionConditional =>
    rcases harity with h | h
    · cases h
    · cases h

theorem needsFrame_eq {c c' : Node} (hkind : c.kind = c'.kind)
    (hanswer : a.isAtomicByAncestor c.id = a'.isAtomicByAncestor c'.id) :
    needsFrame ⟨a, culture⟩ c = needsFrame ⟨a', culture⟩ c' := by
  rw [needsFrame, needsFrame, ← hkind]
  cases c.kind with
  | charLoop atom min max isLazy => exact congrArg (!·) hanswer
  | _ => rfl

theorem construct_eq {id id' : Nat} {options : Options} {kind : Kind} {children children' : List Node}
    {parts : List Emitter} (hlength : parts.length = children.length) (hne : children ≠ [])
    (harity : kind.Allows children.length)
    (hframe : kind = .atomic → ∀ c c', children = [c] → children' = [c'] →
      needsFrame ⟨a, culture⟩ c = needsFrame ⟨a', culture⟩ c')
    (hlength' : children.length = children'.length) :
    construct ⟨a, culture⟩ id options kind children parts =
      construct ⟨a', culture⟩ id' options kind children' parts := by
  have hpos : 0 < children.length := List.length_pos_of_ne_nil hne
  cases kind with
  | concat | alternate => rfl
  | loop | capture | positiveLook | negativeLook =>
    obtain ⟨part, rfl⟩ := List.length_eq_one_iff.1 (hlength.trans harity)
    rfl
  | atomic =>
    obtain ⟨part, rfl⟩ := List.length_eq_one_iff.1 (hlength.trans harity)
    obtain ⟨c, rfl⟩ := List.length_eq_one_iff.1 harity
    obtain ⟨c', rfl⟩ := List.length_eq_one_iff.1 (hlength'.symm.trans harity)
    funext assembly
    rw [construct, construct, hframe rfl c c' rfl rfl]
  | backreferenceConditional group =>
    rcases harity with h | h
    · obtain ⟨yes, rfl⟩ := List.length_eq_one_iff.1 (hlength.trans h)
      rfl
    · obtain ⟨yes, no, rfl⟩ := List.length_eq_two.1 (hlength.trans h)
      rfl
  | expressionConditional =>
    rcases harity with h | h
    · obtain ⟨condition, yes, rfl⟩ := List.length_eq_two.1 (hlength.trans h)
      rfl
    · obtain ⟨condition, yes, no, rfl⟩ := List.length_eq_three.1 (hlength.trans h)
      rfl
  | empty | nothing | char _ | multi _ | charLoop _ _ _ _ | backreference _ | anchor _ =>
    have hzero : children.length = 0 := harity
    omega

theorem emitNode_eq {n n' : Node} (h : n.Alike (a.Concurs a') n')
    (harity : ∀ x ∈ n.preorder, x.Arity) :
    emitNode ⟨a, culture⟩ n = emitNode ⟨a', culture⟩ n' := by
  refine Node.Alike.induction (P := fun n n' => (∀ x ∈ n.preorder, x.Arity) →
    emitNode ⟨a, culture⟩ n = emitNode ⟨a', culture⟩ n') ?_ h harity
  intro id id' options kind children children' hself hchildren harity
  obtain ⟨hallows, hunder⟩ := Node.forall_preorder_node.1 harity
  funext assembly
  have hparts : emitters ⟨a, culture⟩ children = emitters ⟨a', culture⟩ children' := by
    clear hself hallows harity
    induction hchildren with
    | nil => rfl
    | cons hc _ ih =>
      rw [emitters, emitters, hc.2 (hunder _ List.mem_cons_self),
        ih fun d hd => hunder d (List.mem_cons_of_mem _ hd)]
  cases hchildren with
  | nil => exact congrFun (leaf_eq culture hallows hself.tail) assembly
  | @cons c c' rest rest' hc hrest =>
    rw [emitNode, emitNode, ← hparts]
    refine congrFun (construct_eq culture ?_ (List.cons_ne_nil c rest) hallows ?_ ?_) assembly
    · rw [emitters_eq_map, List.length_map]
    · rintro hkind d d' hd hd'
      obtain ⟨rfl, -⟩ := List.cons.inj hd
      obtain ⟨rfl, -⟩ := List.cons.inj hd'
      exact needsFrame_eq culture hc.1.kind_eq
        (hself.body hkind c List.mem_cons_self c' List.mem_cons_self)
    · exact congrArg (· + 1) hrest.length_eq

end LayoutContext

namespace Node.Alike

variable {R : Node → Node → Prop} {n n' : Node}

theorem isEmpty_eq (h : n.Alike R n') : n.isEmpty = n'.isEmpty := by
  rw [Node.isEmpty, Node.isEmpty, h.kind_eq]

theorem leading_eq (h : n.Alike R n') (culture : Culture) :
    FilterMode.leading culture n = FilterMode.leading culture n' := by
  refine Alike.induction
    (P := fun n n' => FilterMode.leading culture n = FilterMode.leading culture n') ?_ h
  rintro id id' options kind children children' - hchildren
  have hin : FilterMode.leadingIn culture children = FilterMode.leadingIn culture children' := by
    induction hchildren with
    | nil => rfl
    | cons hc _ ih => rw [FilterMode.leadingIn, FilterMode.leadingIn, hc.1.isEmpty_eq, hc.2, ih]
  unfold FilterMode.leading
  rw [hin]

theorem trailing_eq (h : n.Alike R n') : FilterMode.trailing n = FilterMode.trailing n' := by
  refine Alike.induction (P := fun n n' => FilterMode.trailing n = FilterMode.trailing n') ?_ h
  rintro id id' options kind children children' - hchildren
  have hin : FilterMode.trailingIn children = FilterMode.trailingIn children' := by
    induction hchildren with
    | nil => rfl
    | cons hc _ ih => rw [FilterMode.trailingIn, FilterMode.trailingIn, hc.1.isEmpty_eq, hc.2, ih]
  unfold FilterMode.trailing
  rw [hin]

end Node.Alike

namespace Tree

/-- No repeated character that has an optional part stands both in atomic position and out of it. -/
def Unmixed (t : Tree) : Prop :=
  ∀ p ∈ t.root.positions true, ∀ q ∈ t.root.positions true,
    p.1.id = q.1.id → p.2 = true → q.2 = false → q.1.kind.hasTail = false

instance (t : Tree) : Decidable t.Unmixed :=
  inferInstanceAs (Decidable (∀ p ∈ t.root.positions true, ∀ q ∈ t.root.positions true,
    p.1.id = q.1.id → p.2 = true → q.2 = false → q.1.kind.hasTail = false))

variable {t : Tree} {depthLimit : Nat}

/-- What the analysis answers in an unmixed tree is the position of any occurrence. -/
theorem Unmixed.answer_eq (h : t.Unmixed) (hlow : t.root.height ≤ depthLimit)
    (hid : ∀ x ∈ t.root.preorder, x.id < t.nodeCount) {x : Node} {a : Bool}
    (hx : (x, a) ∈ t.root.positions true) (htail : x.kind.hasTail = true) :
    (Analysis.ofTree t depthLimit).isAtomicByAncestor x.id = a := by
  have hiff := Analysis.isAtomicByAncestor_iff hlow (hid x (Node.mem_preorder_of_position hx))
  cases a with
  | true => exact hiff.2 ⟨x, hx, rfl⟩
  | false =>
    refine Bool.eq_false_iff.2 fun hanswer => ?_
    obtain ⟨y, hy, hsame⟩ := hiff.1 hanswer
    have hnone := h _ hy _ hx hsame rfl rfl
    rw [htail] at hnone
    cases hnone

/-- The analyses of a tree and of its unfolding answer alike, at every place, all that the layout asks. -/
theorem concurs_unfolded (hid : ∀ x ∈ t.root.preorder, x.id < t.nodeCount)
    (h : t.root.height ≤ depthLimit → t.Unmixed) :
    t.root.Alike ((Analysis.ofTree t depthLimit).Concurs (Analysis.ofTree t.unfolded depthLimit))
      t.unfolded.root := by
  have hheight := t.sameShape_unfolded.height_eq
  refine Node.Alike.of_positions t.sameShape_unfolded true fun x x' a hx hx' hshape => ?_
  rcases Nat.lt_or_ge depthLimit t.root.height with hhigh | hlow
  · have hsilent := fun id => Analysis.isAtomicByAncestor_of_lt hhigh id
    have hsilent' := fun id => Analysis.isAtomicByAncestor_of_lt (hheight ▸ hhigh) id
    exact ⟨fun _ => by rw [hsilent, hsilent'], fun _ c _ c' _ => by rw [hsilent, hsilent']⟩
  · have hlow' : t.unfolded.root.height ≤ depthLimit := hheight ▸ hlow
    have hanswer' := fun {x a} => Analysis.isAtomicByAncestor_of_nodup (x := x) (a := a) hlow'
      t.id_lt_unfolded t.nodup_unfolded
    constructor
    · intro htail
      rw [(h hlow).answer_eq hlow hid hx htail, hanswer' hx']
    · intro hkind c hc c' hc'
      have hbody := Node.mem_positions_body (Node.mem_preorder_of_position hx) hkind hc true
      have hbody' := Node.mem_positions_body (Node.mem_preorder_of_position hx')
        (hshape.kind_eq ▸ hkind) hc' true
      have hinside := hid c (Node.mem_preorder_of_position hbody)
      rw [(Analysis.isAtomicByAncestor_iff hlow hinside).2 ⟨c, hbody, rfl⟩, hanswer' hbody']

end Tree

/-- A tree that is low enough to be analysed compiles, whether that is asked for or not. -/
theorem Program.compile_total_of_low {t : Tree} (harity : ∀ x ∈ t.root.preorder, x.Arity)
    (culture : Culture) (config : CompileConfig) (hlow : t.root.height ≤ config.analysisDepthLimit) :
    ∃ program, Program.compile t culture config = .ok program := by
  obtain ⟨program, hprogram⟩ :=
    Program.compile_total harity culture { config with strictAnalysis := false } rfl
  refine ⟨program, ?_⟩
  rw [← hprogram]
  simp only [Program.compile, Analysis.isComplete_ofTree, decide_eq_true hlow, Bool.not_true,
    Bool.false_and]

/-- Where the analyses of a tree and of its unfolding answer alike, the programs are the same. -/
theorem Program.compile_of_concurs {t : Tree} (culture : Culture) (config : CompileConfig)
    (harity : ∀ x ∈ t.root.preorder, x.Arity)
    (h : t.root.Alike ((Analysis.ofTree t config.analysisDepthLimit).Concurs
      (Analysis.ofTree t.unfolded config.analysisDepthLimit)) t.unfolded.root) :
    Program.compile t.unfolded culture config = (Program.compile t culture config).map
      fun p => { p with analysis := Analysis.ofTree t.unfolded config.analysisDepthLimit } := by
  have hcomplete : (Analysis.ofTree t.unfolded config.analysisDepthLimit).isComplete =
      (Analysis.ofTree t config.analysisDepthLimit).isComplete := by
    rw [Analysis.isComplete_ofTree, Analysis.isComplete_ofTree, h.height_eq]
  have hfilter : StartFilter.ofTree t.unfolded culture = StartFilter.ofTree t culture := by
    rw [StartFilter.ofTree, StartFilter.ofTree, h.leading_eq, h.trailing_eq]
    rfl
  have hemit : LayoutContext.emitPattern
      { analysis := Analysis.ofTree t.unfolded config.analysisDepthLimit, culture } t.unfolded.root =
      LayoutContext.emitPattern
        { analysis := Analysis.ofTree t config.analysisDepthLimit, culture } t.root := by
    unfold LayoutContext.emitPattern
    rw [LayoutContext.emitNode_eq culture h harity]
  simp only [Program.compile_eq, hcomplete, hfilter, hemit]
  split
  · rfl
  · cases LayoutContext.emitPattern
      { analysis := Analysis.ofTree t config.analysisDepthLimit, culture } t.root {} <;> rfl

/-- Of two conditions, one at least as strict as the other, that hold equally often, both hold of the
same. -/
theorem all_of_countP_eq {α : Type} {p q : α → Bool} {l : List α}
    (himp : ∀ x ∈ l, p x = true → q x = true) (h : l.countP p = l.countP q) :
    ∀ x ∈ l, q x = true → p x = true := by
  have hall : (l.filter q).countP p = (l.filter q).length := by
    rw [List.countP_filter, ← List.countP_eq_length_filter, ← h]
    refine List.countP_congr fun x hx => ?_
    rw [Bool.and_eq_true]
    exact ⟨And.left, fun hp => ⟨hp, himp x hx hp⟩⟩
  intro x hx hq
  exact List.countP_eq_length.1 hall x (List.mem_filter.2 ⟨hx, hq⟩)

namespace Tree

variable {t : Tree}

/-- In an unfolded tree, counts to go back to are left at every occurrence out of atomic position. -/
theorem countP_unfolded {depthLimit : Nat} (hlow : t.root.height ≤ depthLimit) :
    t.unfolded.root.preorder.countP (Analysis.ofTree t.unfolded depthLimit).leavesTail =
      (t.root.positions true).countP fun p => p.1.kind.hasTail && !p.2 := by
  have hlow' : t.unfolded.root.height ≤ depthLimit := t.sameShape_unfolded.height_eq ▸ hlow
  have hplaces : ((t.root.positions true).map fun p => (p.1.kind, p.2)).countP
      (fun k => k.1.hasTail && !k.2) = ((t.unfolded.root.positions true).map fun p =>
        (p.1.kind, p.2)).countP fun k => k.1.hasTail && !k.2 := by
    rw [t.sameShape_unfolded.positions_eq]
  rw [List.countP_map, List.countP_map] at hplaces
  rw [← t.unfolded.root.map_positions true, List.countP_map]
  refine (List.countP_congr fun ⟨x, a⟩ hx => ?_).trans hplaces.symm
  have hanswer := Analysis.isAtomicByAncestor_of_nodup hlow' t.id_lt_unfolded t.nodup_unfolded hx
  rw [Function.comp_apply, Analysis.leavesTail, hanswer]
  rfl

/-- A tree that leaves as many counts to go back to as its unfolding is unmixed. -/
theorem unmixed_of_countP {depthLimit : Nat} (hlow : t.root.height ≤ depthLimit)
    (hid : ∀ x ∈ t.root.preorder, x.id < t.nodeCount)
    (h : t.root.preorder.countP (Analysis.ofTree t depthLimit).leavesTail =
      t.unfolded.root.preorder.countP (Analysis.ofTree t.unfolded depthLimit).leavesTail) :
    t.Unmixed := by
  have hanswer : ∀ p ∈ t.root.positions true, ∀ q ∈ t.root.positions true, p.1.id = q.1.id →
      p.2 = true → (Analysis.ofTree t depthLimit).leavesTail q.1 = false := by
    rintro ⟨y, _⟩ hy ⟨x, a⟩ hx hsame rfl
    have hfound := (Analysis.isAtomicByAncestor_iff hlow
      (hid x (Node.mem_preorder_of_position hx))).2 ⟨y, hy, hsame⟩
    rw [Analysis.leavesTail, hfound, Bool.not_true, Bool.and_false]
  rw [countP_unfolded hlow, ← t.root.map_positions true, List.countP_map] at h
  have hall := all_of_countP_eq (fun p hp hleaves => ?_) h
  · intro p hp q hq hsame hin hout
    refine Bool.eq_false_iff.2 fun htail => ?_
    have hleaves := hall q hq (by rw [htail, hout]; rfl)
    exact Bool.false_ne_true ((hanswer p hp q hq hsame hin).symm.trans hleaves)
  · have hout : p.2 = false := by
      refine Bool.eq_false_iff.2 fun hin => ?_
      exact Bool.false_ne_true ((hanswer p hp p hp rfl hin).symm.trans hleaves)
    have htail : p.1.kind.hasTail = true := (Bool.and_eq_true_iff.1 hleaves).1
    rw [htail, hout]
    rfl

/-- A tree that a builder made is compiled like its unfolding, if it is unmixed or too high to be
analysed, and in no other case. -/
theorem Built.compile_unfolded_iff (h : t.Built) (culture : Culture) (config : CompileConfig) :
    Program.compile t.unfolded culture config = (Program.compile t culture config).map
      (fun p => { p with analysis := Analysis.ofTree t.unfolded config.analysisDepthLimit }) ↔
      (t.root.height ≤ config.analysisDepthLimit → t.Unmixed) := by
  constructor
  · intro hsame hlow
    obtain ⟨program, hprogram⟩ := Program.compile_total_of_low h.compilable.arity culture config hlow
    rw [hprogram] at hsame
    refine unmixed_of_countP hlow h.id_lt ?_
    rw [← Program.countP_of_compile hprogram, ← Program.countP_of_compile hsame]
  · intro hunmixed
    exact Program.compile_of_concurs culture config h.compilable.arity (concurs_unfolded h.id_lt hunmixed)

end Tree

/-- The pattern `a{1,2}a{1,2}` with both repetitions one node. -/
def sharedRun : Tree :=
  Tree.build {} do
    let a ← Builder.one 'a'
    let run ← Builder.repeated a 1 2
    Builder.concat [run, run]

/-- The last repetition is in atomic position and the first is not. -/
theorem sharedRun_mixed : ¬ sharedRun.Unmixed := by decide +kernel

theorem built_sharedRun : sharedRun.Built := by
  have hstart : Builder.Built {} { options := {} } := .start
  have hone := hstart.call (.atom (.one 'a')) nofun
  have hrun := hone.call (.quantify 0 1 2 false) (by decide)
  exact ⟨{}, _, 2, hrun.call (.concat [1, 1]) (by decide), by decide, rfl⟩

/-- The first repetition of the program of `sharedRun` does not give back what it took. -/
theorem compile_sharedRun : Program.compile sharedRun.unfolded .invariant {} ≠
    (Program.compile sharedRun .invariant {}).map
      fun p => { p with analysis := Analysis.ofTree sharedRun.unfolded Analysis.defaultDepthLimit } := by
  intro hsame
  have hunmixed := (built_sharedRun.compile_unfolded_iff .invariant {}).1 hsame
  exact sharedRun_mixed (hunmixed (by decide +kernel))

/-- Before a letter, neither repetition is in atomic position. -/
example : (Tree.build {} do
    let a ← Builder.one 'a'
    let run ← Builder.repeated a 1 2
    Builder.concat [run, run, ← Builder.one 'b']).Unmixed := by decide +kernel

end RegexMachine
