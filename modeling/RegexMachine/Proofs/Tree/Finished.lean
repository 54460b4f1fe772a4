import Mathlib.Data.List.Induction
import Mathlib.Data.List.Nodup
import Mathlib.Logic.Relation
import RegexMachine.Proofs.Tree.Construction
import RegexMachine.Proofs.Tree.Occurrences

/-!
# Finished trees

The entries of a builder become the nodes of a tree. An occurrence in the tree is the node of its
number, so what holds of the entries holds of the occurrences, and no number occurs twice.
-/

namespace RegexMachine

namespace Builder

variable {entries : Array Entry} {maxGroup : Nat} {free : List Nat}

/-- The node of an entry is made of the nodes of the entries under it. -/
theorem nodes_getElem? (hbelow : ∀ (i : Nat) (e : Entry), entries[i]? = some e →
    ∀ c ∈ e.children, c < i) (i : Nat) :
    (nodes entries)[i]? = (entries[i]?).map fun e =>
      .node i e.options e.kind (e.children.filterMap ((nodes entries)[·]?)) := by
  obtain ⟨l⟩ := entries
  have hnodes : nodes ⟨l⟩ = l.foldl addNode #[] := by rw [nodes, List.foldl_toArray]
  rw [hnodes]
  clear hnodes
  simp only [List.getElem?_toArray] at hbelow ⊢
  induction l using List.reverseRecOn generalizing i with
  | nil => rfl
  | append_singleton l e ih =>
    have hold : ∀ (j : Nat) (x : Entry), l[j]? = some x → (l ++ [e])[j]? = some x := by
      intro j x hx
      rw [List.getElem?_append_left (List.getElem?_eq_some_iff.1 hx).1, hx]
    have ih := fun j => ih j fun j x hx => hbelow j x (hold j x hx)
    generalize hprefix : l.foldl addNode #[] = before at ih
    have hsize : before.size = l.length := by
      have hiff : ∀ j, j < before.size ↔ j < l.length := by
        intro j
        rw [← not_iff_not, Nat.not_lt, Nat.not_lt, ← Array.getElem?_eq_none_iff,
          ← List.getElem?_eq_none_iff, ih j, Option.map_eq_none_iff]
      exact Nat.le_antisymm (Nat.not_lt.1 fun h => Nat.lt_irrefl _ ((hiff _).1 h))
        (Nat.not_lt.1 fun h => Nat.lt_irrefl _ ((hiff _).2 h))
    let last : Node := .node before.size e.options e.kind (e.children.filterMap (before[·]?))
    have hfold : (l ++ [e]).foldl addNode #[] = before.push last := by
      rw [List.foldl_append, hprefix]
      rfl
    have hbefore : ∀ j < l.length, (before.push last)[j]? = before[j]? := by
      intro j hj
      rw [Array.getElem?_push, if_neg (by omega)]
    have hchildren : ∀ (x : Entry) (j : Nat), (l ++ [e])[j]? = some x → j ≤ l.length →
        x.children.filterMap ((before.push last)[·]?) = x.children.filterMap (before[·]?) := by
      intro x j hx hj
      refine List.filterMap_congr fun c hc => hbefore c ?_
      have hlt := hbelow j x hx c hc
      omega
    rw [hfold]
    by_cases hi : i < l.length
    · rw [hbefore i hi, ih i, List.getElem?_append_left hi]
      cases hx : l[i]? with
      | none => rfl
      | some x =>
        rw [Option.map_some, Option.map_some, hchildren x i (hold i x hx) (by omega)]
    · by_cases heq : i = l.length
      · subst heq
        have hlast : (l ++ [e])[l.length]? = some e := by simp
        rw [Array.getElem?_push, if_pos hsize.symm, hlast, Option.map_some,
          hchildren e l.length hlast (Nat.le_refl _), ← hsize]
      · rw [Array.getElem?_push, if_neg (by omega), List.getElem?_eq_none (by simp; omega),
          Array.getElem?_eq_none_iff.2 (by omega)]
        rfl

/-- A node stands for an entry, and its children for the entries under that. -/
theorem node_of_nodes (hbelow : ∀ (i : Nat) (e : Entry), entries[i]? = some e →
    ∀ c ∈ e.children, c < i) {i : Nat} {n : Node}
    (hn : (nodes entries)[i]? = some n) : ∃ e, entries[i]? = some e ∧ n.id = i ∧
      n.options = e.options ∧ n.kind = e.kind ∧ n.children.map Node.id = e.children ∧
      ∀ child ∈ n.children, (nodes entries)[child.id]? = some child := by
  have hnode := nodes_getElem? hbelow i
  rw [hn] at hnode
  obtain ⟨e, he, hn⟩ := Option.map_eq_some_iff.1 hnode.symm
  subst hn
  have hid : ∀ (c : Nat) (child : Node), (nodes entries)[c]? = some child → child.id = c := by
    intro c child hc
    have hchild := nodes_getElem? hbelow c
    rw [hc] at hchild
    obtain ⟨e', -, rfl⟩ := Option.map_eq_some_iff.1 hchild.symm
    rfl
  refine ⟨e, he, rfl, rfl, rfl, ?_, ?_⟩
  · change (e.children.filterMap ((nodes entries)[·]?)).map Node.id = e.children
    have hall : ∀ c ∈ e.children, ((nodes entries)[c]?).map Node.id = some c := by
      intro c hc
      have hlt := Nat.lt_trans (hbelow i e he c hc) (Array.getElem?_eq_some_iff.1 he).1
      have hchild := nodes_getElem? hbelow c
      rw [Array.getElem?_eq_getElem hlt, Option.map_some] at hchild
      rw [hchild]
      rfl
    rw [List.map_filterMap]
    conv_rhs => rw [← List.filterMap_some (l := e.children)]
    exact List.filterMap_congr hall
  · intro child hchild
    obtain ⟨c, -, hc⟩ := List.mem_filterMap.1 hchild
    rw [hid c child hc]
    exact hc

/-- An entry is under another. -/
def IsUnder (entries : Array Entry) (c p : Nat) : Prop :=
  ∃ e : Entry, entries[p]? = some e ∧ c ∈ e.children

/-- An occurrence under a node is the node of its number, and lies under the node. -/
theorem mem_preorder_of_nodes (hbelow : ∀ (i : Nat) (e : Entry), entries[i]? = some e →
    ∀ c ∈ e.children, c < i) {n : Node} : ∀ {i : Nat},
    (nodes entries)[i]? = some n → ∀ x ∈ n.preorder,
      (nodes entries)[x.id]? = some x ∧ Relation.ReflTransGen (IsUnder entries) x.id i := by
  induction n using Node.induction with
  | step id options kind children ih =>
    intro i hn x hx
    obtain ⟨e, he, hid, -, -, hids, hchildren⟩ := node_of_nodes hbelow hn
    rw [Node.preorder_node] at hx
    rcases List.mem_cons.1 hx with rfl | hx
    · rw [hid]
      exact ⟨hn, .refl⟩
    · obtain ⟨c, hc, hx⟩ := List.mem_flatMap.1 hx
      obtain ⟨hmem, hunder⟩ := ih c hc (hchildren c hc) x hx
      refine ⟨hmem, hunder.tail ⟨e, he, ?_⟩⟩
      rw [← hids]
      exact List.mem_map_of_mem hc

theorem Sound.le_of_under (h : Sound entries maxGroup free) {c p : Nat}
    (hunder : Relation.ReflTransGen (IsUnder entries) c p) : c ≤ p := by
  induction hunder with
  | refl => exact Nat.le_refl c
  | tail _ hstep ih =>
    obtain ⟨e, he, hmem⟩ := hstep
    exact Nat.le_trans ih (Nat.le_of_lt (h.below _ e he _ hmem))

theorem Sound.nodup_preorder (h : Sound entries maxGroup free) {n : Node} : ∀ {i : Nat},
    (nodes entries)[i]? = some n → (n.preorder.map Node.id).Nodup := by
  induction n using Node.induction with
  | step id options kind children ih =>
    intro i hn
    obtain ⟨e, he, hid, -, -, hids, hchildren⟩ := node_of_nodes h.below hn
    have hmem : ∀ c ∈ children, c.id ∈ e.children := fun c hc => hids ▸ List.mem_map_of_mem hc
    have hup : ∀ c ∈ children, ∀ x ∈ c.preorder,
        Relation.ReflTransGen (IsUnder entries) x.id c.id := fun c hc x hx =>
      (mem_preorder_of_nodes h.below (hchildren c hc) x hx).2
    have hunique : Relator.RightUnique (IsUnder entries) := by
      rintro a p q ⟨ep, hp, hap⟩ ⟨eq, hq, haq⟩
      exact h.eq_of_mem_children hp hq hap haq
    -- Two children that lead up from one number are one: nothing else is between them and the node.
    have hsame : ∀ c ∈ children, ∀ d ∈ children,
        Relation.ReflTransGen (IsUnder entries) c.id d.id → c.id = d.id := by
      intro c hc d hd hcd
      rcases hcd.cases_head with heq | ⟨p, hp, hpd⟩
      · exact heq
      · obtain rfl := hunique hp ⟨e, he, hmem c hc⟩
        exact absurd (h.below p e he d.id (hmem d hd)) (Nat.not_lt.2 (h.le_of_under hpd))
    rw [Node.preorder_node, List.map_cons, List.map_flatMap]
    refine List.nodup_cons.2 ⟨?_, List.nodup_flatMap.2 ⟨fun c hc => ih c hc (hchildren c hc), ?_⟩⟩
    · intro hself
      obtain ⟨c, hc, hx⟩ := List.mem_flatMap.1 hself
      obtain ⟨x, hx, hid'⟩ := List.mem_map.1 hx
      have hle := h.le_of_under (hup c hc x hx)
      have hlt := h.below i e he c.id (hmem c hc)
      have hi : x.id = i := hid'.trans hid
      omega
    · have hnodup : (children.map Node.id).Nodup := by
        have hlinear := (List.nodup_flatMap.1 (List.nodup_append.1 h.once).2.1).1
        have hnode : children.map Node.id = e.children := hids
        rw [hnode]
        exact hlinear e (List.mem_of_getElem? (by rw [Array.getElem?_toList]; exact he))
      refine (List.pairwise_map.1 hnodup).imp_of_mem fun {c d} hc hd hne => ?_
      intro y hy hy'
      obtain ⟨x, hx, rfl⟩ := List.mem_map.1 hy
      obtain ⟨x', hx', hid'⟩ := List.mem_map.1 hy'
      have hxd := hup d hd x' hx'
      rw [hid'] at hxd
      rcases Relation.ReflTransGen.total_of_right_unique hunique (hup c hc x hx) hxd with hcd | hdc
      · exact hne (hsame c hc d hd hcd)
      · exact hne (hsame d hd c hc hdc).symm

end Builder

/-- What the compiler and the machine rely on in a tree. The root is the group of the whole match,
and it alone need not agree with its child on a direction. -/
structure Tree.Sound (t : Tree) (body : Node) : Prop where
  root_eq : ∃ id options, t.root = .node id options (.capture (some 0) none) [body]
  arity : ∀ x ∈ t.root.preorder, x.Arity
  groups : ∀ x ∈ t.root.preorder, ∀ g ∈ x.kind.groups, g < t.groupCount
  bounded : ∀ x ∈ t.root.preorder, x.kind.Bounded
  oriented : ∀ x ∈ body.preorder, x.Oriented
  nodup : (t.root.preorder.map Node.id).Nodup
  id_lt : ∀ x ∈ t.root.preorder, x.id < t.nodeCount

namespace Builder

variable {b : Builder} {free : List Nat} {body : Nat}

theorem size_nodes (entries : Array Entry) : (nodes entries).size = entries.size := by
  have hfold : ∀ (l : List Entry) (before : Array Node),
      (l.foldl addNode before).size = before.size + l.length := by
    intro l
    induction l with
    | nil => exact fun _ => rfl
    | cons e rest ih =>
      intro before
      rw [List.foldl_cons, ih, addNode, Array.size_push, List.length_cons]
      omega
  rw [nodes, ← Array.foldl_toList, hfold, Array.length_toList]
  exact Nat.zero_add _

theorem finish_root (hbody : body < b.entries.size) : ∃ n, (nodes b.entries)[body]? = some n ∧
    (b.finish body).root =
      .node b.entries.size b.options (.capture (some 0) none) [n] := by
  have hlt : body < (nodes b.entries).size := by rwa [size_nodes]
  refine ⟨_, Array.getElem?_eq_getElem hlt, ?_⟩
  have hpush : nodes (b.entries.push ⟨.capture (some 0) none, [body], b.options⟩) =
      addNode (nodes b.entries) ⟨.capture (some 0) none, [body], b.options⟩ := by
    rw [nodes, nodes, Array.foldl_push]
  change ((nodes (b.entries.push ⟨.capture (some 0) none, [body], b.options⟩))[b.entries.size]?).getD
    default = _
  rw [hpush, addNode, size_nodes, Array.getElem?_push, if_pos (size_nodes _).symm]
  simp [hlt]

theorem sound_finish (h : Kept b free) (hbody : body < b.entries.size) :
    ∃ n, (b.finish body).Sound n := by
  obtain ⟨n, hn, hroot⟩ := finish_root hbody
  have hpreorder : (b.finish body).root.preorder = (b.finish body).root :: n.preorder := by
    rw [hroot, Node.preorder_node, List.flatMap_singleton]
  have hmem := fun x hx => (mem_preorder_of_nodes h.sound.below hn x hx).1
  have hlt : ∀ x ∈ n.preorder, x.id < b.entries.size := by
    intro x hx
    obtain ⟨e, he, -⟩ := node_of_nodes h.sound.below (hmem x hx)
    exact (Array.getElem?_eq_some_iff.1 he).1
  have hall : ∀ {P : Node → Prop}, P (b.finish body).root → (∀ x ∈ n.preorder, P x) →
      ∀ x ∈ (b.finish body).root.preorder, P x := by
    intro P hself hunder x hx
    rw [hpreorder] at hx
    rcases List.mem_cons.1 hx with rfl | hx
    · exact hself
    · exact hunder x hx
  refine ⟨n, ⟨_, _, hroot⟩, hall ?_ ?_, hall ?_ ?_, hall ?_ ?_, ?_, ?_, hall ?_ ?_⟩
  · rw [hroot]
    rfl
  · intro x hx
    obtain ⟨e, he, -, -, hkind, hids, -⟩ := node_of_nodes h.sound.below (hmem x hx)
    have harity := h.sound.arity x.id e he
    rw [← hids, List.length_map] at harity
    rw [Node.Arity, hkind]
    exact harity
  · rw [hroot]
    intro g hg
    rw [List.mem_singleton.1 hg]
    exact Nat.succ_pos _
  · intro x hx g hg
    obtain ⟨e, he, -, -, hkind, -⟩ := node_of_nodes h.sound.below (hmem x hx)
    exact Nat.lt_succ_of_le (h.sound.groups x.id e he g (hkind ▸ hg))
  · rw [hroot]
    trivial
  · intro x hx
    obtain ⟨e, he, -, -, hkind, -⟩ := node_of_nodes h.sound.below (hmem x hx)
    rw [hkind]
    exact h.sound.bounded x.id e he
  · intro x hx c hc
    obtain ⟨e, he, -, hoptions, -, hids, hchildren⟩ := node_of_nodes h.sound.below (hmem x hx)
    obtain ⟨e', he', -, hoptions', hkind', -⟩ := node_of_nodes h.sound.below (hchildren c hc)
    obtain ⟨hdown, hup⟩ := h.oriented x.id e he c.id (hids ▸ List.mem_map_of_mem hc) e' he'
    rw [Node.direction, Node.direction, hoptions, hoptions', hkind', Options.direction,
      Options.direction]
    cases hrtl : e.options.rightToLeft with
    | true => exact .inl (by rw [hdown hrtl])
    | false =>
      cases hrtl' : e'.options.rightToLeft with
      | false => exact .inl rfl
      | true =>
        refine .inr ((hup hrtl').resolve_left ?_)
        rw [hrtl]
        exact Bool.false_ne_true
  · rw [hpreorder, List.map_cons]
    refine List.nodup_cons.2 ⟨?_, h.sound.nodup_preorder hn⟩
    intro hmem'
    obtain ⟨x, hx, hid⟩ := List.mem_map.1 hmem'
    have hx' := hlt x hx
    rw [hid, hroot] at hx'
    exact Nat.lt_irrefl _ hx'
  · rw [hroot]
    exact Nat.lt_of_lt_of_eq (Nat.lt_succ_self _) (Array.size_push _).symm
  · intro x hx
    exact Nat.lt_of_lt_of_eq (Nat.lt_succ_of_lt (hlt x hx)) (Array.size_push _).symm

end Builder

/-- Every tree that is made by the builder is as the compiler needs it. -/
theorem Tree.Unshared.sound {t : Tree} (h : t.Unshared) : ∃ body, t.Sound body := by
  obtain ⟨options, b, free, body, hunshared, hbody, rfl⟩ := h
  exact Builder.sound_finish (Builder.kept_of_unshared hunshared) hbody

/-- Trees that were finished from such a builder around a node that was not given away: finishing is a
call, too. -/
def Tree.Linear (t : Tree) : Prop :=
  ∃ options b free body, Builder.Unshared options b free ∧ body ∈ free ∧ t = b.finish body

namespace Tree.Linear

variable {t : Tree}

theorem unshared (h : t.Linear) : t.Unshared := by
  obtain ⟨options, b, free, body, hunshared, hbody, rfl⟩ := h
  have hsound := (Builder.kept_of_unshared hunshared).sound
  exact ⟨options, b, free, body, hunshared, hsound.exists_free body hbody, rfl⟩

/-- A body that was not given away is matched in the direction of the pattern, so that the whole tree
takes text in that direction. -/
theorem oriented (h : t.Linear) :
    t.root.direction = t.options.direction ∧ ∀ x ∈ t.root.preorder, x.Oriented := by
  obtain ⟨body, hsound⟩ := h.unshared.sound
  obtain ⟨options, b, free, i, hunshared, hfree, rfl⟩ := h
  have hkept := Builder.kept_of_unshared hunshared
  obtain ⟨n, hn, hroot⟩ := Builder.finish_root (hkept.sound.exists_free i hfree)
  obtain ⟨id, options', hroot'⟩ := hsound.root_eq
  obtain ⟨-, -, -, hbodies⟩ := Node.node.inj (hroot.symm.trans hroot')
  obtain rfl : n = body := (List.cons.inj hbodies).1
  obtain ⟨e, he, -, hoptions, hkind, -⟩ := Builder.node_of_nodes hkept.sound.below hn
  refine ⟨by rw [hroot]; rfl, fun x hx => ?_⟩
  rw [hroot, Node.preorder_node, List.flatMap_singleton] at hx
  rcases List.mem_cons.1 hx with rfl | hx
  · intro c hc
    obtain rfl := List.mem_singleton.1 hc
    rw [Node.direction, Node.direction, hoptions, hkind]
    change e.options.direction = b.options.direction ∨ _
    rw [Options.direction, Options.direction]
    cases hdown : e.options.rightToLeft with
    | true =>
      rcases hkept.upright i hfree e he hdown with hbase | hlook
      · exact .inl (by rw [hbase])
      · exact .inr hlook
    | false =>
      cases hbase : b.options.rightToLeft with
      | false => exact .inl rfl
      | true => exact absurd (hkept.base hbase i e he) (by rw [hdown]; exact Bool.false_ne_true)
  · exact hsound.oriented x hx

theorem onward (h : t.Linear) (reading : Reading) (σ : Setting) :
    Matcher.Onward t.options.direction (t.root.matcher reading σ) := by
  obtain ⟨hdirection, horiented⟩ := h.oriented
  rw [← hdirection]
  exact Node.onward_matcher reading σ horiented

end Tree.Linear

end RegexMachine
