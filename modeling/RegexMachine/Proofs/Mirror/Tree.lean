import RegexMachine.Proofs.Attempts.Plain
import RegexMachine.Proofs.Mirror.Construction

/-!
# Mirrored trees

The tree that is built as the mirror image of another has the mirror images of its nodes, the same
groups and the same names. It is plain when the other is.
-/

namespace RegexMachine

namespace Builder

variable {entries : Array Entry}

theorem nodes_mirror
    (hbelow : ∀ (i : Nat) (e : Entry), entries[i]? = some e → ∀ c ∈ e.children, c < i) (i : Nat) :
    (nodes (entries.map Entry.mirror))[i]? = ((nodes entries)[i]?).map Node.mirror := by
  induction i using Nat.strongRecOn with
  | _ i ih =>
    rw [nodes_getElem? (below_mirror hbelow), nodes_getElem? hbelow, getElem?_mirror]
    cases he : entries[i]? with
    | none => rfl
    | some e =>
      have hchildren : e.children.filterMap ((nodes (entries.map Entry.mirror))[·]?) =
          (e.children.filterMap ((nodes entries)[·]?)).map Node.mirror := by
        rw [List.map_filterMap]
        exact List.filterMap_congr fun c hc => ih c (hbelow i e he c hc)
      have harrange (f : Nat → Option Node) :
          (e.kind.arrange e.children).filterMap f = e.kind.arrange (e.children.filterMap f) := by
        cases e.kind with
        | concat => exact List.filterMap_reverse
        | _ => rfl
      simp only [Option.map_some, Entry.mirror, Node.mirror_node, harrange, hchildren]

end Builder

/-- What the tree and its mirror image have to do with each other. -/
structure Tree.Reflected (t t' : Tree) : Prop where
  linear : t.Linear
  linear' : t'.Linear
  root : t'.root = t.root.mirror
  mirrorable : ∀ x ∈ t.root.preorder, x.Mirrorable
  options : t'.options = t.options.leftToRight
  backward : t.options.rightToLeft = true
  groupCount : t'.groupCount = t.groupCount
  names : t'.names = t.names

/-- Finishing a mirrored builder finishes a mirrored tree. -/
theorem Tree.MirroredBy.reflected {t t' : Tree} (h : t.MirroredBy t') : t.Reflected t' := by
  obtain ⟨options, b, b', free, body, hmirrored, hbody, rfl, rfl⟩ := h
  obtain ⟨hunshared, hunshared', rfl, hreflects⟩ := hmirrored.unshared
  have hkept := Builder.kept_of_unshared hunshared
  have hoptions : b.options.rightToLeft = true := congrArg Options.rightToLeft hunshared.options_eq
  have hlt := hkept.sound.exists_free body hbody
  have hlt' : body < b.mirror.entries.size := by
    rw [Builder.mirror, Array.size_map]
    exact hlt
  obtain ⟨n, hn, hroot⟩ := Builder.finish_root hlt
  obtain ⟨n', hn', hroot'⟩ := Builder.finish_root hlt'
  have hnode : (Builder.nodes b.mirror.entries)[body]? = _ :=
    Builder.nodes_mirror hkept.sound.below body
  rw [hn, hn', Option.map_some, Option.some.injEq] at hnode
  refine ⟨⟨_, _, _, _, hunshared, hbody, rfl⟩, ⟨_, _, _, _, hunshared', hbody, rfl⟩, ?_, ?_, rfl,
    hoptions, rfl, rfl⟩
  · rw [hroot, hroot', hnode, Node.mirror_node, Builder.mirror, Array.size_map]
    rfl
  · rw [hroot]
    refine Node.forall_preorder_node.2 ⟨⟨hoptions, rfl⟩, fun c hc x hx => ?_⟩
    obtain rfl := List.mem_singleton.1 hc
    obtain ⟨e, he, -, hx', hkind, -⟩ := Builder.node_of_nodes hkept.sound.below
      (Builder.mem_preorder_of_nodes hkept.sound.below hn x hx).1
    refine ⟨?_, ?_⟩
    · rw [hx']
      exact hkept.base hoptions x.id e he
    · rw [hkind]
      exact hreflects.twoSided x.id e he

namespace Node

theorem mem_preorder_mirror {n x : Node} (h : x ∈ n.mirror.preorder) :
    ∃ y ∈ n.preorder, x = y.mirror := by
  induction n using Node.induction with
  | step id options kind children ih =>
    rw [mirror_node, preorder_node] at h
    rcases List.mem_cons.1 h with rfl | h
    · exact ⟨_, mem_preorder_self _, (mirror_node ..).symm⟩
    · obtain ⟨c', hc', hx⟩ := List.mem_flatMap.1 h
      obtain ⟨c, hc, rfl⟩ := List.mem_map.1 (Kind.mem_arrange.1 hc')
      obtain ⟨y, hy, rfl⟩ := ih c hc hx
      exact ⟨y, preorder_trans (mem_preorder_child hc) hy, rfl⟩

theorem MatchesEmpty.of_mirror {culture : Culture} {ecmaScript : Bool} {n : Node}
    (h : n.mirror.MatchesEmpty culture ecmaScript) (hn : ∀ x ∈ n.preorder, x.Mirrorable) :
    n.MatchesEmpty culture ecmaScript := by
  obtain ⟨text, textStart, s, u, hs, hu, hplace⟩ := h
  -- A scan that began at no place of the text began at none of the reversed text.
  let began : Nat := if textStart ≤ text.size then text.size - textStart else text.size + 1
  have hσ : Setting.Mirrors { culture, text := text.reversed, textStart := began, ecmaScript }
      { culture, text, textStart, ecmaScript } := by
    refine ⟨rfl, (Text.reversed_reversed text).symm, fun p hp => ?_, rfl⟩
    have hsum := Text.offset_add_mirror hp
    rw [Text.size_reversed] at hsum
    change p.mirror.offset = textStart ↔ p.offset = began
    simp only [began]
    split <;> omega
  have hs' := hs.mirror
  have hmirror := mirrored_matcher Reading.plain hσ hn _ hs'
  rw [Text.size_reversed, MatchState.mirror_mirror hs] at hmirror
  rw [hmirror] at hu
  obtain ⟨v, hv, rfl⟩ := List.mem_map.1 hu
  exact ⟨text.reversed, began, _, v, hs', hv, congrArg Place.mirror hplace⟩

end Node

theorem Tree.Reflected.plain {t t' : Tree} (h : t.Reflected t') {culture : Culture}
    (hplain : t.Plain culture) : t'.Plain culture where
  unshared := h.linear'.unshared
  moves x hx min hmin hkind body hbody := by
    rw [h.root] at hx
    obtain ⟨y, hy, rfl⟩ := Node.mem_preorder_mirror hx
    obtain ⟨id, options, kind, children⟩ := y
    rw [Node.mirror_node] at hkind hbody
    obtain ⟨c, hc, rfl⟩ := List.mem_map.1 (Kind.mem_arrange.1 hbody)
    have hloop : kind = .loop min unbounded true := Kind.eq_of_mirror hkind nofun nofun
    rw [h.options]
    intro hempty
    refine hplain.moves _ hy min hmin hloop c hc (hempty.of_mirror fun z hz => ?_)
    exact h.mirrorable z (Node.preorder_trans hy (Node.preorder_trans (Node.mem_preorder_child hc) hz))
  unbalanced x hx g u hkind := by
    rw [h.root] at hx
    obtain ⟨y, hy, rfl⟩ := Node.mem_preorder_mirror hx
    have htwoSided := (h.mirrorable y hy).twoSided
    obtain ⟨id, options, kind, children⟩ := y
    rw [Node.mirror_node] at hkind
    obtain rfl : kind = .capture (some g) (some u) := Kind.eq_of_mirror hkind nofun nofun
    cases htwoSided

end RegexMachine
