import RegexMachine.Proofs.Tree.SpelledBuilding

/-!
# Trees that are spelled out

The tree that is built as another spelled out has the nodes of that tree spelled out, the same groups
and the same names. It is plain when the other is.
-/

namespace RegexMachine

open Matcher

namespace Builder

variable {entries entries' : Array Entry} {image owner : Nat → Nat} {free : List Nat} {maxGroup : Nat}

theorem nodes_of_entry (hbelow : ∀ (i : Nat) (e : Entry), entries[i]? = some e →
    ∀ c ∈ e.children, c < i) {i : Nat} {e : Entry} (he : entries[i]? = some e) :
    (nodes entries)[i]? =
      some (.node i e.options e.kind (e.children.filterMap ((nodes entries)[·]?))) := by
  rw [nodes_getElem? hbelow, he, Option.map_some]

theorem forall₂_filterMap {α β γ δ : Type} {R : γ → δ → Prop} {f : α → Option γ}
    {g : β → Option δ} {xs : List α} {ys : List β}
    (h : List.Forall₂ (fun x y => ∃ a b, f x = some a ∧ g y = some b ∧ R a b) xs ys) :
    List.Forall₂ R (xs.filterMap f) (ys.filterMap g) := by
  induction h with
  | nil => exact .nil
  | cons hxy _ ih =>
    obtain ⟨a, b, ha, hb, hR⟩ := hxy
    rw [List.filterMap_cons_some ha, List.filterMap_cons_some hb]
    exact .cons hR ih

namespace Spells

variable (h : Spells entries entries' image owner free)
  (hbelow' : ∀ (i : Nat) (e : Entry), entries'[i]? = some e → ∀ c ∈ e.children, c < i)

include h

theorem owner_eq_of_isUnder {i c p : Nat} {e : Entry} (he : entries[i]? = some e)
    (hnone : e.children = []) (hp : owner p = i) (hcp : IsUnder entries' c p) : owner c = i := by
  rcases h.isUnder_owner c p hcp with hsame | ⟨x, hx, hmem⟩
  · exact hsame.trans hp
  · rw [hp, he] at hx
    cases hx
    rw [hnone] at hmem
    cases hmem

include hbelow'

theorem sealsChar {atom : Atom} {i j : Nat} {e : Entry} (he : entries[i]? = some e)
    (hnone : e.children = []) (hj : owner j = i) (hseals : SealsAt entries' atom j) :
    ∃ n, (nodes entries')[j]? = some n ∧ n.SealsChar atom e.options := by
  induction hseals with
  | @char j _ hat => exact ⟨_, nodes_of_entry hbelow' hat, .char (h.agrees j _ hat e (hj ▸ he))⟩
  | @atomic j c _ hat _ ih =>
    obtain ⟨n, hn, hchar⟩ := ih
      (h.owner_eq_of_isUnder he hnone hj ⟨_, hat, List.mem_singleton_self c⟩)
    refine ⟨_, nodes_of_entry hbelow' hat, ?_⟩
    simp only [List.filterMap_cons, List.filterMap_nil, hn]
    exact .atomic hchar

theorem letters {i p : Nat} {e : Entry} (he : entries[i]? = some e) (hnone : e.children = [])
    (hp : owner p = i) {chars : List Char} {letters : List Nat}
    (hunder : ∀ letter ∈ letters, IsUnder entries' letter p)
    (hletters : List.Forall₂ (fun c letter => ∃ options,
      entries'[letter]? = some ⟨.char (.one c), [], options⟩) chars letters) :
    List.Forall₂ (fun c letter => ∃ id o', e.options.AgreesOn (.char (.one c)) o' ∧
      letter = Node.node id o' (.char (.one c)) []) chars
      (letters.filterMap ((nodes entries')[·]?)) := by
  rw [← List.filterMap_some (l := chars)]
  refine forall₂_filterMap (List.forall₂_iff_get.2 ⟨hletters.length_eq, fun k hk hk' => ?_⟩)
  obtain ⟨o', hletter⟩ := hletters.get hk hk'
  have hmine := h.owner_eq_of_isUnder he hnone hp (hunder _ (List.get_mem letters ⟨k, hk'⟩))
  exact ⟨_, _, rfl, nodes_of_entry hbelow' hletter, _, _,
    h.agrees _ _ hletter _ (hmine.symm ▸ he), rfl⟩

theorem spelledOut (hsound : Sound entries maxGroup free) {i : Nat} (hi : InUse entries free i)
    {n : Node} (hn : (nodes entries)[i]? = some n) :
    ∃ n', (nodes entries')[image i]? = some n' ∧ n.SpelledOut n' := by
  induction i using Nat.strongRecOn generalizing n with
  | _ i ih =>
    have hlt := hi.lt_size hsound
    have he := Array.getElem?_eq_getElem hlt
    generalize entries[i] = e at he
    rw [nodes_of_entry hsound.below he, Option.some.injEq] at hn
    subst hn
    have hspelled := h.spelledAt i hi e he
    have hself := h.owner_image i hi
    have hagrees (e' : Entry) (he' : entries'[image i]? = some e') :
        e.options.AgreesOn e'.kind e'.options :=
      h.agrees _ e' he' e (hself.symm ▸ he)
    obtain ⟨kind, children, o⟩ := e
    cases hspelled with
    | char hseals =>
      obtain ⟨n', hn', hchar⟩ := h.sealsChar hbelow' he rfl hself hseals
      exact ⟨n', hn', .char hchar⟩
    | @multi chars _ letters o' hat hletters =>
      refine ⟨_, nodes_of_entry hbelow' hat, .multi (hagrees _ hat) ?_⟩
      exact h.letters hbelow' he rfl hself (fun c hc => ⟨_, hat, hc⟩) hletters
    | @charLoop atom min max isLazy _ k c _ _ hat hk hc =>
      have hmine := h.owner_eq_of_isUnder he rfl hself ⟨_, hat, List.mem_singleton_self k⟩
      have hmine' := h.owner_eq_of_isUnder he rfl hmine ⟨_, hk, List.mem_singleton_self c⟩
      obtain ⟨body, hbody, hchar⟩ := h.sealsChar hbelow' he rfl hmine' hc
      refine ⟨_, nodes_of_entry hbelow' hat, ?_⟩
      simp only [List.filterMap_cons, List.filterMap_nil, nodes_of_entry hbelow' hk, hbody]
      exact .charLoop (hagrees _ hat) hchar
    | general hkind hat =>
      refine ⟨_, nodes_of_entry hbelow' hat, .general hkind (hagrees _ hat) ?_⟩
      refine forall₂_filterMap
        (List.forall₂_map_right_iff.2 (List.forall₂_same.2 fun c hc => ?_))
      have hnode := nodes_of_entry hsound.below
        (Array.getElem?_eq_getElem (hsound.child_lt_size he hc))
      obtain ⟨n', hn', hspelled⟩ := ih c (hsound.below i _ he c hc) (.inr ⟨i, _, he, hc⟩) hnode
      exact ⟨_, n', hnode, hn', hspelled⟩

end Spells

end Builder

/-- What a tree and the tree spelled out have to do with each other. -/
structure Tree.Spelled (t t' : Tree) : Prop where
  linear : t.Linear
  linear' : t'.Linear
  root : t.root.SpelledOut t'.root
  options : t'.options = t.options
  groupCount : t'.groupCount = t.groupCount
  names : t'.names = t.names

/-- Finishing the two builders finishes a tree and the tree spelled out. -/
theorem Tree.SpelledBy.spelled {t t' : Tree} (h : t.SpelledBy t') : t.Spelled t' := by
  obtain ⟨options, b, b', image, free, body, hspelled, hbody, rfl, rfl⟩ := h
  obtain ⟨hunshared, hunshared', ⟨owner, hentries⟩, hoptions, hnames, hmax⟩ := hspelled.unshared
  have hsound := (Builder.kept_of_unshared hunshared).sound
  have hsound' := (Builder.kept_of_unshared hunshared').sound
  obtain ⟨n, hn, hroot⟩ := Builder.finish_root (hsound.exists_free body hbody)
  obtain ⟨n', hn', hroot'⟩ := Builder.finish_root
    (hsound'.exists_free _ (List.mem_map_of_mem hbody))
  obtain ⟨m, hm, hspelledOut⟩ := hentries.spelledOut hsound'.below hsound (.inl hbody) hn
  obtain rfl : n' = m := Option.some.inj (hn'.symm.trans hm)
  refine ⟨⟨_, _, _, _, hunshared, hbody, rfl⟩,
    ⟨_, _, _, _, hunshared', List.mem_map_of_mem hbody, rfl⟩, ?_, hoptions,
    congrArg (· + 1) hmax, hnames⟩
  rw [hroot, hroot', hoptions]
  exact .general rfl (.refl _ _) (.cons hspelledOut .nil)

/-- A tree that is built by calls none of which comes too late can be built spelled out. -/
theorem Builder.UnsharedInTime.exists_spelledBy {options : Options} {b : Builder} {free : List Nat}
    (h : UnsharedInTime options b free) {body : Nat} (hbody : body ∈ free) :
    ∃ t', (b.finish body).SpelledBy t' := by
  obtain ⟨b', image, hspelled⟩ := h.exists_spelled
  exact ⟨_, options, b, b', image, free, body, hspelled, hbody, rfl, rfl⟩

namespace Tree.Spelled

variable {t t' : Tree}

/-- A tree spelled out has the same outcomes. -/
theorem matcher_eq (h : t.Spelled t') (σ : Setting) :
    t'.root.matcher Reading.plain σ = t.root.matcher Reading.plain σ :=
  h.root.matcher_eq σ

/-- A plain tree spelled out is plain. -/
theorem plain (h : t.Spelled t') {culture : Culture} (hplain : t.Plain culture) :
    t'.Plain culture where
  unshared := h.linear'.unshared
  moves x hx min hmin hkind body hbody := by
    rw [h.options]
    rcases h.root.stems x hx with ⟨y, hy, hkinds, hchildren⟩ | hsimple | ⟨-, hchars⟩
    · obtain ⟨c, hc, hspelled⟩ := exists_mem_of_forall₂ hchildren hbody
      exact fun hempty => hplain.moves y hy min hmin (hkinds ▸ hkind) c hc
        (hspelled.matchesEmpty hempty)
    · rw [hkind] at hsimple
      cases hsimple
    · obtain ⟨atom, o, hchar⟩ := hchars body hbody
      exact hchar.not_matchesEmpty culture _
  unbalanced x hx g u hkind := by
    rcases h.root.stems x hx with ⟨y, hy, hkinds, -⟩ | hsimple | ⟨hnot, -⟩
    · exact hplain.unbalanced y hy g u (hkinds ▸ hkind)
    · rw [hkind] at hsimple
      cases hsimple
    · exact hnot _ _ hkind

end Tree.Spelled

end RegexMachine
