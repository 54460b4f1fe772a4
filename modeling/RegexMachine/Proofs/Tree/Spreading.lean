import RegexMachine.Proofs.Tree.Finished

/-!
# Spreading options

Options that are added to an entry reach all that lies under it, and nothing else, as long as what had
them before has only parts that have them. Calls keep that up for both options that can be added.
-/

namespace RegexMachine.Builder

variable {entries entries' : Array Entry}

variable {added : Options} {id : Nat}

/-- What has an entry under it that options were spread to, and had only such, got them as well. -/
theorem Spread.has_iff (h : Spread added [id] entries entries')
    (hbelow : ∀ (i : Nat) (e : Entry), entries[i]? = some e → ∀ c ∈ e.children, c < i)
    (hsettled : ∀ i, Settled added entries i) {i : Nat} {e e' : Entry}
    (he : entries[i]? = some e) (he' : entries'[i]? = some e') :
    e'.Has added ↔ e.Has added ∨ Relation.ReflTransGen (IsUnder entries) i id := by
  constructor
  · intro hhas
    induction hn : entries.size - i using Nat.strongRecOn generalizing i e e' with
    | _ n ih =>
      rcases h.fresh i e e' he he' hhas with hold | hself | ⟨p, parent', hp', hparent, hmem⟩
      · exact .inl hold
      · exact .inr (List.mem_singleton.1 hself ▸ .refl)
      · obtain ⟨parent, hp, hgains⟩ := h.gained hp'
        rw [hgains.children_eq] at hmem
        have hlt := hbelow p parent hp i hmem
        have hsize := (Array.getElem?_eq_some_iff.1 hp).1
        rcases ih _ (by omega) hp hp' hparent rfl with hold | hunder
        · exact .inl (hsettled p parent hp hold i hmem e he)
        · exact .inr (hunder.head ⟨parent, hp, hmem⟩)
  · rintro (hold | hunder)
    · obtain ⟨e'', he'', hgains⟩ := h.gains i e he
      rw [he'] at he''
      cases he''
      exact hgains.has hold
    · induction hunder using Relation.ReflTransGen.head_induction_on generalizing e e' with
      | refl => exact h.marked id List.mem_cons_self e' he'
      | head hstep _ ih =>
        obtain ⟨parent, hp, hmem⟩ := hstep
        obtain ⟨parent', hp', hgains⟩ := h.gains _ parent hp
        refine h.settled _ (hsettled _) parent' hp' (ih hp hp') _ ?_ e' he'
        rwa [hgains.children_eq]

/-- Options are spread to an entry and to what lies under it, and to nothing else. -/
theorem Spread.options_eq (h : Spread added [id] entries entries')
    (hbelow : ∀ (i : Nat) (e : Entry), entries[i]? = some e → ∀ c ∈ e.children, c < i)
    (hsettled : ∀ i, Settled added entries i) {i : Nat} {e e' : Entry}
    (he : entries[i]? = some e) (he' : entries'[i]? = some e') :
    (Relation.ReflTransGen (IsUnder entries) i id ∧ e'.options = e.options.union added) ∨
      (¬ Relation.ReflTransGen (IsUnder entries) i id ∧ e'.options = e.options) := by
  have hiff := h.has_iff hbelow hsettled he he'
  -- What has the options already is not changed by adding them.
  have hadded {x : Entry} (hhas : x.Has added) : x.options.union added = x.options := eq_of_beq hhas
  obtain ⟨e'', he'', -, -, hoptions⟩ := h.gains i e he
  rw [he'] at he''
  cases he''
  by_cases hunder : Relation.ReflTransGen (IsUnder entries) i id
  · refine .inl ⟨hunder, ?_⟩
    rcases hoptions with hsame | hunion
    · rw [← hsame, hadded (hiff.2 (.inr hunder))]
    · exact hunion
  · refine .inr ⟨hunder, ?_⟩
    rcases hoptions with hsame | hunion
    · exact hsame
    · have hhas : e'.Has added := by
        rw [Entry.Has, hunion]
        exact Options.includes_union _ _
      rw [hunion, hadded ((hiff.1 hhas).resolve_right hunder)]

theorem getElem?_spreadOptions_of_under
    (hbelow : ∀ (i : Nat) (e : Entry), entries[i]? = some e → ∀ c ∈ e.children, c < i)
    (hsettled : ∀ i, Settled added entries i) {i : Nat}
    (hunder : Relation.ReflTransGen (IsUnder entries) i id) :
    (spreadOptions added (id + 1) entries id)[i]? =
      (entries[i]?).map fun e => { e with options := e.options.union added } := by
  have hspread := spread_spreadOptions added (id + 1) hbelow id (Nat.lt_succ_self id)
  cases he : entries[i]? with
  | none => rw [Array.getElem?_eq_none (hspread.size_eq ▸ Array.getElem?_eq_none_iff.1 he)]; rfl
  | some e =>
    obtain ⟨e', he', hgains⟩ := hspread.gains i e he
    obtain ⟨-, hoptions⟩ | ⟨hnot, -⟩ := hspread.options_eq hbelow hsettled he he'
    · obtain ⟨kind, children, options⟩ := e'
      obtain rfl : kind = e.kind := hgains.kind_eq
      obtain rfl : children = e.children := hgains.children_eq
      obtain rfl : options = e.options.union added := hoptions
      exact he'
    · exact absurd hunder hnot

theorem getElem?_spreadOptions_of_not_under
    (hbelow : ∀ (i : Nat) (e : Entry), entries[i]? = some e → ∀ c ∈ e.children, c < i)
    (hsettled : ∀ i, Settled added entries i) {i : Nat}
    (hnot : ¬ Relation.ReflTransGen (IsUnder entries) i id) :
    (spreadOptions added (id + 1) entries id)[i]? = entries[i]? := by
  have hspread := spread_spreadOptions added (id + 1) hbelow id (Nat.lt_succ_self id)
  cases he : entries[i]? with
  | none => exact Array.getElem?_eq_none (hspread.size_eq ▸ Array.getElem?_eq_none_iff.1 he)
  | some e =>
    obtain ⟨e', he', hgains⟩ := hspread.gains i e he
    obtain ⟨hunder, -⟩ | ⟨-, hoptions⟩ := hspread.options_eq hbelow hsettled he he'
    · exact absurd hunder hnot
    · obtain ⟨kind, children, options⟩ := e'
      obtain rfl : kind = e.kind := hgains.kind_eq
      obtain rfl : children = e.children := hgains.children_eq
      obtain rfl : options = e.options := hoptions
      exact he'

/-- The options of a part where case is ignored. -/
abbrev ignoring : Options := { ignoreCase := true }

theorem has_ignoring {e : Entry} : e.Has ignoring ↔ e.options.ignoreCase = true := by
  obtain ⟨kind, children, ⟨ignoreCase, rightToLeft, ecmaScript, cultureInvariant⟩⟩ := e
  cases ignoreCase <;> simp [Entry.Has, Options.includes, Options.union]

theorem Oriented.settled (h : Oriented entries) : ∀ i, Settled backward entries i :=
  fun i e he hhas c hc child hchild =>
    has_backward.2 ((h i e he c hc child hchild).1 (has_backward.1 hhas))

/-- What ignores case has only parts that do, and everything does when the pattern does. -/
structure SpreadsCase (b : Builder) : Prop where
  base : b.options.ignoreCase = true → ∀ (i : Nat) (e : Entry), b.entries[i]? = some e →
    e.options.ignoreCase = true
  settled : ∀ i, Settled ignoring b.entries i

namespace SpreadsCase

variable {b : Builder} {given rest free : List Nat} {maxGroup : Nat}

/-- A new entry that ignores case only when the whole pattern does, or has nothing under it. -/
theorem pushEntry (h : SpreadsCase b) {e : Entry}
    (hsound : Sound b.entries maxGroup (e.children ++ rest))
    (hdown : b.options.ignoreCase = true → e.options.ignoreCase = true)
    (hup : e.options.ignoreCase = true → b.options.ignoreCase = true ∨ e.children = []) :
    SpreadsCase { b with entries := b.entries.push e } where
  base hbase := forall_push (P := fun _ e => e.options.ignoreCase = true) (hdown hbase)
    (h.base hbase)
  settled := by
    have hold {c : Nat} (hc : c < b.entries.size) {child : Entry}
        (hchild : (b.entries.push e)[c]? = some child) : b.entries[c]? = some child := by
      rwa [Array.getElem?_push, if_neg (Nat.ne_of_lt hc)] at hchild
    refine fun i x hx => forall_push (P := fun _ x => x.Has ignoring → ∀ c ∈ x.children,
      ∀ child : Entry, (b.entries.push e)[c]? = some child → child.Has ignoring) ?_ ?_ i x hx
    · intro hhas c hc child hchild
      rcases hup (has_ignoring.1 hhas) with hbase | hnone
      · have hlt := hsound.exists_free c (List.mem_append_left _ hc)
        exact has_ignoring.2 (h.base hbase c child (hold hlt hchild))
      · rw [hnone] at hc
        cases hc
    · intro j y hy hhas c hc child hchild
      exact h.settled j y hy hhas c hc child (hold (hsound.child_lt_size hy hc) hchild)

theorem push (h : SpreadsCase b) (kind : Kind)
    (hsound : Sound b.entries maxGroup (given ++ rest)) :
    SpreadsCase (Builder.push kind given b).2 :=
  h.pushEntry (e := ⟨kind, given, b.options⟩) hsound id .inl

theorem quantify {child : Nat} (h : SpreadsCase b)
    (hsound : Sound b.entries maxGroup ([child] ++ rest)) (min max : Nat) (isLazy : Bool) :
    SpreadsCase (Builder.quantify child min max isLazy b).2 := by
  rcases quantify_cases child min max isLazy b with
    ⟨-, -, hsame⟩ | ⟨a, children, options, he, hchar⟩ | hloop
  · rw [hsame]
    exact h
  · rw [hchar]
    have hnone : Sound b.entries maxGroup ([] ++ ([child] ++ rest)) := hsound
    exact h.pushEntry (e := ⟨.charLoop a min max isLazy, [], options⟩) hnone
      (fun hbase => h.base hbase child ⟨.char a, children, options⟩ he) fun _ => .inr rfl
  · rw [hloop]
    exact h.push _ hsound

theorem noteGroup (h : SpreadsCase b) (group : Nat) : SpreadsCase (Builder.noteGroup group b).2 :=
  ⟨h.base, h.settled⟩

theorem spread (h : SpreadsCase b) {added : Options} {ids : List Nat} {entries : Array Entry}
    (hspread : Spread added ids b.entries entries) (hadded : added.ignoreCase = false) :
    SpreadsCase { b with entries } := by
  have hcase {i : Nat} {e' : Entry} (he' : entries[i]? = some e') :
      ∃ e, b.entries[i]? = some e ∧ e'.children = e.children ∧
        e'.options.ignoreCase = e.options.ignoreCase := by
    obtain ⟨e, he, hgains⟩ := hspread.gained he'
    refine ⟨e, he, hgains.children_eq, ?_⟩
    rcases hgains.options_eq with hsame | hunion
    · rw [hsame]
    · rw [hunion]
      simp [Options.union, hadded]
  constructor
  · intro hbase i e' he'
    obtain ⟨e, he, -, hsame⟩ := hcase he'
    exact hsame.trans (h.base hbase i e he)
  · intro i e' he' hhas c hc child' hchild'
    obtain ⟨e, he, hchildren, hsame⟩ := hcase he'
    obtain ⟨child, hchild, -, hsame'⟩ := hcase hchild'
    have hparent : e.Has ignoring := has_ignoring.2 (hsame.symm.trans (has_ignoring.1 hhas))
    have hpart := h.settled i e he hparent c (hchildren ▸ hc) child hchild
    exact has_ignoring.2 (hsame'.trans (has_ignoring.1 hpart))

theorem lookBack {child : Nat} (h : SpreadsCase b) (kind : Kind)
    (hsound : Sound b.entries maxGroup ([child] ++ rest)) :
    SpreadsCase (Builder.lookBack kind child b).2 := by
  have hspread := spread_spreadOptions backward (child + 1) hsound.below child
    (Nat.lt_succ_self child)
  rw [lookBack_eq hsound.below (hsound.exists_free child List.mem_cons_self)]
  have hoptions : (b.options.union backward).ignoreCase = b.options.ignoreCase := Bool.or_false _
  exact (h.spread hspread rfl).pushEntry (e := ⟨kind, [child], b.options.union backward⟩)
    (hsound.spread hspread) hoptions.trans fun hcase => .inl (hoptions.symm.trans hcase)

theorem call (h : SpreadsCase b) {c : Call} (hsound : Sound b.entries maxGroup (c.given ++ rest)) :
    SpreadsCase (c.run b).2 := by
  cases c with
  | empty => exact h.push _ hsound
  | nothing => exact h.push _ hsound
  | atom a => exact h.push _ hsound
  | multi chars =>
    match chars with
    | [] => exact h.push _ hsound
    | [c] => exact h.push (.char (.one c)) hsound
    | c :: d :: chars => exact h.push (.multi (c :: d :: chars)) hsound
  | anchor a => exact h.push _ hsound
  | quantify child min max isLazy => exact h.quantify hsound min max isLazy
  | capture group child => exact (h.noteGroup group).push _ hsound
  | namedCapture group name child =>
    have hnamed : SpreadsCase { b with names := b.names.insert name group } := ⟨h.base, h.settled⟩
    exact (hnamed.noteGroup group).push _ hsound
  | balancing group uncapture child =>
    cases group with
    | none => exact (h.noteGroup uncapture).push _ hsound
    | some group => exact ((h.noteGroup group).noteGroup uncapture).push _ hsound
  | concat children =>
    match children with
    | [] => exact h.push _ hsound
    | [c] => exact h
    | c :: d :: children => exact h.push .concat hsound
  | alternate children =>
    match children with
    | [] => exact h.push _ hsound
    | [c] => exact h
    | c :: d :: children => exact h.push .alternate hsound
  | atomic child => exact h.push _ hsound
  | backreference group => exact (h.noteGroup group).push _ hsound
  | lookahead child => exact h.push _ hsound
  | negativeLookahead child => exact h.push _ hsound
  | lookbehind child => exact h.lookBack _ hsound
  | negativeLookbehind child => exact h.lookBack _ hsound
  | backreferenceConditional group yes no => exact (h.noteGroup group).push _ hsound
  | expressionConditional condition yes no => exact h.push _ hsound

theorem ignoreCase (h : SpreadsCase b) (hsound : Sound b.entries maxGroup free) (child : Nat) :
    SpreadsCase (Builder.ignoreCase child b).2 := by
  have hspread := spread_spreadOptions ignoring (child + 1) hsound.below child
    (Nat.lt_succ_self child)
  refine ⟨fun hbase i e he => ?_, fun i => hspread.settled i (h.settled i)⟩
  obtain ⟨x, hx, hgains⟩ := hspread.gained he
  exact has_ignoring.1 (hgains.has (has_ignoring.2 (h.base hbase i x hx)))

end SpreadsCase

theorem Unshared.spreadsCase {options : Options} {b : Builder} {free : List Nat}
    (h : Unshared options b free) : SpreadsCase b := by
  induction h with
  | start => exact ⟨fun _ i e he => (by cases he), fun i e he => (by cases he)⟩
  | call hunshared c _ hgiven ih => exact ih.call ((kept_of_unshared hunshared).perm hgiven).sound
  | ignoreCase hunshared _ ih => exact ih.ignoreCase (kept_of_unshared hunshared).sound _

end RegexMachine.Builder
