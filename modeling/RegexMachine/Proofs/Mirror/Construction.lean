import RegexMachine.Proofs.Mirror.Outcomes
import RegexMachine.Proofs.Tree.Spreading

/-!
# Building a mirror image

Two builders are given the same calls, one under the option to match backward and one without it,
except that the second is given every string and every sequence in reverse and every anchor at the
other side. What the second builds is the mirror image of what the first builds.
-/

namespace RegexMachine

namespace Call

/-- The call that makes the mirror image. -/
def mirror : Call → Call
  | .multi chars => .multi chars.reverse
  | .anchor a => .anchor a.mirror
  | .concat children => .concat children.reverse
  | c => c

/-- The call makes no lookbehind, no balancing group and no assertion about the last line feed. -/
def Mirrorable : Call → Prop
  | .anchor .endZ | .balancing .. | .lookbehind _ | .negativeLookbehind _ => False
  | _ => True

theorem given_mirror (c : Call) : c.mirror.given.Perm c.given := by
  cases c with
  | concat children => exact List.reverse_perm children
  | _ => exact .refl _

theorem accepted_mirror {c : Call} (h : c.Accepted) : c.mirror.Accepted := by
  cases c <;> exact h

end Call

/-- Two builders that are given the same calls, the first to match backward and the second the mirror
image, with the nodes that were not given away. -/
inductive Builder.MadeMirrored (options : Options) : (b b' : Builder) → (free : List Nat) → Prop
  | start : MadeMirrored options { options := { options with rightToLeft := true } }
      { options := { options with rightToLeft := false } } []
  | call {b b' : Builder} {free rest : List Nat} (h : MadeMirrored options b b' free) (c : Call)
      (accepted : c.Accepted) (mirrorable : c.Mirrorable)
      (hgiven : free.Perm (c.given ++ rest)) :
      MadeMirrored options (c.run b).2 (c.mirror.run b').2 ((c.run b).1 :: rest)
  | ignoreCase {b b' : Builder} {free : List Nat} (h : MadeMirrored options b b' free) {child : Nat}
      (hchild : child < b.entries.size) : MadeMirrored options ((Builder.ignoreCase child).run b).2
        ((Builder.ignoreCase child).run b').2 free

/-- The first tree is matched backward, and the second was built by the same calls as its mirror
image. Finishing is a call, too. -/
def Tree.MirroredBy (t t' : Tree) : Prop :=
  ∃ options b b' free body, Builder.MadeMirrored options b b' free ∧ body ∈ free ∧
    t = b.finish body ∧ t' = b'.finish body

def Entry.mirror (e : Entry) : Entry where
  kind := e.kind.mirror
  children := e.kind.arrange e.children
  options := e.options.leftToRight

namespace Builder

/-- The builder with all its entries seen in a mirror. -/
def mirror (b : Builder) : Builder :=
  { b with options := b.options.leftToRight, entries := b.entries.map Entry.mirror }

theorem push_mirror (kind : Kind) (children : List Nat) (b : Builder) :
    push kind.mirror (kind.arrange children) b.mirror =
      ((push kind children b).1, (push kind children b).2.mirror) := by
  simp only [push, mirror, Array.size_map, Array.map_push, Entry.mirror]

theorem quantify_mirror (child min max : Nat) (isLazy : Bool) (b : Builder) :
    quantify child min max isLazy b.mirror =
      ((quantify child min max isLazy b).1, (quantify child min max isLazy b).2.mirror) := by
  have hentry : b.mirror.entries[child]? = (b.entries[child]?).map Entry.mirror :=
    Array.getElem?_map
  by_cases hone : min = 1 ∧ max = 1
  · obtain ⟨rfl, rfl⟩ := hone
    rfl
  · by_cases hchar : ∃ a children options, b.entries[child]? = some ⟨.char a, children, options⟩
    · obtain ⟨a, children, options, he⟩ := hchar
      rw [he] at hentry
      rw [quantify_char hone he, quantify_char hone hentry]
      simp only [mirror, Array.size_map, Array.map_push, Entry.mirror]
      rfl
    · have hloop := push_mirror (.loop min max isLazy) [child] b
      rw [quantify_loop hone fun a children options he => hchar ⟨a, children, options, he⟩,
        quantify_loop hone fun a children options he => ?_]
      · exact hloop
      · rw [hentry] at he
        obtain ⟨⟨kind, under, own⟩, he, hmirror⟩ := Option.map_eq_some_iff.1 he
        have hkind := congrArg Entry.kind hmirror
        cases kind with
        | char x => exact hchar ⟨x, under, own, he⟩
        | _ => cases hkind

end Builder

/-- The call for the mirror image, on the mirror image of a builder, makes the same node. -/
theorem Call.run_mirror {c : Call} (hc : c.Mirrorable) (b : Builder) :
    c.mirror.run b.mirror = ((c.run b).1, (c.run b).2.mirror) := by
  cases c with
  | multi chars =>
    match chars with
    | [] => exact Builder.push_mirror .empty [] b
    | [c] => exact Builder.push_mirror (.char (.one c)) [] b
    | c :: d :: rest =>
      have hlength : 2 ≤ (c :: d :: rest).reverse.length := by simp
      change Builder.multi (c :: d :: rest).reverse b.mirror = _
      rw [Builder.multi_eq_push hlength]
      exact Builder.push_mirror (.multi (c :: d :: rest)) [] b
  | anchor a => exact Builder.push_mirror (.anchor a) [] b
  | concat children =>
    match children with
    | [] => exact Builder.push_mirror .empty [] b
    | [c] => rfl
    | c :: d :: rest =>
      have hlength : 2 ≤ (c :: d :: rest).reverse.length := by simp
      change Builder.concat (c :: d :: rest).reverse b.mirror = _
      rw [Builder.concat_eq_push hlength]
      exact Builder.push_mirror .concat (c :: d :: rest) b
  | alternate children =>
    match children with
    | [] => exact Builder.push_mirror .nothing [] b
    | [c] => rfl
    | c :: d :: rest => exact Builder.push_mirror .alternate (c :: d :: rest) b
  | quantify child min max isLazy => exact Builder.quantify_mirror child min max isLazy b
  | empty => exact Builder.push_mirror .empty [] b
  | nothing => exact Builder.push_mirror .nothing [] b
  | atom a => exact Builder.push_mirror (.char a) [] b
  | capture group child =>
    exact Builder.push_mirror (.capture (some group) none) [child] (Builder.noteGroup group b).2
  | namedCapture group name child =>
    exact Builder.push_mirror (.capture (some group) none) [child]
      (Builder.noteGroup group { b with names := b.names.insert name group }).2
  | balancing group uncapture child => exact hc.elim
  | atomic child => exact Builder.push_mirror .atomic [child] b
  | backreference group =>
    exact Builder.push_mirror (.backreference group) [] (Builder.noteGroup group b).2
  | lookahead child => exact Builder.push_mirror .positiveLook [child] b
  | negativeLookahead child => exact Builder.push_mirror .negativeLook [child] b
  | lookbehind child | negativeLookbehind child => exact hc.elim
  | backreferenceConditional group yes no =>
    exact Builder.push_mirror (.backreferenceConditional group) (yes :: no.toList)
      (Builder.noteGroup group b).2
  | expressionConditional condition yes no =>
    exact Builder.push_mirror .expressionConditional (condition :: yes :: no.toList) b

namespace Builder

variable {entries : Array Entry}

theorem has_mirror {e : Entry} : e.mirror.Has ignoring ↔ e.Has ignoring := by
  rw [has_ignoring, has_ignoring]
  rfl

theorem getElem?_mirror (entries : Array Entry) (i : Nat) :
    (entries.map Entry.mirror)[i]? = (entries[i]?).map Entry.mirror := Array.getElem?_map

theorem isUnder_mirror (entries : Array Entry) :
    IsUnder (entries.map Entry.mirror) = IsUnder entries := by
  funext c p
  refine propext ⟨?_, ?_⟩
  · rintro ⟨e, he, hmem⟩
    rw [getElem?_mirror] at he
    obtain ⟨x, hx, rfl⟩ := Option.map_eq_some_iff.1 he
    exact ⟨x, hx, Kind.mem_arrange.1 hmem⟩
  · rintro ⟨e, he, hmem⟩
    refine ⟨e.mirror, ?_, Kind.mem_arrange.2 hmem⟩
    rw [getElem?_mirror, he, Option.map_some]

theorem below_mirror
    (hbelow : ∀ (i : Nat) (e : Entry), entries[i]? = some e → ∀ c ∈ e.children, c < i) :
    ∀ (i : Nat) (e : Entry), (entries.map Entry.mirror)[i]? = some e → ∀ c ∈ e.children, c < i := by
  intro i e he c hc
  rw [getElem?_mirror] at he
  obtain ⟨x, hx, rfl⟩ := Option.map_eq_some_iff.1 he
  exact hbelow i x hx c (Kind.mem_arrange.1 hc)

theorem settled_mirror (hsettled : ∀ i, Settled ignoring entries i) :
    ∀ i, Settled ignoring (entries.map Entry.mirror) i := by
  intro i e he hhas c hc child hchild
  rw [getElem?_mirror] at he hchild
  obtain ⟨x, hx, rfl⟩ := Option.map_eq_some_iff.1 he
  obtain ⟨y, hy, rfl⟩ := Option.map_eq_some_iff.1 hchild
  exact has_mirror.2 (hsettled i x hx (has_mirror.1 hhas) c (Kind.mem_arrange.1 hc) y hy)

/-- Case is ignored in the mirror image of a part as it is in the part. -/
theorem spreadOptions_mirror
    (hbelow : ∀ (i : Nat) (e : Entry), entries[i]? = some e → ∀ c ∈ e.children, c < i)
    (hsettled : ∀ i, Settled ignoring entries i) (id : Nat) :
    spreadOptions ignoring (id + 1) (entries.map Entry.mirror) id =
      (spreadOptions ignoring (id + 1) entries id).map Entry.mirror := by
  have hspread := spread_spreadOptions ignoring (id + 1) hbelow id (Nat.lt_succ_self id)
  have hspread' := spread_spreadOptions ignoring (id + 1) (below_mirror hbelow) id
    (Nat.lt_succ_self id)
  apply Array.ext_getElem?
  intro i
  rw [getElem?_mirror]
  cases he : entries[i]? with
  | none =>
    rw [Array.getElem?_eq_none_iff] at he
    have hsize := hspread.size_eq
    have hsize' := hspread'.size_eq
    rw [Array.size_map] at hsize'
    rw [Array.getElem?_eq_none_iff.2 (by omega), Array.getElem?_eq_none_iff.2 (by omega)]
    rfl
  | some e =>
    have hmirror : (entries.map Entry.mirror)[i]? = some e.mirror := by
      rw [getElem?_mirror, he, Option.map_some]
    obtain ⟨x, hx, hgains⟩ := hspread.gains i e he
    obtain ⟨y, hy, hgains'⟩ := hspread'.gains i e.mirror hmirror
    have hoptions := hspread.options_eq hbelow hsettled he hx
    have hoptions' := hspread'.options_eq (below_mirror hbelow) (settled_mirror hsettled) hmirror hy
    rw [isUnder_mirror] at hoptions'
    have hsame : y.options = x.options.leftToRight := by
      rcases hoptions with ⟨hunder, hx⟩ | ⟨hunder, hx⟩
      · rcases hoptions' with ⟨-, hy⟩ | ⟨hnot, -⟩
        · rw [hx, hy]
          simp [Entry.mirror, Options.union, Options.leftToRight]
        · exact absurd hunder hnot
      · rcases hoptions' with ⟨hunder', -⟩ | ⟨-, hy⟩
        · exact absurd hunder' hunder
        · rw [hx, hy]
          rfl
    rw [hx, hy, Option.map_some]
    refine congrArg some ?_
    obtain ⟨kind, children, options⟩ := y
    obtain rfl : kind = e.kind.mirror := hgains'.kind_eq
    obtain rfl : children = e.kind.arrange e.children := hgains'.children_eq
    obtain rfl : options = x.options.leftToRight := hsame
    rw [Entry.mirror, hgains.kind_eq, hgains.children_eq]

/-- What calls that have mirror images keep up: all constructs have two sides, and what ignores case
has only parts that do. -/
structure Reflects (b : Builder) : Prop where
  twoSided : ∀ (i : Nat) (e : Entry), b.entries[i]? = some e → e.kind.isTwoSided = true
  base : b.options.ignoreCase = true → ∀ (i : Nat) (e : Entry), b.entries[i]? = some e →
    e.options.ignoreCase = true
  settled : ∀ i, Settled ignoring b.entries i

namespace Reflects

variable {b : Builder} {given rest free : List Nat} {maxGroup : Nat}

theorem spreadsCase (h : Reflects b) : SpreadsCase b := ⟨h.base, h.settled⟩

theorem of_spreadsCase (h : SpreadsCase b)
    (htwoSided : ∀ (i : Nat) (e : Entry), b.entries[i]? = some e → e.kind.isTwoSided = true) :
    Reflects b := ⟨htwoSided, h.base, h.settled⟩

theorem twoSided_push (h : Reflects b) {e : Entry} (htwoSided : e.kind.isTwoSided = true) :
    ∀ (i : Nat) (x : Entry), (b.entries.push e)[i]? = some x → x.kind.isTwoSided = true :=
  forall_push (P := fun _ e => e.kind.isTwoSided = true) htwoSided h.twoSided

theorem twoSided_quantify (h : Reflects b) (child min max : Nat) (isLazy : Bool) (i : Nat)
    (x : Entry) (hx : (Builder.quantify child min max isLazy b).2.entries[i]? = some x) :
    x.kind.isTwoSided = true := by
  rcases quantify_cases child min max isLazy b with
    ⟨-, -, hsame⟩ | ⟨a, children, options, -, hchar⟩ | hloop
  · rw [hsame] at hx
    exact h.twoSided i x hx
  · rw [hchar] at hx
    exact h.twoSided_push rfl i x hx
  · rw [hloop] at hx
    exact h.twoSided_push rfl i x hx

theorem call (h : Reflects b) {c : Call} (hc : c.Mirrorable)
    (hsound : Sound b.entries maxGroup (c.given ++ rest)) : Reflects (c.run b).2 := by
  refine of_spreadsCase (h.spreadsCase.call hsound) ?_
  cases c with
  | multi chars =>
    match chars with
    | [] | [_] | _ :: _ :: _ => exact h.twoSided_push rfl
  | anchor a =>
    refine h.twoSided_push ?_
    cases a with
    | endZ => exact hc.elim
    | _ => rfl
  | quantify child min max isLazy => exact h.twoSided_quantify child min max isLazy
  | balancing group uncapture child => exact hc.elim
  | concat children | alternate children =>
    match children with
    | [_] => exact h.twoSided
    | [] | _ :: _ :: _ => exact h.twoSided_push rfl
  | lookbehind child | negativeLookbehind child => exact hc.elim
  | _ => exact h.twoSided_push rfl

theorem ignoreCase (h : Reflects b) (hsound : Sound b.entries maxGroup free) (child : Nat) :
    Reflects (Builder.ignoreCase child b).2 := by
  have hspread := spread_spreadOptions ignoring (child + 1) hsound.below child
    (Nat.lt_succ_self child)
  refine of_spreadsCase (h.spreadsCase.ignoreCase hsound child) fun i e he => ?_
  obtain ⟨x, hx, hgains⟩ := hspread.gained he
  rw [hgains.kind_eq]
  exact h.twoSided i x hx

end Reflects

theorem options_run (c : Call) (b : Builder) : (c.run b).2.options = b.options := by
  cases c with
  | quantify child min max isLazy =>
    change (Builder.quantify child min max isLazy b).2.options = b.options
    rcases quantify_cases child min max isLazy b with ⟨-, -, hsame⟩ | ⟨_, _, _, -, hchar⟩ | hloop
    · rw [hsame]
    · rw [hchar]
    · rw [hloop]
      rfl
  | multi chars => match chars with | [] | [_] | _ :: _ :: _ => rfl
  | concat children | alternate children => match children with | [] | [_] | _ :: _ :: _ => rfl
  | balancing group uncapture child => cases group <;> rfl
  | _ => rfl

theorem Unshared.options_eq {options : Options} {b : Builder} {free : List Nat}
    (h : Unshared options b free) : b.options = options := by
  induction h with
  | start => rfl
  | call _ c _ _ ih => rw [options_run, ih]
  | ignoreCase _ _ ih => exact ih

/-- What a builder makes that is given the calls in reverse is the mirror image. -/
theorem MadeMirrored.unshared {options : Options} {b b' : Builder} {free : List Nat}
    (h : MadeMirrored options b b' free) :
    Unshared { options with rightToLeft := true } b free ∧
      Unshared { options with rightToLeft := false } b' free ∧ b' = b.mirror ∧ b.Reflects := by
  induction h with
  | start =>
    refine ⟨.start, .start, ?_, fun i e he => ?_, fun _ i e he => ?_, fun i e he => ?_⟩
    · simp only [mirror, Array.map_empty, Options.leftToRight]
    · cases he
    · cases he
    · cases he
  | @call b b' free rest _ c accepted mirrorable hgiven ih =>
    obtain ⟨hunshared, hunshared', rfl, hreflects⟩ := ih
    have hrun := Call.run_mirror mirrorable b
    have hcall' := hunshared'.call c.mirror (Call.accepted_mirror accepted)
      (hgiven.trans (c.given_mirror.symm.append_right rest))
    rw [hrun] at hcall' ⊢
    have hsound := ((kept_of_unshared hunshared).perm hgiven).sound
    exact ⟨hunshared.call c accepted hgiven, hcall', rfl, hreflects.call mirrorable hsound⟩
  | @ignoreCase b b' free _ child hchild ih =>
    obtain ⟨hunshared, hunshared', rfl, hreflects⟩ := ih
    have hsound := (kept_of_unshared hunshared).sound
    have hchild' : child < b.mirror.entries.size := by
      rw [mirror, Array.size_map]
      exact hchild
    refine ⟨hunshared.ignoreCase hchild, hunshared'.ignoreCase hchild', ?_,
      hreflects.ignoreCase hsound child⟩
    exact congrArg (fun entries => { b.mirror with entries })
      (spreadOptions_mirror hsound.below hreflects.settled child)

end Builder

end RegexMachine
