import RegexMachine.Proofs.Tree.SpelledEntries

/-!
# Building a tree spelled out

Two builders are given the same calls, except that in the second every character is sealed before it
is repeated, and that every string is put together from its characters. What the second builds is what
the first builds, spelled out.
-/

namespace RegexMachine

namespace Call

/-- The call with other nodes given to it. -/
def rename (f : Nat → Nat) : Call → Call
  | .quantify child min max isLazy => .quantify (f child) min max isLazy
  | .capture group child => .capture group (f child)
  | .namedCapture group name child => .namedCapture group name (f child)
  | .balancing group uncapture child => .balancing group uncapture (f child)
  | .concat children => .concat (children.map f)
  | .alternate children => .alternate (children.map f)
  | .atomic child => .atomic (f child)
  | .lookahead child => .lookahead (f child)
  | .negativeLookahead child => .negativeLookahead (f child)
  | .lookbehind child => .lookbehind (f child)
  | .negativeLookbehind child => .negativeLookbehind (f child)
  | .backreferenceConditional group yes no => .backreferenceConditional group (f yes) (no.map f)
  | .expressionConditional condition yes no =>
    .expressionConditional (f condition) (f yes) (no.map f)
  | c => c

theorem given_rename (f : Nat → Nat) (c : Call) : (c.rename f).given = c.given.map f := by
  cases c with
  | backreferenceConditional _ _ no | expressionConditional _ _ no => cases no <;> rfl
  | _ => rfl

theorem Accepted.rename {c : Call} (h : c.Accepted) (f : Nat → Nat) : (c.rename f).Accepted := by
  cases c <;> exact h

end Call

namespace Builder

/-- The node is a single character. -/
def isChar (b : Builder) (i : Nat) : Bool :=
  match b.entries[i]? with
  | some { kind := .char _, .. } => true
  | _ => false

/-- A string, made of its characters. -/
def letters (chars : List Char) : Build Nat := do
  concat (← chars.mapM one)

end Builder

/-- What the second builder does at a call on the first, when it has images of the nodes. -/
def Call.spell (b : Builder) (image : Nat → Nat) : Call → Build Nat
  | .multi chars => Builder.letters chars
  | .quantify child min max isLazy => do
      let child' ← if b.isChar child then Builder.atomic (image child) else pure (image child)
      Builder.quantify child' min max isLazy
  | c => (c.rename image).run

/-- Two builders that are given such calls, the images of the nodes of the first in the second, and
the nodes of the first that were not given away. Case is ignored in nodes that are in use only. A
character that was repeated is not in use: the repetition took a copy of its options, so what is done
to the character no more reaches the repetition, while it still reaches the loop over the character. -/
inductive Builder.MadeSpelled (options : Options) :
    (b b' : Builder) → (image : Nat → Nat) → (free : List Nat) → Prop
  | start : MadeSpelled options { options } { options } id []
  | call {b b' : Builder} {image : Nat → Nat} {free rest : List Nat}
      (h : MadeSpelled options b b' image free) (c : Call) (accepted : c.Accepted)
      (hgiven : free.Perm (c.given ++ rest)) :
      MadeSpelled options (c.run b).2 (c.spell b image b').2
        (Function.update image (c.run b).1 (c.spell b image b').1) ((c.run b).1 :: rest)
  | ignoreCase {b b' : Builder} {image : Nat → Nat} {free : List Nat}
      (h : MadeSpelled options b b' image free) {child : Nat}
      (hchild : InUse b.entries free child) :
      MadeSpelled options ((Builder.ignoreCase child).run b).2
        ((Builder.ignoreCase (image child)).run b').2 image free

/-- The second tree was built by the same calls as the first one spelled out, none of which ignores
case in a character that was repeated before. Finishing is a call, too. -/
def Tree.SpelledBy (t t' : Tree) : Prop :=
  ∃ options b b' image free body, Builder.MadeSpelled options b b' image free ∧ body ∈ free ∧
    t = b.finish body ∧ t' = b'.finish (image body)

namespace Builder

/-- Builders after calls of which none ignores case in a character that was repeated before. -/
inductive UnsharedInTime (options : Options) : Builder → (free : List Nat) → Prop
  | start : UnsharedInTime options { options } []
  | call {b : Builder} {free rest : List Nat} (h : UnsharedInTime options b free) (c : Call)
      (accepted : c.Accepted) (hgiven : free.Perm (c.given ++ rest)) :
      UnsharedInTime options (c.run b).2 ((c.run b).1 :: rest)
  | ignoreCase {b : Builder} {free : List Nat} (h : UnsharedInTime options b free) {child : Nat}
      (hchild : InUse b.entries free child) :
      UnsharedInTime options ((Builder.ignoreCase child).run b).2 free

/-- Whatever is built by such calls can be built spelled out. -/
theorem UnsharedInTime.exists_spelled {options : Options} {b : Builder} {free : List Nat}
    (h : UnsharedInTime options b free) : ∃ b' image, MadeSpelled options b b' image free := by
  induction h with
  | start => exact ⟨_, _, .start⟩
  | call _ c accepted hgiven ih =>
    obtain ⟨b', image, h⟩ := ih
    exact ⟨_, _, h.call c accepted hgiven⟩
  | ignoreCase _ hchild ih =>
    obtain ⟨b', image, h⟩ := ih
    exact ⟨_, _, h.ignoreCase hchild⟩

theorem mapM_one (chars : List Char) (b : Builder) :
    (chars.mapM one) b = (List.range' b.entries.size chars.length, { b with
      entries := b.entries ++
        (chars.map fun c => (⟨.char (.one c), [], b.options⟩ : Entry)).toArray }) := by
  induction chars generalizing b with
  | nil =>
    rw [List.mapM_nil]
    change (([] : List Nat), b) = _
    simp
  | cons c rest ih =>
    rw [List.mapM_cons]
    change Id.run (do
      let r ← pure ((rest.mapM one) (one c b).2)
      pure ((one c b).1 :: r.1, r.2)) = _
    rw [ih]
    simp [one, atom, push, List.range'_succ]

theorem letters_eq_push {chars : List Char} (h : 2 ≤ chars.length) (b : Builder) :
    letters chars b = push .concat (List.range' b.entries.size chars.length) { b with
      entries := b.entries ++
        (chars.map fun c => (⟨.char (.one c), [], b.options⟩ : Entry)).toArray } := by
  have hletters : letters chars b =
      concat ((chars.mapM one) b).1 ((chars.mapM one) b).2 := rfl
  rw [hletters, mapM_one, concat_eq_push]
  rwa [List.length_range']

/-- What the two builders have in common. -/
structure Spelled (b b' : Builder) (image : Nat → Nat) (free : List Nat) : Prop where
  entries : ∃ owner, Spells b.entries b'.entries image owner free
  options : b'.options = b.options
  names : b'.names = b.names
  maxGroup : b'.maxGroup = b.maxGroup

namespace Spelled

variable {b b' : Builder} {image : Nat → Nat} {free given rest : List Nat} {maxGroup : Nat}

theorem perm (h : Spelled b b' image free) {free' : List Nat} (hperm : free.Perm free') :
    Spelled b b' image free' := by
  obtain ⟨⟨owner, h⟩, hoptions, hnames, hmax⟩ := h
  have hinUse (i : Nat) : InUse b.entries free' i ↔ InUse b.entries free i := by
    rw [InUse, InUse, hperm.mem_iff]
  refine ⟨⟨owner, fun i hi => h.spelledAt i ((hinUse i).1 hi),
    fun i hi => h.owner_image i ((hinUse i).1 hi), fun j hj => (hinUse _).2 (h.inUse_owner j hj),
    h.isUnder_owner, h.under_image, h.agrees⟩, hoptions, hnames, hmax⟩

theorem noteGroup (h : Spelled b b' image free) (group : Nat) :
    Spelled (Builder.noteGroup group b).2 (Builder.noteGroup group b').2 image free :=
  ⟨h.entries, h.options, h.names, congrArg (max · group) h.maxGroup⟩

theorem nameGroup (h : Spelled b b' image free) (name : String) (group : Nat) :
    Spelled { b with names := b.names.insert name group }
      { b' with names := b'.names.insert name group } image free :=
  ⟨h.entries, h.options, congrArg (·.insert name group) h.names, h.maxGroup⟩

section

variable (h : Spelled b b' image (given ++ rest))
  (hsound : Sound b.entries maxGroup (given ++ rest))
  (hbelow' : ∀ (i : Nat) (e : Entry), b'.entries[i]? = some e → ∀ c ∈ e.children, c < i)

include h hsound hbelow'

variable (given) in
theorem push (kind : Kind) (hkind : kind.isGeneral = true) :
    Spelled (Builder.push kind given b).2 (Builder.push kind (given.map image) b').2
      (Function.update image (Builder.push kind given b).1
        (Builder.push kind (given.map image) b').1) ((Builder.push kind given b).1 :: rest) := by
  obtain ⟨owner, hentries⟩ := h.entries
  have hagrees : b.options.AgreesOn kind b'.options := h.options ▸ .refl kind b.options
  exact ⟨hentries.push hsound hbelow' hkind hagrees, h.options, h.names, h.maxGroup⟩

theorem lookBack {kind : Kind} {child : Nat} (hgiven : given = [child])
    (hkind : kind.isGeneral = true) (horiented : Oriented b.entries)
    (horiented' : Oriented b'.entries) :
    Spelled (Builder.lookBack kind child b).2 (Builder.lookBack kind (image child) b').2
      (Function.update image (Builder.lookBack kind child b).1
        (Builder.lookBack kind (image child) b').1)
      ((Builder.lookBack kind child b).1 :: rest) := by
  subst hgiven
  obtain ⟨owner, hentries⟩ := h.entries
  have hchild : InUse b.entries ([child] ++ rest) child := .inl List.mem_cons_self
  have hspread := spread_spreadOptions backward (child + 1) hsound.below child
    (Nat.lt_succ_self child)
  have hspread' := spread_spreadOptions backward (image child + 1) hbelow' (image child)
    (Nat.lt_succ_self (image child))
  have hturned := hentries.spread hsound hbelow' horiented.settled horiented'.settled hchild
  have hagrees : (b.options.union backward).AgreesOn kind (b'.options.union backward) := by
    rw [h.options]
    exact .refl kind _
  have hpush := hturned.push (hsound.spread hspread) (hspread'.below hbelow') hkind hagrees
  rw [hspread.size_eq, hspread'.size_eq] at hpush
  rw [lookBack_eq hsound.below (hchild.lt_size hsound),
    lookBack_eq hbelow' (hentries.image_lt_size hsound hchild)]
  exact ⟨hpush, h.options, h.names, h.maxGroup⟩

end

section

variable (h : Spelled b b' image free) (hsound : Sound b.entries maxGroup free)
  (hbelow' : ∀ (i : Nat) (e : Entry), b'.entries[i]? = some e → ∀ c ∈ e.children, c < i)

include h hsound hbelow'

theorem pushChar (atom : Atom) :
    Spelled (Builder.atom atom b).2 (Builder.atom atom b').2
      (Function.update image (Builder.atom atom b).1 (Builder.atom atom b').1)
      ((Builder.atom atom b).1 :: free) := by
  obtain ⟨owner, hentries⟩ := h.entries
  have hagrees : b.options.AgreesOn (.char atom) b'.options := by
    rw [h.options]
    exact .refl _ b.options
  exact ⟨hentries.pushChar hsound hbelow' hagrees, h.options, h.names, h.maxGroup⟩

theorem pushLetters {chars : List Char} (hlength : 2 ≤ chars.length) :
    Spelled (Builder.multi chars b).2 (Builder.letters chars b').2
      (Function.update image (Builder.multi chars b).1 (Builder.letters chars b').1)
      ((Builder.multi chars b).1 :: free) := by
  obtain ⟨owner, hentries⟩ := h.entries
  obtain ⟨owner', hletters⟩ := hentries.pushLetters hsound hbelow' chars b.options
  rw [multi_eq_push hlength, letters_eq_push hlength]
  refine ⟨⟨owner', ?_⟩, h.options, h.names, h.maxGroup⟩
  simp only [Builder.push, h.options, Array.size_append, List.size_toArray, List.length_map]
  exact hletters

/-- A character that is free is sealed in the second builder. -/
theorem sealChar {child : Nat} (hchild : child ∈ free) {atom : Atom} {o : Options}
    (he : b.entries[child]? = some ⟨.char atom, [], o⟩)
    (hdirection : b.options.rightToLeft = o.rightToLeft) :
    Spelled b (Builder.atomic (image child) b').2
      (Function.update image child (Builder.atomic (image child) b').1) free := by
  obtain ⟨owner, hentries⟩ := h.entries
  have hagrees : o.AgreesOn .atomic b'.options := by
    rw [h.options]
    exact ⟨hdirection, nofun⟩
  exact ⟨⟨_, hentries.sealChar hsound hbelow' hchild he hagrees⟩, h.options, h.names, h.maxGroup⟩

theorem ignoreCase (hcase : SpreadsCase b) (hcase' : SpreadsCase b') {child : Nat}
    (hchild : InUse b.entries free child) :
    Spelled (Builder.ignoreCase child b).2 (Builder.ignoreCase (image child) b').2 image free := by
  obtain ⟨owner, hentries⟩ := h.entries
  exact ⟨⟨owner, hentries.spread hsound hbelow' hcase.settled hcase'.settled hchild⟩, h.options,
    h.names, h.maxGroup⟩

end

theorem isChar_iff {i : Nat} : b.isChar i = true ↔
    ∃ atom children o, b.entries[i]? = some ⟨.char atom, children, o⟩ := by
  rw [isChar]
  constructor
  · intro h
    split at h
    · next he => exact ⟨_, _, _, he⟩
    · cases h
  · rintro ⟨atom, children, o, he⟩
    rw [he]

theorem congr_image (h : Spelled b b' image free) {image' : Nat → Nat}
    (himage : ∀ i, InUse b.entries free i → image' i = image i) : Spelled b b' image' free := by
  obtain ⟨⟨owner, h⟩, hoptions, hnames, hmax⟩ := h
  refine ⟨⟨owner, fun i hi e he => ?_, fun i hi => ?_, h.inUse_owner, h.isUnder_owner, fun j hj => ?_,
    h.agrees⟩, hoptions, hnames, hmax⟩
  · rw [himage i hi]
    exact (h.spelledAt i hi e he).mono (fun j e he => ⟨e.options, he⟩) fun c hc =>
      himage c (.inr ⟨i, e, he, hc⟩)
  · rw [himage i hi]
    exact h.owner_image i hi
  · rw [himage _ (h.inUse_owner j hj)]
    exact h.under_image j hj

/-- A character is in use no more when a repetition has taken its place. -/
theorem not_inUse_of_repeated {child : Nat} (hsound : Sound b.entries maxGroup ([child] ++ rest))
    {kind : Kind} {o : Options} :
    ¬ InUse (b.entries.push ⟨kind, [], o⟩) (b.entries.size :: rest) child := by
  have hlt := hsound.exists_free child List.mem_cons_self
  have hnodup := (List.nodup_append.1 hsound.once).1
  rintro (hfree | ⟨p, hp⟩)
  · rcases List.mem_cons.1 hfree with hsize | hrest
    · exact Nat.ne_of_lt hlt hsize
    · exact (List.nodup_cons.1 hnodup).1 hrest
  · rcases isUnder_push hp with ⟨-, hmem⟩ | ⟨e, he, hmem⟩
    · cases hmem
    · exact hsound.not_mem_children he List.mem_cons_self hmem

section

variable {child : Nat} (h : Spelled b b' image ([child] ++ rest))
  (hkept : Kept b ([child] ++ rest))
  (hbelow' : ∀ (i : Nat) (e : Entry), b'.entries[i]? = some e → ∀ c ∈ e.children, c < i)

include h hkept hbelow'

theorem quantify_of_not_isChar (hchar : b.isChar child = false) (min max : Nat) (isLazy : Bool) :
    Spelled (quantify child min max isLazy b).2 (quantify (image child) min max isLazy b').2
      (Function.update image (quantify child min max isLazy b).1
        (quantify (image child) min max isLazy b').1)
      ((quantify child min max isLazy b).1 :: rest) := by
  have hnot : ∀ a children options, b.entries[child]? ≠ some ⟨.char a, children, options⟩ := by
    intro a children options he
    rw [isChar_iff.2 ⟨a, children, options, he⟩] at hchar
    cases hchar
  by_cases hone : min = 1 ∧ max = 1
  · obtain ⟨rfl, rfl⟩ := hone
    change Spelled b b' (Function.update image child (image child)) (child :: rest)
    rw [Function.update_eq_self]
    exact h
  · rw [quantify_loop hone hnot, quantify_loop hone ?_]
    · exact h.push _ hkept.sound hbelow' _ rfl
    · obtain ⟨owner, hentries⟩ := h.entries
      have hused : InUse b.entries ([child] ++ rest) child := .inl List.mem_cons_self
      obtain ⟨e, he⟩ : ∃ e, b.entries[child]? = some e :=
        ⟨_, Array.getElem?_eq_getElem (hused.lt_size hkept.sound)⟩
      obtain ⟨kind, children, options⟩ := e
      intro a children' options' he'
      cases hentries.spelledAt child hused _ he with
      | char _ => exact hnot _ _ _ he
      | multi hat _ | charLoop hat _ _ =>
        rw [he'] at hat
        cases hat
      | general hkind hat =>
        rw [he'] at hat
        cases hat
        cases hkind

theorem quantify_of_char {atom : Atom} {o : Options}
    (he : b.entries[child]? = some ⟨.char atom, [], o⟩) (min max : Nat) (isLazy : Bool) :
    let sealed := Builder.atomic (image child) b'
    Spelled (quantify child min max isLazy b).2 (quantify sealed.1 min max isLazy sealed.2).2
      (Function.update image (quantify child min max isLazy b).1
        (quantify sealed.1 min max isLazy sealed.2).1)
      ((quantify child min max isLazy b).1 :: rest) := by
  intro sealed
  -- What is free is matched in the direction of the pattern, if it is no lookaround.
  have hdirection : b.options.rightToLeft = o.rightToLeft := by
    refine Bool.eq_iff_iff.2 ⟨fun hbase => hkept.base hbase child _ he, fun hbackward => ?_⟩
    exact (hkept.upright child List.mem_cons_self _ he hbackward).resolve_right nofun
  have hsealed := h.sealChar hkept.sound hbelow' List.mem_cons_self he hdirection
  by_cases hone : min = 1 ∧ max = 1
  · obtain ⟨rfl, rfl⟩ := hone
    exact hsealed
  · have hself : sealed.2.entries[sealed.1]? = some ⟨.atomic, [image child], b'.options⟩ :=
      Array.getElem?_push_size
    have hused : InUse b.entries ([child] ++ rest) child := .inl List.mem_cons_self
    obtain ⟨owner, hold⟩ := h.entries
    have hunsealed : SealsAt b'.entries atom (image child) := by
      cases hold.spelledAt child hused _ he with
      | char hseals => exact hseals
      | general hkind _ => cases hkind
    have hbelow'' : ∀ (i : Nat) (e : Entry), sealed.2.entries[i]? = some e →
        ∀ c ∈ e.children, c < i := by
      refine forall_push (fun c hc => ?_) hbelow'
      rw [List.mem_singleton.1 hc]
      exact hold.image_lt_size hkept.sound hused
    have himage : Function.update image child sealed.1 child = sealed.1 := Function.update_self ..
    obtain ⟨owner', hentries⟩ := hsealed.entries
    have hagrees : o.AgreesOn (.loop min max isLazy) b'.options := by
      rw [h.options]
      exact ⟨hdirection, nofun⟩
    have hrepeated := hentries.repeatChar hkept.sound hbelow'' he
      (himage.symm ▸ hself) (hunsealed.mono (keeps_push _ _)) min max isLazy hagrees
    rw [himage] at hrepeated
    rw [quantify_char hone he, quantify_loop hone fun a children options he' => by
      rw [hself] at he'
      cases he']
    have hspelled : Spelled
        { b with entries := b.entries.push ⟨.charLoop atom min max isLazy, [], o⟩ }
        (Builder.push (.loop min max isLazy) [sealed.1] sealed.2).2
        (Function.update (Function.update image child sealed.1) b.entries.size
          sealed.2.entries.size) (b.entries.size :: rest) :=
      ⟨hrepeated, h.options, h.names, h.maxGroup⟩
    refine hspelled.congr_image fun i hi => ?_
    have hne : i ≠ child := fun heq => not_inUse_of_repeated hkept.sound (heq ▸ hi)
    rw [Function.update_apply, Function.update_apply, Function.update_of_ne hne]
    rfl

end

theorem call (h : Spelled b b' image free) (hkept : Kept b free) {free' : List Nat}
    (hkept' : Kept b' free') {c : Call} (hgiven : free.Perm (c.given ++ rest)) :
    Spelled (c.run b).2 (c.spell b image b').2
      (Function.update image (c.run b).1 (c.spell b image b').1) ((c.run b).1 :: rest) := by
  have hb := h.perm hgiven
  have hkept := hkept.perm hgiven
  have hsound := hkept.sound
  have hbelow' := hkept'.sound.below
  cases c with
  | empty => exact hb.push [] hsound hbelow' _ rfl
  | nothing => exact hb.push [] hsound hbelow' _ rfl
  | atom a => exact hb.pushChar hsound hbelow' a
  | multi chars =>
    match chars with
    | [] => exact hb.push [] hsound hbelow' .empty rfl
    | [c] => exact hb.pushChar hsound hbelow' (.one c)
    | _ :: _ :: _ => exact hb.pushLetters hsound hbelow' (by simp)
  | anchor a => exact hb.push [] hsound hbelow' _ rfl
  | quantify child min max isLazy =>
    cases hchar : b.isChar child with
    | false =>
      have hspell : (Call.quantify child min max isLazy).spell b image b' =
          quantify (image child) min max isLazy b' := by
        rw [Call.spell, hchar]
        rfl
      rw [hspell]
      exact hb.quantify_of_not_isChar hkept hbelow' hchar min max isLazy
    | true =>
      have hspell : (Call.quantify child min max isLazy).spell b image b' =
          quantify (Builder.atomic (image child) b').1 min max isLazy
            (Builder.atomic (image child) b').2 := by
        rw [Call.spell, hchar]
        rfl
      rw [hspell]
      obtain ⟨atom, children, o, he⟩ := isChar_iff.1 hchar
      obtain rfl : children = [] := List.eq_nil_of_length_eq_zero (hsound.arity child _ he)
      exact hb.quantify_of_char hkept hbelow' he min max isLazy
  | capture group child =>
    exact (hb.noteGroup group).push [child] hsound hbelow' _ rfl
  | namedCapture group name child =>
    exact ((hb.nameGroup name group).noteGroup group).push [child] hsound hbelow' _ rfl
  | balancing group uncapture child =>
    cases group with
    | none => exact (hb.noteGroup uncapture).push [child] hsound hbelow' _ rfl
    | some group =>
      exact ((hb.noteGroup group).noteGroup uncapture).push [child] hsound hbelow' _ rfl
  | concat children =>
    match children with
    | [] => exact hb.push [] hsound hbelow' .empty rfl
    | [c] =>
      change Spelled b b' (Function.update image c (image c)) (c :: rest)
      rw [Function.update_eq_self]
      exact hb
    | _ :: _ :: _ => exact hb.push _ hsound hbelow' .concat rfl
  | alternate children =>
    match children with
    | [] => exact hb.push [] hsound hbelow' .nothing rfl
    | [c] =>
      change Spelled b b' (Function.update image c (image c)) (c :: rest)
      rw [Function.update_eq_self]
      exact hb
    | _ :: _ :: _ => exact hb.push _ hsound hbelow' .alternate rfl
  | atomic child => exact hb.push [child] hsound hbelow' _ rfl
  | backreference group => exact (hb.noteGroup group).push [] hsound hbelow' _ rfl
  | lookahead child => exact hb.push [child] hsound hbelow' _ rfl
  | negativeLookahead child => exact hb.push [child] hsound hbelow' _ rfl
  | lookbehind child | negativeLookbehind child =>
    exact hb.lookBack hsound hbelow' rfl rfl hkept.oriented hkept'.oriented
  | backreferenceConditional group yes no =>
    cases no with
    | none => exact (hb.noteGroup group).push [yes] hsound hbelow' _ rfl
    | some no => exact (hb.noteGroup group).push [yes, no] hsound hbelow' _ rfl
  | expressionConditional condition yes no =>
    cases no with
    | none => exact hb.push [condition, yes] hsound hbelow' _ rfl
    | some no => exact hb.push [condition, yes, no] hsound hbelow' _ rfl

end Spelled

theorem Unshared.mapM_one {options : Options} (chars : List Char) : ∀ {b : Builder} {free : List Nat},
    Unshared options b free → Unshared options ((chars.mapM one) b).2
      (((chars.mapM one) b).1.reverse ++ free) := by
  induction chars with
  | nil => exact fun h => h
  | cons c rest ih =>
    intro b free h
    have hrest := ih (h.call (.atom (.one c)) trivial (.refl free))
    have hcons : ((c :: rest).mapM one) b =
        ((one c b).1 :: ((rest.mapM one) (one c b).2).1, ((rest.mapM one) (one c b).2).2) := by
      rw [List.mapM_cons]
      rfl
    rw [hcons, List.reverse_cons, List.append_assoc]
    exact hrest

/-- The calls of the second builder are calls. -/
theorem Unshared.spell {options : Options} {b b' : Builder} {free rest : List Nat} {image : Nat → Nat}
    (h : Unshared options b' free) {c : Call} (accepted : c.Accepted)
    (hgiven : free.Perm (c.given.map image ++ rest)) :
    Unshared options (c.spell b image b').2 ((c.spell b image b').1 :: rest) := by
  have hcall : Unshared options ((c.rename image).run b').2 (((c.rename image).run b').1 :: rest) :=
    h.call (c.rename image) (accepted.rename image) (by rwa [Call.given_rename])
  cases c with
  | multi chars =>
    refine (h.mapM_one chars).call (.concat ((chars.mapM one) b').1) trivial ?_
    exact (List.reverse_perm _).append hgiven
  | quantify child min max isLazy =>
    rw [Call.spell]
    cases hchar : b.isChar child with
    | false => exact hcall
    | true =>
      have hsealed := h.call (.atomic (image child)) trivial hgiven
      exact hsealed.call (.quantify b'.entries.size min max isLazy) accepted (.refl _)
  | _ => exact hcall

/-- The two builders are made by calls, and the second spells out the first. -/
theorem MadeSpelled.unshared {options : Options} {b b' : Builder} {image : Nat → Nat} {free : List Nat}
    (h : MadeSpelled options b b' image free) :
    Unshared options b free ∧ Unshared options b' (free.map image) ∧ Spelled b b' image free := by
  induction h with
  | start =>
    refine ⟨.start, .start, ⟨id, fun i hi e he => ?_, fun i _ => rfl, fun j hj => ?_, ?_, fun j hj => ?_,
      fun j e' he' => ?_⟩, rfl, rfl, rfl⟩
    · cases he
    · cases hj
    · rintro c p ⟨e, he, -⟩
      cases he
    · cases hj
    · cases he'
  | @call b b' image free rest _ c accepted hgiven ih =>
    obtain ⟨hunshared, hunshared', hspelled⟩ := ih
    have hcall := hunshared.call c accepted hgiven
    have hgiven' : (free.map image).Perm (c.given.map image ++ rest.map image) := by
      rw [← List.map_append]
      exact hgiven.map image
    refine ⟨hcall, ?_, hspelled.call (kept_of_unshared hunshared) (kept_of_unshared hunshared') hgiven⟩
    have hnew : (c.run b).1 ∉ rest :=
      (List.nodup_cons.1 (List.nodup_append.1 (kept_of_unshared hcall).sound.once).1).1
    have himage : rest.map (Function.update image (c.run b).1 (c.spell b image b').1) =
        rest.map image :=
      List.map_congr_left fun i hi => Function.update_of_ne (ne_of_mem_of_not_mem hi hnew) _ _
    rw [List.map_cons, Function.update_self, himage]
    exact hunshared'.spell accepted hgiven'
  | @ignoreCase b b' image free _ child hchild ih =>
    obtain ⟨hunshared, hunshared', hspelled⟩ := ih
    have hsound := (kept_of_unshared hunshared).sound
    have hsound' := (kept_of_unshared hunshared').sound
    obtain ⟨owner, hentries⟩ := id hspelled.entries
    exact ⟨hunshared.ignoreCase (hchild.lt_size hsound),
      hunshared'.ignoreCase (hentries.image_lt_size hsound hchild),
      hspelled.ignoreCase hsound hsound'.below hunshared.spreadsCase hunshared'.spreadsCase hchild⟩

end Builder

end RegexMachine
