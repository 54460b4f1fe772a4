import RegexMachine.Proofs.Tree.Spelling
import RegexMachine.Proofs.Tree.Spreading

/-!
# Entries that are spelled out

Two builders make the entries of a tree and those of the tree spelled out. An entry of the second is
made on behalf of one of the first, its owner, and every entry that is in use has an image, which
stands above all that was made on its behalf. So options that are spread from an entry and from its
image reach the same owners.
-/

namespace RegexMachine.Builder

open Relation (ReflTransGen)

/-- The entry is free or under another. A character that was repeated is neither. -/
def InUse (entries : Array Entry) (free : List Nat) (i : Nat) : Prop :=
  i ∈ free ∨ ∃ p, IsUnder entries i p

/-- The entry is a character, sealed any number of times. -/
inductive SealsAt (entries : Array Entry) (atom : Atom) : Nat → Prop
  | char {j : Nat} {options : Options} (h : entries[j]? = some ⟨.char atom, [], options⟩) :
      SealsAt entries atom j
  | atomic {j c : Nat} {options : Options} (h : entries[j]? = some ⟨.atomic, [c], options⟩)
      (hc : SealsAt entries atom c) : SealsAt entries atom j

/-- What stands at an entry is a construct spelled out, over the images of what is under the
construct. -/
inductive SpelledAt (entries : Array Entry) (image : Nat → Nat) : Kind → List Nat → Nat → Prop
  | char {atom : Atom} {j : Nat} (h : SealsAt entries atom j) :
      SpelledAt entries image (.char atom) [] j
  | multi {chars : List Char} {j : Nat} {letters : List Nat} {options : Options}
      (h : entries[j]? = some ⟨.concat, letters, options⟩)
      (hletters : List.Forall₂ (fun c letter => ∃ options,
        entries[letter]? = some ⟨.char (.one c), [], options⟩) chars letters) :
      SpelledAt entries image (.multi chars) [] j
  | charLoop {atom : Atom} {min max : Nat} {isLazy : Bool} {j k c : Nat} {options options' : Options}
      (h : entries[j]? = some ⟨.loop min max isLazy, [k], options⟩)
      (hk : entries[k]? = some ⟨.atomic, [c], options'⟩) (hc : SealsAt entries atom c) :
      SpelledAt entries image (.charLoop atom min max isLazy) [] j
  | general {kind : Kind} {children : List Nat} {j : Nat} {options : Options}
      (hkind : kind.isGeneral = true)
      (h : entries[j]? = some ⟨kind, children.map image, options⟩) :
      SpelledAt entries image kind children j

/-- The second entries spell out the first. -/
structure Spells (entries entries' : Array Entry) (image owner : Nat → Nat) (free : List Nat) :
    Prop where
  spelledAt : ∀ i, InUse entries free i → ∀ e, entries[i]? = some e →
    SpelledAt entries' image e.kind e.children (image i)
  owner_image : ∀ i, InUse entries free i → owner (image i) = i
  inUse_owner : ∀ j < entries'.size, InUse entries free (owner j)
  /-- What is under an entry has the same owner, or one under its owner. -/
  isUnder_owner : ∀ c p, IsUnder entries' c p →
    owner c = owner p ∨ IsUnder entries (owner c) (owner p)
  under_image : ∀ j < entries'.size, ReflTransGen (IsUnder entries') j (image (owner j))
  agrees : ∀ j e', entries'[j]? = some e' → ∀ e, entries[owner j]? = some e →
    e.options.AgreesOn e'.kind e'.options

section

variable {entries entries' entries'' : Array Entry} {image owner : Nat → Nat}
  {free given rest : List Nat} {maxGroup : Nat}

/-- Options apart, the first entries are among the second. -/
def Keeps (entries entries' : Array Entry) : Prop :=
  ∀ (j : Nat) (e : Entry), entries[j]? = some e →
    ∃ options, entries'[j]? = some ⟨e.kind, e.children, options⟩

theorem Keeps.of_same (h : ∀ j < entries.size, entries'[j]? = entries[j]?) :
    Keeps entries entries' := by
  intro j e he
  exact ⟨e.options, (h j (Array.getElem?_eq_some_iff.1 he).1).trans he⟩

theorem Spread.keeps {added : Options} {ids : List Nat} (h : Spread added ids entries entries') :
    Keeps entries entries' := by
  intro j e he
  obtain ⟨⟨kind, children, options⟩, he', hgains⟩ := h.gains j e he
  obtain rfl : kind = e.kind := hgains.kind_eq
  obtain rfl : children = e.children := hgains.children_eq
  exact ⟨options, he'⟩

theorem Keeps.isUnder (h : Keeps entries entries') {c p : Nat} (hunder : IsUnder entries c p) :
    IsUnder entries' c p := by
  obtain ⟨e, he, hmem⟩ := hunder
  obtain ⟨options, he'⟩ := h p e he
  exact ⟨_, he', hmem⟩

theorem Keeps.under (h : Keeps entries entries') {c p : Nat}
    (hunder : ReflTransGen (IsUnder entries) c p) : ReflTransGen (IsUnder entries') c p :=
  ReflTransGen.mono (fun _ _ => h.isUnder) _ _ hunder

theorem SealsAt.mono {atom : Atom} {j : Nat} (hkeeps : Keeps entries entries')
    (h : SealsAt entries atom j) : SealsAt entries' atom j := by
  induction h with
  | char h =>
    obtain ⟨options, h'⟩ := hkeeps _ _ h
    exact .char h'
  | atomic h _ ih =>
    obtain ⟨options, h'⟩ := hkeeps _ _ h
    exact .atomic h' ih

theorem SpelledAt.mono {kind : Kind} {children : List Nat} {j : Nat} {image' : Nat → Nat}
    (hkeeps : Keeps entries entries') (himage : ∀ c ∈ children, image' c = image c)
    (h : SpelledAt entries image kind children j) :
    SpelledAt entries' image' kind children j := by
  cases h with
  | char h => exact .char (h.mono hkeeps)
  | multi h hletters =>
    obtain ⟨options, h'⟩ := hkeeps _ _ h
    exact .multi h' (hletters.imp fun c letter ⟨_, hletter⟩ => hkeeps _ _ hletter)
  | charLoop h hk hc =>
    obtain ⟨options, h'⟩ := hkeeps _ _ h
    obtain ⟨options', hk'⟩ := hkeeps _ _ hk
    exact .charLoop h' hk' (hc.mono hkeeps)
  | general hkind h =>
    obtain ⟨options, h'⟩ := hkeeps _ _ h
    rw [← List.map_congr_left himage] at h'
    exact .general hkind h'

theorem Spread.isUnder_iff {added : Options} {ids : List Nat}
    (h : Spread added ids entries entries') {c p : Nat} :
    IsUnder entries' c p ↔ IsUnder entries c p := by
  refine ⟨fun ⟨e', he', hmem⟩ => ?_, h.keeps.isUnder⟩
  obtain ⟨e, he, hgains⟩ := h.gained he'
  exact ⟨e, he, hgains.children_eq ▸ hmem⟩

theorem Spread.isUnder_eq {added : Options} {ids : List Nat}
    (h : Spread added ids entries entries') : IsUnder entries' = IsUnder entries :=
  funext fun _ => funext fun _ => propext h.isUnder_iff

/-- An entry lies under an image exactly when its owner lies under what the image is of. -/
theorem Spells.under_iff (h : Spells entries entries' image owner free) {id j : Nat}
    (hid : InUse entries free id) (hj : j < entries'.size) :
    ReflTransGen (IsUnder entries') j (image id) ↔ ReflTransGen (IsUnder entries) (owner j) id := by
  constructor
  · intro hunder
    rw [← h.owner_image id hid]
    generalize image id = top at hunder
    clear hj
    induction hunder with
    | refl => exact .refl
    | tail _ hstep ih =>
      rcases h.isUnder_owner _ _ hstep with hsame | hstep'
      · rwa [hsame] at ih
      · exact ih.tail hstep'
  · intro hunder
    refine (h.under_image j hj).trans ?_
    clear hj
    induction hunder with
    | refl => exact .refl
    | @tail c p _ hstep ih =>
      -- What has parts is general, so the image of a part is under its image.
      obtain ⟨e, he, hmem⟩ := hstep
      have hshape := h.spelledAt p hid e he
      refine (ih (.inr ⟨p, e, he, hmem⟩)).tail ?_
      cases e with
      | mk kind children options =>
        cases hshape with
        | general _ hentry => exact ⟨_, hentry, List.mem_map_of_mem hmem⟩
        | _ => cases hmem

/-- Options that are spread from an entry and from its image leave the second spelling out the
first. -/
theorem Spells.spread (h : Spells entries entries' image owner free)
    (hsound : Sound entries maxGroup free)
    (hbelow' : ∀ (i : Nat) (e : Entry), entries'[i]? = some e → ∀ c ∈ e.children, c < i)
    {added : Options} (hsettled : ∀ i, Settled added entries i)
    (hsettled' : ∀ i, Settled added entries' i) {id : Nat} (hid : InUse entries free id) :
    Spells (spreadOptions added (id + 1) entries id)
      (spreadOptions added (image id + 1) entries' (image id)) image owner free := by
  have hspread := spread_spreadOptions added (id + 1) hsound.below id (Nat.lt_succ_self id)
  have hspread' := spread_spreadOptions added (image id + 1) hbelow' (image id)
    (Nat.lt_succ_self (image id))
  have hinUse (i : Nat) : InUse (spreadOptions added (id + 1) entries id) free i ↔
      InUse entries free i := by rw [InUse, InUse, hspread.isUnder_eq]
  refine ⟨fun i hi e he => ?_, fun i hi => h.owner_image i ((hinUse i).1 hi), fun j hj => ?_, ?_,
    fun j hj => ?_, fun j e' he' e he => ?_⟩
  · obtain ⟨e₀, he₀, hgains⟩ := hspread.gained he
    rw [hgains.kind_eq, hgains.children_eq]
    exact (h.spelledAt i ((hinUse i).1 hi) e₀ he₀).mono hspread'.keeps fun _ _ => rfl
  · rw [hspread'.size_eq] at hj
    exact (hinUse _).2 (h.inUse_owner j hj)
  · rw [hspread.isUnder_eq, hspread'.isUnder_eq]
    exact h.isUnder_owner
  · rw [hspread'.size_eq] at hj
    rw [hspread'.isUnder_eq]
    exact h.under_image j hj
  · obtain ⟨e₀', he₀', hgains'⟩ := hspread'.gained he'
    obtain ⟨e₀, he₀, -⟩ := hspread.gained he
    have hagrees := h.agrees j e₀' he₀' e₀ he₀
    have hiff := h.under_iff hid (Array.getElem?_eq_some_iff.1 he₀').1
    by_cases hunder : ReflTransGen (IsUnder entries) (owner j) id
    · rw [getElem?_spreadOptions_of_under hbelow' hsettled' (hiff.2 hunder), he₀'] at he'
      rw [getElem?_spreadOptions_of_under hsound.below hsettled hunder, he₀] at he
      cases he
      cases he'
      exact hagrees.union added
    · rw [getElem?_spreadOptions_of_not_under hbelow' hsettled' (hunder ∘ hiff.1), he₀'] at he'
      rw [getElem?_spreadOptions_of_not_under hsound.below hsettled hunder, he₀] at he
      cases he
      cases he'
      exact hagrees

theorem getElem?_push_of_lt {e : Entry} {i : Nat} (hi : i < entries.size) :
    (entries.push e)[i]? = entries[i]? := by
  rw [Array.getElem?_push, if_neg (Nat.ne_of_lt hi)]

theorem isUnder_push {e : Entry} {c p : Nat} (h : IsUnder (entries.push e) c p) :
    (p = entries.size ∧ c ∈ e.children) ∨ IsUnder entries c p := by
  obtain ⟨x, hx, hmem⟩ := h
  rw [Array.getElem?_push] at hx
  split at hx
  · next hp =>
    cases hx
    exact .inl ⟨hp, hmem⟩
  · exact .inr ⟨x, hx, hmem⟩

theorem keeps_push (entries : Array Entry) (e : Entry) : Keeps entries (entries.push e) :=
  .of_same fun _ => getElem?_push_of_lt

theorem InUse.lt_size (hsound : Sound entries maxGroup free) {i : Nat} (h : InUse entries free i) :
    i < entries.size := by
  rcases h with hfree | ⟨p, e, he, hmem⟩
  · exact hsound.exists_free i hfree
  · exact hsound.child_lt_size he hmem

theorem SpelledAt.lt_size {kind : Kind} {children : List Nat} {j : Nat}
    (h : SpelledAt entries image kind children j) : j < entries.size := by
  cases h with
  | char h => cases h <;> exact (Array.getElem?_eq_some_iff.1 ‹_›).1
  | multi h | charLoop h | general _ h => exact (Array.getElem?_eq_some_iff.1 h).1

theorem Spells.image_lt_size (h : Spells entries entries' image owner free)
    (hsound : Sound entries maxGroup free) {i : Nat} (hi : InUse entries free i) :
    image i < entries'.size :=
  (h.spelledAt i hi _ (Array.getElem?_eq_getElem (hi.lt_size hsound))).lt_size

end

/-- A new entry of the first builder, the new entries of the second that are made on its behalf, and
the topmost of these. The new entry may absorb characters, which are then in use no more. -/
structure Extends (entries entries' entries'' : Array Entry) (image : Nat → Nat)
    (given absorbed : List Nat) (e : Entry) (top : Nat) : Prop where
  given_eq : given = e.children ++ absorbed
  absorbed_like : ∀ x ∈ absorbed, ∀ a, entries[x]? = some a →
    a.children = [] ∧ a.options = e.options
  old : ∀ j < entries'.size, entries''[j]? = entries'[j]?
  size_le : entries'.size ≤ top
  spelledAt : SpelledAt entries'' image e.kind e.children top
  new : ∀ j e', entries'.size ≤ j → entries''[j]? = some e' →
    e.options.AgreesOn e'.kind e'.options ∧ ReflTransGen (IsUnder entries'') j top ∧
      ∀ c ∈ e'.children, entries'.size ≤ c ∨ ∃ g ∈ given, c = image g
  under : ∀ x ∈ absorbed, ReflTransGen (IsUnder entries'') (image x) top

/-- What was made before keeps its owner, unless that was absorbed by the entry with the new number. -/
def takeOver (owner : Nat → Nat) (absorbed : List Nat) (size' new : Nat) (j : Nat) : Nat :=
  if j < size' ∧ owner j ∉ absorbed then owner j else new

namespace Extends

variable {entries entries' entries'' : Array Entry} {image owner : Nat → Nat}
  {given absorbed rest : List Nat} {maxGroup top : Nat} {e : Entry}

theorem takeOver_old {size' new j : Nat} (hj : j < size') (hnot : owner j ∉ absorbed) :
    takeOver owner absorbed size' new j = owner j := if_pos ⟨hj, hnot⟩

theorem takeOver_new {size' new j : Nat} (h : j < size' → owner j ∈ absorbed) :
    takeOver owner absorbed size' new j = new := if_neg fun hboth => hboth.2 (h hboth.1)

section

variable (x : Extends entries entries' entries'' image given absorbed e top)
  (hsound : Sound entries maxGroup (given ++ rest))

include x

theorem keeps : Keeps entries' entries'' := .of_same x.old

theorem mem_given_of_absorbed {i : Nat} (hi : i ∈ absorbed) : i ∈ given :=
  x.given_eq ▸ List.mem_append_right _ hi

include hsound

theorem not_absorbed_of_isUnder {c p : Nat} (h : IsUnder entries c p) : c ∉ absorbed := by
  intro habs
  obtain ⟨a, ha, hmem⟩ := h
  exact hsound.not_mem_children ha (List.mem_append_left _ (x.mem_given_of_absorbed habs)) hmem

theorem inUse_iff {i : Nat} : InUse (entries.push e) (entries.size :: rest) i ↔
    i = entries.size ∨ (InUse entries (given ++ rest) i ∧ i ∉ absorbed) := by
  have hnodup := List.nodup_append.1 (List.nodup_append.1 hsound.once).1
  constructor
  · rintro (hfree | ⟨p, hp⟩)
    · rcases List.mem_cons.1 hfree with rfl | hrest
      · exact .inl rfl
      · refine .inr ⟨.inl (List.mem_append_right _ hrest), fun habs => ?_⟩
        exact hnodup.2.2 i (x.mem_given_of_absorbed habs) i hrest rfl
    · rcases isUnder_push hp with ⟨-, hmem⟩ | hp
      · have hdisjoint := (List.nodup_append.1 (x.given_eq ▸ hnodup.1)).2.2
        have hgiven : i ∈ given := x.given_eq ▸ List.mem_append_left _ hmem
        exact .inr ⟨.inl (List.mem_append_left _ hgiven), fun habs => hdisjoint i hmem i habs rfl⟩
      · exact .inr ⟨.inr ⟨p, hp⟩, x.not_absorbed_of_isUnder hsound hp⟩
  · rintro (rfl | ⟨hfree | ⟨p, hp⟩, hnot⟩)
    · exact .inl List.mem_cons_self
    · rcases List.mem_append.1 hfree with hmem | hmem
      · rw [x.given_eq] at hmem
        exact .inr ⟨entries.size, e, Array.getElem?_push_size,
          (List.mem_append.1 hmem).resolve_right hnot⟩
      · exact .inl (List.mem_cons_of_mem _ hmem)
    · exact .inr ⟨p, (keeps_push entries e).isUnder hp⟩

variable (h : Spells entries entries' image owner (given ++ rest))

include h

theorem spelledAt_push {i : Nat} (hi : InUse (entries.push e) (entries.size :: rest) i) {a : Entry}
    (ha : (entries.push e)[i]? = some a) :
    SpelledAt entries'' (Function.update image entries.size top) a.kind a.children
      (Function.update image entries.size top i) := by
  have himage : ∀ c < entries.size, Function.update image entries.size top c = image c :=
    fun c hc => Function.update_of_ne (Nat.ne_of_lt hc) top image
  rcases (x.inUse_iff hsound).1 hi with rfl | ⟨hused, -⟩
  · rw [Array.getElem?_push_size] at ha
    cases ha
    rw [Function.update_self]
    refine x.spelledAt.mono (fun j a ha => ⟨a.options, ha⟩) fun c hc => himage c ?_
    have hgiven : c ∈ given := x.given_eq ▸ List.mem_append_left _ hc
    exact hsound.exists_free c (List.mem_append_left _ hgiven)
  · have hlt := hused.lt_size hsound
    rw [getElem?_push_of_lt hlt] at ha
    rw [himage i hlt]
    exact (h.spelledAt i hused a ha).mono x.keeps fun c hc => himage c (hsound.child_lt_size ha hc)

theorem owner_image_push {i : Nat} (hi : InUse (entries.push e) (entries.size :: rest) i) :
    takeOver owner absorbed entries'.size entries.size
      (Function.update image entries.size top i) = i := by
  rcases (x.inUse_iff hsound).1 hi with rfl | ⟨hused, hnot⟩
  · rw [Function.update_self]
    exact takeOver_new fun hlt => absurd hlt (Nat.not_lt.2 x.size_le)
  · have hback := h.owner_image i hused
    rw [Function.update_of_ne (Nat.ne_of_lt (hused.lt_size hsound)),
      takeOver_old (h.image_lt_size hsound hused) (by rwa [hback]), hback]

/-- A new entry is under new ones, or under what was given to the call. -/
theorem isUnder_owner_new {c p : Nat} (hp : entries'.size ≤ p) (hcp : IsUnder entries'' c p) :
    takeOver owner absorbed entries'.size entries.size c = entries.size ∨
      IsUnder (entries.push e) (takeOver owner absorbed entries'.size entries.size c)
        entries.size := by
  obtain ⟨a, ha, hmem⟩ := hcp
  rcases (x.new p a hp ha).2.2 c hmem with hc | ⟨g, hg, rfl⟩
  · exact .inl (takeOver_new fun hlt => absurd hlt (Nat.not_lt.2 hc))
  · have hused : InUse entries (given ++ rest) g := .inl (List.mem_append_left _ hg)
    have hback := h.owner_image g hused
    by_cases habs : g ∈ absorbed
    · exact .inl (takeOver_new fun _ => by rwa [hback])
    · rw [takeOver_old (h.image_lt_size hsound hused) (by rwa [hback]), hback]
      rw [x.given_eq] at hg
      exact .inr ⟨e, Array.getElem?_push_size, (List.mem_append.1 hg).resolve_right habs⟩

theorem isUnder_owner_old
    (hbelow' : ∀ (i : Nat) (e : Entry), entries'[i]? = some e → ∀ c ∈ e.children, c < i) {c p : Nat}
    (hp : p < entries'.size) (hcp : IsUnder entries'' c p) :
    takeOver owner absorbed entries'.size entries.size c =
        takeOver owner absorbed entries'.size entries.size p ∨
      IsUnder (entries.push e) (takeOver owner absorbed entries'.size entries.size c)
        (takeOver owner absorbed entries'.size entries.size p) := by
  obtain ⟨a, ha, hmem⟩ := hcp
  rw [x.old p hp] at ha
  have hc : c < entries'.size := Nat.lt_trans (hbelow' p a ha c hmem) hp
  rcases h.isUnder_owner c p ⟨a, ha, hmem⟩ with hsame | hstep
  · by_cases habs : owner p ∈ absorbed
    · exact .inl ((takeOver_new fun _ => hsame ▸ habs).trans (takeOver_new fun _ => habs).symm)
    · rw [takeOver_old hp habs, takeOver_old hc (hsame ▸ habs)]
      exact .inl hsame
  · have hnot : owner p ∉ absorbed := by
      intro habs
      obtain ⟨b, hb, hmem⟩ := hstep
      rw [(x.absorbed_like _ habs b hb).1] at hmem
      cases hmem
    rw [takeOver_old hp hnot, takeOver_old hc (x.not_absorbed_of_isUnder hsound hstep)]
    exact .inr ((keeps_push entries e).isUnder hstep)

theorem under_image_push {j : Nat} (hj : j < entries''.size) :
    ReflTransGen (IsUnder entries'') j (Function.update image entries.size top
      (takeOver owner absorbed entries'.size entries.size j)) := by
  by_cases hlt : j < entries'.size
  · have hup := x.keeps.under (h.under_image j hlt)
    by_cases habs : owner j ∈ absorbed
    · rw [takeOver_new fun _ => habs, Function.update_self]
      exact hup.trans (x.under _ habs)
    · rw [takeOver_old hlt habs,
        Function.update_of_ne (Nat.ne_of_lt ((h.inUse_owner j hlt).lt_size hsound))]
      exact hup
  · rw [takeOver_new fun hlt' => absurd hlt' hlt, Function.update_self]
    exact (x.new j _ (Nat.not_lt.1 hlt) (Array.getElem?_eq_getElem hj)).2.1

theorem agrees_push {j : Nat} {a' a : Entry} (ha' : entries''[j]? = some a')
    (ha : (entries.push e)[takeOver owner absorbed entries'.size entries.size j]? = some a) :
    a.options.AgreesOn a'.kind a'.options := by
  by_cases hlt : j < entries'.size
  · rw [x.old j hlt] at ha'
    have hused := (h.inUse_owner j hlt).lt_size hsound
    have hown := Array.getElem?_eq_getElem hused
    by_cases habs : owner j ∈ absorbed
    · rw [takeOver_new fun _ => habs, Array.getElem?_push_size] at ha
      cases ha
      rw [← (x.absorbed_like _ habs _ hown).2]
      exact h.agrees j a' ha' _ hown
    · rw [takeOver_old hlt habs, getElem?_push_of_lt hused] at ha
      exact h.agrees j a' ha' a ha
  · rw [takeOver_new fun hlt' => absurd hlt' hlt, Array.getElem?_push_size] at ha
    cases ha
    exact (x.new j a' (Nat.not_lt.1 hlt) ha').1

/-- The new entry is spelled out by what is made on its behalf. -/
theorem spells
    (hbelow' : ∀ (i : Nat) (e : Entry), entries'[i]? = some e → ∀ c ∈ e.children, c < i) :
    Spells (entries.push e) entries'' (Function.update image entries.size top)
      (takeOver owner absorbed entries'.size entries.size) (entries.size :: rest) where
  spelledAt i hi a ha := x.spelledAt_push hsound h hi ha
  owner_image i hi := x.owner_image_push hsound h hi
  inUse_owner j _ := by
    by_cases hj : j < entries'.size ∧ owner j ∉ absorbed
    · rw [takeOver_old hj.1 hj.2]
      exact (x.inUse_iff hsound).2 (.inr ⟨h.inUse_owner j hj.1, hj.2⟩)
    · rw [takeOver, if_neg hj]
      exact .inl List.mem_cons_self
  isUnder_owner c p hcp := by
    by_cases hp : p < entries'.size
    · exact x.isUnder_owner_old hsound h hbelow' hp hcp
    · have hnew : takeOver owner absorbed entries'.size entries.size p = entries.size :=
        takeOver_new fun hlt => absurd hlt hp
      rw [hnew]
      exact x.isUnder_owner_new hsound h (Nat.not_lt.1 hp) hcp
  under_image j hj := x.under_image_push hsound h hj
  agrees j a' ha' a ha := x.agrees_push hsound h ha' ha

end

/-- One entry is made on behalf of the new one. -/
theorem of_push {e' : Entry} (given_eq : given = e.children ++ absorbed)
    (absorbed_like : ∀ x ∈ absorbed, ∀ a, entries[x]? = some a →
      a.children = [] ∧ a.options = e.options)
    (spelledAt : SpelledAt (entries'.push e') image e.kind e.children entries'.size)
    (agrees : e.options.AgreesOn e'.kind e'.options)
    (children : ∀ c ∈ e'.children, ∃ g ∈ given, c = image g)
    (under : ∀ x ∈ absorbed, image x ∈ e'.children) :
    Extends entries entries' (entries'.push e') image given absorbed e entries'.size where
  given_eq := given_eq
  absorbed_like := absorbed_like
  old _ := getElem?_push_of_lt
  size_le := Nat.le_refl _
  spelledAt := spelledAt
  new j a hj ha := by
    have hlt := (Array.getElem?_eq_some_iff.1 ha).1
    rw [Array.size_push] at hlt
    obtain rfl : j = entries'.size := by omega
    rw [Array.getElem?_push_size] at ha
    cases ha
    exact ⟨agrees, .refl, fun c hc => .inr (children c hc)⟩
  under x hx := .single ⟨e', Array.getElem?_push_size, under x hx⟩

end Extends

namespace Spells

variable {entries entries' : Array Entry} {image owner : Nat → Nat} {free given rest : List Nat}
  {maxGroup : Nat}

/-- A general construct is put over images as it is put over what they are images of. -/
theorem push (h : Spells entries entries' image owner (given ++ rest))
    (hsound : Sound entries maxGroup (given ++ rest))
    (hbelow' : ∀ (i : Nat) (e : Entry), entries'[i]? = some e → ∀ c ∈ e.children, c < i)
    {kind : Kind} (hkind : kind.isGeneral = true) {o o' : Options} (ho : o.AgreesOn kind o') :
    ∃ owner', Spells (entries.push ⟨kind, given, o⟩) (entries'.push ⟨kind, given.map image, o'⟩)
      (Function.update image entries.size entries'.size) owner' (entries.size :: rest) := by
  have hextends : Extends entries entries' (entries'.push ⟨kind, given.map image, o'⟩) image given []
      ⟨kind, given, o⟩ entries'.size := by
    refine .of_push (List.append_nil given).symm (fun x hx => absurd hx List.not_mem_nil)
      (.general hkind Array.getElem?_push_size) ho (fun c hc => ?_)
      fun x hx => absurd hx List.not_mem_nil
    obtain ⟨g, hg, rfl⟩ := List.mem_map.1 hc
    exact ⟨g, hg, rfl⟩
  exact ⟨_, hextends.spells hsound h hbelow'⟩

theorem pushChar (h : Spells entries entries' image owner free)
    (hsound : Sound entries maxGroup free)
    (hbelow' : ∀ (i : Nat) (e : Entry), entries'[i]? = some e → ∀ c ∈ e.children, c < i)
    {atom : Atom} {o o' : Options} (ho : o.AgreesOn (.char atom) o') :
    ∃ owner', Spells (entries.push ⟨.char atom, [], o⟩) (entries'.push ⟨.char atom, [], o'⟩)
      (Function.update image entries.size entries'.size) owner' (entries.size :: free) := by
  have hextends : Extends entries entries' (entries'.push ⟨.char atom, [], o'⟩) image [] []
      ⟨.char atom, [], o⟩ entries'.size :=
    .of_push rfl (fun x hx => absurd hx List.not_mem_nil) (.char (.char Array.getElem?_push_size))
      ho (fun c hc => absurd hc List.not_mem_nil) fun x hx => absurd hx List.not_mem_nil
  exact ⟨_, hextends.spells hsound h hbelow'⟩

/-- A free character stays one when its image is sealed. -/
theorem sealChar (h : Spells entries entries' image owner free)
    (hsound : Sound entries maxGroup free)
    (hbelow' : ∀ (i : Nat) (e : Entry), entries'[i]? = some e → ∀ c ∈ e.children, c < i)
    {x : Nat} (hx : x ∈ free) {atom : Atom} {o o' : Options}
    (he : entries[x]? = some ⟨.char atom, [], o⟩) (ho : o.AgreesOn .atomic o') :
    Spells entries (entries'.push ⟨.atomic, [image x], o'⟩)
      (Function.update image x entries'.size) (Function.update owner entries'.size x) free := by
  have hself : (entries'.push ⟨.atomic, [image x], o'⟩)[entries'.size]? =
      some ⟨.atomic, [image x], o'⟩ := Array.getElem?_push_size
  have howner {j : Nat} (hj : j < entries'.size) :
      Function.update owner entries'.size x j = owner j :=
    Function.update_of_ne (Nat.ne_of_lt hj) x owner
  have hcases {j : Nat} (hj : j < (entries'.push ⟨.atomic, [image x], o'⟩).size) :
      j = entries'.size ∨ j < entries'.size := by
    rw [Array.size_push] at hj
    omega
  refine ⟨fun i hi e hentry => ?_, fun i hi => ?_, fun j hj => ?_, fun c p hcp => ?_,
    fun j hj => ?_, fun j e' he' e hentry => ?_⟩
  · by_cases hix : i = x
    · subst hix
      rw [he] at hentry
      cases hentry
      rw [Function.update_self]
      cases h.spelledAt i hi _ he with
      | char hseals => exact .char (.atomic hself (hseals.mono (keeps_push _ _)))
      | general hkind _ => cases hkind
    · rw [Function.update_of_ne hix]
      refine (h.spelledAt i hi e hentry).mono (keeps_push _ _) fun c hc => ?_
      refine Function.update_of_ne ?_ _ _
      rintro rfl
      exact hsound.not_mem_children hentry hx hc
  · by_cases hix : i = x
    · subst hix
      rw [Function.update_self, Function.update_self]
    · rw [Function.update_of_ne hix, howner (h.image_lt_size hsound hi), h.owner_image i hi]
  · rcases hcases hj with rfl | hlt
    · rw [Function.update_self]
      exact .inl hx
    · rw [howner hlt]
      exact h.inUse_owner j hlt
  · rcases isUnder_push hcp with ⟨rfl, hmem⟩ | hold
    · rw [List.mem_singleton.1 hmem, Function.update_self, howner (h.image_lt_size hsound (.inl hx)),
        h.owner_image x (.inl hx)]
      exact .inl rfl
    · obtain ⟨a, ha, hmem⟩ := id hold
      have hp := (Array.getElem?_eq_some_iff.1 ha).1
      rw [howner hp, howner (Nat.lt_trans (hbelow' p a ha c hmem) hp)]
      exact h.isUnder_owner c p hold
  · rcases hcases hj with rfl | hlt
    · rw [Function.update_self, Function.update_self]
    · have hup := (keeps_push entries' ⟨.atomic, [image x], o'⟩).under (h.under_image j hlt)
      rw [howner hlt]
      by_cases hx : owner j = x
      · rw [hx] at hup ⊢
        rw [Function.update_self]
        exact hup.tail ⟨_, hself, List.mem_singleton_self _⟩
      · rw [Function.update_of_ne hx]
        exact hup
  · rcases hcases (Array.getElem?_eq_some_iff.1 he').1 with rfl | hlt
    · rw [hself] at he'
      rw [Function.update_self, he] at hentry
      cases he'
      cases hentry
      exact ho
    · rw [getElem?_push_of_lt hlt] at he'
      rw [howner hlt] at hentry
      exact h.agrees j e' he' e hentry

/-- A character that is repeated makes way for the repetition, and its sealed image is put under a
loop. -/
theorem repeatChar {x : Nat} (h : Spells entries entries' image owner (x :: rest))
    (hsound : Sound entries maxGroup (x :: rest))
    (hbelow' : ∀ (i : Nat) (e : Entry), entries'[i]? = some e → ∀ c ∈ e.children, c < i)
    {atom : Atom} {o o' o'' : Options} (he : entries[x]? = some ⟨.char atom, [], o⟩) {c : Nat}
    (hsealed : entries'[image x]? = some ⟨.atomic, [c], o''⟩) (hc : SealsAt entries' atom c)
    (min max : Nat) (isLazy : Bool) (ho : o.AgreesOn (.loop min max isLazy) o') :
    ∃ owner', Spells (entries.push ⟨.charLoop atom min max isLazy, [], o⟩)
      (entries'.push ⟨.loop min max isLazy, [image x], o'⟩)
      (Function.update image entries.size entries'.size) owner' (entries.size :: rest) := by
  have hkeeps := keeps_push entries' ⟨.loop min max isLazy, [image x], o'⟩
  have hlt := (Array.getElem?_eq_some_iff.1 hsealed).1
  have hextends : Extends entries entries' (entries'.push ⟨.loop min max isLazy, [image x], o'⟩)
      image [x] [x] ⟨.charLoop atom min max isLazy, [], o⟩ entries'.size := by
    refine .of_push rfl (fun y hy a ha => ?_)
      (.charLoop Array.getElem?_push_size ((getElem?_push_of_lt hlt).trans hsealed)
        (hc.mono hkeeps)) ho (fun y hy => ⟨x, List.mem_singleton_self x, List.mem_singleton.1 hy⟩)
      fun y hy => ?_
    · rw [List.mem_singleton.1 hy, he] at ha
      cases ha
      exact ⟨rfl, rfl⟩
    · rw [List.mem_singleton.1 hy]
      exact List.mem_singleton_self _
  exact ⟨_, hextends.spells hsound h hbelow'⟩

/-- A string is spelled out by its characters and a sequence of them. -/
theorem pushLetters (h : Spells entries entries' image owner free)
    (hsound : Sound entries maxGroup free)
    (hbelow' : ∀ (i : Nat) (e : Entry), entries'[i]? = some e → ∀ c ∈ e.children, c < i)
    (chars : List Char) (o : Options) :
    let letters := chars.map fun c => (⟨.char (.one c), [], o⟩ : Entry)
    let ids := List.range' entries'.size chars.length
    ∃ owner', Spells (entries.push ⟨.multi chars, [], o⟩)
      ((entries' ++ letters.toArray).push ⟨.concat, ids, o⟩)
      (Function.update image entries.size (entries'.size + chars.length)) owner'
      (entries.size :: free) := by
  intro letters ids
  let entries'' := (entries' ++ letters.toArray).push ⟨.concat, ids, o⟩
  have hsize : (entries' ++ letters.toArray).size = entries'.size + chars.length := by
    simp [letters]
  have htop : entries''[entries'.size + chars.length]? = some ⟨.concat, ids, o⟩ := by
    rw [← hsize]
    exact Array.getElem?_push_size
  have hletter : ∀ i (hi : i < chars.length),
      entries''[entries'.size + i]? = some ⟨.char (.one chars[i]), [], o⟩ := by
    intro i hi
    rw [getElem?_push_of_lt (by omega), Array.getElem?_append_right (Nat.le_add_right _ _),
      Nat.add_sub_cancel_left]
    simp [letters, hi]
  have hextends : Extends entries entries' entries'' image [] [] ⟨.multi chars, [], o⟩
      (entries'.size + chars.length) := by
    refine ⟨rfl, fun x hx => absurd hx List.not_mem_nil, fun j hj => ?_, Nat.le_add_right _ _,
      .multi htop (List.forall₂_iff_get.2 ⟨by simp [ids], fun i hi hi' => ?_⟩), fun j e' hj he' => ?_,
      fun x hx => absurd hx List.not_mem_nil⟩
    · rw [getElem?_push_of_lt (by omega), Array.getElem?_append_left hj]
    · refine ⟨o, ?_⟩
      rw [List.get_eq_getElem, List.get_eq_getElem, List.getElem_range', Nat.one_mul]
      exact hletter i hi
    · have hlt := (Array.getElem?_eq_some_iff.1 he').1
      rw [Array.size_push, hsize] at hlt
      obtain ⟨i, rfl⟩ := Nat.exists_eq_add_of_le hj
      obtain rfl | hi : i = chars.length ∨ i < chars.length := by omega
      · rw [htop] at he'
        cases he'
        exact ⟨⟨rfl, nofun⟩, .refl, fun c hc => .inl (List.mem_range'_1.1 hc).1⟩
      · rw [hletter i hi] at he'
        cases he'
        refine ⟨⟨rfl, fun _ => rfl⟩, .single ⟨_, htop, ?_⟩, fun c hc => absurd hc List.not_mem_nil⟩
        exact List.mem_range'_1.2 (by omega)
  exact ⟨_, hextends.spells hsound h hbelow'⟩

end Spells

end RegexMachine.Builder
