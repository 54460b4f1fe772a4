import Mathlib.Data.List.Chain
import Mathlib.Data.List.TakeWhile
import RegexMachine.Proofs.Replacement.Literal

/-!
# Templates as they are written

The rules of a template can be written down again as a template: literal text with every dollar sign
doubled, and each reference in the form that is read back whatever follows it. Reading what was written
gives the same rules and the same literal text, although the template that the rules came from may have
been written otherwise.
-/

namespace RegexMachine.Template

/-- Text as a template writes it. -/
def escape (cs : List Char) : List Char :=
  cs.flatMap fun c => if c = '$' then ['$', '$'] else [c]

theorem escape_append (cs ds : List Char) : escape (cs ++ ds) = escape cs ++ escape ds :=
  List.flatMap_append

theorem escape_of_not_mem {cs : List Char} (h : '$' ∉ cs) : escape cs = cs := by
  have hone : ∀ c ∈ cs, (if c = '$' then ['$', '$'] else [c]) = [c] := by
    intro c hc
    apply if_neg
    rintro rfl
    exact h hc
  rw [escape, List.flatMap_congr hone, List.flatMap_singleton']

/-- A rule as a template writes it, given the literal texts. -/
def writtenRule (literal : Nat → String) : Rule → List Char
  | .literal index => escape (literal index).toList
  | .group number => '$' :: '\x7b' :: (Nat.toDigits 10 number ++ ['\x7d'])
  | .leftPortion => ['$', '\x60']
  | .rightPortion => ['$', '\'']
  | .lastGroup => ['$', '+']
  | .wholeText => ['$', '_']

/-- The rules of a template, written as a template. -/
def written (t : Template) : String := String.ofList (t.rules.flatMap (writtenRule t.literal))

namespace Scope

variable {scope : Scope}

/-- The digits before the closing brace are the number of a group. -/
theorem braced_number {digits : List Char} (hne : digits ≠ [])
    (hdigits : ∀ c ∈ digits, c.isDigit = true) (rest : List Char) :
    scope.braced (digits ++ '\x7d' :: rest) =
      (scope.check (GroupNames.decimal? digits)).map fun group => (group, rest) := by
  have htake : (digits ++ '\x7d' :: rest).takeWhile Char.isDigit = digits := by
    rw [List.takeWhile_append_of_pos hdigits, List.takeWhile_cons_of_neg (by decide),
      List.append_nil]
  have hdrop : (digits ++ '\x7d' :: rest).dropWhile Char.isDigit = '\x7d' :: rest := by
    rw [List.dropWhile_append_of_pos hdigits, List.dropWhile_cons_of_neg (by decide)]
  obtain ⟨c, cs, rfl⟩ := List.exists_cons_of_ne_nil hne
  have hbyNumber : scope.byNumber (c :: cs ++ '\x7d' :: rest) =
      (scope.check (GroupNames.decimal? (c :: cs))).map fun group => (group, '\x7d' :: rest) := by
    rw [byNumber, htake, hdrop]
  rw [List.cons_append] at hbyNumber ⊢
  simp only [braced.eq_def, if_pos (hdigits c List.mem_cons_self), hbyNumber]
  cases scope.check (GroupNames.decimal? (c :: cs)) <;> rfl

/-- What begins with a digit and goes on with something else before the closing brace is nothing. -/
theorem braced_mixed {c : Char} {cs : List Char} (hdigit : c.isDigit = true)
    (hmixed : ∃ d ∈ c :: cs, d.isDigit = false) (hbrace : '\x7d' ∉ c :: cs) (rest : List Char) :
    scope.braced (c :: cs ++ rest) = none := by
  -- The digits end at a character of the list, which is no closing brace.
  obtain ⟨e, after, hafter⟩ : ∃ e after, (c :: cs).dropWhile Char.isDigit = e :: after := by
    apply List.exists_cons_of_ne_nil
    intro hnil
    obtain ⟨d, hmem, hd⟩ := hmixed
    have hd' : d.isDigit = true := List.dropWhile_eq_nil_iff.1 hnil d hmem
    rw [hd] at hd'
    cases hd'
  have hdrop : (c :: cs ++ rest).dropWhile Char.isDigit = e :: (after ++ rest) := by
    rw [List.dropWhile_append, hafter]
    rfl
  have he : e ≠ '\x7d' := by
    rintro rfl
    have hmem : '\x7d' ∈ (c :: cs).dropWhile Char.isDigit := hafter ▸ List.mem_cons_self
    exact hbrace ((List.dropWhile_sublist _).mem hmem)
  have hbyNumber : scope.byNumber (c :: cs ++ rest) =
      (scope.check (GroupNames.decimal? ((c :: cs ++ rest).takeWhile Char.isDigit))).map
        fun group => (group, e :: (after ++ rest)) := by
    rw [byNumber, hdrop]
  rw [List.cons_append] at hbyNumber ⊢
  simp only [braced.eq_def, if_pos hdigit, hbyNumber]
  cases scope.check (GroupNames.decimal? ((c :: (cs ++ rest)).takeWhile Char.isDigit)) with
  | none => rfl
  | some group => simp [he]

/-- The word characters before the closing brace are the name of a group, unless a digit comes first. -/
theorem braced_name {c : Char} {cs : List Char} (hdigit : c.isDigit = false)
    (hword : ∀ d ∈ c :: cs, Character.isWord d = true) (rest : List Char) :
    scope.braced (c :: cs ++ '\x7d' :: rest) =
      (scope.check (scope.names.number? (String.ofList (c :: cs)))).map
        fun group => (group, rest) := by
  have hbrace : ¬Character.isWord '\x7d' = true := by decide
  have htake : (c :: cs ++ '\x7d' :: rest).takeWhile Character.isWord = c :: cs := by
    rw [List.takeWhile_append_of_pos hword, List.takeWhile_cons_of_neg hbrace, List.append_nil]
  have hdrop : (c :: cs ++ '\x7d' :: rest).dropWhile Character.isWord = '\x7d' :: rest := by
    rw [List.dropWhile_append_of_pos hword, List.dropWhile_cons_of_neg hbrace]
  have hbyName : scope.byName (c :: cs ++ '\x7d' :: rest) =
      (scope.check (scope.names.number? (String.ofList (c :: cs)))).map
        fun group => (group, '\x7d' :: rest) := by
    rw [byName, htake, hdrop]
  rw [List.cons_append] at hbyName ⊢
  simp only [braced.eq_def, hdigit, Bool.false_eq_true, if_false, if_pos (hword c List.mem_cons_self),
    hbyName]
  cases scope.check (scope.names.number? (String.ofList (c :: cs))) <;> rfl

end Scope

theorem decimal?_toDigits {n : Nat} (h : n < GroupNames.groupBound) :
    GroupNames.decimal? (Nat.toDigits 10 n) = some n := by
  have hdigits : (Nat.toDigits 10 n).all Char.isDigit = true :=
    List.all_eq_true.2 fun _ => Nat.isDigit_of_mem_toDigits (by decide) (by decide)
  have hvalue : GroupNames.digitsValue (Nat.toDigits 10 n) = n := Nat.ofDigitChars_ten_toDigits
  rw [GroupNames.decimal?, hdigits, hvalue, List.isEmpty_eq_false_iff.2 Nat.toDigits_ne_nil]
  exact if_pos h

/-- The rule refers to no group that there is not. -/
def refersBelow (groupCount : Nat) : Rule → Prop
  | .group number => number < groupCount
  | _ => True

namespace Scope

variable {scope : Scope}

theorem lt_of_check {group : Option Nat} {n : Nat} (h : scope.check group = some n) :
    n < scope.groupCount :=
  of_decide_eq_true (Option.filter_eq_some_iff.1 h).2

theorem lt_of_byNumber {cs rest : List Char} {n : Nat} (h : scope.byNumber cs = some (n, rest)) :
    n < scope.groupCount := by
  obtain ⟨_, hn, heq⟩ := Option.map_eq_some_iff.1 h
  cases heq
  exact lt_of_check hn

theorem lt_of_byName {cs rest : List Char} {n : Nat} (h : scope.byName cs = some (n, rest)) :
    n < scope.groupCount := by
  obtain ⟨_, hn, heq⟩ := Option.map_eq_some_iff.1 h
  cases heq
  exact lt_of_check hn

theorem lt_of_braced {cs rest : List Char} {n : Nat} (h : scope.braced cs = some (n, rest)) :
    n < scope.groupCount := by
  rw [braced.eq_def] at h
  dsimp only at h
  split at h
  · next hgroup =>
    cases h
    split at hgroup
    · split at hgroup
      · exact lt_of_byNumber hgroup
      · split at hgroup
        · exact lt_of_byName hgroup
        · cases hgroup
    · cases hgroup
  · cases h

theorem refersBelow_of_reference (hzero : 0 < scope.groupCount) {cs rest : List Char} {r : Rule}
    (h : scope.reference cs = some (r, rest)) : refersBelow scope.groupCount r := by
  rw [reference.eq_def] at h
  split at h
  · obtain ⟨found, hfound, heq⟩ := Option.map_eq_some_iff.1 h
    cases heq
    exact lt_of_braced hfound
  · cases h
    exact hzero
  iterate 4
    · cases h
      trivial
  · obtain ⟨found, hfound, heq⟩ := Option.map_eq_some_iff.1 h
    cases heq
    exact lt_of_byNumber hfound

theorem refersBelow_of_mem_pieces (hzero : 0 < scope.groupCount) {r : Rule} {fuel : Nat}
    {cs : List Char} (h : Piece.rule r ∈ scope.pieces fuel cs) : refersBelow scope.groupCount r := by
  fun_induction Scope.pieces scope fuel cs with
  | case1 | case2 => exact absurd h List.not_mem_nil
  | case3 _ _ ih => exact ih ((List.mem_cons.1 h).resolve_left Piece.noConfusion)
  | case4 _ _ _ _ _ hreference ih =>
    rcases List.mem_cons.1 h with hr | h
    · cases hr
      exact refersBelow_of_reference hzero hreference
    · exact ih h
  | case5 _ _ _ _ ih => exact ih ((List.mem_cons.1 h).resolve_left Piece.noConfusion)
  | case6 _ _ _ _ _ ih => exact ih ((List.mem_cons.1 h).resolve_left Piece.noConfusion)

theorem pieces_reference {cs rest : List Char} {r : Rule} (h : scope.reference cs = some (r, rest))
    (fuel : Nat) : scope.pieces (fuel + 1) ('$' :: cs) = .rule r :: scope.pieces fuel rest := by
  have hdollar : ∀ cs', cs ≠ '$' :: cs' := by
    rintro cs' rfl
    cases h
  rw [pieces]
  · rw [h]
  · exact hdollar

theorem pieces_no_reference {cs : List Char} (hdollar : ∀ cs', cs ≠ '$' :: cs')
    (h : scope.reference cs = none) (fuel : Nat) :
    scope.pieces (fuel + 1) ('$' :: cs) = .char '$' :: scope.pieces fuel cs := by
  rw [pieces]
  · rw [h]
  · exact hdollar

/-- A reference is read as it was written. -/
theorem reference_written {r : Rule} (hliteral : r.isLiteral = false)
    (hbelow : refersBelow scope.groupCount r) (hbound : scope.groupCount ≤ GroupNames.groupBound)
    (literal : Nat → String) (rest : List Char) : ∃ cs,
      writtenRule literal r = '$' :: cs ∧ scope.reference (cs ++ rest) = some (r, rest) := by
  cases r with
  | literal index => cases hliteral
  | group n =>
    have hdecimal : GroupNames.decimal? (Nat.toDigits 10 n) = some n :=
      decimal?_toDigits (Nat.lt_of_lt_of_le hbelow hbound)
    have hcheck : scope.check (some n) = some n := Option.filter_eq_some_iff.2 ⟨rfl, decide_eq_true hbelow⟩
    have hdigits : ∀ c ∈ Nat.toDigits 10 n, c.isDigit = true :=
      fun _ => Nat.isDigit_of_mem_toDigits (by decide) (by decide)
    have hbraced : scope.braced (Nat.toDigits 10 n ++ '\x7d' :: rest) = some (n, rest) := by
      rw [braced_number Nat.toDigits_ne_nil hdigits, hdecimal, hcheck]
      rfl
    refine ⟨_, rfl, ?_⟩
    rw [List.cons_append, List.append_assoc, reference.eq_def]
    simp only [List.cons_append, List.nil_append, hbraced]
    rfl
  | leftPortion | rightPortion | lastGroup | wholeText => exact ⟨_, rfl, rfl⟩

end Scope

namespace Piece

/-- A piece as a template writes it. -/
def written : Piece → List Char
  | char c => escape [c]
  | rule r => writtenRule (fun _ => "") r

/-- The piece is a character, or a reference to what there is. -/
def Legible (scope : Scope) : Piece → Prop
  | char _ => True
  | rule r => r.isLiteral = false ∧ refersBelow scope.groupCount r

end Piece

namespace Scope

variable {scope : Scope}

/-- Every piece that is read from a template can be written and read again. -/
theorem legible_of_mem_pieces (hzero : 0 < scope.groupCount) {fuel : Nat} {cs : List Char}
    {p : Piece} (h : p ∈ scope.pieces fuel cs) : p.Legible scope := by
  cases p with
  | char c => trivial
  | rule r => exact ⟨isLiteral_of_mem_pieces h, refersBelow_of_mem_pieces hzero h⟩

theorem pieces_char (c : Char) (fuel : Nat) (rest : List Char) :
    scope.pieces (fuel + 1) (escape [c] ++ rest) = .char c :: scope.pieces fuel rest := by
  by_cases hc : c = '$'
  · subst hc
    rfl
  · have hescape : escape [c] = [c] := escape_of_not_mem (by simpa using Ne.symm hc)
    rw [hescape, List.cons_append, List.nil_append, pieces]
    · exact fun _ h _ => hc h
    · exact hc

theorem pieces_piece (hbound : scope.groupCount ≤ GroupNames.groupBound) {p : Piece}
    (h : p.Legible scope) (fuel : Nat) (rest : List Char) :
    scope.pieces (fuel + 1) (p.written ++ rest) = p :: scope.pieces fuel rest := by
  cases p with
  | char c => exact pieces_char c fuel rest
  | rule r =>
    obtain ⟨cs, hcs, hreference⟩ := reference_written h.1 h.2 hbound (fun _ => "") rest
    rw [Piece.written, hcs]
    exact pieces_reference hreference fuel

/-- Pieces of which each is read as it was written may be written one after the other. -/
theorem pieces_flatMap {ps : List Piece}
    (h : ∀ p ∈ ps, ∀ fuel rest,
      scope.pieces (fuel + 1) (p.written ++ rest) = p :: scope.pieces fuel rest) :
    ∀ {fuel : Nat}, (ps.flatMap Piece.written).length ≤ fuel →
      scope.pieces fuel (ps.flatMap Piece.written) = ps := by
  induction ps with
  | nil =>
    intro fuel _
    cases fuel <;> rfl
  | cons p ps ih =>
    intro fuel hfuel
    obtain ⟨hp, hps⟩ := List.forall_mem_cons.1 h
    rw [List.flatMap_cons, List.length_append] at hfuel
    have hne : p.written ≠ [] := by
      intro hnil
      have hread := hp 0 []
      rw [hnil, List.append_nil, pieces.eq_2 _ _ Nat.noConfusion] at hread
      cases hread
    have hpos := List.length_pos_iff.2 hne
    obtain ⟨fuel, rfl⟩ := Nat.exists_eq_add_one_of_ne_zero (show fuel ≠ 0 by omega)
    rw [List.flatMap_cons, hp, ih hps (by omega)]

theorem pieces_escape (cs : List Char) {fuel : Nat} (h : (escape cs).length ≤ fuel) :
    scope.pieces fuel (escape cs) = cs.map .char := by
  have hescape : escape cs = (cs.map Piece.char).flatMap Piece.written := by
    rw [List.flatMap_map, escape]
    simp [Piece.written, escape]
  rw [hescape] at h ⊢
  refine pieces_flatMap (fun p hp => ?_) h
  obtain ⟨c, -, rfl⟩ := List.mem_map.1 hp
  exact pieces_char c

theorem pieces_of_no_dollar {cs : List Char} (h : '$' ∉ cs) {fuel : Nat} (hfuel : cs.length ≤ fuel) :
    scope.pieces fuel cs = cs.map .char := by
  have hescape : escape cs = cs := escape_of_not_mem h
  have hread : scope.pieces fuel (escape cs) = cs.map .char := pieces_escape cs (by rwa [hescape])
  rwa [hescape] at hread

end Scope

/-- Where the text of a literal rule stands in the table. -/
def literalIndex? : Rule → Option Nat
  | .literal index => some index
  | _ => none

/-- The rules and the literal texts of a template that was read: literal text that stands together is
one rule, and every text is used once, in order. -/
structure Canonical (groupCount : Nat) (literals : Array String) (rules : List Rule) : Prop where
  filled : ∀ s ∈ literals, s ≠ ""
  apart : rules.IsChain fun r r' => r.isLiteral = false ∨ r'.isLiteral = false
  indices : rules.filterMap literalIndex? = List.range literals.size
  below : ∀ r ∈ rules, refersBelow groupCount r

/-- Rules as a template writes them. -/
def writtenRules (literals : Array String) (rules : List Rule) : List Char :=
  rules.flatMap (writtenRule fun index => literals.getD index "")

namespace Canonical

variable {groupCount : Nat} {literals : Array String} {rules : List Rule}

theorem nil : Canonical groupCount #[] [] := ⟨by simp, .nil, rfl, by simp⟩

theorem reference (h : Canonical groupCount literals rules) {r : Rule} (hliteral : r.isLiteral = false)
    (hbelow : refersBelow groupCount r) : Canonical groupCount literals (rules ++ [r]) where
  filled := h.filled
  apart := h.apart.append (.singleton r) (by
    rintro _ - _ ⟨⟩
    exact .inr hliteral)
  indices := by
    have hindex : literalIndex? r = none := by
      cases r with
      | literal => cases hliteral
      | _ => rfl
    simp [List.filterMap_append, hindex, h.indices]
  below := List.forall_mem_append.2 ⟨h.below, by simpa using hbelow⟩

theorem literal (h : Canonical groupCount literals rules)
    (hlast : ∀ r ∈ rules.getLast?, r.isLiteral = false) {s : String} (hs : s ≠ "") :
    Canonical groupCount (literals.push s) (rules ++ [.literal literals.size]) where
  filled := by
    intro s' hs'
    rcases Array.mem_push.1 hs' with hs' | rfl
    · exact h.filled s' hs'
    · exact hs
  apart := h.apart.append (.singleton _) fun r hr _ _ => .inl (hlast r hr)
  indices := by
    simp [List.filterMap_append, literalIndex?, h.indices, List.range_succ]
  below := List.forall_mem_append.2 ⟨h.below, by simp [refersBelow]⟩

theorem writtenRules_push (h : Canonical groupCount literals rules) (s : String) :
    writtenRules (literals.push s) rules = writtenRules literals rules := by
  have hrule : ∀ r ∈ rules, writtenRule (fun index => (literals.push s).getD index "") r =
      writtenRule (fun index => literals.getD index "") r := by
    intro r hr
    cases r with
    | literal index =>
      have hmem : index ∈ rules.filterMap literalIndex? := List.mem_filterMap.2 ⟨_, hr, rfl⟩
      rw [h.indices, List.mem_range] at hmem
      have hget : (literals.push s).getD index "" = literals.getD index "" := by
        rw [Array.getD_eq_getD_getElem?, Array.getD_eq_getD_getElem?, Array.getElem?_push,
          if_neg (by omega)]
      simp only [writtenRule, hget]
    | _ => rfl
  rw [writtenRules, writtenRules, List.flatMap_congr hrule]

end Canonical

/-- What a draft holds after these pieces. -/
structure Draft.Takes (groupCount : Nat) (d : Draft) (ps : List Piece) : Prop where
  canonical : Canonical groupCount d.literals d.rules.toList
  /-- Literal text that is still being read is behind a reference. -/
  last : ∀ r ∈ d.rules.toList.getLast?, r.isLiteral = false
  written : writtenRules d.literals d.rules.toList ++ escape d.pending.reverse =
    ps.flatMap Piece.written

theorem Draft.flush_pending (d : Draft) : d.flush.pending = [] := by
  rw [flush]
  split
  · next hempty => exact List.isEmpty_iff.1 hempty
  · rfl

namespace Draft.Takes

variable {scope : Scope} {d : Draft} {ps : List Piece}

theorem start : Draft.Takes scope.groupCount {} [] := ⟨.nil, by simp, rfl⟩

theorem flush (h : d.Takes scope.groupCount ps) :
    Canonical scope.groupCount d.flush.literals d.flush.rules.toList ∧
      writtenRules d.flush.literals d.flush.rules.toList = ps.flatMap Piece.written := by
  rw [Draft.flush]
  split
  · next hempty =>
    have hwritten := h.written
    rw [List.isEmpty_iff.1 hempty] at hwritten
    exact ⟨h.canonical, by simpa [escape] using hwritten⟩
  · next hpending =>
    have hne : String.ofList d.pending.reverse ≠ "" := by
      simpa [← String.toList_inj] using hpending
    refine ⟨by simpa using h.canonical.literal h.last hne, ?_⟩
    rw [← h.written, Array.toList_push, writtenRules, List.flatMap_append, ← writtenRules,
      h.canonical.writtenRules_push]
    simp [writtenRule]

theorem add (h : d.Takes scope.groupCount ps) {p : Piece} (hp : p.Legible scope) :
    (d.add p).Takes scope.groupCount (ps ++ [p]) := by
  cases p with
  | char c =>
    refine ⟨h.canonical, h.last, ?_⟩
    simp only [Draft.add, List.reverse_cons, escape_append, ← List.append_assoc, h.written,
      List.flatMap_append]
    simp [Piece.written]
  | rule r =>
    obtain ⟨hcanonical, hwritten⟩ := h.flush
    have hrule : writtenRule (fun index => d.flush.literals.getD index "") r =
        Piece.written (.rule r) := by
      cases r with
      | literal => cases hp.1
      | _ => rfl
    refine ⟨?_, ?_, ?_⟩
    · simpa [Draft.add] using hcanonical.reference hp.1 hp.2
    · simpa [Draft.add] using hp.1
    · show writtenRules d.flush.literals (d.flush.rules.push r).toList ++
        escape d.flush.pending.reverse = _
      rw [Array.toList_push, writtenRules, List.flatMap_append, ← writtenRules, hwritten,
        d.flush_pending, List.flatMap_append, List.flatMap_singleton, List.flatMap_singleton, hrule]
      exact List.append_nil _

theorem foldl {ps' : List Piece} (hps' : ∀ p ∈ ps', p.Legible scope) :
    ∀ {d : Draft} {ps : List Piece}, d.Takes scope.groupCount ps →
      (ps'.foldl Draft.add d).Takes scope.groupCount (ps ++ ps') := by
  induction ps' with
  | nil => exact fun h => by simpa using h
  | cons p ps' ih =>
    intro d ps h
    obtain ⟨hp, hps'⟩ := List.forall_mem_cons.1 hps'
    simpa using ih hps' (h.add hp)

end Draft.Takes

section

variable (pattern : String) (groupCount : Nat) (names : GroupNames)

/-- The pieces that a template is made from. -/
def piecesOf : List Piece :=
  Scope.pieces { groupCount, names } pattern.toList.length pattern.toList

variable {pattern groupCount names}

theorem legible_of_mem_piecesOf (hzero : 0 < groupCount) {p : Piece}
    (h : p ∈ piecesOf pattern groupCount names) : p.Legible { groupCount, names } :=
  Scope.legible_of_mem_pieces hzero h

/-- Templates that are made from the same pieces have the same rules and literal texts. -/
theorem parse_congr {pattern' : String}
    (h : piecesOf pattern' groupCount names = piecesOf pattern groupCount names) :
    (parse pattern' groupCount names).rules = (parse pattern groupCount names).rules ∧
      (parse pattern' groupCount names).literals = (parse pattern groupCount names).literals := by
  rw [piecesOf, piecesOf] at h
  simp only [parse, h, and_self]

theorem parse_canonical (hzero : 0 < groupCount) :
    Canonical groupCount (parse pattern groupCount names).literals
        (parse pattern groupCount names).rules ∧
      (parse pattern groupCount names).written.toList =
        (piecesOf pattern groupCount names).flatMap Piece.written := by
  have hlegible : ∀ p ∈ piecesOf pattern groupCount names, p.Legible { groupCount, names } :=
    fun p hp => legible_of_mem_piecesOf hzero hp
  obtain ⟨hcanonical, hwritten⟩ := (Draft.Takes.foldl hlegible .start).flush
  refine ⟨hcanonical, ?_⟩
  rw [written, String.toList_ofList]
  exact hwritten

theorem piecesOf_escape (s : String) :
    piecesOf (String.ofList (escape s.toList)) groupCount names = s.toList.map .char := by
  rw [piecesOf, String.toList_ofList]
  exact Scope.pieces_escape _ (Nat.le_refl _)

theorem Draft.foldl_char (cs : List Char) : ∀ d : Draft,
    (cs.map Piece.char).foldl Draft.add d = { d with pending := cs.reverse ++ d.pending } := by
  induction cs with
  | nil => exact fun d => rfl
  | cons c cs ih =>
    intro d
    rw [List.map_cons, List.foldl_cons, ih, List.reverse_cons, List.append_assoc]
    rfl

/-- A template that is made from characters alone stands for them in every match. -/
theorem expand_of_chars {s : String}
    (h : piecesOf pattern groupCount names = s.toList.map .char) (m : Match) :
    (parse pattern groupCount names).expand m = .ok s := by
  rw [piecesOf] at h
  simp only [expand, segments, parse, h, Draft.foldl_char, Draft.flush, List.append_nil]
  split
  · next hempty =>
    have hchars : s.toList = [] := by simpa using hempty
    obtain rfl : s = "" := String.toList_inj.1 hchars
    rfl
  · simp [segment, literal, Except.map, pure, Except.pure, bind, Except.bind]

/-- Escaped text stands for itself in every match. -/
theorem expand_escape (s : String) (m : Match) :
    (parse (String.ofList (escape s.toList)) groupCount names).expand m = .ok s :=
  expand_of_chars (piecesOf_escape s) m

/-- Reading a template gives canonical rules, and reading them as they are written gives the same rules
and literal texts. Escaped text stands for itself in every match. -/
theorem parse_written (pattern : String) (names : GroupNames) (hzero : 1 ≤ groupCount)
    (hbound : groupCount ≤ GroupNames.groupBound) :
    let t := parse pattern groupCount names
    Canonical groupCount t.literals t.rules ∧
      (t.hasReferences = false → t.rules.length ≤ 1) ∧
      (parse t.written groupCount names).rules = t.rules ∧
      (parse t.written groupCount names).literals = t.literals ∧
      ∀ (s : String) (m : Match),
        (parse (String.ofList (escape s.toList)) groupCount names).expand m = .ok s := by
  intro t
  obtain ⟨hcanonical, hwritten⟩ : Canonical groupCount t.literals t.rules ∧
      t.written.toList = (piecesOf pattern groupCount names).flatMap Piece.written :=
    parse_canonical hzero
  have hpieces : piecesOf t.written groupCount names = piecesOf pattern groupCount names := by
    rw [piecesOf, hwritten]
    refine Scope.pieces_flatMap (fun p hp => ?_) (Nat.le_refl _)
    exact Scope.pieces_piece hbound (legible_of_mem_piecesOf hzero hp)
  obtain ⟨hrules, hliterals⟩ := parse_congr hpieces
  refine ⟨hcanonical, fun hreferences => ?_, hrules, hliterals, expand_escape⟩
  rcases rules_of_no_references hreferences with hnil | ⟨index, hone⟩
  · rw [hnil]
    exact Nat.zero_le 1
  · rw [hone]
    exact Nat.le_refl 1

end

/-- A template in which one reference is escaped, one names its group and one has no group. -/
theorem parse_written_year :
    let names : GroupNames := ⟨[("year", 1)]⟩
    let t := parse "$$1$\x7byear\x7d$2$&" 2 names
    t.rules = [.literal 0, .group 1, .literal 1, .group 0] ∧ t.literals = #["$1", "$2"] ∧
      t.written = "$$1$\x7b1\x7d$$2$\x7b0\x7d" ∧
      (parse t.written 2 names).rules = t.rules ∧ (parse t.written 2 names).literals = t.literals := by
  intro names t
  have hread : t.rules = [.literal 0, .group 1, .literal 1, .group 0] ∧ t.literals = #["$1", "$2"] ∧
      t.written = "$$1$\x7b1\x7d$$2$\x7b0\x7d" := by decide +kernel
  obtain ⟨-, -, hrules, hliterals, -⟩ :=
    parse_written "$$1$\x7byear\x7d$2$&" names (show 1 ≤ 2 by decide) (by decide)
  exact ⟨hread.1, hread.2.1, hread.2.2, hrules, hliterals⟩

end RegexMachine.Template
