import RegexMachine.Proofs.Regex.Replacing
import RegexMachine.Proofs.Replacement.Written
import RegexMachine.Proofs.Tree.Shared

/-!
# Groups by their names

A name is looked up in the table of its regex, and a template looks it up there too, but only when it
does not begin with a digit: in braces digits are the number of a group, whatever name they spell, and
digits with something behind them are nothing. Every group that a name was given to is a group of the
finished tree, so that a reference by name never falls back to literal text.
-/

namespace RegexMachine

/-- A name that was given finds a group that it was given to. -/
theorem GroupNames.exists_number? {names : GroupNames} {name : String}
    (h : name ∈ names.entries.map Prod.fst) :
    ∃ g, names.number? name = some g ∧ (name, g) ∈ names.entries := by
  cases hfind : names.entries.find? (·.1 == name) with
  | none =>
    obtain ⟨entry, hmem, rfl⟩ := List.mem_map.1 h
    exact absurd (beq_self_eq_true entry.1) (List.find?_eq_none.1 hfind entry hmem)
  | some entry =>
    have hfound : (entry.1 == name) = true := by simpa using List.find?_some hfind
    obtain rfl : entry.1 = name := beq_iff_eq.1 hfound
    exact ⟨entry.2, by rw [number?, hfind], List.mem_of_find?_eq_some hfind⟩

namespace Builder

/-- Every name was given to a group that was mentioned. -/
def NamesMentioned (b : Builder) : Prop := ∀ entry ∈ b.names.entries, entry.2 ≤ b.maxGroup

/-- What a call does to the names of groups and to the groups that were mentioned. -/
theorem naming_call (c : Call) (b : Builder) : b.maxGroup ≤ (c.run b).2.maxGroup ∧
    ((c.run b).2.names = b.names ∨ ∃ group name child, c = .namedCapture group name child ∧
      (c.run b).2.names = b.names.insert name group ∧ group ≤ (c.run b).2.maxGroup) := by
  cases c with
  | empty | nothing | atom | anchor | atomic | lookahead | negativeLookahead | lookbehind
  | negativeLookbehind | expressionConditional => exact ⟨Nat.le_refl _, .inl rfl⟩
  | multi chars =>
    match chars with
    | [] | [_] | _ :: _ :: _ => exact ⟨Nat.le_refl _, .inl rfl⟩
  | concat children | alternate children =>
    match children with
    | [] | [_] | _ :: _ :: _ => exact ⟨Nat.le_refl _, .inl rfl⟩
  | quantify child min max isLazy =>
    have hrun : Call.run (.quantify child min max isLazy) b = quantify child min max isLazy b := rfl
    rw [hrun]
    rcases quantify_cases child min max isLazy b with ⟨-, -, hsame⟩ | ⟨_, _, _, -, hchar⟩ | hloop
    · rw [hsame]
      exact ⟨Nat.le_refl _, .inl rfl⟩
    · rw [hchar]
      exact ⟨Nat.le_refl _, .inl rfl⟩
    · rw [hloop]
      exact ⟨Nat.le_refl _, .inl rfl⟩
  | capture group _ | backreference group | backreferenceConditional group _ _ =>
    exact ⟨Nat.le_max_left _ group, .inl rfl⟩
  | namedCapture group name child =>
    exact ⟨Nat.le_max_left _ group, .inr ⟨group, name, child, rfl, rfl, Nat.le_max_right _ _⟩⟩
  | balancing group uncapture child =>
    cases group with
    | none => exact ⟨Nat.le_max_left _ uncapture, .inl rfl⟩
    | some group =>
      exact ⟨Nat.le_trans (Nat.le_max_left _ group) (Nat.le_max_left _ uncapture), .inl rfl⟩

theorem NamesMentioned.call {b : Builder} (h : b.NamesMentioned) (c : Call) :
    (c.run b).2.NamesMentioned := by
  obtain ⟨hle, hnames | ⟨group, name, child, -, hnames, hgroup⟩⟩ := naming_call c b
  · intro entry hentry
    rw [hnames] at hentry
    exact Nat.le_trans (h entry hentry) hle
  · intro entry hentry
    rw [hnames] at hentry
    rcases List.mem_cons.1 hentry with rfl | hentry
    · exact hgroup
    · exact Nat.le_trans (h entry hentry) hle

theorem Built.namesMentioned {options : Options} {b : Builder} (h : Built options b) :
    b.NamesMentioned := by
  induction h with
  | start => exact fun entry hentry => absurd hentry List.not_mem_nil
  | call _ c _ ih => exact ih.call c
  | ignoreCase _ _ ih => exact ih

end Builder

theorem Tree.Built.lt_groupCount {t : Tree} (h : t.Built) {name : String} {g : Nat}
    (hname : (name, g) ∈ t.names.entries) : g < t.groupCount := by
  obtain ⟨options, b, body, hbuilt, -, rfl⟩ := h
  exact Nat.lt_succ_of_le (hbuilt.namesMentioned _ hname)

namespace Regex

variable {re₀ re re' : Regex} {m : Match}

/-- The match is what some scan of the regex publishes, whatever was called before. -/
def Yields (re₀ : Regex) (m : Match) : Prop :=
  ∃ re text textStart textPos spans re', Serves re₀ re ∧
    scan text textStart textPos re = .ok (some spans) re' ∧ m = re'.wrap text spans

theorem Serves.yields_of_findFrom (h : Serves re₀ re) {text : Text} {start : Nat}
    (hfind : findFrom text start re = .ok (some m) re') : re₀.Yields m := by
  simp only [findFrom, bind, EStateM.bind] at hfind
  cases hscan : scan text start start re with
  | error e re'' =>
    rw [hscan] at hfind
    cases hfind
  | ok spans re'' =>
    rw [hscan] at hfind
    cases spans with
    | none => cases hfind
    | some spans =>
      cases hfind
      exact ⟨re, text, start, start, spans, re', h, hscan, rfl⟩

theorem Serves.yields_of_next (h : Serves re₀ re) {s s' : Search}
    (hnext : next s re = .ok (some (.ok m), s') re') : re₀.Yields m := by
  obtain ⟨pos, spans, hscan, hm, -⟩ := exists_scan_of_next hnext
  exact ⟨re, s.text, s.textStart, pos, spans, re', h, hscan, hm⟩

theorem Yields.groups (h : re₀.Yields m) (hprovided : re₀.engine.Provided) :
    m.groupCount = re₀.groupCount ∧ m.names = re₀.names := by
  obtain ⟨re, text, textStart, textPos, spans, re', hre, hscan, rfl⟩ := h
  obtain ⟨hserves, hcount⟩ := hre.of_scan_some hprovided hscan
  exact ⟨hcount, hserves.names_eq⟩

theorem groups_ofTree {t : Tree} {config : RegexConfig} (h : ofTree t config = .ok re) :
    re.groupCount = t.groupCount ∧ re.names = t.names := by
  obtain ⟨program, hcompile, rfl⟩ := ofTree_eq_ok.1 h
  obtain ⟨_, hcompiled⟩ := Program.compiled_of_compile hcompile
  exact ⟨hcompiled.groupCount, hcompiled.names⟩

end Regex

namespace Template

/-- A reference in braces to a group, by its name or its number. -/
def inBraces (name : String) : String := "$\x7b" ++ name ++ "\x7d"

theorem toList_inBraces (name : String) :
    (inBraces name).toList = '$' :: '\x7b' :: (name.toList ++ ['\x7d']) := by
  simp [inBraces, String.toList_append]

variable {groupCount : Nat} {names : GroupNames} {name : String}

theorem rules_of_reference {g : Nat}
    (h : Scope.braced { groupCount, names } (name.toList ++ ['\x7d']) = some (g, [])) :
    (parse (inBraces name) groupCount names).rules = [.group g] := by
  have hreference : Scope.reference { groupCount, names } ('\x7b' :: (name.toList ++ ['\x7d'])) =
      some (.group g, []) := by
    rw [Scope.reference, h]
    rfl
  have hpieces : piecesOf (inBraces name) groupCount names = [.rule (.group g)] := by
    rw [piecesOf, toList_inBraces, List.length_cons, Scope.pieces_reference hreference]
    cases name.toList <;> rfl
  rw [piecesOf] at hpieces
  simp only [parse, hpieces]
  rfl

/-- What is in braces but refers to no group is literal text. -/
theorem expand_of_no_reference (hdollar : '$' ∉ name.toList)
    (h : Scope.braced { groupCount, names } (name.toList ++ ['\x7d']) = none) (m : Match) :
    (parse (inBraces name) groupCount names).expand m = .ok (inBraces name) := by
  have hreference : Scope.reference { groupCount, names } ('\x7b' :: (name.toList ++ ['\x7d'])) =
      none := by
    rw [Scope.reference, h]
    rfl
  have hnone : '$' ∉ '\x7b' :: (name.toList ++ ['\x7d']) := by simpa using hdollar
  apply expand_of_chars
  rw [piecesOf, toList_inBraces, List.length_cons,
    Scope.pieces_no_reference (by rintro _ ⟨⟩) hreference,
    Scope.pieces_of_no_dollar hnone (Nat.le_refl _)]
  rfl

theorem expand_of_rules {t : Template} {g : Nat} (h : t.rules = [.group g]) (m : Match) :
    t.expand m = m.groupString g := by
  rw [expand, segments, h, List.mapM_cons, List.mapM_nil, segment]
  cases m.groupString g with
  | error f => rfl
  | ok s => simp [pure, Except.pure, bind, Except.bind, Except.map]

/-- Word characters in braces refer to the group of the name that they are. -/
theorem rules_of_name {c : Char} (hfirst : name.toList.head? = some c) (hdigit : c.isDigit = false)
    (hword : ∀ d ∈ name.toList, Character.isWord d = true) {g : Nat}
    (hnumber : names.number? name = some g) (hlt : g < groupCount) :
    (parse (inBraces name) groupCount names).rules = [.group g] := by
  apply rules_of_reference
  obtain ⟨cs, hcs⟩ := List.head?_eq_some_iff.1 hfirst
  rw [hcs] at hword
  have hname : String.ofList (c :: cs) = name := by rw [← hcs, String.ofList_toList]
  have hcheck : Scope.check { groupCount, names } (some g) = some g :=
    Option.filter_eq_some_iff.2 ⟨rfl, decide_eq_true hlt⟩
  rw [hcs, Scope.braced_name hdigit hword, hname, hnumber, hcheck]
  rfl

/-- Word characters in braces that begin with a digit, but are not all digits, are literal text. -/
theorem expand_of_mixed {c : Char} (hfirst : name.toList.head? = some c) (hdigit : c.isDigit = true)
    (hmixed : ∃ d ∈ name.toList, d.isDigit = false)
    (hword : ∀ d ∈ name.toList, Character.isWord d = true) (m : Match) :
    (parse (inBraces name) groupCount names).expand m = .ok (inBraces name) := by
  have hdollar : '$' ∉ name.toList := fun hmem => absurd (hword '$' hmem) (by decide)
  have hbrace : '\x7d' ∉ name.toList := fun hmem => absurd (hword '\x7d' hmem) (by decide)
  obtain ⟨cs, hcs⟩ := List.head?_eq_some_iff.1 hfirst
  apply expand_of_no_reference hdollar
  rw [hcs] at hmixed hbrace ⊢
  exact Scope.braced_mixed hdigit hmixed hbrace _

/-- Digits in braces stand for the group of that number, or for themselves when there is none. -/
theorem expand_of_digits (hne : name.toList ≠ []) (hdigits : ∀ d ∈ name.toList, d.isDigit = true)
    (m : Match) : (parse (inBraces name) groupCount names).expand m =
      match (GroupNames.decimal? name.toList).filter (· < groupCount) with
      | some n => m.groupString n
      | none => .ok (inBraces name) := by
  have hbraced : Scope.braced { groupCount, names } (name.toList ++ ['\x7d']) =
      ((GroupNames.decimal? name.toList).filter (· < groupCount)).map fun group => (group, []) :=
    Scope.braced_number hne hdigits []
  cases hnumber : (GroupNames.decimal? name.toList).filter (· < groupCount) with
  | some n =>
    rw [hnumber] at hbraced
    exact expand_of_rules (rules_of_reference hbraced) m
  | none =>
    rw [hnumber] at hbraced
    have hdollar : '$' ∉ name.toList := fun hmem => absurd (hdigits '$' hmem) (by decide)
    exact expand_of_no_reference hdollar hbraced m

end Template

namespace Regex

/-- A match knows a name that was given by the group that its regex finds. In a template a name in
braces stands for that group when it does not begin with a digit. A name that begins with a digit is
literal text in braces, unless all of it is digits: these are the number of a group, whatever group
they are the name of, and so the name stands for its group when that has this number. -/
theorem expand_inBraces {t : Tree} {config : RegexConfig} {re₀ : Regex} {m : Match} {name : String}
    (hbuilt : t.Built) (hre₀ : ofTree t config = .ok re₀) (hm : re₀.Yields m)
    (hname : name ∈ t.names.entries.map Prod.fst) {c : Char} (hfirst : name.toList.head? = some c)
    (hword : ∀ d ∈ name.toList, Character.isWord d = true) :
    let template := Template.inBraces name
    let text :=
      match m.named? name with
      | some group => group.string
      | none => .ok ""
    m.named? name = (re₀.groupNumber? name).bind m.group? ∧
      ((∃ d ∈ name.toList, d.isDigit = false) →
        ∃ g, (name, g) ∈ t.names.entries ∧ re₀.groupNumber? name = some g) ∧
      (c.isDigit = false → m.expand template = text ∧ ∃ g, re₀.groupNumber? name = some g ∧
        (Template.parse template re₀.groupCount re₀.names).rules = [.group g]) ∧
      (c.isDigit = true → (∃ d ∈ name.toList, d.isDigit = false) → m.expand template = .ok template) ∧
      ((∀ d ∈ name.toList, d.isDigit = true) →
        (m.expand template =
          match (GroupNames.decimal? name.toList).filter (· < re₀.groupCount) with
          | some n => m.groupString n
          | none => .ok template) ∧
        (re₀.groupNumber? name = GroupNames.decimal? name.toList → m.expand template = text)) ∧
      (m.InText → ∃ s, m.expand template = .ok s) := by
  intro template text
  obtain ⟨hmcount, hmnames⟩ := hm.groups (Created.ofTree hre₀).provided
  obtain ⟨hcount, hnames⟩ := groups_ofTree hre₀
  obtain ⟨g, hnumber, hgiven⟩ := GroupNames.exists_number? hname
  rw [← hnames] at hnumber
  have hlt : g < re₀.groupCount := hcount ▸ hbuilt.lt_groupCount hgiven
  have hgroup : re₀.groupNumber? name = some g :=
    Option.filter_eq_some_iff.2 ⟨hnumber, decide_eq_true hlt⟩
  have hnamed : m.named? name = m.group? g := by
    rw [Match.named?, hmnames, hnumber]
    rfl
  have htext : m.groupString g = text := by
    simp only [text, hnamed]
    rfl
  have hne : name.toList ≠ [] := fun hnil => by simp [hnil] at hfirst
  refine ⟨?_, fun _ => ⟨g, hgiven, hgroup⟩, fun hdigit => ?_, fun hdigit hmixed => ?_,
    fun hdigits => ?_, fun hin => hin.exists_expand _⟩
  · rw [hgroup]
    exact hnamed
  · have hrules := Template.rules_of_name hfirst hdigit hword hnumber hlt
    refine ⟨?_, g, hgroup, hrules⟩
    rw [Match.expand, hmcount, hmnames, Template.expand_of_rules hrules, htext]
  · rw [Match.expand, hmcount, hmnames]
    exact Template.expand_of_mixed hfirst hdigit hmixed hword m
  · have hform : m.expand template =
        match (GroupNames.decimal? name.toList).filter (· < re₀.groupCount) with
        | some n => m.groupString n
        | none => .ok template := by
      rw [Match.expand, hmcount, hmnames]
      exact Template.expand_of_digits hne hdigits m
    refine ⟨hform, fun hsame => ?_⟩
    have hself : (GroupNames.decimal? name.toList).filter (· < re₀.groupCount) = some g :=
      Option.filter_eq_some_iff.2 ⟨hsame.symm.trans hgroup, decide_eq_true hlt⟩
    rw [hself] at hform
    exact hform.trans htext

end Regex

/-- The pattern `abc` with a group around each letter, named `2b`, `b2` and `2`. -/
def digitNamed : Tree :=
  Tree.build {} do
    let a ← Builder.namedCapture 1 "2b" (← Builder.one 'a')
    let b ← Builder.namedCapture 2 "b2" (← Builder.one 'b')
    let c ← Builder.namedCapture 3 "2" (← Builder.one 'c')
    Builder.concat [a, b, c]

/-- The match of all letters. -/
def digitNamedMatch : Match :=
  { text := .ofString "abc"
    spans := ⟨#[[⟨0, 3⟩], [⟨0, 1⟩], [⟨1, 1⟩], [⟨2, 1⟩]]⟩
    names := ⟨[("2", 3), ("b2", 2), ("2b", 1)]⟩ }

theorem built_digitNamed : digitNamed.Built := by
  have hstart : Builder.Built {} { options := {} } := .start
  have ha := (hstart.call (.atom (.one 'a')) nofun).call (.namedCapture 1 "2b" 0) (by decide)
  have hb := (ha.call (.atom (.one 'b')) nofun).call (.namedCapture 2 "b2" 2) (by decide)
  have hc := (hb.call (.atom (.one 'c')) nofun).call (.namedCapture 3 "2" 4) (by decide)
  exact ⟨{}, _, 6, hc.call (.concat [1, 3, 5]) (by decide), by decide, rfl⟩

theorem yields_digitNamedMatch : ∃ re : Regex, Regex.ofTree digitNamed {} = .ok re ∧
    re.Yields digitNamedMatch ∧ re.groupNumber? "2b" = some 1 ∧ re.groupNumber? "2" = some 3 := by
  have hrun : (Regex.ofTree digitNamed {}).toOption.map (fun re =>
      (re.groupNumber? "2b", re.groupNumber? "2", answer (Regex.findFrom (.ofString "abc") 0 re))) =
        some (some 1, some 3, .ok (some digitNamedMatch)) := by
    decide +kernel
  obtain ⟨re, hre, hrun⟩ := Regex.exists_of_ofTree hrun
  obtain ⟨hmixed, hrun⟩ := Prod.mk.inj hrun
  obtain ⟨hnumber, hfind⟩ := Prod.mk.inj hrun
  have hserves := (Regex.Created.ofTree hre).serves re.clock
  cases hresult : Regex.findFrom (.ofString "abc") 0 re with
  | error e re' =>
    rw [hresult] at hfind
    cases hfind
  | ok found re' =>
    rw [hresult] at hfind
    cases hfind
    exact ⟨re, hre, hserves.yields_of_findFrom hresult, hmixed, hnumber⟩

/-- The group named `2b` captured `a`, but `2b` in braces is literal text. The group named `2` captured
`c`, but `2` in braces is the group that captured `b`. -/
theorem expand_digits_first : digitNamed.Built ∧ ∃ re : Regex,
    Regex.ofTree digitNamed {} = .ok re ∧ re.Yields digitNamedMatch ∧
    (∀ name ∈ ["2b", "2"], name ∈ digitNamed.names.entries.map Prod.fst ∧
      name.toList.all Character.isWord = true) ∧
    re.groupNumber? "2b" = some 1 ∧
    (digitNamedMatch.named? "2b").map Group.string = some (.ok "a") ∧
    digitNamedMatch.expand (Template.inBraces "2b") = .ok "$\x7b2b\x7d" ∧
    re.groupNumber? "2" = some 3 ∧
    (digitNamedMatch.named? "2").map Group.string = some (.ok "c") ∧
    digitNamedMatch.expand (Template.inBraces "2") = .ok "b" := by
  obtain ⟨re, hre, hyields, hmixed, hnumber⟩ := yields_digitNamedMatch
  exact ⟨built_digitNamed, re, hre, hyields, by decide +kernel, hmixed, by decide +kernel,
    by decide +kernel, hnumber, by decide +kernel, by decide +kernel⟩

/-- The group named `b2` is found by its name in a template too, and the group named `2b` is not. -/
theorem expand_b2 : ∃ re : Regex, Regex.ofTree digitNamed {} = .ok re ∧ re.Yields digitNamedMatch ∧
    digitNamedMatch.named? "b2" = digitNamedMatch.group? 2 ∧
    digitNamedMatch.expand (Template.inBraces "b2") = .ok "b" ∧
    digitNamedMatch.named? "2b" = digitNamedMatch.group? 1 ∧
    digitNamedMatch.expand (Template.inBraces "2b") = .ok "$\x7b2b\x7d" := by
  obtain ⟨re, hre, hyields, -⟩ := yields_digitNamedMatch
  have hgiven : ∀ name ∈ ["b2", "2b"], name ∈ digitNamed.names.entries.map Prod.fst := by
    decide +kernel
  have hword : ∀ name ∈ ["b2", "2b"], name.toList.all Character.isWord = true := by decide +kernel
  obtain ⟨-, -, hname, -⟩ := Regex.expand_inBraces (c := 'b') built_digitNamed hre hyields
    (hgiven "b2" (by decide)) (by decide) (List.all_eq_true.1 (hword "b2" (by decide)))
  obtain ⟨-, -, -, hliteral, -⟩ := Regex.expand_inBraces (c := '2') built_digitNamed hre hyields
    (hgiven "2b" (by decide)) (by decide) (List.all_eq_true.1 (hword "2b" (by decide)))
  refine ⟨re, hre, hyields, rfl, ?_, rfl, hliteral (by decide) ⟨'b', by decide, by decide⟩⟩
  rw [(hname (by decide)).1]
  decide +kernel

end RegexMachine
