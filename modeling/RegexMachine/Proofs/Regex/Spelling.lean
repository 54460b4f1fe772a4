import RegexMachine.Proofs.Regex.Iteration
import RegexMachine.Proofs.Tree.SpelledTree

/-!
# Searching for what is spelled out

The program of a tree and that of the tree spelled out run different instructions, but where an
attempt of one makes a hit, an attempt of the other makes a hit with the same captures. So searches
with the two give the same matches.
-/

namespace RegexMachine

open Matcher
open Regex (Serves)

/-- The second program is that of a plain tree spelled out, and is run on the same text. -/
structure Surroundings.Spells (t t' : Tree) (config : CompileConfig) (env env' : Surroundings) :
    Prop where
  spelled : t.Spelled t'
  plain : t.Plain env.culture
  compiled : Program.compile t env.culture config = .ok env.program
  compiled' : Program.compile t' env'.culture config = .ok env'.program
  culture : env'.culture = env.culture
  text : env'.text = env.text
  short : env.text.chars.length < unbounded

/-- The hits make the same match. -/
def Hit.MakesSame (env env' : Surroundings) (hit hit' : Hit) : Prop :=
  ∃ m : Match, hit.match? env = some m ∧ hit'.match? env' = some m

namespace Surroundings.Spells

variable {t t' : Tree} {config : CompileConfig} {env env' : Surroundings} {began p q : Place}

section

variable (h : env.Spells t t' config env')

include h

theorem direction : env'.program.direction = env.program.direction := by
  obtain ⟨last, hcompiled⟩ := Program.compiled_of_compile h.compiled
  obtain ⟨last', hcompiled'⟩ := Program.compiled_of_compile h.compiled'
  rw [hcompiled.direction_eq, hcompiled'.direction_eq, Tree.direction, Tree.direction,
    h.spelled.options]

theorem groupCount_eq : env'.program.groupCount = env.program.groupCount := by
  obtain ⟨last, hcompiled⟩ := Program.compiled_of_compile h.compiled
  obtain ⟨last', hcompiled'⟩ := Program.compiled_of_compile h.compiled'
  rw [hcompiled.groupCount, hcompiled'.groupCount, h.spelled.groupCount]

theorem names_eq : env'.program.names = env.program.names := by
  obtain ⟨last, hcompiled⟩ := Program.compiled_of_compile h.compiled
  obtain ⟨last', hcompiled'⟩ := Program.compiled_of_compile h.compiled'
  rw [hcompiled.names, hcompiled'.names, h.spelled.names]

theorem plain' : t'.Plain env'.culture := by
  rw [h.culture]
  exact h.spelled.plain h.plain

theorem in_text (hp : p.In env.text) : p.In env'.text := by
  rw [h.text]
  exact hp

theorem short' : env'.text.chars.length < unbounded := by
  rw [h.text]
  exact h.short

theorem outcomes_eq (textStart : Nat) :
    t'.root.matcher Reading.plain (t'.setting env'.culture env'.text textStart) =
      t.root.matcher Reading.plain (t.setting env.culture env.text textStart) := by
  rw [Tree.setting, Tree.setting, h.culture, h.text, h.spelled.options]
  exact h.spelled.matcher_eq _

theorem makesSame {o : MatchState} (hwhole : o.captured 0 ≠ []) {hit hit' : Hit}
    (hreaches : hit.Reaches env o) (hreaches' : hit'.Reaches env' o) :
    Hit.MakesSame env env' hit hit' := by
  obtain ⟨spans, hpublish, hhistory, hcount⟩ := hreaches.exists_spans hwhole
  obtain ⟨spans', hpublish', hhistory', hcount'⟩ := hreaches'.exists_spans hwhole
  obtain rfl : spans' = spans := by
    refine Spans.ext_history ?_ fun g => ?_
    · rw [hcount, hcount', h.groupCount_eq]
    · rw [hhistory, hhistory']
  refine ⟨{ text := env.text, spans := spans', names := env.program.names }, ?_, ?_⟩
  · rw [Hit.match?, hpublish, Option.map_some]
  · rw [Hit.match?, hpublish', Option.map_some, h.names_eq, h.text]

/-- What the attempts at a place give. -/
theorem gives (hq : q.In env.text) {result : Option Hit}
    (hgives : (env.since began).Gives q result) :
    ∃ result', (env'.since began).Gives q result' ∧
      Option.Rel (Hit.MakesSame env env') result result' := by
  have hq' := h.in_text hq
  have hreturns : (env'.since began).Returns q :=
    Surroundings.returns_of_plain (t := t') h.plain' h.compiled' h.short' hq'
  obtain ⟨result', hgives'⟩ := hreturns.gives
  refine ⟨result', hgives', ?_⟩
  have hreaches : Option.Rel (Hit.Reaches (env.since began)) result (t.root.matcher Reading.plain
      (t.setting env.culture env.text began.offset) q.start).head? :=
    hgives.rel_outcome h.plain h.compiled h.short hq
  have hreaches' : Option.Rel (Hit.Reaches (env'.since began)) result'
      (t'.root.matcher Reading.plain (t'.setting env'.culture env'.text began.offset)
        q.start).head? :=
    hgives'.rel_outcome h.plain' h.compiled' h.short' hq'
  rw [h.outcomes_eq] at hreaches'
  cases houtcome : (t.root.matcher Reading.plain
      (t.setting env.culture env.text began.offset) q.start).head? with
  | none =>
    rw [houtcome] at hreaches hreaches'
    cases hreaches
    cases hreaches'
    exact .none
  | some o =>
    rw [houtcome] at hreaches hreaches'
    obtain ⟨body, hbody⟩ := h.spelled.linear.unshared.sound
    have ho := List.mem_of_mem_head? houtcome
    cases hreaches with
    | some hhit =>
      cases hreaches' with
      | some hhit' =>
        exact .some (h.makesSame (hbody.captured_zero ho)
          ⟨hhit.cursor, hhit.proper, hhit.left, hhit.size⟩
          ⟨hhit'.cursor, hhit'.proper, hhit'.left, hhit'.size⟩)

theorem fails (hq : q.In env.text) (hfails : (env.since began).Fails q) :
    (env'.since began).Fails q := by
  obtain ⟨result', hgives', hrel⟩ := h.gives hq hfails
  cases hrel
  exact hgives'

theorem passesTo {q? : Option Place}
    (hpasses : env.text.PassesTo env.program.direction (env.since began).Fails p q?) :
    env'.text.PassesTo env'.program.direction (env'.since began).Fails p q? := by
  rw [h.text, h.direction]
  cases q? with
  | none => exact fun r hr hle => h.fails hr (hpasses r hr hle)
  | some q =>
    obtain ⟨hq, hle, hpassed⟩ := hpasses
    exact ⟨hq, hle, fun r hr hlt hrp => h.fails hr (hpassed r hr hlt hrp)⟩

/-- The first hits are made at one place, or there are none. -/
theorem first {first : Option (Place × Hit)} (hfirst : (env.since began).First p first) :
    ∃ first', (env'.since began).First p first' ∧
      Option.Rel (fun found found' => found'.1 = found.1 ∧
        Hit.MakesSame env env' found.2 found'.2) first first' := by
  cases first with
  | none =>
    have hpasses : env.text.PassesTo env.program.direction (env.since began).Fails p none := hfirst
    exact ⟨none, h.passesTo hpasses, .none⟩
  | some found =>
    obtain ⟨q, hit⟩ := found
    obtain ⟨hpasses, hgives⟩ := hfirst
    obtain ⟨result', hgives', hrel⟩ := h.gives hpasses.1 hgives
    cases hrel with
    | @some _ hit' hsame => exact ⟨some (q, hit'), ⟨h.passesTo hpasses, hgives'⟩, .some ⟨rfl, hsame⟩⟩

theorem iterates {afterEmpty : Bool} {ms : List Match} (hms : env.Iterates p afterEmpty ms) :
    env'.Iterates p afterEmpty ms := by
  induction hms with
  | border hresume => exact .border (h.direction ▸ hresume)
  | last hresume hnone =>
    obtain ⟨first', hfirst', hrel⟩ := h.first hnone
    cases hrel
    exact .last (h.direction ▸ hresume) hfirst'
  | found hresume hfirst hmatch hstop hexit _ ih =>
    obtain ⟨first', hfirst', hrel⟩ := h.first hfirst
    cases hrel with
    | @some _ found' hfound =>
      obtain ⟨r', hit'⟩ := found'
      obtain ⟨-, m', hm, hm'⟩ := hfound
      obtain rfl := Option.some.inj (hm.symm.trans hmatch)
      exact .found (h.direction ▸ hresume) hfirst' hm' (h.in_text hstop) (h.direction ▸ hexit) ih

end

end Surroundings.Spells

/-- The fast constructs agree with the general ones. In every text a search with a plain tree and one
with the tree spelled out, where every repeated character is a loop over the sealed character and
every string a sequence, give the same matches with the same captures, in the same order, and then
neither gives any more. The trees are made by the same calls, none of which ignores case in a character
that was repeated before. -/
theorem Tree.SpelledBy.search_same {t t' : Tree} (h : t.SpelledBy t') {config : RegexConfig}
    (hplain : t.Plain (config.cultureOf t)) (hlimit : config.limit = none) :
    (config.compile.strictAnalysis = false → (∃ re, Regex.ofTree t config = .ok re) ∧
      ∃ re, Regex.ofTree t' config = .ok re) ∧
    ∀ re₀ re₀', Regex.ofTree t config = .ok re₀ → Regex.ofTree t' config = .ok re₀' →
      ∀ (text : Text) (start : Nat), text.chars.length < unbounded → text.isBoundary start = true →
        ∃ ms : List Match, ∃ enough, ∀ patience, enough ≤ patience → ∀ re re',
          Serves { re₀ with patience } re → Serves { re₀' with patience } re' → ∀ n,
            answer ((Regex.Call.iterate text start (ms.length + n)).perform re) =
              .ok (ms.map (fun m => some (.ok m)) ++ List.replicate n none) ∧
            answer ((Regex.Call.iterate text start (ms.length + n)).perform re') =
              .ok (ms.map (fun m => some (.ok m)) ++ List.replicate n none) := by
  have hspelled := h.spelled
  have hculture : config.cultureOf t' = config.cultureOf t := by
    rw [RegexConfig.cultureOf, RegexConfig.cultureOf, hspelled.options]
  refine ⟨fun hstrict => ⟨Regex.ofTree_total hspelled.linear.unshared hstrict,
    Regex.ofTree_total hspelled.linear'.unshared hstrict⟩,
    fun re₀ re₀' hre₀ hre₀' text start hlength hstart => ?_⟩
  obtain ⟨program, hcompile, rfl⟩ := Regex.ofTree_eq_ok.1 hre₀
  obtain ⟨program', hcompile', rfl⟩ := Regex.ofTree_eq_ok.1 hre₀'
  obtain ⟨p, hp, rfl⟩ := Text.exists_place hstart
  let env : Surroundings :=
    { program, culture := config.cultureOf t, text, textStart := p.offset }
  let env' : Surroundings :=
    { program := program', culture := config.cultureOf t', text, textStart := p.offset }
  have hspells : env.Spells t t' config.compile env' :=
    ⟨hspelled, hplain, hcompile, hcompile', hculture, rfl, hlength⟩
  obtain ⟨ms, hms⟩ :=
    Surroundings.exists_iterates hplain hspelled.linear hspells.compiled hlength hp false
  obtain ⟨enough, hanswer⟩ := hms.answer_iterate hspells.compiled hp
  obtain ⟨enough', hanswer'⟩ := (hspells.iterates hms).answer_iterate hspells.compiled' hp
  refine ⟨ms, max enough enough', fun patience hpatience re re' hre hre' n => ⟨?_, ?_⟩⟩
  · exact hanswer _ ⟨rfl, hlimit⟩ (Nat.max_le.1 hpatience).1 re hre n
  · exact hanswer' _ ⟨rfl, hlimit⟩ (Nat.max_le.1 hpatience).2 re' hre' n

-- A call that comes too late is not one that both builders can be given. Once `a+` was made, ignoring
-- case in its character leaves the run as it is, and the loop over the sealed character matches `A`.
example :
    let late (unit : Nat → Build Nat) : Tree := Tree.build {} do
      let a ← Builder.one 'a'
      let run ← Builder.plus (← unit a)
      let _ ← Builder.ignoreCase a
      return run
    let isMatch (t : Tree) : Option (Except Failure Bool) :=
      (Regex.ofTree t {}).toOption.map fun re => answer (Regex.isMatch (.ofString "A") re)
    isMatch (late pure) = some (.ok false) ∧ isMatch (late Builder.atomic) = some (.ok true) := by
  decide +kernel

/-- The pattern `ab(c+?)d*`. -/
def quickRun : Tree :=
  Tree.build {} do
    let ab ← Builder.multi ['a', 'b']
    let c ← Builder.one 'c'
    let run ← Builder.lazyPlus c
    let group ← Builder.capture 1 run
    let d ← Builder.one 'd'
    let rest ← Builder.star d
    Builder.concat [ab, group, rest]

/-- The pattern `ab(c+?)d*` spelled out, which is `(?:ab)((?>c)+?)(?>d)*`. -/
def spelledRun : Tree :=
  Tree.build {} do
    let a ← Builder.one 'a'
    let b ← Builder.one 'b'
    let ab ← Builder.concat [a, b]
    let c ← Builder.one 'c'
    let run ← Builder.lazyPlus (← Builder.atomic c)
    let group ← Builder.capture 1 run
    let d ← Builder.one 'd'
    let rest ← Builder.star (← Builder.atomic d)
    Builder.concat [ab, group, rest]

theorem spelledBy_quickRun : quickRun.SpelledBy spelledRun := by
  have hab : Builder.MadeSpelled {} _ _ _ [0] := .call .start (.multi ['a', 'b']) trivial (.refl _)
  have hc : Builder.MadeSpelled {} _ _ _ [1, 0] := hab.call (.atom (.one 'c')) trivial (.refl _)
  have hrun : Builder.MadeSpelled {} _ _ _ [2, 0] :=
    hc.call (.quantify 1 1 unbounded true) ⟨by decide, Nat.le_refl _⟩ (.refl _)
  have hgroup : Builder.MadeSpelled {} _ _ _ [3, 0] :=
    hrun.call (.capture 1 2) Nat.one_pos (.refl _)
  have hd : Builder.MadeSpelled {} _ _ _ [4, 3, 0] :=
    hgroup.call (.atom (.one 'd')) trivial (.refl _)
  have hrest : Builder.MadeSpelled {} _ _ _ [5, 3, 0] :=
    hd.call (.quantify 4 0 unbounded false) ⟨by decide, Nat.le_refl _⟩ (.refl _)
  have hconcat : Builder.MadeSpelled {} _ _ _ [6] :=
    hrest.call (.concat [0, 3, 5]) trivial (by decide)
  exact ⟨_, _, _, _, _, 6, hconcat, List.mem_singleton_self 6, rfl, rfl⟩

theorem root_quickRun : quickRun.root =
    .node 7 {} (.capture (some 0) none) [.node 6 {} .concat [
      .node 0 {} (.multi ['a', 'b']) [],
      .node 3 {} (.capture (some 1) none) [.node 2 {} (.charLoop (.one 'c') 1 unbounded true) []],
      .node 5 {} (.charLoop (.one 'd') 0 unbounded false) []]] := by
  have hfinish : quickRun = Builder.finish 6 {
      options := {}
      entries := #[⟨.multi ['a', 'b'], [], {}⟩, ⟨.char (.one 'c'), [], {}⟩,
        ⟨.charLoop (.one 'c') 1 unbounded true, [], {}⟩, ⟨.capture (some 1) none, [2], {}⟩,
        ⟨.char (.one 'd'), [], {}⟩, ⟨.charLoop (.one 'd') 0 unbounded false, [], {}⟩,
        ⟨.concat, [0, 3, 5], {}⟩]
      maxGroup := 1 } := rfl
  rw [hfinish]
  simp [Builder.finish, Builder.push, Builder.nodes, Builder.addNode]

theorem plain_quickRun (culture : Culture) : quickRun.Plain culture := by
  refine spelledBy_quickRun.spelled.linear.unshared.plain_of_simple ?_ culture
  rw [root_quickRun]
  decide

/-- What `ab(c+?)d*` finds in `abcddabcc`. -/
def quickRunMatches : List Match :=
  [{ text := .ofString "abcddabcc", spans := ⟨#[[⟨0, 5⟩], [⟨2, 1⟩]]⟩ },
    { text := .ofString "abcddabcc", spans := ⟨#[[⟨5, 3⟩], [⟨7, 1⟩]]⟩ }]

/-- The pattern `ab(c+?)d*` finds in `abcddabcc` what it finds spelled out. -/
theorem search_quickRun : ∃ re₀ re₀' : Regex, Regex.ofTree quickRun {} = .ok re₀ ∧
    Regex.ofTree spelledRun {} = .ok re₀' ∧ ∃ enough, ∀ patience, enough ≤ patience → ∀ n,
      answer ((Regex.Call.iterate (.ofString "abcddabcc") 0 (quickRunMatches.length + n)).perform
          { re₀ with patience }) =
        .ok (quickRunMatches.map (fun m => some (.ok m)) ++ List.replicate n none) ∧
      answer ((Regex.Call.iterate (.ofString "abcddabcc") 0 (quickRunMatches.length + n)).perform
          { re₀' with patience }) =
        .ok (quickRunMatches.map (fun m => some (.ok m)) ++ List.replicate n none) := by
  obtain ⟨hmade, hsame⟩ := spelledBy_quickRun.search_same
    (plain_quickRun (RegexConfig.cultureOf {} quickRun)) rfl
  obtain ⟨-, re₀', hre₀'⟩ := hmade rfl
  have hseen : (Regex.ofTree quickRun {}).toOption.map (fun re => answer
      ((Regex.Call.iterate (.ofString "abcddabcc") 0 (quickRunMatches.length + 1)).perform re)) =
        some (.ok (quickRunMatches.map (fun m => some (.ok m)) ++ [none])) := by
    decide +kernel
  obtain ⟨re₀, hre₀, hseen⟩ := Regex.exists_of_ofTree hseen
  obtain ⟨ms, enough, hitems⟩ :=
    hsame re₀ re₀' hre₀ hre₀' (.ofString "abcddabcc") 0 (by decide) (by decide)
  have hitems := fun patience hpatience => hitems patience hpatience _ _
    (Regex.serves_ofTree hre₀ patience) (Regex.serves_ofTree hre₀' patience)
  obtain rfl := Regex.eq_of_iterate hre₀ (fun patience hpatience n => (hitems patience hpatience n).1)
    hseen
  exact ⟨re₀, re₀', hre₀, hre₀', enough, hitems⟩

end RegexMachine
