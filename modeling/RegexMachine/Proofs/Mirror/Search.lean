import RegexMachine.Proofs.Mirror.Tree
import RegexMachine.Proofs.Regex.Iteration

/-!
# Searching from the other end

A search that goes backward through a text finds the mirror images of what the search for the mirrored
tree finds that goes forward through the reversed text, match by match.
-/

namespace RegexMachine

open Matcher
open Regex (Serves)

/-- The spans as they lie in the reversed text, when the text has that many bytes. -/
def Spans.mirror (size : Nat) (s : Spans) : Spans := ⟨s.groups.map (·.map (Span.mirror size))⟩

/-- The match as it is found in the reversed text. -/
def Match.mirror (m : Match) : Match :=
  { m with text := m.text.reversed, spans := m.spans.mirror m.text.size }

namespace Spans

theorem history_mirror (size : Nat) (s : Spans) (g : Nat) :
    (s.mirror size).history g = (s.history g).map (Span.mirror size) := by
  simp only [history, mirror, Array.getD_eq_getD_getElem?, Array.getElem?_map]
  cases s.groups[g]? <;> rfl

theorem groupCount_mirror (size : Nat) (s : Spans) : (s.mirror size).groupCount = s.groupCount :=
  Array.size_map

end Spans

/-- Group 0 took part in the match, and all its spans lie in the text. -/
structure Match.Inside (m : Match) : Prop where
  whole : m.spans.group? 0 = some m.spans.whole
  stop_le : ∀ g, ∀ span ∈ m.spans.history g, span.stop ≤ m.text.size

namespace Match.Inside

variable {m : Match}

theorem whole_mirror (h : m.Inside) : m.mirror.spans.whole = m.spans.whole.mirror m.text.size := by
  have hlast : (m.spans.history 0).getLast? = some m.spans.whole := h.whole
  have hmirror : (m.mirror.spans.history 0).getLast? = some (m.spans.whole.mirror m.text.size) := by
    rw [show m.mirror.spans.history 0 = _ from Spans.history_mirror m.text.size m.spans 0,
      List.getLast?_map, hlast]
    rfl
  rw [Spans.whole, Spans.group?, hmirror]
  rfl

theorem isEmpty_mirror (h : m.Inside) : m.mirror.isEmpty = m.isEmpty := by
  rw [Match.isEmpty, Match.length, h.whole_mirror]
  rfl

/-- The search through the reversed text leaves the match at the mirror image of where the search
through the text leaves it. -/
theorem exit_mirror (h : m.Inside) {stop : Place} (hstop : stop.In m.text) {d : Direction}
    (hexit : m.spans.whole.exit d = stop.offset) :
    m.mirror.spans.whole.exit d.flip = stop.mirror.offset := by
  have hbounds := Span.bounds_mirror (h.stop_le 0 _ (List.mem_of_getLast? h.whole))
  have hsum := Text.offset_add_mirror hstop
  rw [h.whole_mirror]
  cases d with
  | forward =>
    change m.spans.whole.stop = stop.offset at hexit
    change (m.spans.whole.mirror m.text.size).start = _
    omega
  | backward =>
    change m.spans.whole.start = stop.offset at hexit
    change (m.spans.whole.mirror m.text.size).stop = _
    omega

end Match.Inside

/-- The second program is that of the mirror image of a plain tree, and is run on the reversed text. -/
structure Surroundings.Faces (t t' : Tree) (config : CompileConfig) (env env' : Surroundings) :
    Prop where
  reflected : t.Reflected t'
  plain : t.Plain env.culture
  compiled : Program.compile t env.culture config = .ok env.program
  compiled' : Program.compile t' env'.culture config = .ok env'.program
  culture : env'.culture = env.culture
  text : env'.text = env.text.reversed
  short : env.text.chars.length < unbounded

/-- The hits make a match and its mirror image. -/
def Hit.Mirrors (env env' : Surroundings) (hit hit' : Hit) : Prop :=
  ∃ m : Match, hit.match? env = some m ∧ hit'.match? env' = some m.mirror ∧ m.text = env.text ∧
    m.Inside

theorem Place.resume_mirror (d : Direction) (afterEmpty : Bool) (p : Place) :
    p.mirror.resume d.flip afterEmpty = (p.resume d afterEmpty).map mirror := by
  cases afterEmpty with
  | false => rfl
  | true =>
    rw [resume, resume, if_pos rfl, if_pos rfl, read_mirror, Option.map_map, Option.map_map]
    rfl

namespace Surroundings.Faces

variable {t t' : Tree} {config : CompileConfig} {env env' : Surroundings} {began p q : Place}

section

variable (h : env.Faces t t' config env')

include h

theorem direction : env.program.direction = .backward := by
  obtain ⟨last, hcompiled⟩ := Program.compiled_of_compile h.compiled
  exact hcompiled.direction_eq.trans (Options.direction_eq_backward h.reflected.backward)

theorem direction' : env'.program.direction = .forward := by
  obtain ⟨last, hcompiled⟩ := Program.compiled_of_compile h.compiled'
  rw [hcompiled.direction_eq, Tree.direction, h.reflected.options]
  rfl

theorem groupCount_eq : env'.program.groupCount = env.program.groupCount := by
  obtain ⟨last, hcompiled⟩ := Program.compiled_of_compile h.compiled
  obtain ⟨last', hcompiled'⟩ := Program.compiled_of_compile h.compiled'
  rw [hcompiled.groupCount, hcompiled'.groupCount, h.reflected.groupCount]

theorem names_eq : env'.program.names = env.program.names := by
  obtain ⟨last, hcompiled⟩ := Program.compiled_of_compile h.compiled
  obtain ⟨last', hcompiled'⟩ := Program.compiled_of_compile h.compiled'
  rw [hcompiled.names, hcompiled'.names, h.reflected.names]

theorem plain' : t'.Plain env'.culture := by
  rw [h.culture]
  exact h.reflected.plain h.plain

theorem short' : env'.text.chars.length < unbounded := by
  rw [h.text, Text.length_reversed]
  exact h.short

theorem in_mirror (hp : p.In env.text) : p.mirror.In env'.text := by
  rw [h.text]
  exact hp.mirror

/-- The outcomes at a place of the reversed text are the mirror images of those at the place of the
text. -/
theorem outcomes_eq (hbegan : began.In env.text) (hq : q.In env.text) :
    t'.root.matcher Reading.plain (t'.setting env'.culture env'.text began.mirror.offset)
        q.mirror.start =
      (t.root.matcher Reading.plain (t.setting env.culture env.text began.offset) q.start).map
        (MatchState.mirror env.text.size) := by
  have hσ : (t.setting env.culture env.text began.offset).Mirrors
      (t'.setting env'.culture env'.text began.mirror.offset) := by
    have hscript : t'.options.ecmaScript = t.options.ecmaScript := by
      rw [h.reflected.options]
      rfl
    refine ⟨h.culture, h.text, fun p hp => ?_, hscript⟩
    have hsum := Text.offset_add_mirror hp
    have hsum' := Text.offset_add_mirror hbegan
    change p.mirror.offset = began.mirror.offset ↔ p.offset = began.offset
    change p.offset + p.mirror.offset = env.text.size at hsum
    omega
  have hsound : q.start.Sound env.text := ⟨hq, fun _ _ hspan => absurd hspan List.not_mem_nil⟩
  rw [h.reflected.root]
  exact Node.mirrored_matcher Reading.plain hσ h.reflected.mirrorable q.start hsound

/-- Hits that end in an outcome and in its mirror image make a match and its mirror image. -/
theorem mirrors {o : MatchState} (ho : o.Sound env.text) (hwhole : o.captured 0 ≠ []) {hit hit' : Hit}
    (hreaches : hit.Reaches env o) (hreaches' : hit'.Reaches env' (o.mirror env.text.size)) :
    Hit.Mirrors env env' hit hit' := by
  obtain ⟨spans, hpublish, hhistory, hcount⟩ := hreaches.exists_spans hwhole
  have hwhole' : (o.mirror env.text.size).captured 0 ≠ [] := fun hnil =>
    hwhole (List.map_eq_nil_iff.1 hnil)
  obtain ⟨spans', hpublish', hhistory', hcount'⟩ := hreaches'.exists_spans hwhole'
  have hspans : spans' = spans.mirror env.text.size := by
    refine Spans.ext_history ?_ fun g => ?_
    · rw [Spans.groupCount_mirror, hcount, hcount', h.groupCount_eq]
    · rw [Spans.history_mirror, hhistory, hhistory', List.map_reverse]
      rfl
  refine ⟨{ text := env.text, spans, names := env.program.names }, ?_, ?_, rfl, ?_, ?_⟩
  · rw [Hit.match?, hpublish, Option.map_some]
  · rw [Hit.match?, hpublish', Option.map_some, hspans, h.names_eq, h.text]
    rfl
  · have hne : spans.history 0 ≠ [] := by
      rw [hhistory]
      exact fun hnil => hwhole (List.reverse_eq_nil_iff.1 hnil)
    change spans.group? 0 = some spans.whole
    rw [Spans.whole, Spans.group?, List.getLast?_eq_getLast_of_ne_nil hne, Option.getD_some]
  · intro g span hspan
    change span ∈ spans.history g at hspan
    rw [hhistory] at hspan
    exact Text.le_size_of_isBoundary (ho.spans g span (List.mem_reverse.1 hspan)).2

/-- What the attempts at a place and at its mirror image give. -/
theorem gives (hbegan : began.In env.text) (hq : q.In env.text) {result : Option Hit}
    (hgives : (env.since began).Gives q result) :
    ∃ result', (env'.since began.mirror).Gives q.mirror result' ∧
      Option.Rel (Hit.Mirrors env env') result result' := by
  have hq' := h.in_mirror hq
  have hreturns : (env'.since began.mirror).Returns q.mirror :=
    Surroundings.returns_of_plain (t := t') h.plain' h.compiled' h.short' hq'
  obtain ⟨result', hgives'⟩ := hreturns.gives
  refine ⟨result', hgives', ?_⟩
  have hreaches : Option.Rel (Hit.Reaches (env.since began)) result (t.root.matcher Reading.plain
      (t.setting env.culture env.text began.offset) q.start).head? :=
    hgives.rel_outcome h.plain h.compiled h.short hq
  have hreaches' : Option.Rel (Hit.Reaches (env'.since began.mirror)) result'
      (t'.root.matcher Reading.plain (t'.setting env'.culture env'.text began.mirror.offset)
        q.mirror.start).head? :=
    hgives'.rel_outcome h.plain' h.compiled' h.short' hq'
  rw [h.outcomes_eq hbegan hq, List.head?_map] at hreaches'
  cases houtcome : (t.root.matcher Reading.plain
      (t.setting env.culture env.text began.offset) q.start).head? with
  | none =>
    rw [houtcome] at hreaches hreaches'
    cases hreaches
    cases hreaches'
    exact .none
  | some o =>
    rw [houtcome] at hreaches hreaches'
    obtain ⟨body, hbody⟩ := h.reflected.linear.unshared.sound
    have ho := List.mem_of_mem_head? houtcome
    have hkept := Node.keepsSound_matcher _ _ _ _ o ho (Machine.enters_initial hq).sound
    cases hreaches with
    | some hhit =>
      cases hreaches' with
      | some hhit' =>
        exact .some (h.mirrors hkept (hbody.captured_zero ho)
          ⟨hhit.cursor, hhit.proper, hhit.left, hhit.size⟩
          ⟨hhit'.cursor, hhit'.proper, hhit'.left, hhit'.size⟩)

/-- An attempt fails at the mirror image of a place where the attempt fails. -/
theorem fails (hbegan : began.In env.text) (hq : q.In env.text)
    (hfails : (env.since began).Fails q) : (env'.since began.mirror).Fails q.mirror := by
  obtain ⟨result', hgives', hrel⟩ := h.gives hbegan hq hfails
  cases hrel
  exact hgives'

/-- A search passes over the mirror images of the places that the search through the text passes
over. -/
theorem passesTo (hbegan : began.In env.text) {q? : Option Place}
    (hpasses : env.text.PassesTo env.program.direction (env.since began).Fails p q?) :
    env'.text.PassesTo env'.program.direction (env'.since began.mirror).Fails p.mirror
      (q?.map Place.mirror) := by
  rw [h.direction] at hpasses
  rw [h.direction']
  have hin {r : Place} (hr : r.In env'.text) : r.mirror.In env.text :=
    Text.in_of_reversed (h.text ▸ hr)
  cases q? with
  | none => exact fun r hr hle => h.fails hbegan (hin hr) (hpasses r.mirror (hin hr) hle)
  | some q =>
    obtain ⟨hq, hle, hpassed⟩ := hpasses
    exact ⟨h.in_mirror hq, hle,
      fun r hr hlt hrp => h.fails hbegan (hin hr) (hpassed r.mirror (hin hr) hlt hrp)⟩

/-- The first hits are made at a place and at its mirror image, or there are none. -/
theorem first (hbegan : began.In env.text) {first : Option (Place × Hit)}
    (hfirst : (env.since began).First p first) :
    ∃ first', (env'.since began.mirror).First p.mirror first' ∧
      Option.Rel (fun found found' => found'.1 = found.1.mirror ∧
        Hit.Mirrors env env' found.2 found'.2) first first' := by
  cases first with
  | none =>
    have hpasses : env.text.PassesTo env.program.direction (env.since began).Fails p none := hfirst
    exact ⟨none, h.passesTo hbegan hpasses, .none⟩
  | some found =>
    obtain ⟨q, hit⟩ := found
    obtain ⟨hpasses, hgives⟩ := hfirst
    obtain ⟨result', hgives', hrel⟩ := h.gives hbegan hpasses.1 hgives
    cases hrel with
    | @some _ hit' hmirrors =>
      exact ⟨some (q.mirror, hit'), ⟨h.passesTo hbegan hpasses, hgives'⟩, .some ⟨rfl, hmirrors⟩⟩

/-- Match by match the search through the reversed text finds the mirror images of the matches. -/
theorem iterates {afterEmpty : Bool} {ms : List Match} (hp : p.In env.text)
    (hms : env.Iterates p afterEmpty ms) :
    env'.Iterates p.mirror afterEmpty (ms.map Match.mirror) ∧
      ∀ m ∈ ms, m.text = env.text ∧ m.Inside := by
  have hresumes {p : Place} {afterEmpty : Bool} {q? : Option Place}
      (hresume : p.resume env.program.direction afterEmpty = q?) :
      p.mirror.resume env'.program.direction afterEmpty = q?.map Place.mirror := by
    rw [h.direction']
    rw [h.direction] at hresume
    rw [← hresume]
    exact Place.resume_mirror .backward afterEmpty p
  induction hms with
  | border hresume => exact ⟨.border (hresumes hresume), fun _ hm => absurd hm List.not_mem_nil⟩
  | last hresume hnone =>
    obtain ⟨first', hfirst', hrel⟩ := h.first hp hnone
    cases hrel
    exact ⟨.last (hresumes hresume) hfirst', fun _ hm => absurd hm List.not_mem_nil⟩
  | @found p q r stop afterEmpty hit m ms hresume hfirst hmatch hstop hexit _ ih =>
    obtain ⟨first', hfirst', hrel⟩ := h.first hp hfirst
    obtain ⟨hrest, hinside⟩ := ih hstop
    cases hrel with
    | @some _ found' hfound =>
      obtain ⟨r', hit'⟩ := found'
      obtain ⟨-, m', hm, hm', htext, hinside'⟩ := hfound
      obtain rfl : m' = m := Option.some.inj (hm.symm.trans hmatch)
      rw [← hinside'.isEmpty_mirror] at hrest
      have hexit' : m'.mirror.spans.whole.exit env'.program.direction = stop.mirror.offset := by
        rw [h.direction] at hexit
        rw [h.direction']
        exact hinside'.exit_mirror (htext ▸ hstop) hexit
      refine ⟨.found (hresumes hresume) hfirst' hm' (h.in_mirror hstop) hexit' hrest, ?_⟩
      exact List.forall_mem_cons.2 ⟨⟨htext, hinside'⟩, hinside⟩

end

end Surroundings.Faces

/-- The mirror image of a tree finds on the reversed text the mirror images of the matches of the tree,
in the same order, and then neither finds any more. -/
theorem Tree.MirroredBy.search_mirrors {t t' : Tree} (h : t.MirroredBy t') {config : RegexConfig}
    (hplain : t.Plain (config.cultureOf t)) (hlimit : config.limit = none) :
    (config.compile.strictAnalysis = false → (∃ re, Regex.ofTree t config = .ok re) ∧
      ∃ re, Regex.ofTree t' config = .ok re) ∧
    ∀ re₀ re₀', Regex.ofTree t config = .ok re₀ → Regex.ofTree t' config = .ok re₀' →
      ∀ (text : Text) (start : Nat), text.chars.length < unbounded → text.isBoundary start = true →
        ∃ ms : List Match, (∀ m ∈ ms, m.text = text ∧ m.Inside) ∧
          ∃ enough, ∀ patience, enough ≤ patience → ∀ re re', Serves { re₀ with patience } re →
            Serves { re₀' with patience } re' → ∀ n,
              answer ((Regex.Call.iterate text start (ms.length + n)).perform re) =
                .ok (ms.map (fun m => some (.ok m)) ++ List.replicate n none) ∧
              answer ((Regex.Call.iterate text.reversed (text.size - start)
                  (ms.length + n)).perform re') =
                .ok (ms.map (fun m => some (.ok m.mirror)) ++ List.replicate n none) := by
  have hreflected := h.reflected
  have hculture : config.cultureOf t' = config.cultureOf t := by
    rw [RegexConfig.cultureOf, RegexConfig.cultureOf, hreflected.options]
    rfl
  refine ⟨fun hstrict => ⟨Regex.ofTree_total hreflected.linear.unshared hstrict,
    Regex.ofTree_total hreflected.linear'.unshared hstrict⟩,
    fun re₀ re₀' hre₀ hre₀' text start hlength hstart => ?_⟩
  obtain ⟨program, hcompile, rfl⟩ := Regex.ofTree_eq_ok.1 hre₀
  obtain ⟨program', hcompile', rfl⟩ := Regex.ofTree_eq_ok.1 hre₀'
  obtain ⟨p, hp, rfl⟩ := Text.exists_place hstart
  let env : Surroundings :=
    { program, culture := config.cultureOf t, text, textStart := p.offset }
  let env' : Surroundings :=
    { program := program', culture := config.cultureOf t', text := text.reversed,
      textStart := p.mirror.offset }
  have hfaces : env.Faces t t' config.compile env' :=
    ⟨hreflected, hplain, hcompile, hcompile', hculture, rfl, hlength⟩
  obtain ⟨ms, hms⟩ :=
    Surroundings.exists_iterates hplain hreflected.linear hfaces.compiled hlength hp false
  obtain ⟨hms', hinside⟩ := hfaces.iterates hp hms
  obtain ⟨enough, hanswer⟩ := hms.answer_iterate hfaces.compiled hp
  obtain ⟨enough', hanswer'⟩ := hms'.answer_iterate hfaces.compiled' hp.mirror
  refine ⟨ms, hinside, max enough enough', fun patience hpatience re re' hre hre' n => ⟨?_, ?_⟩⟩
  · exact hanswer _ ⟨rfl, hlimit⟩ (Nat.max_le.1 hpatience).1 re hre n
  · have hitems := hanswer' _ ⟨rfl, hlimit⟩ (Nat.max_le.1 hpatience).2 re' hre' n
    rw [List.length_map, List.map_map] at hitems
    rw [← Text.offset_mirror hp]
    exact hitems

/-- The pattern `^(a+)bc`, to be matched backward. -/
def backwardRun : Tree :=
  Tree.build { rightToLeft := true } do
    let beginning ← Builder.anchor .beginning
    let a ← Builder.one 'a'
    let run ← Builder.plus a
    let group ← Builder.capture 1 run
    let rest ← Builder.multi ['b', 'c']
    Builder.concat [beginning, group, rest]

/-- The pattern `cb(a+)$`, the mirror image of `^(a+)bc`. -/
def forwardRun : Tree :=
  Tree.build {} do
    let beginning ← Builder.anchor .end
    let a ← Builder.one 'a'
    let run ← Builder.plus a
    let group ← Builder.capture 1 run
    let rest ← Builder.multi ['c', 'b']
    Builder.concat [rest, group, beginning]

theorem mirroredBy_backwardRun : backwardRun.MirroredBy forwardRun := by
  have hanchor : Builder.MadeMirrored {} _ _ [0] :=
    .call .start (.anchor .beginning) trivial trivial (.refl _)
  have hatom : Builder.MadeMirrored {} _ _ [1, 0] :=
    .call hanchor (.atom (.one 'a')) trivial trivial (.refl _)
  have hrun : Builder.MadeMirrored {} _ _ [2, 0] :=
    hatom.call (.quantify 1 1 unbounded false) ⟨by decide, Nat.le_refl _⟩ trivial (.refl _)
  have hgroup : Builder.MadeMirrored {} _ _ [3, 0] :=
    hrun.call (.capture 1 2) Nat.one_pos trivial (.refl _)
  have hrest : Builder.MadeMirrored {} _ _ [4, 3, 0] :=
    hgroup.call (.multi ['b', 'c']) trivial trivial (.refl _)
  have hconcat : Builder.MadeMirrored {} _ _ [5] :=
    hrest.call (.concat [0, 3, 4]) trivial trivial (by decide)
  exact ⟨_, _, _, _, 5, hconcat, List.mem_singleton_self 5, rfl, rfl⟩

theorem root_backwardRun : backwardRun.root =
    let options : Options := { rightToLeft := true }
    .node 6 options (.capture (some 0) none) [.node 5 options .concat [
      .node 0 options (.anchor .beginning) [],
      .node 3 options (.capture (some 1) none)
        [.node 2 options (.charLoop (.one 'a') 1 unbounded false) []],
      .node 4 options (.multi ['b', 'c']) []]] := by
  have hfinish : backwardRun = Builder.finish 5 {
      options := { rightToLeft := true }
      entries := #[⟨.anchor .beginning, [], { rightToLeft := true }⟩,
        ⟨.char (.one 'a'), [], { rightToLeft := true }⟩,
        ⟨.charLoop (.one 'a') 1 unbounded false, [], { rightToLeft := true }⟩,
        ⟨.capture (some 1) none, [2], { rightToLeft := true }⟩,
        ⟨.multi ['b', 'c'], [], { rightToLeft := true }⟩,
        ⟨.concat, [0, 3, 4], { rightToLeft := true }⟩]
      maxGroup := 1 } := rfl
  rw [hfinish]
  simp [Builder.finish, Builder.push, Builder.nodes, Builder.addNode]

theorem plain_backwardRun (culture : Culture) : backwardRun.Plain culture := by
  refine mirroredBy_backwardRun.reflected.linear.unshared.plain_of_simple ?_ culture
  rw [root_backwardRun]
  decide

/-- What `^(a+)bc` finds backward in `aabcé`. -/
def backwardRunMatches : List Match :=
  [{ text := .ofString "aabcé", spans := ⟨#[[⟨0, 4⟩], [⟨0, 2⟩]]⟩ }]

/-- What `^(a+)bc` finds backward in `aabcé`, `cb(a+)$` finds in `écbaa`. -/
theorem mirrors_backwardRun : ∃ re₀ re₀' : Regex, Regex.ofTree backwardRun {} = .ok re₀ ∧
    Regex.ofTree forwardRun {} = .ok re₀' ∧
    backwardRunMatches.map Match.mirror =
      [{ text := .ofString "écbaa", spans := ⟨#[[⟨2, 4⟩], [⟨4, 2⟩]]⟩ }] ∧
    ∃ enough, ∀ patience, enough ≤ patience → ∀ n,
      answer ((Regex.Call.iterate (.ofString "aabcé") 6 (backwardRunMatches.length + n)).perform
          { re₀ with patience }) =
        .ok (backwardRunMatches.map (fun m => some (.ok m)) ++ List.replicate n none) ∧
      answer ((Regex.Call.iterate (.ofString "écbaa") 0 (backwardRunMatches.length + n)).perform
          { re₀' with patience }) =
        .ok (backwardRunMatches.map (fun m => some (.ok m.mirror)) ++ List.replicate n none) := by
  obtain ⟨hmade, hmirrors⟩ := mirroredBy_backwardRun.search_mirrors
    (plain_backwardRun (RegexConfig.cultureOf {} backwardRun)) rfl
  obtain ⟨-, re₀', hre₀'⟩ := hmade rfl
  have hseen : (Regex.ofTree backwardRun {}).toOption.map (fun re =>
      answer ((Regex.Call.iterate (.ofString "aabcé") 6 (backwardRunMatches.length + 1)).perform re)) =
        some (.ok (backwardRunMatches.map (fun m => some (.ok m)) ++ [none])) := by
    decide +kernel
  obtain ⟨re₀, hre₀, hseen⟩ := Regex.exists_of_ofTree hseen
  obtain ⟨ms, -, enough, hitems⟩ :=
    hmirrors re₀ re₀' hre₀ hre₀' (.ofString "aabcé") 6 (by decide) (by decide)
  have hitems := fun patience hpatience => hitems patience hpatience _ _
    (Regex.serves_ofTree hre₀ patience) (Regex.serves_ofTree hre₀' patience)
  obtain rfl := Regex.eq_of_iterate hre₀ (fun patience hpatience n => (hitems patience hpatience n).1)
    hseen
  have hreversed : (Text.ofString "aabcé").reversed = .ofString "écbaa" := rfl
  have hsize : (Text.ofString "aabcé").size - 6 = 0 := by decide
  rw [hreversed, hsize] at hitems
  exact ⟨re₀, re₀', hre₀, hre₀', by decide +kernel, enough, hitems⟩

end RegexMachine
