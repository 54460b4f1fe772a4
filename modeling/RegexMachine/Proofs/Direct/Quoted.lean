import RegexMachine.Proofs.Direct.Imitation
import RegexMachine.Proofs.Scan.Bytes

/-!
# The matcher of quoted strings agrees with its pattern

The body of a quoted string gives characters back, but only where it ended first can a quote follow.
So the closing quote is the next quote behind the opening one, and the matcher need not go back.
-/

namespace RegexMachine

open Machine Matcher

namespace QuotedMatcher

/-- The pattern `"([^"]*)"`. -/
def tree : Tree :=
  Tree.build {} do
    let opening ← Builder.one '"'
    let character ← Builder.notOne '"'
    let body ← Builder.star character
    let body ← Builder.capture 1 body
    let closing ← Builder.one '"'
    Builder.concat [opening, body, closing]

theorem root_tree : tree.root = .node 6 {} (.capture (some 0) none) [.node 5 {} .concat [
    .node 0 {} (.char (.one '"')) [],
    .node 3 {} (.capture (some 1) none) [.node 2 {} (.charLoop (.notOne '"') 0 unbounded false) []],
    .node 4 {} (.char (.one '"')) []]] := by
  have hfinish : tree = Builder.finish 5 {
      options := {}
      entries := #[⟨.char (.one '"'), [], {}⟩, ⟨.char (.notOne '"'), [], {}⟩,
        ⟨.charLoop (.notOne '"') 0 unbounded false, [], {}⟩, ⟨.capture (some 1) none, [2], {}⟩,
        ⟨.char (.one '"'), [], {}⟩, ⟨.concat, [0, 3, 4], {}⟩]
      maxGroup := 1 } := rfl
  rw [hfinish]
  simp [Builder.finish, Builder.push, Builder.nodes, Builder.addNode]

theorem linear_tree : tree.Linear := by
  have hopening : Builder.Unshared {} _ [0] := .call .start (.atom (.one '"')) trivial (.refl _)
  have hcharacter : Builder.Unshared {} _ [1, 0] := hopening.call (.atom (.notOne '"')) trivial (.refl _)
  have hrun : Builder.Unshared {} _ [2, 0] :=
    hcharacter.call (.quantify 1 0 unbounded false) ⟨by decide, Nat.le_refl _⟩ (.refl _)
  have hbody : Builder.Unshared {} _ [3, 0] := hrun.call (.capture 1 2) Nat.one_pos (.refl _)
  have hclosing : Builder.Unshared {} _ [4, 3, 0] := hbody.call (.atom (.one '"')) trivial (.refl _)
  have hconcat : Builder.Unshared {} _ [5] := hclosing.call (.concat [0, 3, 4]) trivial (by decide)
  exact ⟨_, _, _, 5, hconcat, List.mem_singleton_self 5, rfl⟩

theorem plain_tree (culture : Culture) : tree.Plain culture := by
  refine linear_tree.unshared.plain_of_simple ?_ culture
  rw [root_tree]
  decide

/-- What a match comes to when its body goes from one place to another and a quote follows. -/
def outcome (p body bodyEnd : Place) : Option MatchState :=
  (exactly .forward (· == '"') 1 bodyEnd).map fun stop =>
    let inner := Captures.leftBy (fun _ => []) 1 body.offset bodyEnd.offset
    { place := stop, captured := Captures.leftBy inner 0 p.offset stop.offset }

theorem outcomes_tree (σ : Setting) (p : Place) : tree.root.matcher Reading.plain σ p.start =
    match exactly .forward (· == '"') 1 p with
    | some body => (stops .forward (· != '"') (body.ahead .forward) body).reverse.filterMap
        (outcome p body)
    | none => [] := by
  have hquote : ∀ (id : Nat) (s : MatchState),
      (Node.node id {} (.char (.one '"')) []).matcher Reading.plain σ s =
        goTo s (exactly .forward (· == '"') 1 s.place) := fun _ _ => by
    rw [Node.matcher_node]
    rfl
  have hbody : ∀ s : MatchState, (Node.node 3 {} (.capture (some 1) none)
      [.node 2 {} (.charLoop (.notOne '"') 0 unbounded false) []]).matcher Reading.plain σ s =
        (stops .forward (· != '"') (s.place.ahead .forward) s.place).reverse.map fun q =>
          { place := q, captured := Captures.leftBy s.captured 1 s.place.offset q.offset } := by
    intro s
    rw [Node.matcher_node, List.map_singleton, Node.matcher_node]
    show ((stops _ _ _ s.place).reverse.map s.moveTo).filterMap _ = _
    rw [List.filterMap_map, ← List.filterMap_eq_map]
    rfl
  rw [root_tree, Node.matcher_node, List.map_singleton, Node.matcher_node]
  show (Matcher.sequence [_, _, _] p.start).filterMap _ = _
  simp only [Matcher.sequence, hquote, hbody]
  show List.filterMap _ (List.flatMap _ (goTo p.start (exactly .forward (· == '"') 1 p))) = _
  cases exactly .forward (· == '"') 1 p with
  | none => rfl
  | some body =>
    show List.filterMap _ ((List.flatMap _ (List.map _ _)) ++ []) = _
    rw [List.append_nil]
    refine MatchState.filterMap_flatMap_map (fun e => ?_) _
    dsimp only [outcome]
    cases exactly .forward (· == '"') 1 e <;> rfl

variable {text : Text} {p : Place}

/-- No quote follows the place. -/
def Unquoted (p : Place) : Prop := p.after.head?.any (· == '"') = false

/-- A run without quotes goes on until a quote follows, so what only comes about where a quote follows
comes about at the next one. -/
theorem findSome?_stops {α : Type} {f : Place → Option α} (hf : ∀ e : Place, Unquoted e → f e = none)
    {q? : Option Place} (hq : ∀ q ∈ q?, ¬ Unquoted q) {n : Nat} (hp : p.In text)
    (hn : p.ahead .forward = n) (hpasses : text.PassesTo .forward Unquoted p q?) :
    (stops .forward (· != '"') n p).reverse.findSome? f = q?.bind f := by
  induction n generalizing p with
  | zero =>
    have hread := Place.read_eq_none.2 hn
    have hunquoted : Unquoted p := by
      rw [Unquoted, List.length_eq_zero_iff.1 hn]
      rfl
    obtain rfl := hpasses.eq_none hp hunquoted hread hq
    rw [stops]
    exact List.findSome?_singleton.trans (hf p hunquoted)
  | succ n ih =>
    obtain ⟨before, after⟩ := p
    cases after with
    | nil => cases hn
    | cons c rest =>
      by_cases hc : c = '"'
      · subst hc
        have hquoted : ¬ Unquoted ⟨before, '"' :: rest⟩ := fun h => by cases h
        obtain rfl := hpasses.eq_some hp hquoted
        simp [stops, Place.read]
      · have hunquoted : Unquoted ⟨before, c :: rest⟩ := by simpa [Unquoted] using hc
        have hread : Place.read .forward ⟨before, c :: rest⟩ = some (c, ⟨c :: before, rest⟩) := rfl
        have hne : q? ≠ some ⟨before, c :: rest⟩ := fun heq => hq _ heq hunquoted
        have hrest := ih (hp.of_read hread) (Nat.succ.inj hn) (hpasses.of_read hp hread hne)
        have htest : (c != '"') = true := bne_iff_ne.2 hc
        simp only [stops, hread, htest, if_true, List.reverse_cons, List.findSome?_append, hrest,
          List.findSome?_singleton, hf _ hunquoted, Option.or_none]

theorem exists_stop {q : Place} (h : ¬ Unquoted q) :
    ∃ stop, exactly .forward (· == '"') 1 q = some stop ∧ stop.offset = q.offset + 1 := by
  obtain ⟨before, after⟩ := q
  cases after with
  | nil => exact absurd rfl h
  | cons c rest =>
    obtain rfl : c = '"' := by simpa [Unquoted] using h
    exact ⟨⟨'"' :: before, rest⟩, rfl, Nat.add_comm ..⟩

/-- The next quote is the next byte of a quote. -/
theorem nextQuote_eq_firstAt (text : Text) (pos : Nat) : nextQuote text pos = do
    text.checkOffset pos
    return firstAt [34] text.utf8 pos := by
  have hbyte : String.utf8EncodeChar '"' = [34] := by decide
  rw [nextQuote, Text.seekForward_after, hbyte]

theorem exists_nextQuote (hp : p.In text) : ∃ q? : Option Place,
    nextQuote text p.offset = .ok (q?.map Place.offset) ∧
      text.PassesTo .forward Unquoted p q? ∧ ∀ q ∈ q?, ¬ Unquoted q := by
  obtain ⟨q?, hseek, hpasses, hstop⟩ := Direct.exists_seek (· == '"') hp
  refine ⟨q?, ?_, hpasses, fun q hq hunquoted => ?_⟩
  · have htest : (fun (_ : Nat) (cell : Cell) => cell.after? == some '"') =
        fun _ cell => cell.after?.any (· == '"') := by
      funext _ cell
      cases cell.after? <;> rfl
    have hcheck : text.checkOffset p.offset = .ok () := if_pos (Text.offset_le_size hp)
    rw [nextQuote, hcheck, htest, hseek]
    rfl
  · exact absurd (hunquoted.symm.trans (hstop q hq)) Bool.false_ne_true

/-- An attempt captures the text up to the next quote. -/
theorem attempt_reaches (hp : p.In text) {s : ScanState} (hpos : s.textPos = p.offset)
    (hgroups : s.captures.groups.size = tree.groupCount) (σ : Setting) :
    ReachesFirst (tree.root.matcher Reading.plain σ p.start) s (attempt text s.resetAttempt) := by
  have hreset : s.resetAttempt.textPos = p.offset := hpos
  rw [outcomes_tree]
  cases hopening : exactly .forward (· == '"') 1 p with
  | none =>
    refine .of_missed rfl ?_
    simp only [attempt, bind, EStateM.bind, run_get, hreset, Direct.charAt_eq_none hp hopening]
    rfl
  | some body =>
    have hbody : body.In text := in_of_exactly hp hopening
    obtain ⟨c, hchar⟩ := Direct.charAt_eq_some hp hopening
    obtain ⟨q?, hnext, hpasses, hstop⟩ := exists_nextQuote hbody
    have hfirst : ((stops .forward (· != '"') (body.ahead .forward) body).reverse.filterMap
        (outcome p body)).head? = q?.bind (outcome p body) := by
      rw [List.head?_filterMap]
      refine findSome?_stops (fun e he => ?_) hstop hbody rfl hpasses
      rw [outcome, exactly_eq_none (Place.eq_false_of_read he) (by decide)]
      rfl
    cases q? with
    | none =>
      refine .of_missed hfirst ?_
      simp only [attempt, bind, EStateM.bind, run_get, hreset, hchar, Scan.lift, hnext]
      rfl
    | some q =>
      have hcount : s.captures.groups.size = 2 := hgroups
      have hnone := s.holds_resetAttempt
      rw [hcount] at hnone
      have hone : 1 < 2 := by decide
      have hzero : 0 < 2 := by decide
      obtain ⟨stop, hclosing, hoffset⟩ := exists_stop (hstop q rfl)
      obtain ⟨s₁, hinner, hbeside₁, hholds₁⟩ := hnone.capture hone body.offset q.offset
      obtain ⟨s₂, hwhole, hbeside₂, hholds₂⟩ := hholds₁.capture hzero p.offset stop.offset
      have hbeside := hbeside₁.trans hbeside₂
      rw [Option.bind_some, outcome, hclosing] at hfirst
      rw [← hcount] at hholds₂
      refine .of_holds hfirst (hholds₂.moved stop.offset) rfl hbeside.textStart hbeside.watch ?_
      rw [hoffset] at hwhole
      simp only [attempt, bind, EStateM.bind, run_get, hreset, hchar, Scan.lift, hnext,
        Option.map_some, hinner, hwhole, hoffset]
      rfl

/-- The matcher does what the pattern says. -/
theorem imitates_tree (culture : Culture) : phases.Imitates tree culture where
  direction := rfl
  attempts _ _ hp _ hpos hgroups _ := attempt_reaches hp hpos hgroups _
  finds text p hp := by
    obtain ⟨q?, hnext, hpasses, -⟩ := exists_nextQuote hp
    refine ⟨q?, hpasses.imp fun r _ _ hr textStart => ?_, fun s hpos => ?_⟩
    · rw [outcomes_tree, exactly_eq_none (Place.eq_false_of_read hr) (by decide)]
    · have hfound : nextQuote text s.textPos = _ := hpos ▸ hnext
      simp only [phases, findNext, bind, EStateM.bind, run_get, Scan.lift, hfound]
      cases q? <;> rfl

end QuotedMatcher

end RegexMachine
