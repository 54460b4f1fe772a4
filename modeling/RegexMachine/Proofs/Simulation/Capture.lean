import Mathlib.Data.List.Basic
import RegexMachine.Proofs.Simulation.Compose

/-!
# Groups

A group pushes a mark, runs its body and makes its captures from the mark to where the body arrived.
Sent back, it takes the captures back and puts the mark back for the body to be sent back in turn.
-/

namespace RegexMachine

open Status Machine Matcher

/-- The stacks after an opener at an address has left its choice point and these values. -/
def Frame.opened (f : Frame) (address : Nat) (values : Stack Int) : Frame :=
  { f with values, choices := f.choices.push ⟨address, .backtracking {}⟩ }

theorem Frame.opened_above (f : Frame) (address : Nat) (values : Stack Int) :
    (f.opened address values).Above f := ⟨List.suffix_cons _ _, .refl _⟩

variable {env : Surroundings} {A : Status → Prop}

theorem Machine.popValue_of_push {m : Machine} {values : Stack Int} {v : Int}
    (h : m.values = values.push v) : m.popValue = .ok (v, { m with values }) := by
  rw [popValue, h, Stack.pop?_push]

theorem Machine.popPair_of_push {m : Machine} {values : Stack Int} {v w : Int}
    (h : m.values = (values.push v).push w) : m.popPair = .ok ((v, w), { m with values }) := by
  simp only [popPair, popValue_of_push h, bind, Except.bind]
  rw [popValue_of_push rfl]
  rfl

/-- Opening a group or a loop leaves a mark and a choice point. -/
theorem next_mark {m : Machine} {opcode : Opcode} (v : Int) (hentry : m.entry = .forward)
    (hop : opcode = .setmark ∧ v = m.cursor ∨ opcode = .nullmark ∧ v = -1)
    (hi : env.program.instructions[m.address]? = some { opcode }) :
    (Status.running m).next env =
      .running ((m.pushValue v).leave.continueAt (m.address + 1)) := by
  rcases hop with ⟨rfl, rfl⟩ | ⟨rfl, rfl⟩
  · have hexecute : m.execute env { opcode := .setmark } = .ok (.next (m.pushValue m.cursor).leave) := by
      change openMark _ _ m = _
      rw [openMark, hentry]
    exact next_running hi hexecute
  · have hexecute : m.execute env { opcode := .nullmark } = .ok (.next (m.pushValue (-1)).leave) := by
      change openMark _ _ m = _
      rw [openMark, hentry]
    exact next_running hi hexecute

theorem reaches_mark {m : Machine} {opcode : Opcode} (v : Int) (hentry : m.entry = .forward)
    (hop : opcode = .setmark ∧ v = m.cursor ∨ opcode = .nullmark ∧ v = -1)
    (hi : env.program.instructions[m.address]? = some { opcode }) :
    Reaches env (.running m) (.running ((m.pushValue v).leave.continueAt (m.address + 1))) :=
  .single (next_mark v hentry hop hi)

/-- Sent back, an opener takes its mark back. -/
theorem unwind_mark {f : Frame} {address : Nat} {opcode : Opcode} {v : Int} {m : Machine}
    (hop : opcode = .setmark ∨ opcode = .nullmark)
    (hi : env.program.instructions[address]? = some { opcode })
    (hm : m.Stands (f.opened address (f.values.push v))) :
    ∃ m' : Machine, Reaches env (.failing m) (.failing m') ∧ m'.Stands f := by
  let resumed := m.resume ⟨address, .backtracking {}⟩ f.choices
  have hpop : resumed.popValue = .ok (v, { resumed with values := f.values }) :=
    popValue_of_push (m := resumed) hm.values
  have hexecute : resumed.execute env { opcode } =
      .ok (.backtrack { resumed with values := f.values }) := by
    rcases hop with rfl | rfl
    · change openMark { opcode := .setmark } resumed.cursor resumed = _
      simp only [openMark, hpop, bind, Except.bind]
      rfl
    · change openMark { opcode := .nullmark } (-1) resumed = _
      simp only [openMark, hpop, bind, Except.bind]
      rfl
  exact ⟨_, .backtrack hm.choices hi hexecute, rfl, rfl, hm.captures⟩

/-- Making captures is closing the group, unless the span would end before it starts. -/
theorem makeCaptures_eq {c : Captures} (hc : c.Proper) {group uncapture : Option Nat}
    (hgroup : ∀ g, group = some g → g < c.groups.size)
    (huncapture : ∀ u, uncapture = some u → u < c.groups.size)
    (hleft : ∀ u, uncapture = some u → c.left u ≠ []) (start stop : Nat) :
    (∃ d, makeCaptures group uncapture start stop c = .ok d ∧ d.Proper ∧ d.Extends c ∧
      close group uncapture start stop c.left = some d.left) ∨
    (makeCaptures group uncapture start stop c = .error .invertedSpan ∧ group.isSome = true ∧
      uncapture.isSome = true) := by
  cases uncapture with
  | none =>
    left
    cases group with
    | none => exact ⟨c, rfl, hc, .refl c, rfl⟩
    | some g =>
      obtain ⟨d, hd⟩ := Captures.exists_record c
        (.captured ⟨min start stop, max start stop - min start stop⟩) (hgroup g rfl)
      refine ⟨d, hd, Captures.proper_of_capture hc hd, .of_record hd, ?_⟩
      rw [Captures.left_of_capture hd]
      rfl
  | some u =>
    obtain ⟨d, hd, hproper, hdleft⟩ := Captures.exists_cancel hc (huncapture u rfl)
    have hextends := Captures.Extends.of_cancel hd
    cases hold : c.left u with
    | nil => exact absurd hold (hleft u rfl)
    | cons old rest =>
      have hspan : (c.span? u).getD ⟨0, 0⟩ = old := by
        rw [Captures.span?_eq hc, hold]
        rfl
      rw [hold, List.tail_cons] at hdleft
      cases group with
      | none =>
        left
        refine ⟨d, ?_, hproper, hextends, ?_⟩
        · simp only [makeCaptures, Captures.transfer, hd, bind, Except.bind]
          rfl
        · simp only [close, hold, hdleft]
      | some g =>
        cases hbetween : Captures.between old (min start stop) (max start stop) with
        | error f =>
          right
          have hf : f = .invertedSpan := by
            rw [Captures.between] at hbetween
            split at hbetween
            · cases hbetween
            · split at hbetween
              · cases hbetween
                rfl
              · cases hbetween
          refine ⟨?_, rfl, rfl⟩
          simp only [makeCaptures, Captures.transfer, hd, hspan, hbetween, hf, bind, Except.bind]
        | ok span =>
          left
          obtain ⟨e, he⟩ := Captures.exists_record d (.captured span)
            (by rw [hextends.size]; exact hgroup g rfl)
          refine ⟨e, ?_, Captures.proper_of_capture hproper he,
            (Captures.Extends.of_record he).trans hextends, ?_⟩
          · simp only [makeCaptures, Captures.transfer, hd, hspan, hbetween, bind, Except.bind]
            exact he
          · simp only [close, hold, hbetween, Captures.left_of_capture he, hdleft]

/-- The choice point of a `Capturemark` that has made its captures. -/
def capturePoint (address : Nat) (mark : Int) (depth : Nat) : ChoicePoint :=
  ⟨address, .backtracking ⟨mark, depth, 0⟩⟩

/-- Sent back, a group takes its captures back and puts its mark back. -/
theorem unwind_capture {f : Frame} {address : Nat} {group uncapture : Option Nat} {mark : Int}
    {d : Captures} {values : Stack Int} {m : Machine}
    (hi : env.program.instructions[address]? =
      some { opcode := .capturemark, payload := .capture group uncapture })
    (hf : f.values = values.push mark) (hd : d.Extends f.captures)
    (hm : m.Stands ⟨values, f.choices.push (capturePoint address mark f.captures.trail.depth), d⟩) :
    ∃ m' : Machine, Reaches env (.failing m) (.failing m') ∧ m'.Stands f := by
  let resumed := m.resume (capturePoint address mark f.captures.trail.depth) f.choices
  obtain ⟨e, he, hback⟩ := ((Captures.Extends.of_back hm.captures).trans hd).undo
  have hexecute : resumed.execute env
      { opcode := .capturemark, payload := .capture group uncapture } =
        .ok (.backtrack { resumed.pushValue mark with captures := e }) := by
    change capturemark { opcode := .capturemark, payload := .capture group uncapture } resumed = _
    have hundo : (resumed.pushValue mark).captures.undoUntil
        (positionOf (f.captures.trail.depth : Int)) = .ok e := by
      rw [positionOf_natCast]
      exact he
    simp only [capturemark]
    exact congrArg (fun r : Except Fault Captures => r >>= fun captures =>
      pure (Move.backtrack { resumed.pushValue mark with captures })) hundo
  refine ⟨_, .backtrack hm.choices hi hexecute, ?_, rfl, hback⟩
  rw [hf]
  exact congrArg (·.push mark) hm.values

section

variable {group uncapture : Option Nat}

variable (env group) in
/-- A group whose captures can be made takes its mark and makes them. -/
theorem execute_capturemark {m : Machine} {values : Stack Int} {mark : Int}
    (hentry : m.entry = .forward)
    (hmatched : (uncapture.any fun u => !m.captures.isMatched u) = false)
    (hvalues : m.values = values.push mark) :
    m.execute env { opcode := .capturemark, payload := .capture group uncapture } =
      (makeCaptures group uncapture (positionOf mark) m.position m.captures).map fun captures =>
        .next ({ m with values, captures }.leave mark m.captures.trail.depth) := by
  obtain ⟨address, entry, cursor, vs, choices, captures⟩ := m
  simp only at hentry hvalues hmatched
  subst hentry hvalues
  have hexecute : ∀ m : Machine, m.execute env
      { opcode := .capturemark, payload := .capture group uncapture } =
        capturemark { opcode := .capturemark, payload := .capture group uncapture } m :=
    fun _ => rfl
  rw [hexecute]
  simp only [capturemark, Instruction.capture, bind, Except.bind, hmatched, Bool.false_eq_true,
    if_false, popValue, Stack.pop?_push, position]
  cases makeCaptures group uncapture (positionOf mark) (positionOf cursor) captures <;> rfl

variable (hgroup : ∀ g, group = some g → g < env.program.groupCount)
  (huncapture : ∀ u, uncapture = some u → u < env.program.groupCount)
  (hinvert : (group = none ∨ uncapture = none) ∨ ∀ m, A (.faulted .invertedSpan m))

include hgroup huncapture hinvert

/-- Where the body of a group has arrived, the group is closed or fails. -/
theorem delivers_close {m : Machine} {t : MatchState} {p : Place} {closer : Nat}
    {values : Stack Int}
    (hi : env.program.instructions[closer]? =
      some { opcode := .capturemark, payload := .capture group uncapture })
    (hm : m.Enters env closer t) (hp : p.In env.text)
    (hvalues : m.values = values.push (markOf p.offset)) :
    Delivers env A (closer + 1) values m.frame (.running m)
      ((close group uncapture p.offset t.place.offset t.captured).map
        fun captured => { t with captured }).toList := by
  have hi' := hi
  rw [← hm.address_eq] at hi'
  by_cases hunmatched : ∃ u, uncapture = some u ∧ t.captured u = []
  · obtain ⟨u, rfl, hu⟩ := hunmatched
    have hexecute : m.execute env
        { opcode := .capturemark, payload := .capture group (some u) } = .ok (.backtrack m) := by
      change capturemark { opcode := .capturemark, payload := .capture group (some u) } m = _
      rw [capturemark, hm.entry_eq]
      simp [Instruction.capture, Captures.isMatched_eq hm.proper, hm.left_eq, hu, bind,
        Except.bind, pure, Except.pure]
    have hclose : close group (some u) p.offset t.place.offset t.captured = none := by
      cases group <;> simp only [close, hu]
    rw [hclose]
    exact .failed (.execute hi' hexecute) (.refl m)
  · have hleft : ∀ u, uncapture = some u → m.captures.left u ≠ [] := by
      intro u hu hnil
      exact hunmatched ⟨u, hu, by rw [← hm.left_eq, hnil]⟩
    have hmatched : (uncapture.any fun u => !m.captures.isMatched u) = false := by
      cases uncapture with
      | none => rfl
      | some u =>
        have hu := hleft u rfl
        simp [Captures.isMatched_eq hm.proper, hu]
    have hexecute := execute_capturemark env group hm.entry_eq hmatched hvalues
    rw [positionOf_markOf, hm.position_eq] at hexecute
    rcases makeCaptures_eq hm.proper (fun g hg => by rw [hm.size_eq]; exact hgroup g hg)
      (fun u hu => by rw [hm.size_eq]; exact huncapture u hu) hleft p.offset t.place.offset with
      ⟨d, hd, hproper, hextends, hclose⟩ | ⟨hd, hsome, hsome'⟩
    · rw [hd] at hexecute
      rw [hm.left_eq] at hclose
      rw [hclose]
      refine .single (.execute hi' hexecute) ⟨⟨⟨congrArg (· + 1) hm.address_eq, rfl, hm.cursor_eq,
        rfl, hproper, ?_, ?_⟩, rfl, ⟨List.suffix_cons _ _, hextends⟩⟩, fun m' hm' => ?_⟩
      · exact hextends.size.trans hm.size_eq
      · exact ⟨hm.sound.place_in, hm.sound.spans.close hp hm.sound.place_in hclose⟩
      · refine unwind_capture (f := m.frame) hi hvalues hextends ?_
        rw [← hm.address_eq]
        exact hm'
    · rw [hd] at hexecute
      rcases hinvert with (rfl | rfl) | hA
      · cases hsome
      · cases hsome'
      · exact .aborted (.fault hi' hexecute) (hA m)

theorem realizes_capture {B : Block} {M : Matcher} (h : Realizes env A B M) :
    Realizes env A (Block.capture env.program.instructions group uncapture B)
      (Matcher.capture group uncapture M) := by
  rintro first last ⟨closer, hopen, hB, hclose, rfl⟩ m s hm
  have hi := hopen
  rw [← hm.address_eq] at hi
  have hbody : ((m.pushValue m.cursor).leave.continueAt (m.address + 1)).Enters env (first + 1) s :=
    hm.stay (congrArg (· + 1) hm.address_eq) rfl rfl (.refl _)
  have hd := h (first + 1) closer hB _ s hbody
  rw [Matcher.capture, List.filterMap_eq_flatMap_toList]
  refine .prepend (reaches_mark m.cursor hm.entry_eq (.inl ⟨rfl, rfl⟩) hi)
    ((hd.flatMap fun t _ m' hm' => ?_).unwind
      (m.frame.opened_above m.address (m.values.push m.cursor)) fun m' hm' => ?_)
  · refine delivers_close hgroup huncapture hinvert hclose hm'.toEnters hm.sound.place_in ?_
    rw [hm'.values_eq, ← hm.cursor_eq]
    rfl
  · exact unwind_mark (f := m.frame) (.inl rfl) hi hm'

end

end RegexMachine
