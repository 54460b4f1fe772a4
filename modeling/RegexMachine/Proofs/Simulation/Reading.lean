import RegexMachine.Machine.Step
import RegexMachine.Proofs.Outcomes.Matcher
import RegexMachine.Proofs.Program.Block

/-!
# What instructions read

What the machine finds out about a text at the offset of a place is what a matcher finds out at the
place: which characters pass, how far a run of them goes, and which assertions hold.
-/

namespace RegexMachine

/-- What the surroundings of an attempt leave to a matcher. -/
def Surroundings.setting (env : Surroundings) : Setting where
  culture := env.culture
  text := env.text
  textStart := env.textStart
  ecmaScript := env.program.options.ecmaScript

namespace Surroundings

open Matcher

variable {env : Surroundings} {i : Instruction}

theorem passes_eq {ctx : LayoutContext} (hculture : ctx.culture = env.culture) {ignoreCase : Bool}
    {atom : Atom} {test : CharTest} (h : ctx.Tests env.program ignoreCase atom test) (c : Char) :
    env.passes test ignoreCase c = .ok (Matcher.passes env.culture ignoreCase atom c) := by
  cases atom with
  | one x =>
    simp only [LayoutContext.Tests, hculture] at h
    rw [h]
    rfl
  | notOne x =>
    simp only [LayoutContext.Tests, hculture] at h
    rw [h]
    rfl
  | set k =>
    obtain ⟨index, rfl, hk⟩ := h
    rw [hculture] at hk
    simp only [passes, Matcher.passes, hk]

theorem readChars_eq (d : Direction) (ignoreCase : Bool) (chars : List Char) {p : Place}
    (hp : p.In env.text) :
    env.readChars d ignoreCase chars p.offset =
      .ok ((literal d (fun c => if ignoreCase then env.culture.fold c else c) chars p).map
        Place.offset) := by
  induction chars generalizing p with
  | nil => rfl
  | cons x rest ih =>
    rw [readChars, Text.read_offset hp, literal]
    cases hr : p.read d with
    | none => rfl
    | some r =>
      obtain ⟨c, q⟩ := r
      simp only [Option.map_some, bind, Except.bind]
      by_cases hx : ((if ignoreCase = true then env.culture.fold c else c) == x) = true
      · rw [if_pos hx, if_pos hx, ih (hp.of_read hr)]
      · rw [if_neg hx, if_neg hx]
        rfl

theorem readString_eq (chars : List Char) {p : Place} (hp : p.In env.text) :
    env.readString i chars p.offset =
      .ok ((Matcher.string i.direction
        (fun c => if i.ignoreCase then env.culture.fold c else c) chars p).map Place.offset) := by
  rw [readString, Matcher.string.eq_def]
  cases i.direction with
  | forward => exact readChars_eq _ _ chars hp
  | backward => exact readChars_eq _ _ chars.reverse hp

theorem stops_ne_nil (d : Direction) (pass : Char → Bool) (n : Nat) (p : Place) :
    stops d pass n p ≠ [] := by
  cases n with
  | zero => exact List.cons_ne_nil _ _
  | succ n =>
    rw [stops]
    split
    · split <;> exact List.cons_ne_nil _ _
    · exact List.cons_ne_nil _ _

section

variable {test : CharTest} {pass : Char → Bool}
  (hpass : ∀ c, env.passes test i.ignoreCase c = .ok (pass c))

include hpass

theorem takeExactly_eq (n : Nat) {p : Place} (hp : p.In env.text) :
    env.takeExactly i test n p.offset =
      .ok ((exactly i.direction pass n p).map Place.offset) := by
  induction n generalizing p with
  | zero => rfl
  | succ n ih =>
    rw [takeExactly, Text.read_offset hp, exactly]
    cases hr : p.read i.direction with
    | none => rfl
    | some r =>
      obtain ⟨c, q⟩ := r
      simp only [Option.map_some, bind, Except.bind, hpass]
      by_cases hc : pass c = true
      · rw [if_pos hc, if_pos hc, ih (hp.of_read hr)]
      · rw [if_neg hc, if_neg hc]
        rfl

/-- Taking characters ends at the last place where the run may end. -/
theorem takeUpTo_eq (n taken : Nat) {p : Place} (hp : p.In env.text) :
    ∃ q, (stops i.direction pass n p).getLast? = some q ∧
      env.takeUpTo i test n taken p.offset =
        .ok (taken + ((stops i.direction pass n p).length - 1), q.offset) := by
  induction n generalizing taken p with
  | zero => exact ⟨p, rfl, rfl⟩
  | succ n ih =>
    rw [takeUpTo, Text.read_offset hp, stops]
    cases hr : p.read i.direction with
    | none => exact ⟨p, rfl, rfl⟩
    | some r =>
      obtain ⟨c, p'⟩ := r
      simp only [Option.map_some, bind, Except.bind, hpass]
      by_cases hc : pass c = true
      · rw [if_pos hc, if_pos hc]
        obtain ⟨q, hq, htake⟩ := ih (taken + 1) (hp.of_read hr)
        have hne := stops_ne_nil i.direction pass n p'
        have hlen := List.length_pos_of_ne_nil hne
        refine ⟨q, ?_, ?_⟩
        · rw [← hq]
          cases hs : stops i.direction pass n p' with
          | nil => exact absurd hs hne
          | cons x xs => rw [List.getLast?_cons_cons]
        · rw [htake, List.length_cons]
          congr 2
          omega
      · rw [if_neg hc, if_neg hc]
        exact ⟨p, rfl, rfl⟩

end

theorem isWordBoundary_eq (isWord : Char → Bool) {p : Place} (hp : p.In env.text) :
    env.isWordBoundary isWord p.offset = .ok (atBoundary isWord p) := by
  rw [isWordBoundary, Text.cell?_offset hp]
  rfl

end Surroundings

namespace Machine

open Matcher

/-- What an anchor asserts at the offset of a place. -/
theorem assertion?_eq {env : Surroundings} {p : Place} (hp : p.In env.text) (anchor : Anchor)
    (hsize : anchor = .endZ → env.text.size < lastPosition) :
    assertion? env p.offset (LayoutContext.anchorOpcode anchor) =
      some (.ok (holdsAt env.textStart p anchor)) := by
  have hcell := Text.cell?_offset hp
  have hle := Text.offset_le_size hp
  have hend := Text.offset_eq_size hp
  have hbefore : env.text.charBefore? p.offset = p.before.head? := by
    rw [Text.charBefore?, hcell]
    rfl
  have hafter : env.text.charAt? p.offset = p.after.head? := by
    rw [Text.charAt?, hcell]
    rfl
  have hsize_le : (decide (env.text.size ≤ p.offset)) = p.after.isEmpty := by
    rw [Bool.eq_iff_iff, decide_eq_true_iff, List.isEmpty_iff, ← hend]
    omega
  cases anchor with
  | bol =>
    simp only [LayoutContext.anchorOpcode, assertion?, holdsAt, Text.checkOffset, hle, if_true,
      hbefore, bind, Except.bind]
    by_cases hz : p.offset = 0
    · rw [if_pos hz, Place.offset_eq_zero.1 hz]
      rfl
    · rw [if_neg hz]
      cases hb : p.before with
      | nil => exact absurd (Place.offset_eq_zero.2 hb) hz
      | cons c rest => rfl
  | eol =>
    simp only [LayoutContext.anchorOpcode, assertion?, holdsAt, hafter, hsize_le]
  | beginning =>
    have hz : (p.offset == 0) = p.before.isEmpty := by
      rw [Bool.eq_iff_iff, beq_iff_eq, List.isEmpty_iff, Place.offset_eq_zero]
    simp only [LayoutContext.anchorOpcode, assertion?, holdsAt, hz]
  | start => rfl
  | endZ =>
    have hsize := hsize rfl
    simp only [LayoutContext.anchorOpcode, assertion?, holdsAt, hafter, bind, Except.bind]
    by_cases he : p.offset = env.text.size
    · rw [if_pos he, hend.1 he]
      rfl
    · have hlast : ¬ lastPosition ≤ p.offset := by omega
      rw [if_neg he, if_neg hlast]
      have hbytes : env.text.size = p.offset + bytes p.after := by
        rw [Text.size_eq_bytes, ← hp, Place.chars, bytes_append, bytes_reverse, Place.offset]
      cases ha : p.after with
      | nil => exact absurd (hend.2 ha) he
      | cons c rest =>
        have hone : (p.offset + 1 == env.text.size && some c == some '\n') =
            (c :: rest == ['\n']) := by
          rw [Bool.eq_iff_iff, Bool.and_eq_true, beq_iff_eq, beq_iff_eq, beq_iff_eq, hbytes, ha,
            bytes_cons]
          constructor
          · rintro ⟨hlen, hc⟩
            cases hc
            have hrest : bytes rest = 0 := by
              have hn : ('\n' : Char).utf8Size = 1 := rfl
              omega
            rw [bytes_eq_zero.1 hrest]
          · intro hc
            cases hc
            exact ⟨rfl, rfl⟩
        simp only [List.head?_cons, List.isEmpty_cons, Bool.false_or, pure, Except.pure]
        rw [hone]
  | «end» => simp only [LayoutContext.anchorOpcode, assertion?, holdsAt, hsize_le]
  | boundary =>
    simp only [LayoutContext.anchorOpcode, assertion?, holdsAt, Surroundings.isWordBoundary_eq _ hp]
  | nonBoundary =>
    simp only [LayoutContext.anchorOpcode, assertion?, holdsAt,
      Surroundings.isWordBoundary_eq _ hp]
    rfl
  | ecmaBoundary =>
    simp only [LayoutContext.anchorOpcode, assertion?, holdsAt, Surroundings.isWordBoundary_eq _ hp]
  | nonEcmaBoundary =>
    simp only [LayoutContext.anchorOpcode, assertion?, holdsAt,
      Surroundings.isWordBoundary_eq _ hp]
    rfl

end Machine

end RegexMachine
