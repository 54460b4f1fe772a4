import RegexMachine.Proofs.Program.Compile
import RegexMachine.Proofs.Program.Enclosure
import RegexMachine.Proofs.Tree.Shared

/-!
# Well-formed programs

In the program of a tree every occurrence of a node has a stretch of its own, laid out around those
of its children, and nothing in it jumps out of it. An occurrence is named by the way down to it,
because one node may occur in several places.
-/

namespace RegexMachine

/-- The occurrence that is reached by going down to these children, one after the other. -/
def Node.occurrence? : Node → List Nat → Option Node
  | n, [] => some n
  | n, i :: path => (n.children[i]?).bind (occurrence? · path)

/-- The stretch with these ends. -/
def Block.between (ends : Nat × Nat) : Block := fun first last => (first, last) = ends

namespace LayoutContext

/-- Every occurrence stands where `ends` says: around its children, which stand where `ends` says,
and closed in itself. -/
structure Places (ctx : LayoutContext) (program : Program) (root : Node)
    (ends : List Nat → Nat × Nat) : Prop where
  around : ∀ path x, root.occurrence? path = some x →
    ctx.blockOf program x.id x.options x.kind x.children
      ((List.range x.children.length).map fun i => Block.between (ends (path ++ [i])))
      (ends path).1 (ends path).2
  closed : ∀ path x, root.occurrence? path = some x →
    program.Closed (ends path).1 (ends path).2 (ends path).1 (ends path).2

end LayoutContext

/-- A program as the machine needs it. -/
structure Program.WellFormed (program : Program) (ctx : LayoutContext) (root : Node) : Prop where
  /-- The first instruction leads to the last. -/
  opening : program.instructions[0]? =
    some (Block.jumping .lazybranch (program.instructions.size - 1))
  /-- The last instruction stops, and no other. -/
  stops : ∀ (address : Nat) (i : Instruction), program.instructions[address]? = some i →
    (i.opcode = .stop ↔ address + 1 = program.instructions.size)
  /-- Every jump was landed: none is left with the address that it was written with. -/
  landed : ∀ (address : Nat) (i : Instruction) (target : Nat), program.instructions[address]? = some i →
    i.payload.target? = some target → 0 < target ∧ target < program.instructions.size
  fits : ∀ (address : Nat) (i : Instruction), program.instructions[address]? = some i → program.Fits i
  /-- No instruction lacks an operand, whatever machine executes it. -/
  supplied : ∀ (address : Nat) (i : Instruction), program.instructions[address]? = some i →
    ∀ env m, Supplied (Machine.execute env i m)
  /-- Between the first and the last stand the occurrences of the tree. -/
  placed : ∃ ends, ends [] = (1, program.instructions.size - 1) ∧ ctx.Places program root ends

namespace Block

variable {code : Array Instruction} {first last : Nat}

/-- Stretches between the ends satisfy the blocks. -/
abbrev Fit (Bs : List Block) (ends : List (Nat × Nat)) : Prop :=
  List.Forall₂ (fun B e => B e.1 e.2) Bs ends

theorem exists_ends_sequence {Bs : List Block} (h : sequence Bs first last) :
    ∃ ends, Fit Bs ends ∧ sequence (ends.map between) first last := by
  induction Bs generalizing first with
  | nil => exact ⟨[], .nil, h⟩
  | cons B Bs ih =>
    obtain ⟨middle, hB, hBs⟩ := h
    obtain ⟨ends, hfit, hsequence⟩ := ih hBs
    exact ⟨(first, middle) :: ends, .cons hB hfit, middle, rfl, hsequence⟩

theorem exists_ends_choice {Bs : List Block} (h : choice code Bs first last) :
    ∃ ends, Fit Bs ends ∧ choice code (ends.map between) first last := by
  induction Bs generalizing first with
  | nil => exact ⟨[], .nil, h⟩
  | cons B Bs ih =>
    cases Bs with
    | nil => exact ⟨[(first, last)], .cons h .nil, rfl⟩
    | cons B' Bs =>
      obtain ⟨exit, hbranch, hB, hexit, hBs⟩ := h
      obtain ⟨ends, hfit, hchoice⟩ := ih hBs
      cases hfit with
      | @cons _ e _ ends hB' hfit =>
        exact ⟨(first + 1, exit) :: e :: ends, .cons hB (.cons hB' hfit), exit, hbranch, rfl,
          hexit, hchoice⟩

theorem exists_ends_atomic {needsFrame : Bool} {B : Block}
    (h : atomic code needsFrame B first last) :
    ∃ e : Nat × Nat, B e.1 e.2 ∧ atomic code needsFrame (between e) first last := by
  cases needsFrame with
  | false => exact ⟨(first, last), h, rfl⟩
  | true =>
    obtain ⟨closer, hopener, hbody, hcloser⟩ := h
    exact ⟨(first + 1, closer), hbody, closer, hopener, rfl, hcloser⟩

end Block

namespace LayoutContext

open Block

variable (ctx : LayoutContext) {program : Program}

/-- A node that is laid out somewhere is laid out around definite stretches of its children. -/
theorem exists_ends {id : Nat} {options : Options} {kind : Kind} {children : List Node}
    {parts : List Block} {first last : Nat} (hlen : parts.length = children.length)
    (h : ctx.blockOf program id options kind children parts first last) :
    ∃ ends, Fit parts ends ∧
      ctx.blockOf program id options kind children (ends.map between) first last := by
  cases kind with
  | empty | nothing | char _ | multi _ | charLoop _ _ _ _ | backreference _ | anchor _ =>
    rcases children with _ | _
    · obtain rfl := List.eq_nil_of_length_eq_zero hlen
      exact ⟨[], .nil, h⟩
    · exact h.elim
  | concat =>
    rcases children with _ | _
    · exact h.elim
    · simp only [blockOf] at h ⊢
      cases hd : options.direction with
      | forward =>
        rw [hd] at h
        exact exists_ends_sequence h
      | backward =>
        rw [hd] at h
        obtain ⟨ends, hfit, hsequence⟩ := exists_ends_sequence h
        refine ⟨ends.reverse, ?_, ?_⟩
        · rw [← List.reverse_reverse parts]
          exact List.rel_reverse hfit
        · show sequence (List.map between ends.reverse).reverse first last
          rw [← List.map_reverse, List.reverse_reverse]
          exact hsequence
  | alternate =>
    rcases children with _ | _
    · exact h.elim
    · exact exists_ends_choice h
  | loop min max isLazy =>
    rcases parts with _ | ⟨body, _ | _⟩
    · exact h.elim
    · obtain ⟨closer, hopener, hskip, hbody, hcloser⟩ := h
      exact ⟨[(loopStart min first, closer)], .cons hbody .nil, closer, hopener, hskip, rfl, hcloser⟩
    · exact h.elim
  | capture group uncapture =>
    rcases parts with _ | ⟨body, _ | _⟩
    · exact h.elim
    · obtain ⟨closer, hopener, hbody, hcloser⟩ := h
      exact ⟨[(first + 1, closer)], .cons hbody .nil, closer, hopener, rfl, hcloser⟩
    · exact h.elim
  | atomic =>
    rcases children with _ | ⟨child, _ | _⟩
    · exact h.elim
    · rcases parts with _ | ⟨body, _ | _⟩
      · exact h.elim
      · obtain ⟨e, hbody, hatomic⟩ := exists_ends_atomic h
        exact ⟨[e], .cons hbody .nil, hatomic⟩
      · exact h.elim
    · exact h.elim
  | positiveLook =>
    rcases parts with _ | ⟨body, _ | _⟩
    · exact h.elim
    · obtain ⟨closer, hjump, hmark, hbody, hcloser⟩ := h
      exact ⟨[(first + 2, closer)], .cons hbody .nil, closer, hjump, hmark, rfl, hcloser⟩
    · exact h.elim
  | negativeLook =>
    rcases parts with _ | ⟨body, _ | _⟩
    · exact h.elim
    · obtain ⟨closer, hjump, hbranch, hbody, hcloser⟩ := h
      exact ⟨[(first + 2, closer)], .cons hbody .nil, closer, hjump, hbranch, rfl, hcloser⟩
    · exact h.elim
  | backreferenceConditional group =>
    rcases parts with _ | ⟨yes, _ | ⟨no, _ | _⟩⟩
    · exact h.elim
    · obtain ⟨exit, hjump, hbranch, htest, hforejump, hyes, hrest⟩ := h
      exact ⟨[(first + 4, exit)], .cons hyes .nil, exit, hjump, hbranch, htest, hforejump, rfl,
        hrest⟩
    · obtain ⟨exit, hjump, hbranch, htest, hforejump, hyes, hgoto, hforejump', hno⟩ := h
      exact ⟨[(first + 4, exit), (exit + 2, last)], .cons hyes (.cons hno .nil), exit, hjump,
        hbranch, htest, hforejump, rfl, hgoto, hforejump', rfl⟩
    · exact h.elim
  | expressionConditional =>
    rcases parts with _ | ⟨condition, _ | ⟨yes, _ | ⟨no, _ | _⟩⟩⟩
    · exact h.elim
    · exact h.elim
    · obtain ⟨closer, exit, hjump, hmark, hbranch, hcondition, hgetmark, hforejump, hyes, hrest⟩ := h
      exact ⟨[(first + 3, closer), (closer + 2, exit)], .cons hcondition (.cons hyes .nil), closer,
        exit, hjump, hmark, hbranch, rfl, hgetmark, hforejump, rfl, hrest⟩
    · obtain ⟨closer, exit, hjump, hmark, hbranch, hcondition, hgetmark, hforejump, hyes, hgoto,
        hgetmark', hforejump', hno⟩ := h
      exact ⟨[(first + 3, closer), (closer + 2, exit), (exit + 3, last)],
        .cons hcondition (.cons hyes (.cons hno .nil)), closer, exit, hjump, hmark, hbranch, rfl,
        hgetmark, hforejump, rfl, hgoto, hgetmark', hforejump', rfl⟩
    · exact h.elim

/-- What is told at a node, and at what lies under each of its children. -/
def underneath (here : Nat × Nat) (under : Nat → List Nat → Nat × Nat) : List Nat → Nat × Nat
  | [] => here
  | i :: path => under i path

/-- Where a node is laid out, every occurrence under it has its place. -/
theorem exists_places {n : Node}
    (hgroups : ∀ x ∈ n.preorder, ∀ g ∈ x.kind.groups, g < program.groupCount) {first last : Nat}
    (h : ctx.block program n first last) :
    ∃ ends, ends [] = (first, last) ∧ ctx.Places program n ends := by
  induction n using Node.induction generalizing first last with
  | step id options kind children ih =>
    have hclosed := ctx.encloses_block hgroups first last h
    obtain ⟨-, hchildren⟩ := Node.forall_preorder_node.1 hgroups
    rw [block_node] at h
    obtain ⟨stretches, hfit, haround⟩ := ctx.exists_ends (List.length_map _) h
    have hfit := List.forall₂_map_left_iff.1 hfit
    have hlen : children.length = stretches.length := hfit.length_eq
    -- The places under each child, joined by the first step down.
    have hunder : ∀ i : Nat, ∃ ends : List Nat → Nat × Nat, ∀ (c : Node) (stretch : Nat × Nat), children[i]? = some c →
        stretches[i]? = some stretch → ends [] = stretch ∧ ctx.Places program c ends := by
      intro i
      by_cases hi : i < children.length
      · obtain ⟨ends, hends, hplaces⟩ := ih children[i] (List.getElem_mem hi)
          (hchildren _ (List.getElem_mem hi)) (hfit.get hi (hlen ▸ hi))
        refine ⟨ends, fun c stretch hc hstretch => ?_⟩
        rw [List.getElem?_eq_getElem hi] at hc
        rw [List.getElem?_eq_getElem (hlen ▸ hi)] at hstretch
        cases hc
        cases hstretch
        exact ⟨hends, hplaces⟩
      · refine ⟨fun _ => (0, 0), fun c stretch hc => ?_⟩
        rw [List.getElem?_eq_none (Nat.le_of_not_lt hi)] at hc
        cases hc
    choose under hunder using hunder
    let ends := underneath (first, last) under
    have hstep : ∀ i path x, (Node.node id options kind children).occurrence? (i :: path) = some x →
        ∃ c, ctx.Places program c (under i) ∧ c.occurrence? path = some x := by
      intro i path x hx
      obtain ⟨c, hc, hx⟩ := Option.bind_eq_some_iff.1 hx
      have hi : i < children.length := (List.getElem?_eq_some_iff.1 hc).1
      exact ⟨c, (hunder i c _ hc (List.getElem?_eq_getElem (hlen ▸ hi))).2, hx⟩
    refine ⟨ends, rfl, ?_, ?_⟩
    · intro path x hx
      cases path with
      | nil =>
        cases hx
        have hparts : (List.range children.length).map (fun i => between (ends [i])) =
            stretches.map between := by
          apply List.ext_getElem
          · rw [List.length_map, List.length_map, List.length_range, hlen]
          · intro i hi hi'
            rw [List.length_map] at hi'
            have hi := hlen.symm ▸ hi'
            simp only [List.getElem_map, List.getElem_range]
            exact congrArg between (hunder i _ _ (List.getElem?_eq_getElem hi)
              (List.getElem?_eq_getElem hi')).1
        show ctx.blockOf program id options kind children
          ((List.range children.length).map fun i => between (ends [i])) first last
        rw [hparts]
        exact haround
      | cons i path =>
        obtain ⟨c, hplaces, hx⟩ := hstep i path x hx
        exact hplaces.around path x hx
    · intro path x hx
      cases path with
      | nil => exact hclosed
      | cons i path =>
        obtain ⟨c, hplaces, hx⟩ := hstep i path x hx
        exact hplaces.closed path x hx

end LayoutContext

namespace Tree

variable {t : Tree}

/-- The program of a tree is well formed. -/
theorem Compilable.wellFormed_of_compile (h : t.Compilable) {culture : Culture} {config : CompileConfig}
    {program : Program} (hcompile : Program.compile t culture config = .ok program) :
    program.WellFormed
      { analysis := Analysis.ofTree t config.analysisDepthLimit, culture } t.root := by
  obtain ⟨last, hcompiled⟩ := Program.compiled_of_compile hcompile
  have hlast : program.instructions.size - 1 = last := by
    rw [hcompiled.size_eq, Nat.add_sub_cancel]
  have hgroups : ∀ x ∈ t.root.preorder, ∀ g ∈ x.kind.groups, g < program.groupCount := by
    rw [hcompiled.groupCount]
    exact h.groups
  obtain ⟨ends, hends, hplaces⟩ := LayoutContext.exists_places _ hgroups hcompiled.root
  have hroot := hplaces.closed [] t.root rfl
  rw [hends] at hroot
  have hle : 1 ≤ last := hroot.le
  -- An instruction is the opening one, the last one, or stands in the stretch of the root.
  have hcases : ∀ {P : Nat → Instruction → Prop}, P 0 (Block.jumping .lazybranch last) →
      P last { opcode := .stop } →
      (∀ (address : Nat) (i : Instruction), 1 ≤ address → address < last → program.Fits i → i.opcode ≠ .stop →
        (∀ target, i.payload.target? = some target → 1 ≤ target ∧ target ≤ last) → P address i) →
      ∀ (address : Nat) (i : Instruction), program.instructions[address]? = some i →
        P address i := by
    intro P hopening hstop hinside address i hi
    have hlt := (Array.getElem?_eq_some_iff.1 hi).1
    rw [hcompiled.size_eq] at hlt
    by_cases hzero : address = 0
    · rw [hzero, hcompiled.opening] at hi
      cases hi
      rw [hzero]
      exact hopening
    · by_cases heq : address = last
      · rw [heq, hcompiled.stop] at hi
        cases hi
        rw [heq]
        exact hstop
      · obtain ⟨i', hi', hfits, hnostop, htarget⟩ := hroot.holds address (by omega) (by omega)
        rw [hi] at hi'
        cases hi'
        exact hinside address i (by omega) (by omega) hfits hnostop htarget
  have hfits : ∀ (address : Nat) (i : Instruction), program.instructions[address]? = some i →
      program.Fits i :=
    hcases ⟨rfl, nofun, nofun⟩ ⟨rfl, nofun, nofun⟩ fun _ _ _ _ hfits _ _ => hfits
  refine ⟨?_, ?_, ?_, hfits, ?_, ?_⟩
  · rw [hlast]
    exact hcompiled.opening
  · rw [hcompiled.size_eq]
    apply hcases
    · exact ⟨nofun, fun heq => by omega⟩
    · exact ⟨fun _ => rfl, fun _ => rfl⟩
    · intro address i _ hlt _ hnostop _
      exact ⟨fun hstop => absurd hstop hnostop, fun heq => by omega⟩
  · intro address i target hi
    rw [hcompiled.size_eq]
    revert target
    apply hcases _ _ _ address i hi
    · rintro _ ⟨⟩
      omega
    · exact nofun
    · intro _ _ _ _ _ _ htarget target ht
      have h := htarget target ht
      omega
  · intro address i hi env m
    exact m.supplied_execute env i (hfits address i hi).equipped
  · exact ⟨ends, by rw [hends, hlast], hplaces⟩

/-- Every tree that a builder makes, nodes shared or not, compiles to a well-formed program. The writer
that writes it leaves no address behind. -/
theorem Built.compiles_wellFormed (h : t.Built) (culture : Culture) (config : CompileConfig)
    (hstrict : config.strictAnalysis = false) :
    ∃ program, Program.compile t culture config = .ok program ∧
      (∃ w, LayoutContext.write { analysis := Analysis.ofTree t config.analysisDepthLimit, culture }
          t.root = .ok w ∧ w.patches = [] ∧ program.instructions = w.assembly.instructions ∧
        program.classes = w.assembly.classes) ∧
      program.groupCount = t.groupCount ∧ program.WellFormed
        { analysis := Analysis.ofTree t config.analysisDepthLimit, culture } t.root := by
  have hcompilable := h.compilable
  obtain ⟨program, hcompile⟩ := Program.compile_total hcompilable.arity culture config hstrict
  obtain ⟨last, hcompiled⟩ := Program.compiled_of_compile hcompile
  exact ⟨program, hcompile, Program.exists_write_of_compile hcompile, hcompiled.groupCount,
    hcompilable.wellFormed_of_compile hcompile⟩

end Tree

/-- The pattern `(a)(a)` with both groups one node. -/
def sharedPair : Tree :=
  Tree.build {} do
    let a ← Builder.one 'a'
    let group ← Builder.capture 1 a
    Builder.concat [group, group]

theorem built_sharedPair : sharedPair.Built := by
  have hstart : Builder.Built {} { options := {} } := .start
  have hone := hstart.call (.atom (.one 'a')) nofun
  have hgroup := hone.call (.capture 1 0) (by decide)
  exact ⟨{}, _, 2, hgroup.call (.concat [1, 1]) (by decide), by decide, rfl⟩

/-- The shared group has two stretches, each between its own marks. -/
theorem wellFormed_sharedPair : ∃ program,
    Program.compile sharedPair .invariant {} = .ok program ∧
      (∃ w, LayoutContext.write
          { analysis := Analysis.ofTree sharedPair Analysis.defaultDepthLimit, culture := .invariant }
          sharedPair.root = .ok w ∧ w.patches = [] ∧
        program.instructions = w.assembly.instructions ∧ program.classes = w.assembly.classes) ∧
      program.groupCount = sharedPair.groupCount ∧ program.WellFormed
        { analysis := Analysis.ofTree sharedPair Analysis.defaultDepthLimit, culture := .invariant }
        sharedPair.root ∧
      program.instructions.toList = [Block.jumping .lazybranch 9, { opcode := .setmark },
        { opcode := .setmark }, { opcode := .char, payload := .atom (.one 'a') },
        { opcode := .capturemark, payload := .capture (some 1) none },
        { opcode := .setmark }, { opcode := .char, payload := .atom (.one 'a') },
        { opcode := .capturemark, payload := .capture (some 1) none },
        { opcode := .capturemark, payload := .capture (some 0) none }, { opcode := .stop }] := by
  obtain ⟨program, hcompile, hwrite, hgroups, hcompilable⟩ :=
    built_sharedPair.compiles_wellFormed .invariant {} rfl
  refine ⟨program, hcompile, hwrite, hgroups, hcompilable, ?_⟩
  have hcode : (Program.compile sharedPair .invariant {}).toOption.map (·.instructions.toList) = some
      [Block.jumping .lazybranch 9, { opcode := .setmark },
        { opcode := .setmark }, { opcode := .char, payload := .atom (.one 'a') },
        { opcode := .capturemark, payload := .capture (some 1) none },
        { opcode := .setmark }, { opcode := .char, payload := .atom (.one 'a') },
        { opcode := .capturemark, payload := .capture (some 1) none },
        { opcode := .capturemark, payload := .capture (some 0) none }, { opcode := .stop }] := by
    decide +kernel
  rw [hcompile] at hcode
  exact Option.some.inj hcode

end RegexMachine
