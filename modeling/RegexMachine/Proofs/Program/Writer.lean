import RegexMachine.Proofs.Program.Emission

/-!
# What the writer writes

The writer keeps the addresses that its open constructs still need in one list. A walk around a node
finds the list as it left it: it writes the composed layout of the node and takes out again what it put
in. So the walk over a whole tree writes the composed layout of the tree, and leaves the list empty.
-/

namespace RegexMachine

theorem Instruction.jumps_withTarget (i : Instruction) (target : Nat) :
    (i.withTarget target).jumps = i.jumps := by
  obtain ⟨opcode, payload, direction, ignoreCase⟩ := i
  cases payload <;> rfl

namespace Node

theorem turnsAmong_append (ns ms : List Node) :
    turnsAmong (ns ++ ms) = turnsAmong ns + turnsAmong ms := by
  induction ns with
  | nil => rw [List.nil_append, turnsAmong, Nat.zero_add]
  | cons n ns ih =>
    rw [List.cons_append, turnsAmong, turnsAmong, ih]
    omega

theorem turns_eq (n : Node) : n.turns = turnsAmong n.parts + 1 := by
  obtain ⟨id, options, kind, children⟩ := n
  have hreverse : ∀ ns : List Node, turnsAmong ns.reverse = turnsAmong ns := by
    intro ns
    induction ns with
    | nil => rfl
    | cons n ns ih =>
      rw [List.reverse_cons, turnsAmong_append, ih]
      simp only [turnsAmong]
      omega
  unfold parts
  split
  · rw [hreverse]
    rfl
  · rfl

theorem mem_parts {n c : Node} : c ∈ n.parts ↔ c ∈ n.children := by
  unfold parts
  split
  · exact List.mem_reverse
  · rfl

end Node

namespace Assembly

/-- At the address stands a jump. -/
def JumpsAt (a : Assembly) (address : Nat) : Prop :=
  ∃ i, a.instructions[address]? = some i ∧ i.jumps = true

variable {a b : Assembly} {address : Nat}

theorem JumpsAt.lt (h : a.JumpsAt address) : address < a.here := by
  obtain ⟨i, hi, -⟩ := h
  exact (Array.getElem?_eq_some_iff.1 hi).1

theorem JumpsAt.of_extends (h : a.JumpsAt address) (hab : a.Extends b) : b.JumpsAt address := by
  obtain ⟨i, hi, hjumps⟩ := h
  refine ⟨i, ?_, hjumps⟩
  rw [hab.code address (Array.getElem?_eq_some_iff.1 hi).1, hi]

theorem JumpsAt.emit (h : a.JumpsAt address) (i : Instruction) : (a.emit i).JumpsAt address :=
  h.of_extends ((Extends.refl a).emit i)

theorem JumpsAt.op (h : a.JumpsAt address) (opcode : Opcode) : (a.op opcode).JumpsAt address :=
  h.emit _

theorem jumpsAt_jumpAhead (a : Assembly) (opcode : Opcode) :
    (a.jumpAhead opcode).JumpsAt a.here :=
  ⟨Block.jumping opcode 0, (Extends.refl _).at_jump, rfl⟩

theorem JumpsAt.patch (h : a.JumpsAt address) (other target : Nat) :
    (a.patch other target).JumpsAt address := by
  obtain ⟨i, hi, hjumps⟩ := h
  rw [JumpsAt, Assembly.patch, Array.getElem?_modify]
  split
  · exact ⟨i.withTarget target, by rw [hi]; rfl, (i.jumps_withTarget target).trans hjumps⟩
  · exact ⟨i, hi, hjumps⟩

theorem emit_patch (h : address < a.here) (i : Instruction) (target : Nat) :
    (a.emit i).patch address target = (a.patch address target).emit i := by
  have hcode : (a.instructions.push i).modify address (·.withTarget target) =
      (a.instructions.modify address (·.withTarget target)).push i := by
    apply Array.ext_getElem?
    intro j
    rw [Array.getElem?_modify, Array.getElem?_push, Array.getElem?_push, Array.size_modify,
      Array.getElem?_modify]
    by_cases hj : j = a.instructions.size
    · have hne : ¬ address = j := fun heq => Nat.ne_of_lt h (heq.trans hj)
      rw [if_neg hne, if_pos hj, if_pos hj]
    · rw [if_neg hj, if_neg hj]
  rw [patch, emit, emit, patch, hcode]

end Assembly

namespace Writer

theorem append_eq (w : Writer) (part : Emitter) :
    w.append part = part w.assembly >>= fun a => .ok { w with assembly := a } := rfl

variable {a : Assembly} {id address : Nat}

theorem patch_of_jumpsAt (h : a.JumpsAt address) (patches : List Nat) (target : Nat) :
    patch ⟨a, patches⟩ address target = .ok ⟨a.patch address target, patches⟩ := by
  obtain ⟨i, hi, hjumps⟩ := h
  rw [patch, hi, if_pos]
  exact hjumps

theorem patchEnd_of_jumpsAt (h : a.JumpsAt address) (patches : List Nat) :
    patchEnd id ⟨a, address :: patches⟩ = .ok ⟨a.land address, patches⟩ :=
  patch_of_jumpsAt h patches _

/-- The jumps that were kept last all lead to the next instruction. -/
theorem patchEnds_of_jumpsAt {exits : List Nat} (h : ∀ x ∈ exits, a.JumpsAt x)
    (patches : List Nat) :
    patchEnds id exits.length ⟨a, exits ++ patches⟩ = .ok ⟨exits.foldl Assembly.land a, patches⟩ := by
  induction exits generalizing a with
  | nil => rfl
  | cons x exits ih =>
    obtain ⟨hx, hexits⟩ := List.forall_mem_cons.1 h
    rw [List.length_cons, patchEnds, List.cons_append, patchEnd_of_jumpsAt hx]
    exact ih fun y hy => (hexits y hy).patch _ _

theorem switch_of_jumpsAt (h : a.JumpsAt address) (patches : List Nat) :
    switch id ⟨a, address :: patches⟩ =
      .ok ⟨(a.jumpAhead .goto).land address, a.here :: patches⟩ :=
  patch_of_jumpsAt (h.emit _) _ _

end Writer

/-- The emitter keeps what was written before it. -/
def Emitter.Keeps (e : Emitter) : Prop := ∀ a b, e a = .ok b → a.Extends b

namespace LayoutContext

variable (ctx : LayoutContext)

theorem keeps_node (n : Node) : (ctx.emitNode n).Keeps :=
  fun a b h => (ctx.writes_node default n a b h).1

/-- One part of a construct, with what stands before and behind it. -/
def writePart (n : Node) (index : Nat) (isLast : Bool) (part : Emitter) (w : Writer) :
    Except Error Writer := do
  let w ← ctx.beforeChild n index isLast w
  let w ← w.append part
  ctx.afterChild n index isLast w

/-- The parts of a construct from number `index` on. -/
def writeParts (n : Node) : (index : Nat) → List Emitter → Writer → Except Error Writer
  | _, [], w => .ok w
  | index, part :: rest, w => do
      writeParts n (index + 1) rest (← ctx.writePart n index rest.isEmpty part w)

theorem writeParts_nil (n : Node) (index : Nat) (w : Writer) :
    ctx.writeParts n index [] w = .ok w := rfl

theorem writeParts_cons (n : Node) (index : Nat) (part : Emitter) (rest : List Emitter) (w : Writer) :
    ctx.writeParts n index (part :: rest) w =
      ctx.writePart n index rest.isEmpty part w >>= ctx.writeParts n (index + 1) rest := rfl

theorem writeParts_concat {n : Node} (hkind : n.kind = .concat) (parts : List Emitter) (index : Nat)
    (w : Writer) : ctx.writeParts n index parts w =
      w.append (Emitter.sequence parts) := by
  induction parts generalizing index w with
  | nil => rfl
  | cons part rest ih =>
    simp only [writeParts_cons, writePart, Writer.append_eq, beforeChild, afterChild, hkind,
      Emitter.sequence, bind, Except.bind]
    cases part w.assembly with
    | error e => rfl
    | ok a => exact ih _ _

/-- The branches of a choice wait at the front of the list: those that are written jump to the end. -/
theorem writeParts_alternate {n : Node} (hkind : n.kind = .alternate) {parts : List Emitter}
    (hkeeps : ∀ part ∈ parts, part.Keeps) (hne : parts ≠ []) {exits : List Nat} (patches : List Nat)
    {a : Assembly} (hexits : ∀ x ∈ exits, a.JumpsAt x) :
    ctx.writeParts n exits.length parts ⟨a, exits ++ patches⟩ =
      Emitter.choice parts a >>= fun b => .ok ⟨exits.foldl Assembly.land b, patches⟩ := by
  induction parts generalizing exits a with
  | nil => exact absurd rfl hne
  | cons part rest ih =>
    obtain ⟨hpart, hrest⟩ := List.forall_mem_cons.1 hkeeps
    cases rest with
    | nil =>
      simp only [writeParts_cons, writeParts_nil, writePart, Writer.append_eq, beforeChild,
        afterChild, hkind, List.isEmpty_nil, if_true, Emitter.choice, bind, Except.bind]
      cases hb : part a with
      | error e => rfl
      | ok b =>
        have hjumps : ∀ x ∈ exits, b.JumpsAt x := fun x hx => (hexits x hx).of_extends (hpart a b hb)
        simp only [Writer.patchEnds_of_jumpsAt hjumps]
    | cons next rest =>
      rw [writeParts_cons]
      simp only [writePart, Writer.append_eq, beforeChild, afterChild, hkind, List.isEmpty_cons,
        Bool.false_eq_true, if_false, Emitter.choice, bind, Except.bind, Writer.jumpAhead,
        Writer.keepHere]
      cases hb : part (a.jumpAhead .lazybranch) with
      | error e => rfl
      | ok b =>
        have hext := hpart _ b hb
        have hbranch : b.JumpsAt a.here := (a.jumpsAt_jumpAhead _).of_extends hext
        simp only [Writer.switch_of_jumpsAt hbranch]
        have hjumps : ∀ x ∈ b.here :: exits, ((b.jumpAhead .goto).land a.here).JumpsAt x := by
          rintro x (_ | ⟨_, hx⟩)
          · exact (b.jumpsAt_jumpAhead _).patch _ _
          · exact ((((hexits x hx).emit _).of_extends hext).emit _).patch _ _
        have hih := ih hrest (List.cons_ne_nil _ _) hjumps
        rw [List.length_cons, List.cons_append] at hih
        rw [hih]
        cases Emitter.choice (next :: rest) ((b.jumpAhead .goto).land a.here) <;> rfl

section

variable (id : Nat) (options : Options)

/-- The body of a loop starts behind the jump that is kept before it, and the loop closes behind it. -/
theorem writeParts_loop (min max : Nat) (isLazy : Bool) (child : Node) {body : Emitter}
    (hbody : body.Keeps) (w : Writer) :
    ctx.writeParts (.node id options (.loop min max isLazy) [child]) 0 [body] w =
      w.append (Emitter.loop min max isLazy body) := by
  by_cases hmin : min = 0
  · subst hmin
    simp only [writeParts_cons, writeParts_nil, writePart, Writer.append_eq, beforeChild, afterChild,
      Node.kind, Emitter.loop, if_true, bind, Except.bind, Writer.emit, Writer.jumpAhead,
      Writer.keepHere, Writer.popPatch]
    cases hb : body ((w.assembly.emit (Emitter.loopOpener 0 max)).jumpAhead .goto) with
    | error e => rfl
    | ok b =>
      have hskip := (Assembly.jumpsAt_jumpAhead _ _).of_extends (hbody _ b hb)
      simp only [Writer.patch_of_jumpsAt (hskip.emit _) _, Assembly.emit_patch hskip.lt]
      rw [Assembly.here_emit b, Nat.add_sub_cancel]
      rfl
  · simp only [writeParts_cons, writeParts_nil, writePart, Writer.append_eq, beforeChild, afterChild,
      Node.kind, Emitter.loop, if_neg hmin, bind, Except.bind, Writer.emit, Writer.keepHere,
      Writer.popPatch]
    cases body (w.assembly.emit (Emitter.loopOpener min max)) <;> rfl

theorem writeParts_capture (group uncapture : Option Nat) (child : Node) (body : Emitter)
    (w : Writer) : ctx.writeParts (.node id options (.capture group uncapture) [child]) 0 [body] w =
      w.append (Emitter.capture group uncapture body) := by
  simp only [writeParts_cons, writeParts_nil, writePart, Writer.append_eq, beforeChild, afterChild,
    Node.kind, Emitter.capture, bind, Except.bind, Writer.op, Writer.emit, Assembly.op]
  cases body (w.assembly.emit { opcode := .setmark }) <;> rfl

theorem writeParts_atomic (child : Node) (body : Emitter) (w : Writer) :
    ctx.writeParts (.node id options .atomic [child]) 0 [body] w =
      w.append (Emitter.atomic (ctx.needsFrame child) body) := by
  have hframed : ctx.isFramed (.node id options .atomic [child]) = ctx.needsFrame child := rfl
  simp only [writeParts_cons, writeParts_nil, writePart, Writer.append_eq, beforeChild, afterChild,
    Node.kind, hframed, Emitter.atomic, bind, Except.bind]
  cases ctx.needsFrame child with
  | true =>
    simp only [if_true, Writer.op, Writer.emit, Assembly.op]
    cases body (w.assembly.emit { opcode := .setjump }) <;> rfl
  | false =>
    simp only [if_neg Bool.false_ne_true]
    cases body w.assembly <;> rfl

theorem writeParts_positiveLook (child : Node) (body : Emitter) (w : Writer) :
    ctx.writeParts (.node id options .positiveLook [child]) 0 [body] w =
      w.append (Emitter.positiveLook body) := by
  simp only [writeParts_cons, writeParts_nil, writePart, Writer.append_eq, beforeChild, afterChild,
    Node.kind, Emitter.positiveLook, bind, Except.bind, Writer.op, Writer.emit, Assembly.op]
  cases body ((w.assembly.emit { opcode := .setjump }).emit { opcode := .setmark }) <;> rfl

theorem writeParts_negativeLook (child : Node) {body : Emitter} (hbody : body.Keeps) (w : Writer) :
    ctx.writeParts (.node id options .negativeLook [child]) 0 [body] w =
      w.append (Emitter.negativeLook body) := by
  simp only [writeParts_cons, writeParts_nil, writePart, Writer.append_eq, beforeChild, afterChild,
    Node.kind, Emitter.negativeLook, bind, Except.bind, Writer.op, Writer.emit, Writer.jumpAhead,
    Writer.keepHere, Assembly.op]
  cases hb : body ((w.assembly.emit { opcode := .setjump }).jumpAhead .lazybranch) with
  | error e => rfl
  | ok b =>
    have hbranch := (Assembly.jumpsAt_jumpAhead _ _).of_extends (hbody _ b hb)
    simp only [Writer.patchEnd_of_jumpsAt (hbranch.emit _)]
    rfl

theorem writeParts_backreferenceConditional (group : Nat) {yes : Emitter} (hyes : yes.Keeps)
    (child : Node) (w : Writer) :
    ctx.writeParts (.node id options (.backreferenceConditional group) [child]) 0 [yes] w =
      w.append (Emitter.backreferenceConditional group yes .ok) := by
  simp only [writeParts_cons, writeParts_nil, writePart, Writer.append_eq, beforeChild, afterChild,
    Node.kind, List.isEmpty_nil, Emitter.backreferenceConditional, bind, Except.bind, if_true,
    Writer.op, Writer.emit, Writer.jumpAhead, Writer.keepHere, Assembly.op]
  cases hb : yes _ with
  | error e => rfl
  | ok b =>
    have hbranch := (((Assembly.jumpsAt_jumpAhead _ _).emit _).emit _).of_extends (hyes _ b hb)
    have hexit (x : Nat) : ((b.jumpAhead .goto).land x).JumpsAt b.here :=
      (b.jumpsAt_jumpAhead _).patch _ _
    simp only [Writer.switch_of_jumpsAt hbranch, Writer.patchEnd_of_jumpsAt ((hexit _).emit _)]
    rfl

theorem writeParts_backreferenceConditional_otherwise (group : Nat) {yes no : Emitter}
    (hyes : yes.Keeps) (hno : no.Keeps) (child child' : Node) (w : Writer) :
    ctx.writeParts (.node id options (.backreferenceConditional group) [child, child']) 0 [yes, no] w =
      w.append (Emitter.backreferenceConditional group yes no) := by
  simp only [writeParts_cons, writeParts_nil, writePart, Writer.append_eq, beforeChild, afterChild,
    Node.kind, List.isEmpty_nil, List.isEmpty_cons, Bool.false_eq_true,
    Emitter.backreferenceConditional, bind, Except.bind, if_true, Nat.zero_add, Nat.one_ne_zero,
    if_false, Writer.op, Writer.emit, Writer.jumpAhead, Writer.keepHere, Assembly.op]
  cases hb : yes _ with
  | error e => rfl
  | ok b =>
    have hbranch := (((Assembly.jumpsAt_jumpAhead _ _).emit _).emit _).of_extends (hyes _ b hb)
    have hexit (x : Nat) : ((b.jumpAhead .goto).land x).JumpsAt b.here :=
      (b.jumpsAt_jumpAhead _).patch _ _
    simp only [Writer.switch_of_jumpsAt hbranch, pure, Except.pure]
    cases hc : no _ with
    | error e => rfl
    | ok c =>
      have hexit' := ((hexit _).emit _).of_extends (hno _ c hc)
      simp only [Writer.patchEnd_of_jumpsAt hexit']

theorem writeParts_expressionConditional {condition yes : Emitter} (hcondition : condition.Keeps)
    (hyes : yes.Keeps) (child child' : Node) (w : Writer) :
    ctx.writeParts (.node id options .expressionConditional [child, child']) 0 [condition, yes] w =
      w.append (Emitter.expressionConditional condition yes .ok) := by
  simp only [writeParts_cons, writeParts_nil, writePart, Writer.append_eq, beforeChild, afterChild,
    Node.kind, List.isEmpty_nil, Emitter.expressionConditional, bind, Except.bind, if_true,
    Nat.zero_add, Nat.one_ne_zero, if_false, Writer.op, Writer.emit, Writer.jumpAhead,
    Writer.keepHere, Assembly.op]
  cases hb : condition _ with
  | error e => rfl
  | ok b =>
    dsimp only
    cases hc : yes _ with
    | error e => rfl
    | ok c =>
      have hbranch := (((((Assembly.jumpsAt_jumpAhead _ _).of_extends (hcondition _ b hb)).emit _).emit
        _).of_extends (hyes _ c hc))
      have hexit (x : Nat) : ((c.jumpAhead .goto).land x).JumpsAt c.here :=
        (c.jumpsAt_jumpAhead _).patch _ _
      simp only [Writer.switch_of_jumpsAt hbranch,
        Writer.patchEnd_of_jumpsAt (((hexit _).emit _).emit _)]
      rfl

theorem writeParts_expressionConditional_otherwise {condition yes no : Emitter}
    (hcondition : condition.Keeps) (hyes : yes.Keeps) (hno : no.Keeps) (child child' child'' : Node)
    (w : Writer) :
    ctx.writeParts (.node id options .expressionConditional [child, child', child'']) 0
        [condition, yes, no] w =
      w.append (Emitter.expressionConditional condition yes no) := by
  simp only [writeParts_cons, writeParts_nil, writePart, Writer.append_eq, beforeChild, afterChild,
    Node.kind, List.isEmpty_nil, List.isEmpty_cons, Bool.false_eq_true, Emitter.expressionConditional,
    bind, Except.bind, if_true, Nat.zero_add, Nat.one_ne_zero, if_false, Nat.reduceAdd,
    Nat.reduceEqDiff, Writer.op, Writer.emit, Writer.jumpAhead, Writer.keepHere, Assembly.op]
  cases hb : condition _ with
  | error e => rfl
  | ok b =>
    dsimp only
    cases hc : yes _ with
    | error e => rfl
    | ok c =>
      have hbranch := (((((Assembly.jumpsAt_jumpAhead _ _).of_extends (hcondition _ b hb)).emit _).emit
        _).of_extends (hyes _ c hc))
      have hexit (x : Nat) : ((c.jumpAhead .goto).land x).JumpsAt c.here :=
        (c.jumpsAt_jumpAhead _).patch _ _
      simp only [Writer.switch_of_jumpsAt hbranch, pure, Except.pure]
      cases hd : no _ with
      | error e => rfl
      | ok d =>
        have hexit' := (((hexit _).emit _).emit _).of_extends (hno _ d hd)
        simp only [Writer.patchEnd_of_jumpsAt hexit']

end

/-- The parts of a construct make its layout, and no address is left behind. -/
theorem writeParts_construct (id : Nat) (options : Options) (kind : Kind) {children : List Node}
    (hne : children ≠ []) (htakes : kind.takes children.length = true) (w : Writer) :
    ctx.writeParts (.node id options kind children) 0
        ((Node.node id options kind children).parts.map ctx.emitNode) w =
      w.append (ctx.construct id options kind children (children.map ctx.emitNode)) := by
  have hkeeps := ctx.keeps_node
  -- Only the parts of a sequence may not be its children in their order.
  cases kind with
  | concat =>
    rw [ctx.writeParts_concat rfl, Writer.append_eq, Writer.append_eq]
    simp only [Node.parts, Node.kind, Node.children, Node.direction, Node.options, construct]
    cases options.direction with
    | forward => rfl
    | backward => simp only [List.map_reverse]
  | alternate =>
    have hparts : ∀ part ∈ children.map ctx.emitNode, part.Keeps := by
      intro part hpart
      obtain ⟨c, -, rfl⟩ := List.mem_map.1 hpart
      exact hkeeps c
    have hexits : ∀ x ∈ ([] : List Nat), w.assembly.JumpsAt x := fun x hx => absurd hx List.not_mem_nil
    have hnil : children.map ctx.emitNode ≠ [] := fun h => hne (List.map_eq_nil_iff.1 h)
    exact ctx.writeParts_alternate rfl hparts hnil w.patches hexits
  | loop min max isLazy =>
    obtain ⟨child, rfl⟩ := List.length_eq_one_iff.1 (beq_iff_eq.1 htakes)
    exact ctx.writeParts_loop id options min max isLazy child (hkeeps child) w
  | capture group uncapture =>
    obtain ⟨child, rfl⟩ := List.length_eq_one_iff.1 (beq_iff_eq.1 htakes)
    exact ctx.writeParts_capture id options group uncapture child (ctx.emitNode child) w
  | atomic =>
    obtain ⟨child, rfl⟩ := List.length_eq_one_iff.1 (beq_iff_eq.1 htakes)
    exact ctx.writeParts_atomic id options child (ctx.emitNode child) w
  | positiveLook =>
    obtain ⟨child, rfl⟩ := List.length_eq_one_iff.1 (beq_iff_eq.1 htakes)
    exact ctx.writeParts_positiveLook id options child (ctx.emitNode child) w
  | negativeLook =>
    obtain ⟨child, rfl⟩ := List.length_eq_one_iff.1 (beq_iff_eq.1 htakes)
    exact ctx.writeParts_negativeLook id options child (hkeeps child) w
  | backreferenceConditional group =>
    rcases Bool.or_eq_true_iff.1 htakes with h | h
    · obtain ⟨child, rfl⟩ := List.length_eq_one_iff.1 (beq_iff_eq.1 h)
      exact ctx.writeParts_backreferenceConditional id options group (hkeeps child) child w
    · obtain ⟨child, child', rfl⟩ := List.length_eq_two.1 (beq_iff_eq.1 h)
      exact ctx.writeParts_backreferenceConditional_otherwise id options group (hkeeps child)
        (hkeeps child') child child' w
  | expressionConditional =>
    rcases Bool.or_eq_true_iff.1 htakes with h | h
    · obtain ⟨child, child', rfl⟩ := List.length_eq_two.1 (beq_iff_eq.1 h)
      exact ctx.writeParts_expressionConditional id options (hkeeps child) (hkeeps child') child
        child' w
    · obtain ⟨child, child', child'', rfl⟩ := List.length_eq_three.1 (beq_iff_eq.1 h)
      exact ctx.writeParts_expressionConditional_otherwise id options (hkeeps child)
        (hkeeps child') (hkeeps child'') child child' child'' w
  | empty | nothing | char _ | multi _ | charLoop _ _ _ _ | backreference _ | anchor _ => cases htakes

/-- A construct with a number of children that it cannot have is not written. -/
theorem construct_of_not_takes (id : Nat) (options : Options) (kind : Kind) (children : List Node)
    (htakes : kind.takes children.length = false) (a : Assembly) :
    ctx.construct id options kind children (children.map ctx.emitNode) a =
      .error (malformed id "unexpected number of children") := by
  unfold construct
  split
  all_goals first
    | rfl
    | cases htakes
    | (rename_i h
       have hlen := congrArg List.length h
       rw [List.length_map] at hlen
       rw [hlen] at htakes
       cases htakes)

/-- What a walk does when it leaves a node. -/
def resume (turns : Nat) (parents : List OpenNode) (w : Writer) : Except Error Writer :=
  match parents with
  | [] => .ok w
  | ⟨parent, index, rest⟩ :: parents => do
      ctx.walk turns parent (index + 1) rest parents
        (← ctx.afterChild parent index rest.isEmpty w)

/-- A walk that comes to the node writes the layout of the node and leaves it. -/
def Walks (n : Node) : Prop := ∀ turns parents w,
  ctx.walk (n.turns + turns) n 0 n.parts parents w =
    w.append (ctx.emitNode n) >>= ctx.resume turns parents

/-- From a part of a construct on, a walk writes the parts that are left, one after the other. -/
theorem walk_parts {n : Node} (htakes : n.kind.takes n.children.length = true)
    (hchildren : n.children.isEmpty = false) {rest : List Node} (hwalks : ∀ c ∈ rest, ctx.Walks c)
    (index turns : Nat) (parents : List OpenNode) (w : Writer) :
    ctx.walk (Node.turnsAmong rest + 1 + turns) n index rest parents w =
      ctx.writeParts n index (rest.map ctx.emitNode) w >>= ctx.resume turns parents := by
  induction rest generalizing index w with
  | nil =>
    rw [Node.turnsAmong, Nat.zero_add, Nat.add_comm, walk]
    simp only [hchildren, Bool.false_eq_true, if_false]
    cases parents <;> rfl
  | cons c rest ih =>
    obtain ⟨hc, hrest⟩ := List.forall_mem_cons.1 hwalks
    have hturns : Node.turnsAmong (c :: rest) + 1 + turns =
        c.turns + (Node.turnsAmong rest + 1 + turns) + 1 := by
      rw [Node.turnsAmong]
      omega
    rw [hturns, walk, List.map_cons, writeParts_cons, List.isEmpty_map]
    simp only [writePart, htakes, Bool.not_true, Bool.and_false, Bool.false_eq_true, if_false, bind,
      Except.bind]
    cases ctx.beforeChild n index rest.isEmpty w with
    | error e => rfl
    | ok w =>
      dsimp only
      rw [hc]
      simp only [bind, Except.bind]
      cases w.append (ctx.emitNode c) with
      | error e => rfl
      | ok w =>
        dsimp only [resume, bind, Except.bind]
        cases ctx.afterChild n index rest.isEmpty w with
        | error e => rfl
        | ok w => exact ih hrest (index + 1) w

theorem walks_node (n : Node) : ctx.Walks n := by
  induction n using Node.induction with
  | step id options kind children ih =>
    intro turns parents w
    cases children with
    | nil =>
      have hnone : (Node.node id options kind []).parts = [] :=
        List.eq_nil_iff_forall_not_mem.2 fun c hc => List.not_mem_nil (Node.mem_parts.1 hc)
      have hturns : (Node.node id options kind []).turns + turns = turns + 1 := Nat.add_comm 1 turns
      have hleaf : ctx.emitNode (.node id options kind []) = ctx.leaf id options kind := rfl
      rw [hturns, hnone, walk, hleaf]
      simp only [Node.children, Node.id, Node.options, Node.kind, List.isEmpty_nil, if_true, bind,
        Except.bind]
      cases w.append (ctx.leaf id options kind) with
      | error e => rfl
      | ok w => cases parents <;> rfl
    | cons child rest =>
      have hconstruct : ctx.emitNode (.node id options kind (child :: rest)) =
          ctx.construct id options kind (child :: rest) ((child :: rest).map ctx.emitNode) := by
        rw [← emitters_eq_map]
        rfl
      rw [hconstruct]
      cases htakes : kind.takes (child :: rest).length with
      | true =>
        have hwalks : ∀ c ∈ (Node.node id options kind (child :: rest)).parts, ctx.Walks c :=
          fun c hc => ih c (Node.mem_parts.1 hc)
        have hwrite := ctx.writeParts_construct id options kind (List.cons_ne_nil child rest) htakes w
        have hwalk := ctx.walk_parts (n := .node id options kind (child :: rest)) htakes rfl hwalks 0
          turns parents w
        rw [Node.turns_eq, hwalk, hwrite]
      | false =>
        have herror := ctx.construct_of_not_takes id options kind (child :: rest) htakes
        rw [Writer.append_eq, herror]
        have hchild : child ∈ (Node.node id options kind (child :: rest)).parts :=
          Node.mem_parts.2 List.mem_cons_self
        obtain ⟨part, parts, hparts⟩ := List.exists_cons_of_ne_nil (List.ne_nil_of_mem hchild)
        rw [Node.turns_eq, Nat.add_right_comm, hparts, walk]
        simp only [Node.kind, Node.children, htakes]
        rfl

/-- The writer writes the composed layout, or fails as it does, and leaves no address behind. -/
theorem write_eq (root : Node) :
    ctx.write root = ctx.emitPattern root {} >>= fun a => .ok { assembly := a } := by
  have hwalk := ctx.walks_node root 0 [] { assembly := Assembly.jumpAhead {} .lazybranch }
  rw [Nat.add_zero] at hwalk
  simp only [write, emitPattern, hwalk, resume, Writer.append_eq, bind, Except.bind]
  cases hb : ctx.emitNode root (Assembly.jumpAhead {} .lazybranch) with
  | error e => rfl
  | ok b =>
    have hopening : b.JumpsAt 0 :=
      (Assembly.jumpsAt_jumpAhead {} .lazybranch).of_extends (ctx.keeps_node root _ b hb)
    dsimp only
    rw [Writer.patch_of_jumpsAt hopening]
    rfl

end LayoutContext

end RegexMachine
