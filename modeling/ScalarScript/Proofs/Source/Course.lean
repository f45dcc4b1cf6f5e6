import ScalarScript.Proofs.Source.Moves
/-!
What the compiler keeps through statements. A function comes back to the place around it with the
labels that were known there, and a `for` goes back to its step clause and then on to where its body
ended.
-/
namespace ScalarScript

open Stateful Compile

namespace Compile

-- The part of a `for` in front of its second semicolon, the semicolon included. Yields where the
-- loop starts over and where it ends.
def forHead (statement : Compile Unit) (expr : Compile Ty) (steps : Nat) : Compile (Int × Int) := do
  forInit statement expr steps
  expect .semicolon
  let top ← freshLabel
  let done ← freshLabel
  emitLabel top
  forCondition expr done
  expect .semicolon
  return (top, done)

-- How a `for` is compiled. The step clause is passed over; once the body is compiled, the clause is
-- compiled from the token where it starts; and then the compiler goes to where the body ended.
structure ForRun (statement : Compile Unit) (expr : Compile Ty) (steps : Nat) (c : Compiler)
    (top done : Int) (m n p q d : Compiler) : Prop where
  opened : c.advanced.current.kind = .leftParen
  head : forHead statement expr steps (c.advanced.advanced.inside c.scope.top.block) =
    .ok (top, done) m
  skipped : skipStep steps 0 m = .ok () n
  body : loopBody statement done n.advanced = .ok () p
  step : forStep expr (p.settle m.ahead) = .ok () q
  ends : d = (((q.settle p.ahead).push (.branch .jump top)).push (.label done)).outside

theorem forLoop_run {statement : Compile Unit} {expr : Compile Ty} {steps : Nat} {c d : Compiler}
    {u : Unit} (ran : forLoop statement expr steps c = .ok u d) :
    ∃ top done m n p q, ForRun statement expr steps c top done m n p q d := by
  have phases : forLoop statement expr steps = (do
      advance
      expect .leftParen
      within (← innermost).block do
        let (top, done) ← forHead statement expr steps
        let step := (← get).ahead
        skipStep steps 0
        advance
        loopBody statement done
        let resume := (← get).ahead
        seek step
        forStep expr
        seek resume
        emitJump .jump top
        emitLabel done) := by
    simp only [forLoop, forHead, bind_assoc, pure_bind]
  rw [phases] at ran
  simp only [bind_eq_ok_iff, advance_apply, expect_eq_ok_iff, innermost_apply, within_eq_ok_iff,
    get_apply, seek_apply, emitJump_apply, emitLabel_apply, EStateM.Result.ok.injEq, ↓existsAndEq,
    true_and, and_true, exists_const, Compiler.advanced_scope] at ran
  obtain ⟨opened, ⟨top, done⟩, m, _, n, _, p, _, q, ⟨head, skipped, body, step⟩, rfl⟩ := ran
  exact ⟨top, done, m, n, p, q, opened, head, skipped, body, step, rfl⟩

-- The code of a function behind its frame.
def functionInside (statement : Compile Unit) (steps : Nat) (params : List Param) (f : Enclosing)
    (skip : Int) (depth : Nat) : Compile Unit := do
  let slots ← bindParams params
  slots.reverse.forM fun slot => emit (.pop slot)
  inFunction f do
    expect .leftBrace
    statements statement (.missingFunctionBrace f.name) steps
  emit (.move eax .null)
  emitLabel f.returnLabel
  emit (.popScope depth)
  emit (.plain .ret)
  emitLabel skip

-- The size of the frame is put in at the end.
theorem functionBody_run {statement : Compile Unit} {steps : Nat} {params : List Param}
    {f : Enclosing} {skip : Int} {c d : Compiler} {size : Nat}
    (ran : functionBody statement steps params f skip c = .ok size d) :
    ∃ e, functionInside statement steps params f skip c.scope.top.depth
        (c.emitted (.pushScope c.scope.top.depth 0)) = .ok () e ∧
      d = e.amended ((c.emitted (.pushScope c.scope.top.depth 0)).program.size - 1)
        (.pushScope c.scope.top.depth e.scope.count) := by
  have phases : functionBody statement steps params f skip = (do
      let depth := (← innermost).depth
      emit (.pushScope depth 0)
      let frame ← lastIndex
      functionInside statement steps params f skip depth
      let size := (← get).scope.count
      amend frame (.pushScope depth size)
      return size) := by
    simp only [functionBody, functionInside, bind_assoc]
  rw [phases] at ran
  simp only [bind_eq_ok_iff, innermost_apply, emit_apply, lastIndex_apply, get_apply, amend_apply,
    pure_apply, EStateM.Result.ok.injEq, ↓existsAndEq, true_and] at ran
  obtain ⟨_, _, e, inside, _, _, rfl⟩ := ran
  exact ⟨e, inside, rfl⟩

section

variable {P : List Int → Compiler → Prop} (up : Lasting P) {expr : Compile Ty}
  {statement : Compile Unit}

include up

omit up in
theorem statements_upholds (inner : Upholds P [] statement) (missing : CompileFault) (steps : Nat) :
    Upholds P [] (statements statement missing steps) := by
  induction steps with
  | zero => exact .fail _
  | succ steps ih =>
    refine .bind .token fun t => ?_
    cases t.kind
    case rightBrace => exact .pure _
    case finish => exact .fail _
    all_goals exact .bind inner fun _ => ih

-- A body may return to the label of its function.
theorem inFunction_upholds {f : Enclosing} {act : Compile Unit} {L : List Int}
    (result : f.returnLabel ∈ L) (keeps : Upholds P L act) : Upholds P L (inFunction f act) := by
  intro G c d a known holds ran
  obtain ⟨m, inner, rfl⟩ := inFunction_eq_ok_iff.mp ran
  have entered : P (c.known ++ G) (c.entering f) := by
    refine up.lend (c := c) c.scope [] (some f) ?_ (up.gather holds)
    intro l member
    rw [Compiler.mem_known] at member
    rcases member with loop | ⟨_, ⟨⟩, rfl⟩ | entry
    · cases loop
    · exact .inr (List.mem_append_right _ (known result))
    · exact .inl (Compiler.mem_known.mpr (.inr (.inr entry)))
  obtain ⟨after, grown⟩ :=
    keeps (List.Subset.trans known (List.subset_append_right _ _)) entered inner
  refine ⟨up.weaken (List.subset_append_right c.known G)
    (up.lend (c := m) m.scope c.loops c.enclosing ?_ after), grown⟩
  intro l member
  rw [Compiler.mem_known] at member
  rcases member with loop | ending | entry
  · exact .inr (List.mem_append_left _ (Compiler.mem_known.mpr (.inl loop)))
  · exact .inr (List.mem_append_left _ (Compiler.mem_known.mpr (.inr (.inl ending))))
  · exact .inl (Compiler.mem_known.mpr (.inr (.inr entry)))

omit up in
-- To put in the size of a frame leaves the outline of the code as it was.
theorem faces_amended {c : Compiler} {index : Nat} {i : Instruction}
    (same : c.faces[index]? = some i.face) : (c.amended index i).faces = c.faces := by
  have kept : c.faces.set index i.face = c.faces := by
    obtain ⟨bound, here⟩ := List.getElem?_eq_some_iff.mp same
    rw [← here, List.set_getElem_self]
  rw [← kept]
  simp [Compiler.faces, Compiler.amended, List.map_set]

theorem functionInside_upholds (inner : Upholds P [] statement) (steps : Nat) (params : List Param)
    (f : Enclosing) (skip : Int) (depth : Nat) :
    Upholds P [f.returnLabel, skip] (functionInside statement steps params f skip depth) :=
  .bind (bindParams_upholds up.toUpheld params).any fun slots =>
    .bind (forM_pop_upholds up.toUpheld _).any fun _ =>
      .bind (inFunction_upholds up (by simp) (.bind (.expect up.toUpheld _) fun _ =>
        (statements_upholds inner _ _).any)) fun _ =>
      .bind (.emit up.toUpheld rfl rfl) fun _ => .bind (.label up.toUpheld (by simp)) fun _ =>
        .bind (.emit up.toUpheld rfl rfl) fun _ => .bind (.emit up.toUpheld rfl rfl) fun _ =>
          .label up.toUpheld (by simp)

theorem functionBody_upholds (inner : Upholds P [] statement) (steps : Nat) (params : List Param)
    (f : Enclosing) (skip : Int) :
    Upholds P [f.returnLabel, skip] (functionBody statement steps params f skip) := by
  intro G c d size known holds ran
  obtain ⟨e, inside, rfl⟩ := functionBody_run ran
  have started : P G (c.emitted (.pushScope c.scope.top.depth 0)) :=
    up.emit rfl (by simp [Instruction.pushScope, Opcode.isBranch]) holds
  obtain ⟨after, grown⟩ := functionInside_upholds up inner steps params f skip _ known started
    inside
  have frame : e.faces[(c.emitted (.pushScope c.scope.top.depth 0)).program.size - 1]? =
      some (Instruction.pushScope c.scope.top.depth e.scope.count).face := by
    obtain ⟨new, same⟩ := grown
    have last := c.faces_emitted_last (.pushScope c.scope.top.depth 0)
    rw [← same, List.getElem?_append_left (List.getElem?_eq_some_iff.mp last).1]
    exact last
  refine ⟨up.amend frame after, ?_⟩
  rw [faces_amended frame]
  exact (c.faces_emitted _).trans grown

-- A function is declared under the label at its entry.
theorem declaresFunction_upholds {name : String} {entry : Int} {params : List Ty} {type : Ty}
    {l : Nat} {L : List Int} (member : entry ∈ L) :
    Upholds P L (discard (onScope l .declaration (·.declareFunction name entry params type))) := by
  intro G c d u known holds ran
  obtain ⟨s, inner⟩ := discard_eq_ok_iff.mp ran
  obtain ⟨scope, declared, rfl⟩ := onScope_eq_ok_iff.mp inner
  obtain ⟨rfl, rfl⟩ := Scope.declareFunction_eq_ok declared
  refine ⟨up.lend (c := c) _ c.loops c.enclosing (fun label leads => ?_) holds, List.prefix_rfl⟩
  rw [Compiler.mem_known] at leads
  rcases leads with loop | ending | inside
  · exact .inl (Compiler.mem_known.mpr (.inl loop))
  · exact .inl (Compiler.mem_known.mpr (.inr (.inl ending)))
  · rcases List.mem_append.mp (c.scope.entries_adding_subset _ inside) with new | old
    · refine .inr (known ?_)
      simp only [List.flatMap_cons, List.flatMap_nil, List.append_nil, Symbol.entries] at new
      split at new
      · rw [List.mem_singleton.mp new]
        exact member
      · cases new
    · exact .inl (Compiler.mem_known.mpr (.inr (.inr old)))

theorem function_upholds (inner : Upholds P [] statement) (steps : Nat) (type : Scalar)
    (name : String) (l : Nat) : Upholds P [] (function statement steps type name l) := by
  refine .bind (.advance up.toUpheld) fun _ => .bind (parameterList_upholds up.toUpheld steps)
    fun params => .bind (.expect up.toUpheld _) fun _ => .fresh up.toUpheld fun skip =>
      .fresh up.toUpheld fun entry => .fresh up.toUpheld fun result => ?_
  refine .bind (declaresFunction_upholds up (by simp)) fun _ =>
    .bind (.jump up.toUpheld (by simp)) fun _ => .bind (.label up.toUpheld (by simp)) fun _ => ?_
  refine fun G c d u known holds ran => ?_
  obtain ⟨_, m, ⟨⟩, ran⟩ := bind_eq_ok_iff.mp ran
  have body : Upholds P [result, skip] (within c.scope.top.child
      (functionBody statement steps params ⟨name, type.ty, result⟩ skip)) :=
    .within up.toUpheld rfl
      (functionBody_upholds up inner steps params ⟨name, type.ty, result⟩ skip)
  refine Upholds.bind (body.mono (by simp)) (fun size => ?_) known holds ran
  exact .bind (.advance up.toUpheld) fun _ => .report up.toUpheld _

theorem conditional_upholds (inner : Upholds P [] statement) (exprs : Upholds P [] expr) :
    Upholds P [] (conditional statement expr) :=
  .bind (.advance up.toUpheld) fun _ => .bind (condition_upholds up.toUpheld exprs) fun _ =>
    .fresh up.toUpheld fun otherwise => .bind (.jumpIf up.toUpheld (by simp)) fun _ =>
      .bind inner.any fun _ => .bind .token fun _ => .ite (.label up.toUpheld (by simp))
        (.bind (.advance up.toUpheld) fun _ => .fresh up.toUpheld fun done =>
          .bind (.jump up.toUpheld (by simp)) fun _ => .bind (.label up.toUpheld (by simp)) fun _ =>
            .bind inner.any fun _ => .label up.toUpheld (by simp))

theorem loopBody_upholds (inner : Upholds P [] statement) (done : Int) :
    Upholds P [done] (loopBody statement done) := by
  intro G c d u known holds ran
  simp only [loopBody, bind_eq_ok_iff, modify_apply, EStateM.Result.ok.injEq, ↓existsAndEq,
    true_and, exists_const] at ran
  obtain ⟨_, m, ran, rfl⟩ := ran
  have entered : P G { c with loops := done :: c.loops } := by
    refine up.lend (c := c) c.scope (done :: c.loops) c.enclosing ?_ holds
    intro l member
    rw [Compiler.mem_known] at member
    rcases member with loop | others
    · rcases List.mem_cons.mp loop with rfl | outer
      · exact .inr (known List.mem_cons_self)
      · exact .inl (Compiler.mem_known.mpr (.inl outer))
    · exact .inl (Compiler.mem_known.mpr (.inr others))
  obtain ⟨after, grown⟩ := inner (List.nil_subset _) entered ran
  refine ⟨up.lend (c := m) m.scope m.loops.tail m.enclosing ?_ after, grown⟩
  intro l member
  rw [Compiler.mem_known] at member
  exact .inl (Compiler.mem_known.mpr (member.imp_left List.mem_of_mem_tail))

theorem whileLoop_upholds (inner : Upholds P [] statement) (exprs : Upholds P [] expr) :
    Upholds P [] (whileLoop statement expr) :=
  .bind (.advance up.toUpheld) fun _ => .fresh up.toUpheld fun top => .fresh up.toUpheld fun done =>
    .bind (.label up.toUpheld (by simp)) fun _ => .bind (condition_upholds up.toUpheld exprs).any
      fun _ => .bind (.jumpIf up.toUpheld (by simp)) fun _ =>
        .bind ((loopBody_upholds up inner done).mono (by simp)) fun _ =>
          .bind (.jump up.toUpheld (by simp)) fun _ => .label up.toUpheld (by simp)

theorem loopWhile_upholds (inner : Upholds P [] statement) (exprs : Upholds P [] expr) :
    Upholds P [] (loopWhile statement expr) :=
  .bind (.advance up.toUpheld) fun _ => .fresh up.toUpheld fun top => .fresh up.toUpheld fun done =>
    .bind (.label up.toUpheld (by simp)) fun _ =>
      .bind ((loopBody_upholds up inner done).mono (by simp)) fun _ =>
        .bind (.expect up.toUpheld _) fun _ => .bind (condition_upholds up.toUpheld exprs).any
          fun _ => .bind (.jumpIf up.toUpheld (by simp)) fun _ =>
            .bind (.expect up.toUpheld _) fun _ => .label up.toUpheld (by simp)

theorem block_upholds (inner : Upholds P [] statement) (steps : Nat) :
    Upholds P [] (block statement steps) := by
  refine .bind (.advance up.toUpheld) fun _ => fun G c d u known holds ran => ?_
  obtain ⟨_, m, ⟨⟩, ran⟩ := bind_eq_ok_iff.mp ran
  refine Upholds.within up.toUpheld rfl ?_ known holds ran
  exact .bind (statements_upholds inner _ _) fun _ => .advance up.toUpheld

omit up in
-- The labels of a loop are at hand behind its head.
theorem forHead_upholds (up : Upheld P) (exprs : Upholds P [] expr) {steps : Nat} {G : List Int}
    {c d : Compiler} {top done : Int} (holds : P G c)
    (ran : forHead statement expr steps c = .ok (top, done) d) :
    P (done :: top :: G) d ∧ c.faces <+: d.faces := by
  obtain ⟨_, m, started, ran⟩ := bind_eq_ok_iff.mp ran
  obtain ⟨_, n, ended, ran⟩ := bind_eq_ok_iff.mp ran
  obtain ⟨first, grown⟩ := forInit_upholds up exprs steps (List.nil_subset _) holds started
  obtain ⟨second, more⟩ := Upholds.expect up _ (List.nil_subset _) first ended
  have rest : Upholds P [done, top] (do
      emitLabel top
      forCondition expr done
      expect .semicolon : Compile Unit) :=
    .bind (.label up (by simp)) fun _ =>
      .bind ((forCondition_upholds up exprs done).mono (by simp)) fun _ => .expect up _
  simp only [bind_eq_ok_iff (x := freshLabel), freshLabel_apply, EStateM.Result.ok.injEq,
    ↓existsAndEq, true_and] at ran
  simp only [← bind_assoc] at ran
  obtain ⟨_, e, inner, ran⟩ := bind_eq_ok_iff.mp ran
  cases ran
  have labelled := up.fresh (up.fresh second)
  obtain ⟨after, last⟩ := rest (by simp) labelled (by simpa only [bind_assoc] using inner)
  exact ⟨after, (grown.trans more).trans last⟩

theorem forLoop_upholds (inner : Upholds P [] statement) (exprs : Upholds P [] expr) (steps : Nat) :
    Upholds P [] (forLoop statement expr steps) := by
  intro G c d u known holds ran
  obtain ⟨top, done, m, n, p, q, run⟩ := forLoop_run ran
  have entered : P G (c.advanced.advanced.inside c.scope.top.block) :=
    up.inside rfl (up.advance (up.advance holds))
  obtain ⟨first, one⟩ := forHead_upholds up.toUpheld exprs entered run.head
  obtain ⟨second, two⟩ := skipStep_upholds up.toUpheld _ _ (List.nil_subset _) first run.skipped
  obtain ⟨third, three⟩ :=
    loopBody_upholds up inner done (by simp) (up.advance second) run.body
  obtain ⟨fourth, four⟩ := forStep_upholds up.toUpheld exprs (List.nil_subset _)
    (up.detour first third) run.step
  have ended := up.label List.mem_cons_self (up.jump (l := top) (.inl rfl) (by simp)
    (up.detour third fourth))
  simp only [Compiler.faces_settle, Compiler.faces_inside, Compiler.faces_advanced] at one three four
  rw [run.ends]
  refine ⟨up.weaken (fun l member => by simp [member]) (up.outside ended), ?_⟩
  rw [Compiler.faces_outside, Compiler.faces_push, Compiler.faces_push, Compiler.faces_settle,
    List.append_assoc]
  exact (((one.trans two).trans three).trans four).trans (List.prefix_append _ _)

theorem statementBy_upholds {self : Compile Unit} (inner : Upholds P [] self)
    (exprs : Upholds P [] expr) (steps : Nat) :
    Upholds P [] (statementBy self expr steps) := by
  have simples : Upholds P [] (do simple expr; expect .semicolon : Compile Unit) :=
    .bind (simple_upholds up.toUpheld exprs) fun _ => .expect up.toUpheld _
  have declared (type : Scalar) : Upholds P [] (do
      if !(← declaration self expr steps true type) then expect .semicolon : Compile Unit) :=
    .bind (declaration_upholds up.toUpheld exprs _ (fun _ => function_upholds up inner _) _) fun _ =>
      .ite (.expect up.toUpheld _) (.pure _)
  refine .bind .token fun t => ?_
  cases t.kind
  case leftBrace => exact block_upholds up inner _
  case kwIf => exact conditional_upholds up inner exprs
  case kwWhile => exact whileLoop_upholds up inner exprs
  case kwFor => exact forLoop_upholds up inner exprs _
  case kwLoop => exact loopWhile_upholds up inner exprs
  case kwBreak => exact breakLoop_upholds up.toUpheld
  case kwReturn => exact returnValue_upholds up.toUpheld exprs
  case kwExit => exact exitProgram_upholds up.toUpheld exprs
  case semicolon => exact .advance up.toUpheld
  case rightBrace => exact .fail _
  all_goals first
    | exact simples
    | exact declared _

theorem statement_upholds (depth : Nat) : Upholds P [] (Compile.statement depth) := by
  induction depth with
  | zero => exact .fail _
  | succ depth ih => exact statementBy_upholds up ih (expression_upholds up.toUpheld depth) depth

omit up in
theorem topLevel_upholds (inner : Upholds P [] statement) (steps : Nat) :
    Upholds P [] (topLevel statement steps) := by
  induction steps with
  | zero => exact .fail _
  | succ steps ih =>
    exact .bind .token fun t => .ite (.bind inner fun _ => ih) (.pure _)

end

end Compile

end ScalarScript
