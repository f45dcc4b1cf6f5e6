import ScalarScript.Proofs.Source.Declaration
/-!
Compiling functions: the parameters come first in the frame, the body follows, and the size of the
frame is put in its place at the end.
-/
namespace ScalarScript

open Stateful Compile

attribute [local simp] labelsOf_cons Instruction.move Instruction.binary Instruction.unary
  Instruction.push Instruction.pop Instruction.branch Instruction.label Instruction.pushScope
  Instruction.popScope Instruction.plain

namespace Compiler

-- Between what was there and an emitted instruction there are line markers at most.
theorem emitted_code (c : Compiler) (i : Instruction) :
    ∃ marks, (c.emitted i).program.code.toList = c.program.code.toList ++ marks ++ [i] ∧
      strip marks = [] ∧ ∀ (j : Instruction) (rest : List Instruction),
        ¬ j.opcode.isMark = true → MarkersLead rest → MarkersLead (marks ++ j :: rest) := by
  unfold emitted
  split
  · rename_i line _
    refine ⟨[.debugLine line (c.lineText line)], by simp [push], ?_, ?_⟩
    · rw [strip_cons_debugLine rfl, strip_nil]
    · exact fun j rest active later =>
        ⟨fun _ => ⟨j, rfl, active⟩, .cons (ne_debugLine_of_active active) later⟩
  · exact ⟨[], by simp [push], rfl, fun j rest active later =>
      .cons (ne_debugLine_of_active active) later⟩

theorem emits_scope (c : Compiler) (scope : Scope) : Emits c { c with scope } [] :=
  ⟨rfl, rfl, Nat.le_refl _, Nat.le_refl _, [], by simp, rfl, trivial⟩

-- The state with another instruction at a place.
def amended (c : Compiler) (index : Nat) (i : Instruction) : Compiler :=
  { c with program := { c.program with code := c.program.code.setIfInBounds index i } }

-- The state at the start of a function body.
def entering (c : Compiler) (f : Enclosing) : Compiler :=
  { c with enclosing := some f, loops := [] }

-- The state behind a function body that was compiled inside another place.
def returning (d c : Compiler) : Compiler :=
  { d with enclosing := c.enclosing, loops := c.loops }

theorem emitted_maxDepth (c : Compiler) (i : Instruction) :
    (c.emitted i).maxDepth = c.maxDepth := by
  unfold emitted
  split <;> rfl

theorem emitted_stage (c : Compiler) (i : Instruction) :
    (c.emitted i).program.stage = c.program.stage := by
  unfold emitted
  split <;> rfl

end Compiler

-- Code in which an emitted instruction is replaced once the code behind it is there.
theorem Compiler.amended_code {c d : Compiler} {i : Instruction} {new : List Instruction}
    (added : d.program.code.toList = (c.emitted i).program.code.toList ++ new) (j : Instruction) :
    ∃ marks, (d.amended ((c.emitted i).program.size - 1) j).program.code.toList =
        c.program.code.toList ++ (marks ++ j :: new) ∧ strip marks = [] ∧
      (¬ j.opcode.isMark = true → MarkersLead new → MarkersLead (marks ++ j :: new)) := by
  obtain ⟨marks, before, silent, leads⟩ := c.emitted_code i
  have place : (c.emitted i).program.size - 1 = (c.program.code.toList ++ marks).length := by
    rw [Program.size, ← Array.length_toList, before]
    simp
  refine ⟨marks, ?_, silent, leads j new⟩
  rw [place]
  simp [Compiler.amended, added, before]

theorem Emits.amended {c d : Compiler} {i j : Instruction} {code : List Instruction}
    (active : ¬ j.opcode.isMark = true) (rest : Emits (c.emitted i) d code) :
    Emits c (d.amended ((c.emitted i).program.size - 1) j) (j :: code) := by
  obtain ⟨new, added, rfl, lead⟩ := rest.added
  obtain ⟨marks, whole, silent, leads⟩ := Compiler.amended_code added j
  have plain := Compiler.ne_debugLine_of_active active
  refine ⟨rest.setting.trans (c.emitted_setting i), rest.stage.trans (c.emitted_stage i),
    c.emitted_maxDepth i ▸ rest.deeper, c.free_emitted i ▸ rest.numbers, marks ++ j :: new, whole,
    ?_, leads active lead⟩
  rw [strip_append, silent, List.nil_append, strip_cons_other plain]

-- Code of an inner body, seen from the outer one.
theorem Emits.restored {c d : Compiler} {code : List Instruction} {f : Enclosing}
    (emits : Emits (c.entering f) d code) : Emits c (d.returning c) code := by
  refine ⟨?_, emits.stage, emits.deeper, emits.numbers, emits.added⟩
  have kept := congrArg Setting.exitType emits.setting
  change Setting.mk c.loops c.enclosing d.exitType = ⟨c.loops, c.enclosing, c.exitType⟩
  rw [show d.exitType = c.exitType from kept]

namespace Compile

@[simp] theorem amend_apply (index : Nat) (i : Instruction) (c : Compiler) :
    amend index i c = .ok ⟨⟩ (c.amended index i) := rfl

@[simp] theorem lastIndex_apply (c : Compiler) : lastIndex c = .ok (c.program.size - 1) c := rfl

-- Parameters, up to and with the closing parenthesis.
theorem parameters_ok {steps : Nat} {c d : Compiler} {params : List Param} (settled : c.Settled)
    (ran : parameters steps c = .ok params d) (closed : d.current.kind = .rightParen) :
    EmitsInScope c d [] ∧ d.free = c.free ∧ d.Settled ∧
      ReadsParams c.words params d.advanced.words := by
  induction steps generalizing c d params with
  | zero => exact absurd ran (fail_ne_ok _ _ _ _)
  | succ steps ih =>
    simp only [parameters, bind_eq_ok_iff (x := token), token_apply, EStateM.Result.ok.injEq,
      ↓existsAndEq, true_and] at ran
    cases scalar : c.current.kind.scalar? with
    | none =>
      rw [scalar] at ran
      exact absurd ran (fail_ne_ok _ _ _ _)
    | some type =>
      have real : c.current.kind ≠ .finish := by
        intro last
        simp [last, Kind.scalar?] at scalar
      simp only [scalar, bind_eq_ok_iff (x := advance), advance_apply, bind_eq_ok_iff (x := line),
        line_apply, bind_eq_ok_iff (x := expectName), bind_eq_ok_iff (x := accept _),
        EStateM.Result.ok.injEq, ↓existsAndEq, true_and, exists_const] at ran
      obtain ⟨name, m, read, more, n, accepted, rest⟩ := ran
      obtain ⟨named, rfl, rfl⟩ := expectName_eq_ok read
      have before := (EmitsInScope.advance c).trans (.advance c.advanced)
      have words : c.words =
          c.current :: c.advanced.current :: c.advanced.advanced.words := by
        rw [Compiler.words_eq_cons settled real,
          Compiler.words_of_kind c.settled_advanced named (by decide)]
      have here := c.advanced.settled_advanced
      rcases accept_eq_ok_iff.mp accepted with ⟨comma, rfl, rfl⟩ | ⟨_, rfl, rfl⟩
      · simp only [if_true, bind_eq_ok_iff, pure_apply, EStateM.Result.ok.injEq] at rest
        obtain ⟨others, n, inner, rfl, rfl⟩ := rest
        obtain ⟨silent, free, later, reads⟩ := ih (Compiler.settled_advanced _) inner closed
        refine ⟨before.trans ((EmitsInScope.advance _).trans silent), by simp [free], later, ?_⟩
        rw [words, Compiler.words_of_kind here comma (by decide)]
        exact .more scalar named comma reads
      · cases rest
        refine ⟨before, by simp, here, ?_⟩
        rw [words, Compiler.words_of_kind here closed (by decide)]
        exact .last scalar named closed

theorem parameterList_ok {steps : Nat} {c d : Compiler} {params : List Param} (settled : c.Settled)
    (ran : parameterList steps c = .ok params d) (closed : d.current.kind = .rightParen) :
    EmitsInScope c d [] ∧ d.free = c.free ∧ d.Settled ∧
      ReadsParams c.words params d.advanced.words := by
  simp only [parameterList, bind_eq_ok_iff (x := token), token_apply, EStateM.Result.ok.injEq,
    ↓existsAndEq, true_and] at ran
  split at ran
  · cases ran
    refine ⟨.refl _, rfl, settled, ?_⟩
    rw [Compiler.words_of_kind settled closed (by decide)]
    exact .none closed
  · exact parameters_ok settled ran closed

theorem forM_emit {α : Type} {f : α → Instruction}
    (active : ∀ a, ¬ (f a).opcode.isMark = true)
    {l : List α} {c d : Compiler} {u : Unit} (ran : (l.forM fun a => emit (f a)) c = .ok u d) :
    EmitsInScope c d (l.map f) ∧ d.free = c.free ∧ d.ahead = c.ahead := by
  induction l generalizing c with
  | nil =>
    cases ran
    exact ⟨.refl d, rfl, rfl⟩
  | cons a l ih =>
    simp only [List.forM_eq_forM, List.forM_cons, bind_eq_ok_iff, emit_apply,
      EStateM.Result.ok.injEq, ↓existsAndEq, true_and, exists_const] at ran
    obtain ⟨emits, free, ahead⟩ := ih ran
    exact ⟨(EmitsInScope.emitted (active a) c).trans emits, by simp [free], by simp [ahead]⟩

-- Binding parameters takes one slot each, in order.
theorem bindParams_ok (r : Routine) {params : List Param} {c d : Compiler}
    {operands : List Operand} (framed : c.scope.Framed) (depth : c.scope.top.depth = r.depth)
    (ran : bindParams params c = .ok operands d) :
    operands = (params.zipIdx c.scope.count).map (fun (p, index) => r.slot index p) ∧
      Emits c d ((params.zipIdx c.scope.count).map fun (p, index) =>
        .unary (.allocate p.type) (r.slot index p)) ∧
      d.scope = (c.scope.claimed params.length).adding
        ((params.zipIdx c.scope.count).map fun (p, index) => r.variable index p).reverse ∧
      d.free = c.free ∧ d.ahead = c.ahead := by
  induction params generalizing c operands with
  | nil =>
    cases ran
    exact ⟨rfl, .refl d, by simp, rfl, rfl⟩
  | cons p rest ih =>
    simp only [bindParams, bind_eq_ok_iff, onScope_eq_ok_iff, emit_apply, pure_apply,
      EStateM.Result.ok.injEq, ↓existsAndEq, true_and, and_true, exists_const] at ran
    obtain ⟨symbol, _, declared, others, inner, rfl⟩ := ran
    obtain ⟨same, rfl⟩ := Scope.declare_eq_ok declared
    have named : symbol = r.variable c.scope.count p := by
      rw [same, depth]
      rfl
    have operand : symbol.operand = r.slot c.scope.count p := by
      rw [named]
      rfl
    generalize hm : Compiler.emitted _ _ = m at inner
    have before : Emits c m [.unary (.allocate p.type) (r.slot c.scope.count p)] := by
      rw [← hm, operand]
      exact (c.emits_scope _).trans
        (Compiler.emits_emitted (i := .unary (.allocate p.type) _) (by rintro ⟨⟩) _)
    have scope : m.scope = (c.scope.claimed 1).adding [symbol] := by
      rw [← hm, Compiler.emitted_scope]
    have free : m.free = c.free := by rw [← hm, Compiler.free_emitted]; rfl
    have ahead : m.ahead = c.ahead := by rw [← hm, Compiler.emitted_ahead]
    have count : m.scope.count = c.scope.count + 1 := by
      rw [scope, Scope.count_adding, Scope.count_claimed framed]
    obtain ⟨rfl, emits, final, last, at_⟩ := ih (by rw [scope]; exact (framed.claimed 1).adding _)
      (by rw [scope, Scope.depth_top_adding, Scope.depth_top_claimed, depth]) inner
    rw [count] at emits final
    refine ⟨by simp [operand, count], ?_, ?_, last.trans free, at_.trans ahead⟩
    · simpa using before.trans emits
    · simp [final, scope, named, Nat.add_comm]

theorem inFunction_eq_ok_iff {f : Enclosing} {act : Compile Unit} {c d : Compiler} {u : Unit} :
    inFunction f act c = .ok u d ↔
      ∃ m, act (c.entering f) = .ok u m ∧ d = m.returning c := by
  simp only [inFunction, bind_eq_ok_iff, get_apply, modify_apply, pure_apply,
    EStateM.Result.ok.injEq, ↓existsAndEq, true_and, exists_const, eq_comm (b := d)]
  constructor
  · rintro ⟨⟨⟩, m, inner, same⟩
    exact ⟨m, inner, same⟩
  · rintro ⟨m, inner, same⟩
    exact ⟨(), m, inner, same⟩

theorem receive_eq (r : Routine) (operands : List Operand)
    (same : operands = (r.params.zipIdx 0).map fun (p, index) => r.slot index p) :
    r.receive = (r.params.zipIdx 0).map (fun (p, index) =>
      Instruction.unary (.allocate p.type) (r.slot index p)) ++ operands.reverse.map .pop := by
  rw [same, Routine.receive, ← List.map_reverse, ← List.map_reverse, List.map_map]
  rfl

end Compile

-- Receiving parameters uses no label.
@[simp] theorem Routine.labelsOf_receive (r : Routine) : labelsOf r.receive = [] := by
  have silent {α : Type} (f : α → Instruction) (plain : ∀ a, (f a).opcode ≠ .label) (l : List α) :
      labelsOf (l.map f) = [] := by
    induction l with
    | nil => rfl
    | cons a l ih => rw [List.map_cons, labelsOf_cons_other (plain a), ih]
  rw [receive, labelsOf_append, ← List.map_reverse, silent _ (by rintro _ ⟨⟩),
    silent _ (by rintro _ ⟨⟩), List.append_nil]

namespace Compile

-- The body of a function in the scope of its frame.
theorem functionBody_ok {statement : Compile Unit} (compiles : Compiles (Reads .one) statement)
    {steps : Nat} {r : Routine} {outer : Scope} {c d : Compiler} {size : Nat} (settled : c.Settled)
    (scope : c.scope = { depth := r.depth } :: outer)
    (ran : functionBody statement steps r.params r.enclosing r.skip c = .ok size d) :
    ∃ body b middle, Emits c d (.pushScope r.depth (r.params.length + body.count) :: r.receive ++
        body.code ++ Stmt.conclude r) ∧
      (∀ s ∈ body.routines, s.depth ≤ d.maxDepth) ∧
      Numbered c.free (labelsOf body.code) d.free ∧ d.scope.tail = outer ∧ d.Settled ∧
      c.words = b :: middle ∧ b.kind = .leftBrace ∧ d.current.kind = .rightBrace ∧
      ∃ inner, Reads .many ⟨[], some r.enclosing, c.exitType⟩ (r.scope outer) middle body inner
        d.words := by
  simp only [functionBody, bind_eq_ok_iff (x := innermost), bind_eq_ok_iff (x := emit _),
    bind_eq_ok_iff (x := lastIndex), bind_eq_ok_iff (x := bindParams _),
    bind_eq_ok_iff (x := List.forM _ _), bind_eq_ok_iff (x := inFunction _ _),
    bind_eq_ok_iff (x := emitLabel _), bind_eq_ok_iff (x := get), bind_eq_ok_iff (x := amend _ _),
    innermost_apply, emit_apply, lastIndex_apply, get_apply, emitLabel_apply, amend_apply,
    pure_apply, inFunction_eq_ok_iff, bind_eq_ok_iff (x := expect _), expect_eq_ok_iff,
    EStateM.Result.ok.injEq, ↓existsAndEq, true_and, and_true, exists_const] at ran
  obtain ⟨operands, c₁, bound, _, c₂, popped, ⟨⟩, c₃, ⟨opened, inner⟩, _, rfl⟩ := ran
  have top : c.scope.top.depth = r.depth := by rw [scope]; rfl
  have framed : c.scope.Framed := ⟨_, by rw [scope]; exact List.mem_cons_self, rfl⟩
  have count : c.scope.count = 0 := by rw [scope]; rfl
  have start : (c.emitted (.pushScope c.scope.top.depth 0)).scope = c.scope := c.emitted_scope _
  obtain ⟨same, allocates, params, free₁, ahead₁⟩ := bindParams_ok r
    (by rw [start]; exact framed) (by rw [start]; exact top) bound
  rw [start, count] at same allocates params
  obtain ⟨pops, free₂, ahead₂⟩ := forM_emit (f := .pop) (by rintro _ ⟨⟩) popped
  have ahead : c₂.ahead = c.ahead := by rw [ahead₂, ahead₁, Compiler.emitted_ahead]
  have free : c₂.free = c.free := by rw [free₂, free₁, Compiler.free_emitted]
  have entered : c₂.Settled := by
    unfold Compiler.Settled
    rw [ahead]
    exact settled
  have bodyScope : c₂.scope = r.scope outer := by
    rw [pops.scope, params, scope]
    rfl
  obtain ⟨closed, later, body, builds, reads⟩ := statements_ok compiles _ steps
    (Compiler.settled_advanced _) inner
  have final : c₃.scope.count = r.params.length + body.count := by
    obtain ⟨more, scope₃⟩ := reads.scope_eq
    have claimed : ((c₂.entering r.enclosing).advanced).scope = r.scope outer := by
      rw [Compiler.advanced_scope, ← bodyScope]
      rfl
    rw [scope₃, claimed, Scope.count_adding, Routine.scope, Scope.claimed_adding,
      Scope.count_adding, Scope.claimed_claimed, ← scope, Scope.count_claimed framed, count,
      Nat.zero_add]
  have leaves := ((((EmitsInScope.emitted (i := .move eax .null) (by rintro ⟨⟩)
    (c₃.returning c₂)).trans (.push (i := .label r.result) (by rintro ⟨⟩) _)).trans
    (.emitted (i := .popScope c.scope.top.depth) (by rintro ⟨⟩) _)).trans
    (.emitted (i := .plain .ret) (by rintro ⟨⟩) _)).trans
    (.push (i := .label r.skip) (by rintro ⟨⟩) _)
  have step := ((EmitsInScope.advance (c₂.entering r.enclosing)).toEmits.trans
    builds.emits).restored
  have lastAhead := show (((((c₃.returning c₂).emitted (.move eax .null)).push
    (.label r.enclosing.returnLabel)).emitted (.popScope c.scope.top.depth)).emitted
    (.plain .ret)).ahead = c₃.ahead by simp; rfl
  have lastFree := show (((((c₃.returning c₂).emitted (.move eax .null)).push
    (.label r.enclosing.returnLabel)).emitted (.popScope c.scope.top.depth)).emitted
    (.plain .ret)).free = c₃.free by simp; rfl
  change EmitsInScope (c₃.returning c₂) (Compiler.push (((((c₃.returning c₂).emitted
    (.move eax .null)).push (.label r.enclosing.returnLabel)).emitted
    (.popScope c.scope.top.depth)).emitted (.plain .ret)) (.label r.skip)) _ at leaves
  generalize ((((c₃.returning c₂).emitted (.move eax .null)).push
    (.label r.enclosing.returnLabel)).emitted (.popScope c.scope.top.depth)).emitted
    (.plain .ret) = last at *
  have lastScope : last.scope = c₃.scope := leaves.scope
  have words : c₂.words = c.words := congrArg (List.filter _) ahead
  have lastWords : last.words = c₃.words := congrArg (List.filter _) lastAhead
  have lastSettled : last.Settled := by
    unfold Compiler.Settled
    rw [lastAhead]
    exact later
  refine ⟨body, c₂.current, c₂.advanced.words, ?_, ?_, ?_, ?_, ?_, ?_, opened, ?_, c₃.scope, ?_⟩
  · have rest := (allocates.trans pops.toEmits).trans step
    rw [receive_eq r operands same, ← Int.natCast_add, ← final, Compiler.push_scope, lastScope, ← top]
    have whole := Emits.amended (j := .pushScope c.scope.top.depth c₃.scope.count) (by rintro ⟨⟩)
      (rest.trans leaves.toEmits)
    simpa [Stmt.conclude, top] using whole
  · intro s member
    exact (builds.deep s member).trans leaves.deeper
  · have numbered := builds.numbered
    rw [Compiler.free_advanced] at numbered
    change Numbered c₂.free _ _ at numbered
    change Numbered c.free _ last.free
    rwa [lastFree, ← free]
  · change last.scope.tail = outer
    obtain ⟨more, scope₃⟩ := reads.scope_eq
    have claimed : ((c₂.entering r.enclosing).advanced).scope = r.scope outer := by
      rw [Compiler.advanced_scope, ← bodyScope]
      rfl
    rw [lastScope, scope₃, claimed]
    rfl
  · exact lastSettled
  · rw [← words, Compiler.words_of_kind entered opened (by decide)]
  · change last.current.kind = .rightBrace
    have first : c₃.current ∈ last.words.head? := by
      rw [lastWords, Compiler.words_of_kind later closed (by decide)]
      rfl
    rw [Compiler.current_eq_of_mem lastSettled first, closed]
  · change Reads _ _ _ _ _ _ last.words
    have exitType : c₂.exitType = c.exitType :=
      congrArg Setting.exitType ((pops.setting.trans allocates.setting).trans (c.emitted_setting _))
    rw [Compiler.advanced_setting, Compiler.advanced_scope, Compiler.words_advanced] at reads
    change Reads .many ⟨[], some r.enclosing, c₂.exitType⟩ c₂.scope _ body c₃.scope c₃.words at reads
    rw [Compiler.words_advanced]
    rwa [exitType, bodyScope, ← lastWords] at reads

-- The code of a function behind the jump around it.
theorem definition_ok {statement : Compile Unit} (compiles : Compiles (Reads .one) statement)
    {steps : Nat} {r : Routine} {c m n : Compiler} {size : Nat} (settled : m.Settled)
    (before : Emits c m [.branch .jump r.skip, .label r.entry])
    (scope : m.scope = c.scope.adding [r.symbol]) (free : m.free = c.free + 1 + 1 + 1)
    (skip : r.skip = c.free) (entry : r.entry = (c.free + 1 : Nat))
    (result : r.result = (c.free + 1 + 1 : Nat))
    (ran : functionBody statement steps r.params r.enclosing r.skip
      (m.inside { depth := r.depth }) = .ok size n) :
    ∃ body b middle inner, Builds c (.function r body) n.outside.advanced ∧
      n.outside.scope = c.scope.adding [r.symbol] ∧ n.Settled ∧ m.words = b :: middle ∧
      b.kind = .leftBrace ∧ n.current.kind = .rightBrace ∧
      Reads .many ⟨[], some r.enclosing, c.exitType⟩ (r.scope (c.scope.adding [r.symbol])) middle
        body inner n.words := by
  have inside : (m.inside { depth := r.depth }).Settled := settled
  have entered : (m.inside { depth := r.depth }).scope = { depth := r.depth } :: m.scope := rfl
  obtain ⟨body, b, middle, emits, deep, numbered, tail, later, first, begins, ends, inner, reads⟩ :=
    functionBody_ok compiles (r := r) inside entered ran
  have finish := EmitsInScope.advance n.outside
  have whole := (before.trans emits.within).trans finish.toEmits
  refine ⟨body, b, middle, inner, ⟨?_, ?_, ?_⟩, tail.trans scope, later, first, begins, ends, ?_⟩
  · simpa [Stmt.code] using whole
  · intro s member
    rcases List.mem_cons.mp member with rfl | inside
    · exact (le_max_right _ _).trans (emits.deeper.trans finish.deeper)
    · exact (deep s inside).trans finish.deeper
  · change Numbered m.free _ _ at numbered
    rw [free] at numbered
    have one : Numbered (c.free + 1 + 1 + 1) (labelsOf body.code ++ []) n.free := by
      simpa using numbered
    have two : Numbered (c.free + 1) (r.entry :: (labelsOf body.code ++ [r.result])) n.free := by
      rw [entry, result]
      exact Numbered.insert (a := []) one.insert
    rw [← List.append_nil (r.entry :: _)] at two
    have three := two.insert
    rw [← skip] at three
    rw [Compiler.free_advanced]
    change Numbered c.free _ n.free
    simpa [Stmt.code, Stmt.conclude] using three
  · have exitType : m.exitType = c.exitType := congrArg Setting.exitType before.setting
    change Reads .many ⟨[], some r.enclosing, m.exitType⟩ (r.scope m.scope) _ _ _ _ at reads
    rwa [exitType, scope] at reads

-- A function; the words before its parenthesis are its type and its name.
theorem function_ok {statement : Compile Unit} (compiles : Compiles (Reads .one) statement)
    {steps : Nat} {returnType : Scalar} {nameLine : Nat} {c d : Compiler} {u : Unit} {t n : Token}
    (settled : c.Settled) (typed : t.kind.scalar? = some returnType) (named : n.kind = .identifier)
    (opened : c.current.kind = .leftParen)
    (ran : function statement steps returnType n.literal nameLine c = .ok u d) :
    d.Settled ∧ ∃ a, Builds c a d ∧
      Reads .one c.setting c.scope (t :: n :: c.words) a d.scope d.words := by
  simp only [function, bind_eq_ok_iff (x := advance), advance_apply,
    bind_eq_ok_iff (x := parameterList _), bind_eq_ok_iff (x := expect _), expect_eq_ok_iff,
    bind_eq_ok_iff (x := freshLabel), freshLabel_apply, bind_eq_ok_iff (x := discard _),
    discard_eq_ok_iff, onScope_eq_ok_iff, bind_eq_ok_iff (x := emitJump _ _), emitJump_apply,
    bind_eq_ok_iff (x := emitLabel _), emitLabel_apply, bind_eq_ok_iff (x := innermost),
    innermost_apply, bind_eq_ok_iff (x := within _ _), within_eq_ok_iff, report, modify_apply,
    EStateM.Result.ok.injEq, ↓existsAndEq, true_and, and_true, exists_const] at ran
  obtain ⟨params, c₁, listed, closed, symbol, scope, declared, size, c₂, inner, rfl⟩ := ran
  obtain ⟨silent, free₁, later, listed⟩ := parameterList_ok c.settled_advanced listed closed
  have start := ((((EmitsInScope.advance c).trans silent).trans (.advance c₁)).trans
    (.labelled _)).trans ((EmitsInScope.labelled _).trans (.labelled _))
  have free : c₁.advanced.free = c.free := by rw [Compiler.free_advanced, free₁, c.free_advanced]
  rw [Compiler.free_labelled, free] at declared
  rw [Compiler.free_labelled, Compiler.free_labelled, free] at inner
  have words : c₁.advanced.labelled.labelled.labelled.words = c₁.advanced.words := rfl
  have three : c₁.advanced.labelled.labelled.labelled.free = c.free + 1 + 1 + 1 := by
    rw [Compiler.free_labelled, Compiler.free_labelled, Compiler.free_labelled, free]
  have ready : c₁.advanced.labelled.labelled.labelled.Settled := c₁.settled_advanced
  generalize c₁.advanced.labelled.labelled.labelled = c₃ at *
  obtain ⟨same, rfl⟩ := Scope.declareFunction_eq_ok declared
  generalize hr : Routine.mk n.literal returnType params (c.scope.top.depth + 1) c.free
    (c.free + 1 : Nat) (c.free + 1 + 1 : Nat) = r
  obtain rfl : symbol = r.symbol := by
    rw [same, start.scope, ← hr, Routine.symbol, Routine.paramTypes, List.map_map]
    rfl
  have before :=
    ((start.toEmits.trans (c₃.emits_scope (c₃.scope.adding [r.symbol]))).trans
      (Compiler.emits_push (i := .branch .jump c.free) (by rintro ⟨⟩) _)).trans
      (Compiler.emits_push (i := .label (c.free + 1 : Nat)) (by rintro ⟨⟩) _)
  generalize hc : (Compiler.push { c₃ with scope := c₃.scope.adding [r.symbol] }
    (.branch .jump c.free)).push (.label (c.free + 1 : Nat)) = c₄ at *
  have scope₄ : c₄.scope = c.scope.adding [r.symbol] := by
    rw [← hc, ← start.scope]
    rfl
  have free₄ : c₄.free = c.free + 1 + 1 + 1 := by
    rw [← three, ← hc]
    rfl
  have words₄ : c₄.words = c₁.advanced.words := by
    rw [← words, ← hc]
    rfl
  have settled₄ : c₄.Settled := by
    rw [← hc]
    exact ready
  clear hc
  have table : c₄.scope.top.child = { depth := r.depth } := by
    rw [Table.child, scope₄, Scope.depth_top_adding, ← hr]
  rw [table] at inner
  have skip : r.skip = c.free := by rw [← hr]
  have entry : r.entry = (c.free + 1 : Nat) := by rw [← hr]
  rw [← skip, ← entry] at before
  obtain ⟨body, b, middle, final, builds, scope, last, first, begins, ends, reads⟩ :=
    definition_ok compiles (r := r) settled₄ before scope₄ free₄ skip entry (by rw [← hr])
      (by rw [← hr] at inner ⊢; exact inner)
  refine ⟨c₂.outside.settled_advanced, .function r body,
    ⟨⟨builds.emits.setting, builds.emits.stage, builds.emits.deeper, builds.emits.numbers,
      builds.emits.added⟩, builds.deep, builds.numbered⟩, ?_⟩
  change Reads _ _ _ _ _ c₂.outside.advanced.scope c₂.outside.advanced.words
  rw [Compiler.advanced_scope, scope, Compiler.words_of_kind settled opened (by decide)]
  rw [← words₄, first] at listed
  have behind : c₂.outside.advanced.words = c₂.advanced.words := by
    rw [Compiler.words_advanced, Compiler.words_advanced]
    rfl
  rw [Compiler.words_of_kind last ends (by decide), ← behind] at reads
  refine .function (by rw [← hr]; exact typed) named (by rw [← hr]) (by rw [← hr]) opened
    (by rw [← hr]; exact listed) begins reads ends

end Compile

end ScalarScript
