import ScalarScript.Proofs.Source.Statement
/-!
Compiling what brings names: blocks and declarations of variables. A block takes its slots from the
frame around it.
-/
namespace ScalarScript

open Stateful Compile

attribute [local simp] labelsOf_cons Instruction.move Instruction.binary Instruction.unary

-- Statements one after another.
theorem Builds.seq {c m d : Compiler} {a b : Stmt} (first : Builds c a m) (second : Builds m b d) :
    Builds c (.seq a b) d := by
  refine ⟨first.emits.trans second.emits, ?_, ?_⟩
  · intro r member
    rcases List.mem_append.mp member with one | two
    · exact (first.deep r one).trans second.emits.deeper
    · exact second.deep r two
  · rw [Stmt.code, labelsOf_append]
    exact first.numbered.append second.numbered

namespace Compile

theorem statements_ok {statement : Compile Unit} (compiles : Compiles (Reads .one) statement)
    (missing : CompileFault) (steps : Nat) {c d : Compiler} {u : Unit} (settled : c.Settled)
    (ran : statements statement missing steps c = .ok u d) :
    d.current.kind = .rightBrace ∧ d.Settled ∧
      ∃ t, Builds c t d ∧ Reads .many c.setting c.scope c.words t d.scope d.words := by
  induction steps generalizing c with
  | zero => exact absurd ran (fail_ne_ok _ _ _ _)
  | succ steps ih =>
    simp only [statements, bind_eq_ok_iff (x := token), token_apply, EStateM.Result.ok.injEq,
      ↓existsAndEq, true_and] at ran
    generalize here : c.current.kind = kind at ran
    split at ran
    · cases ran
      exact ⟨here, settled, .skip, ⟨.refl _, by simp [Stmt.routines], .none (Nat.le_refl _)⟩, .done⟩
    · exact absurd ran (fail_ne_ok _ _ _ _)
    · obtain ⟨_, m, first, ran⟩ := bind_eq_ok_iff.mp ran
      obtain ⟨middle, a, builds, reads⟩ := compiles settled first
      obtain ⟨closed, later, b, more, others⟩ := ih middle ran
      rw [builds.emits.setting] at others
      exact ⟨closed, later, .seq a b, builds.seq more, .next reads others⟩

end Compile

namespace Compiler

-- The state inside one more table.
def inside (c : Compiler) (table : Table) : Compiler :=
  { c with scope := table :: c.scope, maxDepth := max c.maxDepth table.depth }

-- The state once the innermost table is gone.
def outside (c : Compiler) : Compiler := { c with scope := c.scope.tail }

end Compiler

theorem Emits.within {c d : Compiler} {table : Table} {code : List Instruction}
    (emits : Emits (c.inside table) d code) : Emits c d.outside code :=
  ⟨emits.setting, emits.stage, (Nat.le_max_left ..).trans emits.deeper, emits.numbers, emits.added⟩

namespace Compile

theorem within_eq_ok_iff {α : Type} {table : Table} {act : Compile α} {c d : Compiler} {a : α} :
    within table act c = .ok a d ↔ ∃ m, act (c.inside table) = .ok a m ∧ d = m.outside := by
  have same : (do enter table; act) c = act (c.inside table) := rfl
  unfold within
  rw [same]
  cases act (c.inside table) <;> simp [Compiler.outside, eq_comm]

theorem block_ok {statement : Compile Unit} (compiles : Compiles (Reads .one) statement)
    {steps : Nat} {c d : Compiler} {u : Unit} (settled : c.Settled)
    (opened : c.current.kind = .leftBrace) (ran : block statement steps c = .ok u d) :
    d.Settled ∧ ∃ t, Builds c t d ∧ Reads .one c.setting c.scope c.words t d.scope d.words := by
  simp only [block, bind_eq_ok_iff, advance_apply, innermost_apply, EStateM.Result.ok.injEq,
    ↓existsAndEq, true_and, and_true, exists_const, within_eq_ok_iff, Compiler.advanced_scope] at ran
  obtain ⟨_, m, inner, rfl⟩ := ran
  have start : (c.advanced.inside c.scope.top.block).Settled := c.settled_advanced
  obtain ⟨closed, later, a, builds, reads⟩ := statements_ok compiles _ steps start inner
  have emits := (EmitsInScope.advance c).toEmits.trans
    (builds.emits.trans (EmitsInScope.advance m).toEmits).within
  refine ⟨m.settled_advanced, .block a, ⟨?_, ?_, ?_⟩, ?_⟩
  · simpa [Stmt.code] using emits
  · intro r member
    exact (builds.deep r member).trans (EmitsInScope.advance m).deeper
  · have numbered := builds.numbered
    change Numbered c.advanced.free _ m.free at numbered
    change Numbered c.free _ m.advanced.free
    simpa [Stmt.code] using numbered
  · rw [Compiler.words_of_kind later closed (by decide)] at reads
    rw [Compiler.words_of_kind settled opened (by decide)]
    change Reads .one c.setting c.scope _ _ m.advanced.scope.tail m.advanced.words
    change Reads .many c.advanced.setting (c.scope.top.block :: c.advanced.scope) c.advanced.words a
      m.scope _ at reads
    rw [Compiler.advanced_scope] at reads ⊢
    rw [Compiler.advanced_setting] at reads
    exact .block opened reads closed

theorem onScope_eq_ok_iff {line : Nat} {fault : SymbolError → CompileFault}
    {f : Scope → Except SymbolError (Symbol × Scope)} {c d : Compiler} {s : Symbol} :
    onScope line fault f c = .ok s d ↔
      ∃ scope, f c.scope = .ok (s, scope) ∧ d = { c with scope } := by
  simp only [onScope, bind_eq_ok_iff (x := get), get_apply, EStateM.Result.ok.injEq, ↓existsAndEq,
    true_and]
  cases f c.scope with
  | error e => simp
  | ok p =>
    obtain ⟨symbol, scope⟩ := p
    simp [bind_apply, eq_comm, and_assoc]

-- Defining the symbol of a variable that has its slot already.
theorem define_eq_ok {line : Nat} {symbol : Symbol} {c d : Compiler} {u : Unit}
    (ran : discard (onScope line .declaration fun s => do return (symbol, ← s.define symbol)) c =
      .ok u d) : d = { c with scope := c.scope.adding [symbol] } := by
  obtain ⟨s, inner⟩ := discard_eq_ok_iff.mp ran
  obtain ⟨scope, defined, rfl⟩ := onScope_eq_ok_iff.mp inner
  cases outcome : c.scope.define symbol with
  | error e => simp [outcome, bind, Except.bind] at defined
  | ok after =>
    simp only [outcome, bind, Except.bind, pure, Except.pure, Except.ok.injEq,
      Prod.mk.injEq] at defined
    rw [← defined.2, Scope.define_eq_ok outcome]

theorem expectName_eq_ok {c d : Compiler} {name : String} (ran : expectName c = .ok name d) :
    c.current.kind = .identifier ∧ name = c.current.literal ∧ d = c.advanced := by
  simp only [expectName, bind_eq_ok_iff (x := token), token_apply, EStateM.Result.ok.injEq,
    ↓existsAndEq, true_and] at ran
  split at ran
  · rename_i named
    simp only [bind_apply, advance_apply, pure_apply, EStateM.Result.ok.injEq] at ran
    exact ⟨named, ran.1.symm, ran.2.symm⟩
  · exact absurd ran (fail_ne_ok _ _ _ _)

-- A variable is declared with its slot, once its initializer is there.
theorem declared_ok {c m : Compiler} {t : Stmt} {s : Symbol} (plain : t.routines = [])
    (emits : EmitsInScope { c with scope := c.scope.claimed 1 } m t.code)
    (numbered : Numbered c.free (labelsOf t.code) m.free) :
    Builds c t { m with scope := m.scope.adding [s] } ∧
      m.scope.adding [s] = (c.scope.claimed 1).adding [s] := by
  have whole := emits.toEmits
  refine ⟨⟨⟨whole.setting, whole.stage, whole.deeper, whole.numbers, whole.added⟩, ?_, numbered⟩, ?_⟩
  · simp [plain]
  · rw [emits.scope]

-- One name and its initializer; a comma leads on to the next one.
theorem declarators_ok {expr : Compile Ty} (faithful : Faithful .choice expr) {type : Scalar}
    {steps : Nat} {nameLine : Nat} {c d : Compiler} {u : Unit} {t : Token}
    (settled : c.Settled) (named : t.kind = .identifier)
    (ran : declarators expr type steps t.literal nameLine c = .ok u d) :
    d.Settled ∧ ∃ a, Builds c a d ∧ ReadsNames type c.scope (t :: c.words) a d.scope d.words := by
  induction steps generalizing c t nameLine with
  | zero => exact absurd ran (fail_ne_ok _ _ _ _)
  | succ steps ih =>
    simp only [declarators, bind_eq_ok_iff (x := onScope _ _ _), onScope_eq_ok_iff] at ran
    obtain ⟨symbol, c₁, ⟨scope, reserved, rfl⟩, ran⟩ := ran
    obtain ⟨rfl, rfl⟩ := Scope.reserve_eq_ok reserved
    change ((do
      emit (.unary (.allocate type) (c.scope.fresh t.literal type).operand)
      if ← accept .assign then
        let exprLine ← line
        let given ← expr
        if !Ty.accepts false type.ty given then
          failAt exprLine (.initializer type.ty t.literal given)
        emit (.move (c.scope.fresh t.literal type).operand eax)
      discard (onScope nameLine .declaration fun s => do
        return (c.scope.fresh t.literal type, ← s.define (c.scope.fresh t.literal type)))
      if ← accept .comma then
        let nextLine ← line
        let next ← expectName
        declarators expr type steps next nextLine : Compile Unit)
        { c with scope := c.scope.claimed 1 }) = .ok u d at ran
    generalize symbol : c.scope.fresh t.literal type = s at ran
    simp only [bind_eq_ok_iff (x := emit _), emit_apply, bind_eq_ok_iff (x := accept .assign),
      EStateM.Result.ok.injEq, ↓existsAndEq, true_and, exists_const] at ran
    obtain ⟨filled, c₂, accepted, ran⟩ := ran
    have start := EmitsInScope.emitted (i := .unary (.allocate type) s.operand) (by rintro ⟨⟩)
      { c with scope := c.scope.claimed 1 }
    have free : (Compiler.emitted { c with scope := c.scope.claimed 1 }
        (.unary (.allocate type) s.operand)).free = c.free := Compiler.free_emitted _ _
    have words : (Compiler.emitted { c with scope := c.scope.claimed 1 }
        (.unary (.allocate type) s.operand)).words = c.words := Compiler.words_emitted _ _
    have here : (Compiler.emitted { c with scope := c.scope.claimed 1 }
        (.unary (.allocate type) s.operand)).Settled :=
      Compiler.Settled.emitted (c := { c with scope := c.scope.claimed 1 }) settled _
    generalize Compiler.emitted { c with scope := c.scope.claimed 1 }
        (.unary (.allocate type) s.operand) = allocated at *
    -- what is common to both kinds of names: the next one, if there is any
    have onward {m : Compiler} {a : Stmt} (mSettled : m.Settled) (plain : a.routines = [])
        (emits : EmitsInScope { c with scope := c.scope.claimed 1 } m a.code)
        (numbered : Numbered c.free (labelsOf a.code) m.free)
        (reads : ReadsName c.scope type (t :: c.words) a s m.words)
        (ran : (accept .comma >>= fun more =>
          if more = true then line >>= fun l => expectName >>= fun name =>
            declarators expr type steps name l
          else pure ()) { m with scope := m.scope.adding [s] } = .ok u d) :
        d.Settled ∧
          ∃ a, Builds c a d ∧ ReadsNames type c.scope (t :: c.words) a d.scope d.words := by
      obtain ⟨builds, scope⟩ := declared_ok (s := s) plain emits numbered
      obtain ⟨more, n, next, rest⟩ := bind_eq_ok_iff.mp ran
      have declaredSettled : Compiler.Settled { m with scope := m.scope.adding [s] } := mSettled
      have declaredWords : Compiler.words { m with scope := m.scope.adding [s] } = m.words := rfl
      have declaredScope : Compiler.scope { m with scope := m.scope.adding [s] } =
          (c.scope.claimed 1).adding [s] := scope
      generalize { m with scope := m.scope.adding [s] } = declared at *
      rw [← declaredWords] at reads
      rcases accept_eq_ok_iff.mp next with ⟨comma, rfl, rfl⟩ | ⟨_, rfl, rfl⟩
      · simp only [if_true, bind_eq_ok_iff, line_apply, EStateM.Result.ok.injEq, ↓existsAndEq,
          true_and] at rest
        obtain ⟨name, n, read, rest⟩ := rest
        obtain ⟨identifier, rfl, rfl⟩ := expectName_eq_ok read
        obtain ⟨later, b, more, others⟩ := ih (Compiler.settled_advanced _) identifier rest
        rw [← Compiler.words_of_kind declared.settled_advanced identifier (by decide),
          Compiler.advanced_scope, Compiler.advanced_scope, declaredScope] at others
        rw [Compiler.words_of_kind declaredSettled comma (by decide)] at reads
        refine ⟨later, .seq a b, builds.seq ?_, .more reads comma others⟩
        have silent := (EmitsInScope.advance declared).trans (.advance _)
        refine ⟨?_, more.deep, by simpa using more.numbered⟩
        simpa using silent.toEmits.trans more.emits
      · cases rest
        refine ⟨declaredSettled, a, builds, ?_⟩
        rw [declaredScope]
        exact .last reads
    rcases accept_eq_ok_iff.mp accepted with ⟨assigns, rfl, rfl⟩ | ⟨_, rfl, rfl⟩
    · simp only [if_true, bind_eq_ok_iff (x := line), line_apply, bind_eq_ok_iff (x := expr),
        refuseAt_eq_ok_iff, bind_eq_ok_iff (x := emit _), emit_apply, EStateM.Result.ok.injEq,
        ↓existsAndEq, true_and, exists_const, bind_eq_ok_iff (x := discard _), Bool.not_eq_true',
        Bool.not_eq_false] at ran
      obtain ⟨given, v, inner, accepted, _, w, defined, ran⟩ := ran
      obtain rfl := define_eq_ok defined
      obtain ⟨e, elaborates, rfl⟩ := faithful inner
      obtain ⟨later, value⟩ := elaborates.value allocated.settled_advanced
      have before := start.trans (.advance _)
      have emits := (before.trans elaborates.emits).trans
        (.emitted (i := .move s.operand eax) (by rintro ⟨⟩) v)
      refine onward (a := .declare type s (some e)) (later.emitted _) rfl ?_ ?_ ?_ ran
      · simpa [Stmt.code] using emits
      · have numbered := elaborates.numbered
        rw [Compiler.free_advanced, free] at numbered
        simpa [Stmt.code] using numbered
      · rw [Compiler.words_emitted, ← words, Compiler.words_of_kind here assigns (by decide),
          ← symbol]
        rw [before.scope] at value
        exact .filled named assigns value accepted
    · rw [if_neg Bool.false_ne_true, bind_eq_ok_iff] at ran
      obtain ⟨_, w, defined, ran⟩ := ran
      obtain rfl := define_eq_ok defined
      refine onward (a := .declare type s none) here rfl start ?_ ?_ ran
      · exact .none (by rw [free])
      · rw [words, ← symbol]
        exact .plain named

end Compile

end ScalarScript
