import ScalarScript.Proofs.Source.Expression
/-!
Compiling statements: wherever it succeeds, the words read are statements of the grammar, the code
added is the code of their tree, and every label of it was given out on the way.
-/
namespace ScalarScript

open Stateful Compile

-- Between the two states the code of the tree was added.
structure Builds (c : Compiler) (t : Stmt) (d : Compiler) : Prop where
  emits : Emits c d t.code
  deep : ∀ r ∈ t.routines, r.depth ≤ d.maxDepth
  numbered : Numbered c.free (labelsOf t.code) d.free

-- What words mean in a setting and a scope: a tree, the scope behind it, and the words left.
abbrev Reader := Setting → Scope → List Token → Stmt → Scope → List Token → Prop

-- An action that compiles what a reader reads.
def Compiles (reads : Reader) (x : Compile Unit) : Prop :=
  ∀ ⦃c d : Compiler⦄ ⦃u : Unit⦄, c.Settled → x c = .ok u d →
    d.Settled ∧ ∃ t, Builds c t d ∧ reads c.setting c.scope c.words t d.scope d.words

-- A reader of what declares nothing.
def Reader.plain (reads : Scope → List Token → Stmt → List Token → Prop) : Reader :=
  fun _ scope words t after rest => after = scope ∧ reads scope words t rest

theorem Elaborates.value {c d : Compiler} {e : Expr} (elaborates : Elaborates .choice c e d)
    (settled : c.Settled) : d.Settled ∧ ReadsValue c.scope c.words e d.words := by
  obtain ⟨later, parses⟩ := elaborates.parses settled
  exact ⟨later, parses, elaborates.typed⟩

namespace Compiler

variable {c : Compiler} {kind : Kind}

-- A token that is in reach is the first word.
theorem words_of_kind (settled : c.Settled) (here : c.current.kind = kind)
    (real : kind ≠ .finish) : c.words = c.current :: c.advanced.words :=
  words_eq_cons settled (by rw [here]; exact real)

@[simp] theorem settle_setting (c : Compiler) (tokens : List Token) :
    (c.settle tokens).setting = c.setting := (c.emits_settle tokens).setting

@[simp] theorem advanced_setting (c : Compiler) : c.advanced.setting = c.setting :=
  c.settle_setting _

@[simp] theorem push_setting (c : Compiler) (i : Instruction) : (c.push i).setting = c.setting :=
  rfl

@[simp] theorem labelled_setting (c : Compiler) : c.labelled.setting = c.setting := rfl

@[simp] theorem emitted_setting (c : Compiler) (i : Instruction) :
    (c.emitted i).setting = c.setting := by
  unfold emitted
  split <;> rfl

end Compiler

attribute [local simp] labelsOf_cons Instruction.move Instruction.binary Instruction.unary
  Instruction.push Instruction.pop Instruction.branch Instruction.label

-- Statements without functions inside.
theorem EmitsInScope.builds {c d : Compiler} {t : Stmt} (emits : EmitsInScope c d t.code)
    (plain : t.routines = []) (numbered : Numbered c.free (labelsOf t.code) d.free) :
    Builds c t d :=
  ⟨emits.toEmits, by simp [plain], numbered⟩

namespace Compile

theorem discard_eq_ok_iff {α : Type} {x : Compile α} {c d : Compiler} {u : Unit} :
    discard x c = .ok u d ↔ ∃ a, x c = .ok a d := by
  change EStateM.map (Function.const α ()) x c = .ok u d ↔ _
  unfold EStateM.map
  cases x c <;> simp

theorem assignment_ok {expr : Compile Ty} (faithful : Faithful .choice expr) {c d : Compiler}
    {u : Unit} (settled : c.Settled) (named : c.current.kind = .identifier)
    (assigns : c.following = .assign) (ran : assignment expr c = .ok u d) :
    d.Settled ∧ ∃ t, Builds c t d ∧ Reader.plain ReadsSimple c.setting c.scope c.words t d.scope
      d.words := by
  simp only [assignment, bind_eq_ok_iff, token_apply, resolve?_apply, EStateM.Result.ok.injEq,
    ↓existsAndEq, true_and] at ran
  cases found : c.scope.resolve? c.current.literal with
  | none =>
    rw [found] at ran
    exact absurd ran (failUndefined_ne_ok _ _ _ _ _ _)
  | some symbol =>
    simp only [found, refuseAt_eq_ok_iff, bind_eq_ok_iff, advance_apply, line_apply, emit_apply,
      EStateM.Result.ok.injEq, ↓existsAndEq, true_and, exists_const, Bool.not_eq_true',
      Bool.not_eq_false, Bool.not_eq_true] at ran
    obtain ⟨plain, type, v, inner, accepted, rfl⟩ := ran
    obtain ⟨e, elaborates, rfl⟩ := faithful inner
    obtain ⟨later, value⟩ := elaborates.value (Compiler.settled_advanced _)
    have start : EmitsInScope c c.advanced.advanced [] :=
      (EmitsInScope.advance c).trans (.advance _)
    have emits := (start.trans elaborates.emits).trans (.emitted (i := .move symbol.operand eax)
      (by rintro ⟨⟩) v)
    refine ⟨later.emitted _, .assign symbol e, emits.builds rfl ?_, emits.scope, ?_⟩
    · simpa [Stmt.code] using elaborates.numbered
    · rw [Compiler.following_eq] at assigns
      have second := Compiler.words_of_kind c.settled_advanced assigns (by decide)
      rw [Compiler.words_of_kind settled named (by decide), second, Compiler.words_emitted]
      simp only [Compiler.advanced_scope] at value
      exact .assign named assigns found plain value accepted

theorem simple_ok {expr : Compile Ty} (faithful : Faithful .choice expr) :
    Compiles (.plain ReadsSimple) (simple expr) := by
  intro c d u settled ran
  simp only [simple, bind_eq_ok_iff, token_apply, get_apply, EStateM.Result.ok.injEq, ↓existsAndEq,
    true_and, Bool.and_eq_true, decide_eq_true_eq] at ran
  split at ran
  · rename_i both
    exact assignment_ok faithful settled both.1 both.2 ran
  · obtain ⟨type, inner⟩ := discard_eq_ok_iff.mp ran
    obtain ⟨e, elaborates, rfl⟩ := faithful inner
    obtain ⟨later, value⟩ := elaborates.value settled
    exact ⟨later, .expr e, elaborates.emits.builds rfl elaborates.numbered, elaborates.emits.scope,
      .expr value⟩

theorem breakLoop_ok {c d : Compiler} {u : Unit} (settled : c.Settled)
    (leaves : c.current.kind = .kwBreak) (ran : breakLoop c = .ok u d) :
    d.Settled ∧ ∃ t, Builds c t d ∧ Reads .one c.setting c.scope c.words t d.scope d.words := by
  simp only [breakLoop, bind_eq_ok_iff, get_apply, EStateM.Result.ok.injEq, ↓existsAndEq,
    true_and] at ran
  cases loops : c.loops with
  | nil =>
    rw [loops] at ran
    exact absurd ran (fail_ne_ok _ _ _ _)
  | cons done rest =>
    simp only [loops, bind_eq_ok_iff, advance_apply, expect_eq_ok_iff, emitJump_apply,
      EStateM.Result.ok.injEq, ↓existsAndEq, true_and, and_true, exists_const] at ran
    obtain ⟨ended, rfl⟩ := ran
    have emits := ((EmitsInScope.advance c).trans (.advance _)).trans
      (.push (i := .branch .jump done) (by rintro ⟨⟩) _)
    refine ⟨(Compiler.settled_advanced _).push _, .leave done,
      emits.builds rfl (.none (by simp)), ?_⟩
    rw [emits.scope, Compiler.words_of_kind settled leaves (by decide),
      Compiler.words_of_kind c.settled_advanced ended (by decide), Compiler.words_push]
    exact .leave leaves loops ended

-- The value of a `return` or an `exit`, once its semicolon is passed.
theorem result_ok {wanted : Option Ty} {c d : Compiler} {e : Expr} (settled : c.Settled)
    (elaborates : Elaborates .choice c e d)
    (accepted : ∀ type ∈ wanted, Ty.accepts false type e.type = true)
    (ended : d.current.kind = .semicolon) :
    ReadsResult c.scope wanted c.words (some e) d.advanced.words := by
  obtain ⟨later, value⟩ := elaborates.value settled
  rw [Compiler.words_of_kind later ended (by decide)] at value
  exact .value value accepted ended

theorem returnValue_ok {expr : Compile Ty} (faithful : Faithful .choice expr) {c d : Compiler}
    {u : Unit} (settled : c.Settled) (returns : c.current.kind = .kwReturn)
    (ran : returnValue expr c = .ok u d) :
    d.Settled ∧ ∃ t, Builds c t d ∧ Reads .one c.setting c.scope c.words t d.scope d.words := by
  simp only [returnValue, bind_eq_ok_iff, get_apply, EStateM.Result.ok.injEq, ↓existsAndEq,
    true_and] at ran
  have first := Compiler.words_of_kind settled returns (by decide)
  cases enclosing : c.enclosing with
  | none =>
    rw [enclosing] at ran
    exact absurd ran (fail_ne_ok _ _ _ _)
  | some f =>
    simp only [enclosing, bind_eq_ok_iff (x := advance), bind_eq_ok_iff (x := token), advance_apply,
      token_apply, EStateM.Result.ok.injEq, ↓existsAndEq, true_and, exists_const] at ran
    split at ran
    · rename_i ended
      simp only [bind_eq_ok_iff, emit_apply, expect_eq_ok_iff, emitJump_apply, EStateM.Result.ok.injEq,
        ↓existsAndEq, true_and, and_true, exists_const] at ran
      obtain ⟨_, rfl⟩ := ran
      have emits := (((EmitsInScope.advance c).trans (.emitted (i := .move eax .null)
        (by rintro ⟨⟩) _)).trans (.advance _)).trans
        (.push (i := .branch .jump f.returnLabel) (by rintro ⟨⟩) _)
      refine ⟨(Compiler.settled_advanced _).push _, .yield none f.returnLabel,
        emits.builds rfl (.none (by simp)), ?_⟩
      have second := Compiler.words_of_kind c.settled_advanced ended (by decide)
      have same : ((c.advanced.emitted (.move eax .null)).advanced).words =
          c.advanced.advanced.words := by
        simp [Compiler.words_advanced]
      rw [emits.scope, first, second, Compiler.words_push, same]
      exact .yield returns enclosing (.none ended)
    · simp only [bind_eq_ok_iff, line_apply, refuseAt_eq_ok_iff, expect_eq_ok_iff, emitJump_apply,
        EStateM.Result.ok.injEq, ↓existsAndEq, true_and, and_true, exists_const, Bool.not_eq_true',
        Bool.not_eq_false] at ran
      obtain ⟨type, v, inner, accepted, ended, rfl⟩ := ran
      obtain ⟨e, elaborates, rfl⟩ := faithful inner
      have emits := (((EmitsInScope.advance c).trans elaborates.emits).trans
        (.advance _)).trans (.push (i := .branch .jump f.returnLabel) (by rintro ⟨⟩) _)
      refine ⟨(Compiler.settled_advanced _).push _, .yield (some e) f.returnLabel,
        EmitsInScope.builds (by simpa [Stmt.code] using emits) rfl ?_, ?_⟩
      · simpa [Stmt.code] using elaborates.numbered
      · have fits : ∀ given ∈ some f.returnType, Ty.accepts false given e.type = true := by
          rintro _ ⟨rfl⟩
          exact accepted
        have result := result_ok c.settled_advanced elaborates fits ended
        rw [Compiler.advanced_scope] at result
        rw [emits.scope, first, Compiler.words_push]
        exact .yield returns enclosing result

theorem exitProgram_ok {expr : Compile Ty} (faithful : Faithful .choice expr) {c d : Compiler}
    {u : Unit} (settled : c.Settled) (exits : c.current.kind = .kwExit)
    (ran : exitProgram expr c = .ok u d) :
    d.Settled ∧ ∃ t, Builds c t d ∧ Reads .one c.setting c.scope c.words t d.scope d.words := by
  simp only [exitProgram, bind_eq_ok_iff (x := advance), bind_eq_ok_iff (x := token), advance_apply,
    token_apply, EStateM.Result.ok.injEq, ↓existsAndEq, true_and, exists_const] at ran
  have first := Compiler.words_of_kind settled exits (by decide)
  split at ran
  · rename_i ended
    simp only [bind_eq_ok_iff, emit_apply, advance_apply, EStateM.Result.ok.injEq, ↓existsAndEq,
      true_and, exists_const] at ran
    subst ran
    have emits := ((EmitsInScope.advance c).trans (.emitted (i := .unary .exit .null)
      (by rintro ⟨⟩) _)).trans (.advance _)
    refine ⟨Compiler.settled_advanced _, .exit none, emits.builds rfl (.none (by simp)), ?_⟩
    have second := Compiler.words_of_kind c.settled_advanced ended (by decide)
    have same : ((c.advanced.emitted (.unary .exit .null)).advanced).words =
        c.advanced.advanced.words := by
      simp [Compiler.words_advanced]
    rw [first, second, same, Compiler.advanced_scope, Compiler.emitted_scope,
      Compiler.advanced_scope]
    exact .exit exits (.none ended)
  · simp only [bind_eq_ok_iff, line_apply, get_apply, EStateM.Result.ok.injEq, ↓existsAndEq,
      true_and] at ran
    obtain ⟨type, v, inner, ran⟩ := ran
    obtain ⟨e, elaborates, rfl⟩ := faithful inner
    have emits := ((EmitsInScope.advance c).trans elaborates.emits).trans
      ((EmitsInScope.emitted (i := .unary .exit eax) (by rintro ⟨⟩) v).trans (.advance _))
    have same : ((v.emitted (.unary .exit eax)).advanced).words = v.advanced.words := by
      simp [Compiler.words_advanced]
    have setting : v.exitType = c.exitType := by
      have kept := congrArg Setting.exitType elaborates.emits.setting
      simpa [Compiler.setting] using kept.trans (congrArg Setting.exitType c.advanced_setting)
    have builds : Builds c (.exit (some e)) (v.emitted (.unary .exit eax)).advanced :=
      EmitsInScope.builds (by simpa [Stmt.code] using emits) rfl
        (by simpa [Stmt.code] using elaborates.numbered)
    -- whatever is asked of the value, it was checked
    have finish (accepted : ∀ type ∈ c.exitType, Ty.accepts false type e.type = true)
        (ended : v.current.kind = .semicolon) :
        Reads .one c.setting c.scope c.words (.exit (some e))
          (v.emitted (.unary .exit eax)).advanced.scope
          (v.emitted (.unary .exit eax)).advanced.words := by
      have result := result_ok c.settled_advanced elaborates accepted ended
      rw [Compiler.advanced_scope] at result
      rw [same, first, Compiler.advanced_scope, Compiler.emitted_scope, elaborates.emits.scope,
        Compiler.advanced_scope]
      exact .exit exits result
    have kind (i : Instruction) : (v.emitted i).current.kind = v.current.kind := by
      unfold Compiler.emitted
      split <;> rfl
    cases exitType : v.exitType with
    | none =>
      simp only [exitType, bind_eq_ok_iff, emit_apply, expect_eq_ok_iff, EStateM.Result.ok.injEq,
        ↓existsAndEq, true_and, exists_const, kind] at ran
      obtain ⟨ended, rfl⟩ := ran
      refine ⟨Compiler.settled_advanced _, _, builds, finish ?_ ended⟩
      rw [← setting, exitType]
      simp
    | some wanted =>
      simp only [exitType, refuseAt_eq_ok_iff, bind_eq_ok_iff, emit_apply, expect_eq_ok_iff,
        EStateM.Result.ok.injEq, ↓existsAndEq, true_and, exists_const, Bool.not_eq_true',
        Bool.not_eq_false, kind] at ran
      obtain ⟨accepted, ended, rfl⟩ := ran
      refine ⟨Compiler.settled_advanced _, _, builds, finish ?_ ended⟩
      rw [← setting, exitType]
      rintro _ ⟨rfl⟩
      exact accepted

-- A condition: an expression whose value is then tested.
theorem condition_ok {expr : Compile Ty} (faithful : Faithful .choice expr) {c d : Compiler}
    {u : Unit} (settled : c.Settled) (ran : condition expr c = .ok u d) :
    d.Settled ∧ ∃ e : Expr, EmitsInScope c d (e.code ++ [Instruction.unary .test eax]) ∧
      Numbered c.free (labelsOf e.code) d.free ∧ ReadsTest c.scope c.words e d.words := by
  simp only [condition, bind_eq_ok_iff, expect_eq_ok_iff, line_apply, refuseAt_eq_ok_iff,
    emit_apply, EStateM.Result.ok.injEq, ↓existsAndEq, true_and, and_true, exists_const,
    Bool.not_eq_true', Bool.not_eq_false] at ran
  obtain ⟨opened, type, v, inner, accepted, closed, rfl⟩ := ran
  obtain ⟨e, elaborates, rfl⟩ := faithful inner
  obtain ⟨later, value⟩ := elaborates.value c.settled_advanced
  refine ⟨Compiler.settled_advanced _, e, ?_, ?_, ?_⟩
  · have emits := (((EmitsInScope.advance c).trans elaborates.emits).trans
      (.emitted (i := .unary .test eax) (by rintro ⟨⟩) v)).trans (.advance _)
    simpa using emits
  · simpa using elaborates.numbered
  · have last := Compiler.words_of_kind (later.emitted (.unary .test eax)) closed (by decide)
    rw [Compiler.words_emitted] at last
    rw [last, Compiler.advanced_scope] at value
    rw [Compiler.words_of_kind settled opened (by decide)]
    exact .parens opened value closed (Ty.eq_of_accepts_true accepted)

theorem conditional_ok {statement : Compile Unit} {expr : Compile Ty}
    (compiles : Compiles (Reads .one) statement) (faithful : Faithful .choice expr)
    {c d : Compiler} {u : Unit} (settled : c.Settled) (asks : c.current.kind = .kwIf)
    (ran : conditional statement expr c = .ok u d) :
    d.Settled ∧ ∃ t, Builds c t d ∧ Reads .one c.setting c.scope c.words t d.scope d.words := by
  simp only [conditional, bind_eq_ok_iff, advance_apply, freshLabel_apply, emitJump_apply,
    token_apply, EStateM.Result.ok.injEq, ↓existsAndEq, true_and, exists_const] at ran
  obtain ⟨_, v, tested, _, w, first, ran⟩ := ran
  obtain ⟨vSettled, e, emits, eNumbered, test⟩ := condition_ok faithful c.settled_advanced tested
  have before : EmitsInScope c _ (Stmt.guard (some e) v.free) :=
    ((((EmitsInScope.advance c).trans emits).trans (.labelled v)).trans
      (.push (i := .branch (.jumpIf .equal) v.free) (by rintro ⟨⟩) _)).cast (by simp [Stmt.guard])
  obtain ⟨wSettled, a, builds, reads⟩ := compiles (vSettled.labelled.push _) first
  rw [before.setting, before.scope, Compiler.words_push, Compiler.words_labelled] at reads
  rw [Compiler.advanced_scope] at test
  rw [Compiler.words_of_kind settled asks (by decide)]
  have aNumbered := builds.numbered
  simp only [Compiler.free_advanced, Compiler.free_push, Compiler.free_labelled] at eNumbered aNumbered
  have guarded : Numbered c.free (labelsOf (Stmt.guard (some e) v.free)) v.free := by
    simpa [Stmt.guard] using eNumbered
  have branch : Numbered v.free (labelsOf a.code ++ [(v.free : Int)]) w.free :=
    Numbered.insert (by simpa using aNumbered)
  split at ran
  · rename_i alone
    simp only [emitLabel_apply, EStateM.Result.ok.injEq, true_and] at ran
    subst ran
    refine ⟨wSettled.push _, .ifThen e a v.free, ⟨?_, builds.deep, ?_⟩, ?_⟩
    · exact (before.toEmits.trans builds.emits).trans
        (EmitsInScope.push (i := .label v.free) (by rintro ⟨⟩) w).toEmits
    · simpa [Stmt.code] using guarded.append branch
    · refine .ifThen asks test reads ?_
      intro t first
      rw [← Compiler.current_eq_of_mem wSettled first]
      exact alone
  · rename_i divides
    rw [not_not] at divides
    simp only [bind_eq_ok_iff, advance_apply, freshLabel_apply, emitJump_apply, emitLabel_apply,
      EStateM.Result.ok.injEq, ↓existsAndEq, true_and, exists_const] at ran
    obtain ⟨_, x, second, rfl⟩ := ran
    have between : EmitsInScope w _ [.branch .jump w.advanced.free, .label v.free] :=
      (((EmitsInScope.advance w).trans (.labelled _)).trans
        (.push (i := .branch .jump w.advanced.free) (by rintro ⟨⟩) _)).trans
        (.push (i := .label v.free) (by rintro ⟨⟩) _)
    obtain ⟨xSettled, b, more, others⟩ :=
      compiles ((w.settled_advanced.labelled.push _).push _) second
    rw [between.setting, builds.emits.setting, before.setting, between.scope, Compiler.words_push,
      Compiler.words_push, Compiler.words_labelled] at others
    rw [Compiler.words_of_kind wSettled divides (by decide)] at reads
    have bNumbered := more.numbered
    simp only [Compiler.free_push, Compiler.free_labelled, Compiler.free_advanced] at bNumbered
    have otherwise : Numbered w.free (labelsOf b.code ++ [(w.free : Int)]) x.free :=
      Numbered.insert (by simpa using bNumbered)
    refine ⟨xSettled.push _, .ifElse e a b v.free w.advanced.free, ⟨?_, ?_, ?_⟩, ?_⟩
    · exact (((before.toEmits.trans builds.emits).trans between.toEmits).trans more.emits).trans
        (EmitsInScope.push (i := .label w.advanced.free) (by rintro ⟨⟩) x).toEmits
    · intro r member
      rcases List.mem_append.mp member with one | two
      · exact (builds.deep r one).trans (between.deeper.trans more.emits.deeper)
      · exact more.deep r two
    · simpa [Stmt.code] using (guarded.append branch).append otherwise
    · exact .ifElse asks test reads divides others

theorem loopBody_ok {statement : Compile Unit} (compiles : Compiles (Reads .one) statement)
    {done : Int} {c d : Compiler} {u : Unit} (settled : c.Settled)
    (ran : loopBody statement done c = .ok u d) :
    d.Settled ∧ ∃ a, Builds c a d ∧
      Reads .one { c.setting with loops := done :: c.loops } c.scope c.words a d.scope d.words := by
  simp only [loopBody, bind_eq_ok_iff, modify_apply, EStateM.Result.ok.injEq, ↓existsAndEq,
    true_and, exists_const] at ran
  obtain ⟨_, v, inner, rfl⟩ := ran
  obtain ⟨later, a, builds, reads⟩ := compiles (c := { c with loops := done :: c.loops }) settled inner
  have emits := builds.emits
  refine ⟨later, a, ⟨⟨?_, emits.stage, emits.deeper, emits.numbers, emits.added⟩, builds.deep,
    builds.numbered⟩, reads⟩
  have kept := emits.setting
  simp only [Compiler.setting, Setting.mk.injEq] at kept ⊢
  exact ⟨by simp [kept.1], kept.2⟩

theorem whileLoop_ok {statement : Compile Unit} {expr : Compile Ty}
    (compiles : Compiles (Reads .one) statement) (faithful : Faithful .choice expr)
    {c d : Compiler} {u : Unit} (settled : c.Settled) (starts : c.current.kind = .kwWhile)
    (ran : whileLoop statement expr c = .ok u d) :
    d.Settled ∧ ∃ t, Builds c t d ∧ Reads .one c.setting c.scope c.words t d.scope d.words := by
  simp only [whileLoop, bind_eq_ok_iff, advance_apply, freshLabel_apply, emitJump_apply,
    emitLabel_apply, EStateM.Result.ok.injEq, ↓existsAndEq, true_and, exists_const,
    Compiler.free_labelled, Compiler.free_advanced] at ran
  obtain ⟨_, v, tested, _, w, inner, rfl⟩ := ran
  have start : EmitsInScope c _ [.label c.free] :=
    (((EmitsInScope.advance c).trans (.labelled _)).trans (.labelled _)).trans
      (.push (i := .label c.free) (by rintro ⟨⟩) _)
  obtain ⟨vSettled, e, emits, eNumbered, test⟩ :=
    condition_ok faithful (c.settled_advanced.labelled.labelled.push _) tested
  have before : EmitsInScope c _ (.label c.free :: Stmt.guard (some e) (c.free + 1 : Nat)) :=
    ((start.trans emits).trans
      (.push (i := .branch (.jumpIf .equal) (c.free + 1 : Nat)) (by rintro ⟨⟩) v)).cast
      (by simp [Stmt.guard])
  obtain ⟨wSettled, a, builds, reads⟩ := loopBody_ok compiles (vSettled.push _) inner
  have rest : EmitsInScope w _ [.branch .jump c.free, .label (c.free + 1 : Nat)] :=
    (EmitsInScope.push (i := .branch .jump c.free) (by rintro ⟨⟩) w).trans
      (.push (i := .label (c.free + 1 : Nat)) (by rintro ⟨⟩) _)
  refine ⟨(wSettled.push _).push _, .whileLoop e a c.free (c.free + 1 : Nat),
    ⟨?_, builds.deep, ?_⟩, ?_⟩
  · exact ((before.toEmits.trans builds.emits).trans rest.toEmits)
  · have aNumbered := builds.numbered
    simp only [Compiler.free_push, Compiler.free_labelled, Compiler.free_advanced] at eNumbered aNumbered
    have inner : Numbered (c.free + 1 + 1) ((labelsOf e.code ++ labelsOf a.code) ++ []) w.free := by
      simpa using eNumbered.append aNumbered
    have whole := Numbered.insert (a := []) inner.insert
    simpa [Stmt.code, Stmt.guard] using whole
  · have setting := before.setting
    rw [start.scope, Compiler.words_push, Compiler.words_labelled, Compiler.words_labelled] at test
    rw [before.scope, Compiler.words_push, setting] at reads
    have loops : (v.push (.branch (.jumpIf .equal) (c.free + 1 : Nat))).loops = c.loops :=
      congrArg Setting.loops setting
    rw [loops] at reads
    rw [Compiler.words_of_kind settled starts (by decide)]
    exact .whileLoop starts test reads

theorem loopWhile_ok {statement : Compile Unit} {expr : Compile Ty}
    (compiles : Compiles (Reads .one) statement) (faithful : Faithful .choice expr)
    {c d : Compiler} {u : Unit} (settled : c.Settled) (starts : c.current.kind = .kwLoop)
    (ran : loopWhile statement expr c = .ok u d) :
    d.Settled ∧ ∃ t, Builds c t d ∧ Reads .one c.setting c.scope c.words t d.scope d.words := by
  simp only [loopWhile, bind_eq_ok_iff, advance_apply, freshLabel_apply, emitJump_apply,
    emitLabel_apply, expect_eq_ok_iff, EStateM.Result.ok.injEq, ↓existsAndEq, true_and, and_true,
    exists_const, Compiler.free_labelled, Compiler.free_advanced] at ran
  obtain ⟨_, v, inner, again, _, w, tested, ended, rfl⟩ := ran
  have start : EmitsInScope c _ [Instruction.label c.free] :=
    (((EmitsInScope.advance c).trans (.labelled _)).trans (.labelled _)).trans
      (.push (i := .label c.free) (by rintro ⟨⟩) _)
  obtain ⟨vSettled, a, builds, reads⟩ :=
    loopBody_ok compiles (c.settled_advanced.labelled.labelled.push _) inner
  obtain ⟨wSettled, e, emits, eNumbered, test⟩ := condition_ok faithful v.settled_advanced tested
  have rest : EmitsInScope v _
      (e.code ++ [Instruction.unary .test eax, .branch (.jumpIf .notEqual) c.free,
        .label (c.free + 1 : Nat)]) :=
    (((((EmitsInScope.advance v).trans emits).trans
      (.push (i := .branch (.jumpIf .notEqual) c.free) (by rintro ⟨⟩) w)).trans (.advance _)).trans
      (.push (i := .label (c.free + 1 : Nat)) (by rintro ⟨⟩) _)).cast (by simp)
  refine ⟨(Compiler.settled_advanced _).push _, .loopWhile a e c.free (c.free + 1 : Nat),
    ⟨?_, ?_, ?_⟩, ?_⟩
  · have whole := (start.toEmits.trans builds.emits).trans rest.toEmits
    simpa [Stmt.code] using whole
  · intro r member
    exact (builds.deep r member).trans rest.deeper
  · have aNumbered := builds.numbered
    simp only [Compiler.free_push, Compiler.free_labelled, Compiler.free_advanced] at eNumbered aNumbered
    have inner : Numbered (c.free + 1 + 1) ((labelsOf a.code ++ labelsOf e.code) ++ []) w.free := by
      simpa using aNumbered.append eNumbered
    have whole := Numbered.insert (a := []) inner.insert
    simpa [Stmt.code] using whole
  · have loops : ((c.advanced.labelled.labelled).push (.label c.free)).loops = c.loops :=
      congrArg Setting.loops start.setting
    rw [start.scope, start.setting, loops, Compiler.words_push, Compiler.words_labelled,
      Compiler.words_labelled, Compiler.words_of_kind vSettled again (by decide)] at reads
    have last := Compiler.words_of_kind
      (wSettled.push (.branch (.jumpIf .notEqual) c.free)) ended (by decide)
    rw [Compiler.words_push] at last
    rw [Compiler.advanced_scope, last] at test
    rw [Compiler.words_of_kind settled starts (by decide), rest.scope, Compiler.words_push]
    exact .loopWhile starts reads again test ended

end Compile

end ScalarScript
