import ScalarScript.Proofs.Source.Function
/-!
Compiling a `for` loop. Its step clause is passed over and compiled behind the body. Parentheses in
an expression come in pairs, so the clause ends at the parenthesis where the passing over stopped.
-/
namespace ScalarScript

open Stateful Compile

attribute [local simp] labelsOf_cons Instruction.unary Instruction.branch Instruction.label

-- The words from the parenthesis on that closes one more than were opened on the way.
def untilClosed : Nat → List Token → List Token
  | _, [] => []
  | nesting, t :: rest =>
    if t.kind = .rightParen then
      if nesting = 0 then t :: rest else untilClosed (nesting - 1) rest
    else if t.kind = .leftParen then untilClosed (nesting + 1) rest
    else untilClosed nesting rest

theorem untilClosed_opened {t : Token} (opened : t.kind = .leftParen) (nesting : Nat)
    (rest : List Token) : untilClosed nesting (t :: rest) = untilClosed (nesting + 1) rest := by
  simp [untilClosed, opened]

theorem untilClosed_closed {t : Token} (closed : t.kind = .rightParen) (nesting : Nat)
    (rest : List Token) : untilClosed (nesting + 1) (t :: rest) = untilClosed nesting rest := by
  simp [untilClosed, closed]

theorem untilClosed_end {t : Token} (closed : t.kind = .rightParen) (rest : List Token) :
    untilClosed 0 (t :: rest) = t :: rest := by
  simp [untilClosed, closed]

theorem untilClosed_other {t : Token} {kind : Kind} (other : t.kind = kind)
    (plain : kind ≠ .leftParen ∧ kind ≠ .rightParen) (nesting : Nat) (rest : List Token) :
    untilClosed nesting (t :: rest) = untilClosed nesting rest := by
  simp [untilClosed, other, plain]

theorem Level.Joins.plain {level : Level} {k : Kind} {a b e : Expr} (joins : level.Joins k a b e) :
    k ≠ .leftParen ∧ k ≠ .rightParen := by
  have powers : Compile.powers .leftParen = none ∧ Compile.powers .rightParen = none := ⟨rfl, rfl⟩
  have products : Compile.products .leftParen = none ∧ Compile.products .rightParen = none :=
    ⟨rfl, rfl⟩
  have comparisons : Compile.comparison? .leftParen = none ∧
      Compile.comparison? .rightParen = none := ⟨rfl, rfl⟩
  cases joins with
  | power known =>
    constructor <;> rintro rfl
    · cases powers.1.symm.trans known
    · cases powers.2.symm.trans known
  | product known =>
    constructor <;> rintro rfl
    · cases products.1.symm.trans known
    · cases products.2.symm.trans known
  | comparison known =>
    constructor <;> rintro rfl
    · cases comparisons.1.symm.trans known
    · cases comparisons.2.symm.trans known
  | add _ | concat _ | sub | conjunction | disjunction => decide

mutual

-- An expression opens and closes as many parentheses.
theorem Parses.balanced {scope : Scope} : {level : Level} → {words rest : List Token} →
    {e : Expr} → Parses scope level words e rest → (nesting : Nat) →
    untilClosed nesting words = untilClosed nesting rest
  | _, _, _, _, .number kind _, n => untilClosed_other kind (by decide) n _
  | _, _, _, _, .string kind, n => untilClosed_other kind (by decide) n _
  | _, _, _, _, .truth (.inl kind), n => untilClosed_other kind (by decide) n _
  | _, _, _, _, .truth (.inr kind), n => untilClosed_other kind (by decide) n _
  | _, _, _, _, .null kind, n => untilClosed_other kind (by decide) n _
  | _, _, _, _, .parens opened inner closed, n => by
    rw [untilClosed_opened opened, inner.balanced (n + 1), untilClosed_closed closed]
  | _, _, _, _, .var kind _ _, n => untilClosed_other kind (by decide) n _
  | _, _, _, _, .callNone kind opened _ closed, n => by
    rw [untilClosed_other kind (by decide), untilClosed_opened opened, untilClosed_closed closed]
  | _, _, _, _, .call kind opened _ given closed, n => by
    rw [untilClosed_other kind (by decide), untilClosed_opened opened, given.balanced (n + 1),
      untilClosed_closed closed]
  | _, _, _, _, .negate kind inner, n =>
    (untilClosed_other kind (by decide) n _).trans (inner.balanced n)
  | _, _, _, _, .not kind inner, n =>
    (untilClosed_other kind (by decide) n _).trans (inner.balanced n)
  | _, _, _, _, .lift _ inner, n => inner.balanced n
  | _, _, _, _, .join _ left joins right, n =>
    (left.balanced n).trans ((untilClosed_other rfl joins.plain n _).trans (right.balanced n))
  | _, _, _, _, .choose condition asks whenTrue divides whenFalse, n => by
    rw [condition.balanced n, untilClosed_other asks (by decide), whenTrue.balanced n,
      untilClosed_other divides (by decide), whenFalse.balanced n]

theorem ParsesArgs.balanced {scope : Scope} : {words rest : List Token} → {args : Args} →
    ParsesArgs scope words args rest → (nesting : Nat) →
    untilClosed nesting words = untilClosed nesting rest
  | _, _, _, .last given, n => given.balanced n
  | _, _, _, .more given comma others, n => by
    rw [given.balanced n, untilClosed_other comma (by decide), others.balanced n]

end

theorem ReadsSimple.balanced {scope : Scope} {words rest : List Token} {a : Stmt}
    (reads : ReadsSimple scope words a rest) (nesting : Nat) :
    untilClosed nesting words = untilClosed nesting rest := by
  cases reads with
  | assign named assigns _ _ reads _ =>
    rw [untilClosed_other named (by decide), untilClosed_other assigns (by decide),
      reads.parses.balanced]
  | expr reads => exact reads.parses.balanced nesting

theorem ReadsStep.balanced {scope : Scope} {words rest : List Token} {a : Stmt}
    (reads : ReadsStep scope words a rest) (nesting : Nat) :
    untilClosed nesting words = untilClosed nesting rest := by
  cases reads with
  | none => rfl
  | simple reads => exact reads.balanced nesting

-- Moves that add no code may stand before and behind the code of a tree.
theorem Builds.between {c m n d : Compiler} {t : Stmt} (before : EmitsInScope c m [])
    (builds : Builds m t n) (behind : EmitsInScope n d []) : Builds c t d := by
  refine ⟨?_, ?_, builds.numbered.widen before.numbers behind.numbers⟩
  · simpa using (before.toEmits.trans builds.emits).trans behind.toEmits
  · intro r member
    exact (builds.deep r member).trans behind.deeper

namespace Compile

-- Passing over the step clause stops at the parenthesis that closes it.
theorem skipStep_ok {steps nesting : Nat} {c d : Compiler} {u : Unit} (settled : c.Settled)
    (ran : skipStep steps nesting c = .ok u d) :
    EmitsInScope c d [] ∧ d.free = c.free ∧ d.Settled ∧ d.current.kind = .rightParen ∧
      d.words = untilClosed nesting c.words := by
  induction steps generalizing nesting c with
  | zero => exact absurd ran (fail_ne_ok _ _ _ _)
  | succ steps ih =>
    simp only [skipStep, bind_eq_ok_iff (x := token), token_apply, EStateM.Result.ok.injEq,
      ↓existsAndEq, true_and] at ran
    have onward {next : Nat} (more : c.current.kind ≠ .finish)
        (counts : untilClosed nesting (c.current :: c.advanced.words) =
          untilClosed next c.advanced.words)
        (ran : (advance >>= fun _ => skipStep steps next) c = .ok u d) :
        EmitsInScope c d [] ∧ d.free = c.free ∧ d.Settled ∧ d.current.kind = .rightParen ∧
          d.words = untilClosed nesting c.words := by
      simp only [bind_eq_ok_iff, advance_apply, EStateM.Result.ok.injEq, ↓existsAndEq, true_and,
        exists_const] at ran
      obtain ⟨emits, free, later, closed, words⟩ := ih c.settled_advanced ran
      refine ⟨(EmitsInScope.advance c).trans emits, by rw [free, c.free_advanced], later, closed, ?_⟩
      rw [words, Compiler.words_eq_cons settled more, counts]
    generalize here : c.current.kind = kind at ran
    split at ran
    · exact absurd ran (fail_ne_ok _ _ _ _)
    · exact onward (by rw [here]; decide) (untilClosed_opened here _ _) ran
    · split at ran
      · rename_i last
        cases ran
        refine ⟨.refl _, rfl, settled, here, ?_⟩
        rw [Compiler.words_of_kind settled here (by decide), last, untilClosed_end here]
      · rename_i inner
        obtain ⟨n, rfl⟩ := Nat.exists_eq_succ_of_ne_zero inner
        exact onward (by rw [here]; decide) (untilClosed_closed here _ _) ran
    · rename_i finish opened closed
      exact onward (by rw [here]; exact finish)
        (untilClosed_other here ⟨opened, closed⟩ _ _) ran

theorem forCondition_ok {expr : Compile Ty} (faithful : Faithful .choice expr) {done : Int}
    {c d : Compiler} {u : Unit} (settled : c.Settled) (ran : forCondition expr done c = .ok u d) :
    d.Settled ∧ ∃ e : Option Expr, EmitsInScope c d (Stmt.guard e done) ∧
      Numbered c.free (labelsOf (Stmt.guard e done)) d.free ∧
      ReadsGuard c.scope c.words e d.words := by
  simp only [forCondition, bind_eq_ok_iff (x := token), token_apply, EStateM.Result.ok.injEq,
    ↓existsAndEq, true_and] at ran
  split at ran
  · simp only [bind_eq_ok_iff, line_apply, refuseAt_eq_ok_iff, emit_apply, emitJump_apply,
      EStateM.Result.ok.injEq, ↓existsAndEq, true_and, exists_const, Bool.not_eq_true',
      Bool.not_eq_false] at ran
    obtain ⟨type, m, inner, accepted, rfl⟩ := ran
    obtain ⟨e, elaborates, rfl⟩ := faithful inner
    obtain ⟨later, value⟩ := elaborates.value settled
    refine ⟨(later.emitted _).push _, some e, ?_, ?_, ?_⟩
    · have emits := (elaborates.emits.trans (.emitted (i := .unary .test eax) (by rintro ⟨⟩) m)).trans
        (.push (i := .branch (.jumpIf .equal) done) (by rintro ⟨⟩) _)
      exact emits.cast (by simp [Stmt.guard])
    · simpa [Stmt.guard] using elaborates.numbered
    · rw [Compiler.words_push, Compiler.words_emitted]
      exact .test value (Ty.eq_of_accepts_true accepted)
  · cases ran
    exact ⟨settled, none, .refl _, .none (Nat.le_refl _), .none⟩

theorem forStep_ok {expr : Compile Ty} (faithful : Faithful .choice expr) {c d : Compiler}
    {u : Unit} (settled : c.Settled) (ran : forStep expr c = .ok u d) :
    d.Settled ∧ d.current.kind = .rightParen ∧
      ∃ a, Builds c a d ∧ d.scope = c.scope ∧ ReadsStep c.scope c.words a d.words := by
  simp only [forStep, bind_eq_ok_iff (x := token), token_apply, EStateM.Result.ok.injEq,
    ↓existsAndEq, true_and, ne_eq, ite_not] at ran
  split at ran
  · rename_i closed
    cases ran
    exact ⟨settled, closed, .skip, ⟨.refl _, by simp [Stmt.routines], .none (Nat.le_refl _)⟩, rfl,
      .none⟩
  · obtain ⟨_, m, inner, ran⟩ := bind_eq_ok_iff.mp ran
    simp only [bind_eq_ok_iff (x := token), token_apply, EStateM.Result.ok.injEq, ↓existsAndEq,
      true_and] at ran
    obtain ⟨later, a, builds, scope, reads⟩ := simple_ok faithful settled inner
    split at ran
    · rename_i closed
      cases ran
      exact ⟨later, closed, a, builds, scope, .simple reads⟩
    · exact absurd ran (fail_ne_ok _ _ _ _)

-- Compiled from where the passing over started, wherever the compiler was meanwhile, the step ends
-- at the words where the passing over stopped.
theorem forStep_stops {expr : Compile Ty} (faithful : Faithful .choice expr) {steps : Nat}
    {m n p q : Compiler} {u v : Unit} (settled : m.Settled)
    (skipped : skipStep steps 0 m = .ok u n)
    (stepped : forStep expr (p.settle m.ahead) = .ok v q) : q.words = n.words := by
  obtain ⟨_, _, nSettled, nClosed, nWords⟩ := skipStep_ok settled skipped
  obtain ⟨qSettled, closed, _, _, _, onward⟩ := forStep_ok faithful (p.settled_settle _) stepped
  have balanced := onward.balanced 0
  rw [p.words_settle, ← Compiler.words, ← nWords,
    Compiler.words_of_kind qSettled closed (by decide), untilClosed_end closed] at balanced
  rw [balanced, Compiler.words_of_kind qSettled closed (by decide)]

-- What a declaration turns out to be, once its name is read.
theorem declaration_eq_ok {statement : Compile Unit} {expr : Compile Ty} {steps : Nat}
    {allowFunction : Bool} {type : Scalar} {c d : Compiler} {b : Bool}
    (ran : declaration statement expr steps allowFunction type c = .ok b d) :
    c.advanced.current.kind = .identifier ∧
      ((b = true ∧ allowFunction = true ∧ c.advanced.advanced.current.kind = .leftParen ∧
          function statement steps type c.advanced.current.literal c.advanced.current.line
            c.advanced.advanced = .ok () d) ∨
        (b = false ∧ c.advanced.advanced.current.kind ≠ .leftParen ∧
          declarators expr type steps c.advanced.current.literal c.advanced.current.line
            c.advanced.advanced = .ok () d)) := by
  simp only [declaration, bind_eq_ok_iff (x := advance), advance_apply, bind_eq_ok_iff (x := line),
    line_apply, bind_eq_ok_iff (x := expectName), bind_eq_ok_iff (x := token), token_apply,
    EStateM.Result.ok.injEq, ↓existsAndEq, true_and, exists_const] at ran
  obtain ⟨name, m, read, ran⟩ := ran
  obtain ⟨named, rfl, rfl⟩ := expectName_eq_ok read
  refine ⟨named, ?_⟩
  split at ran
  · rename_i opened
    simp only [refuse_eq_ok_iff, bind_eq_ok_iff, pure_apply, EStateM.Result.ok.injEq,
      Bool.not_eq_true', Bool.not_eq_false] at ran
    obtain ⟨allowed, ⟨⟩, _, inner, rfl, rfl⟩ := ran
    exact .inl ⟨rfl, allowed, opened, inner⟩
  · rename_i other
    simp only [bind_eq_ok_iff, pure_apply, EStateM.Result.ok.injEq] at ran
    obtain ⟨⟨⟩, _, inner, rfl, rfl⟩ := ran
    exact .inr ⟨rfl, other, inner⟩

-- Variables of one type; the current token is the type.
theorem variables_ok {expr : Compile Ty} (faithful : Faithful .choice expr) {type : Scalar}
    {steps nameLine : Nat} {c d : Compiler} {u : Unit}
    (named : c.advanced.current.kind = .identifier)
    (ran : declarators expr type steps c.advanced.current.literal nameLine c.advanced.advanced =
      .ok u d) :
    d.Settled ∧ ∃ a, Builds c a d ∧ ReadsNames type c.scope c.advanced.words a d.scope d.words := by
  obtain ⟨later, a, builds, reads⟩ :=
    declarators_ok faithful c.advanced.settled_advanced named ran
  have before := (EmitsInScope.advance c).trans (.advance c.advanced)
  refine ⟨later, a, .between before builds (.refl d), ?_⟩
  rwa [Compiler.words_of_kind c.settled_advanced named (by decide), ← before.scope]

theorem forInit_ok {statement : Compile Unit} {expr : Compile Ty} {steps : Nat}
    (faithful : Faithful .choice expr) {c d : Compiler} {u : Unit} (settled : c.Settled)
    (ran : forInit statement expr steps c = .ok u d) :
    d.Settled ∧ ∃ a, Builds c a d ∧ ReadsInit c.scope c.words a d.scope d.words := by
  simp only [forInit, bind_eq_ok_iff (x := token), token_apply, EStateM.Result.ok.injEq,
    ↓existsAndEq, true_and] at ran
  cases scalar : c.current.kind.scalar? with
  | some type =>
    rw [scalar] at ran
    obtain ⟨b, inner⟩ := discard_eq_ok_iff.mp ran
    have real : c.current.kind ≠ .finish := by
      intro last
      simp [last, Kind.scalar?] at scalar
    obtain ⟨named, ⟨_, allowed, _⟩ | ⟨_, _, inner⟩⟩ := declaration_eq_ok inner
    · cases allowed
    · obtain ⟨later, a, builds, reads⟩ := variables_ok faithful named inner
      refine ⟨later, a, builds, ?_⟩
      rw [Compiler.words_eq_cons settled real]
      exact .names scalar reads
  | none =>
    simp only [scalar, ne_eq, ite_not] at ran
    split at ran
    · cases ran
      exact ⟨settled, .skip, ⟨.refl _, by simp [Stmt.routines], .none (Nat.le_refl _)⟩, .none⟩
    · obtain ⟨later, a, builds, scope, reads⟩ := simple_ok faithful settled ran
      refine ⟨later, a, builds, ?_⟩
      rw [scope]
      exact .simple reads

-- A `for` inside its block, behind the first semicolon.
theorem forRest_ok {statement : Compile Unit} {expr : Compile Ty} {steps : Nat}
    (compiles : Compiles (Reads .one) statement) (faithful : Faithful .choice expr)
    {c d : Compiler} {u : Unit} (settled : c.Settled)
    (ran : (do
      let top ← freshLabel
      let done ← freshLabel
      emitLabel top
      forCondition expr done
      expect .semicolon
      let step := (← get).ahead
      skipStep steps 0
      advance
      loopBody statement done
      let resume := (← get).ahead
      seek step
      forStep expr
      seek resume
      emitJump .jump top
      emitLabel done : Compile Unit) c = .ok u d) :
    d.Settled ∧ ∃ (e : Option Expr) (a step : Stmt) (top done : Int) (w x : Token)
      (third fourth : List Token),
      Emits c d (Instruction.label top :: Stmt.guard e done ++ a.code ++ step.code ++
        [Instruction.branch .jump top, .label done]) ∧
      (∀ r ∈ a.routines ++ step.routines, r.depth ≤ d.maxDepth) ∧
      Numbered c.free (top :: (labelsOf (Stmt.guard e done) ++ labelsOf a.code ++
        labelsOf step.code ++ [done])) d.free ∧
      ReadsGuard c.scope c.words e (w :: third) ∧ w.kind = .semicolon ∧
      ReadsStep d.scope third step (x :: fourth) ∧ x.kind = .rightParen ∧
      Reads .one { c.setting with loops := done :: c.loops } c.scope fourth a d.scope d.words := by
  simp only [bind_eq_ok_iff, freshLabel_apply, emitLabel_apply, get_apply, advance_apply,
    seek_apply, emitJump_apply, expect_eq_ok_iff, EStateM.Result.ok.injEq, ↓existsAndEq, true_and,
    and_true, exists_const, Compiler.free_labelled] at ran
  obtain ⟨_, m, tested, two, _, n, skipped, _, p, inner, _, q, stepped, rfl⟩ := ran
  have start : EmitsInScope c _ [.label c.free] :=
    ((EmitsInScope.labelled c).trans (.labelled _)).trans
      (.push (i := .label c.free) (by rintro ⟨⟩) _)
  obtain ⟨mSettled, e, emits, eNumbered, test⟩ :=
    forCondition_ok faithful (settled.labelled.labelled.push _) tested
  obtain ⟨silent, nFree, nSettled, nClosed, nWords⟩ := skipStep_ok m.settled_advanced skipped
  obtain ⟨pSettled, a, builds, reads⟩ := loopBody_ok compiles n.settled_advanced inner
  obtain ⟨qSettled, closed, step, more, qScope, onward⟩ :=
    forStep_ok faithful (p.settled_settle _) stepped
  have before := start.trans (emits.trans (((EmitsInScope.advance m).trans silent).trans
    (.advance n)))
  have rest : EmitsInScope q _ [.branch .jump c.free, .label (c.free + 1 : Nat)] :=
    ((EmitsInScope.settle q p.ahead).trans
      (.push (i := .branch .jump c.free) (by rintro ⟨⟩) _)).trans
      (.push (i := .label (c.free + 1 : Nat)) (by rintro ⟨⟩) _)
  have stepWords : (p.settle m.advanced.ahead).words = m.advanced.words := p.words_settle _
  have resumed : (q.settle p.ahead).words = p.words := q.words_settle _
  rw [stepWords, Compiler.settle_scope] at onward
  rw [Compiler.settle_scope] at qScope
  have same : q.current :: q.advanced.words = n.current :: n.advanced.words := by
    rw [← Compiler.words_of_kind qSettled closed (by decide),
      ← Compiler.words_of_kind nSettled nClosed (by decide)]
    exact forStep_stops faithful m.settled_advanced skipped stepped
  have scope := before.scope
  refine ⟨((q.settled_settle _).push _).push _, e, a, step, c.free, (c.free + 1 : Nat), m.current,
    q.current, m.advanced.words, q.advanced.words, ?_, ?_, ?_, ?_, two, ?_, closed, ?_⟩
  · have between := (EmitsInScope.settle p m.advanced.ahead).toEmits
    have whole := ((before.toEmits.trans builds.emits).trans between).trans
      (more.emits.trans rest.toEmits)
    simpa using whole
  · intro r member
    rcases List.mem_append.mp member with one | two
    · exact (builds.deep r one).trans (((EmitsInScope.settle p m.advanced.ahead).deeper.trans
        more.emits.deeper).trans rest.deeper)
    · exact (more.deep r two).trans rest.deeper
  · have aNumbered := builds.numbered
    have bNumbered := more.numbered
    simp only [Compiler.free_push, Compiler.free_labelled, Compiler.free_advanced, nFree,
      Compiler.free_settle] at eNumbered aNumbered bNumbered
    have parts : Numbered (c.free + 1 + 1) ((labelsOf (Stmt.guard e (c.free + 1 : Nat)) ++
        labelsOf a.code ++ labelsOf step.code) ++ []) q.free := by
      simpa using (eNumbered.append aNumbered).append bNumbered
    have whole := Numbered.insert (a := []) parts.insert
    simpa using whole
  · rw [start.scope, Compiler.words_push, Compiler.words_labelled, Compiler.words_labelled,
      Compiler.words_of_kind mSettled two (by decide)] at test
    exact test
  · rw [Compiler.words_of_kind qSettled closed (by decide)] at onward
    rw [rest.scope, qScope]
    exact onward
  · rw [rest.scope, qScope, Compiler.words_push, Compiler.words_push, resumed]
    have fourth : q.advanced.words = n.advanced.words := (List.cons.inj same).2
    have loops : n.advanced.loops = c.loops := congrArg Setting.loops before.setting
    rw [fourth, ← scope, ← before.setting, ← loops]
    exact reads

theorem forLoop_ok {statement : Compile Unit} {expr : Compile Ty} {steps : Nat}
    (compiles : Compiles (Reads .one) statement) (faithful : Faithful .choice expr)
    {c d : Compiler} {u : Unit} (settled : c.Settled) (starts : c.current.kind = .kwFor)
    (ran : forLoop statement expr steps c = .ok u d) :
    d.Settled ∧ ∃ t, Builds c t d ∧ Reads .one c.setting c.scope c.words t d.scope d.words := by
  simp only [forLoop, bind_eq_ok_iff (x := advance), advance_apply, bind_eq_ok_iff (x := expect _),
    expect_eq_ok_iff, bind_eq_ok_iff (x := innermost), innermost_apply, within_eq_ok_iff,
    bind_eq_ok_iff (x := forInit _ _ _), EStateM.Result.ok.injEq, ↓existsAndEq, true_and, and_true,
    exists_const, Compiler.advanced_scope] at ran
  obtain ⟨opened, n, ⟨_, m, before, one, ran⟩, rfl⟩ := ran
  have entered : (c.advanced.advanced.inside c.scope.top.block).Settled :=
    c.advanced.settled_advanced
  obtain ⟨mSettled, init, builds, reads⟩ := forInit_ok faithful entered before
  obtain ⟨nSettled, e, a, step, top, done, w, x, third, fourth, emits, deep, numbered, test, two,
    onward, closed, body⟩ := forRest_ok compiles faithful m.settled_advanced ran
  have start := (EmitsInScope.advance c).trans (.advance c.advanced)
  have inner := (builds.emits.trans (EmitsInScope.advance m).toEmits).trans emits
  refine ⟨nSettled, .forLoop init e a step top done, ⟨?_, ?_, ?_⟩, ?_⟩
  · have whole := start.toEmits.trans inner.within
    simpa [Stmt.code] using whole
  · intro r member
    rw [Stmt.routines, List.append_assoc] at member
    rcases List.mem_append.mp member with first | others
    · exact (builds.deep r first).trans ((EmitsInScope.advance m).deeper.trans emits.deeper)
    · exact deep r others
  · have first := builds.numbered
    rw [Compiler.free_advanced] at numbered
    change Numbered c.advanced.advanced.free _ _ at first
    simp only [Compiler.free_advanced] at first
    change Numbered c.free _ n.free
    simpa [Stmt.code] using first.append numbered
  · have insideScope : (c.advanced.advanced.inside c.scope.top.block).scope =
        c.scope.top.block :: c.scope := by
      change c.scope.top.block :: c.advanced.advanced.scope = _
      rw [Compiler.advanced_scope, Compiler.advanced_scope]
    have setting : m.advanced.setting = c.setting :=
      (m.advanced_setting.trans builds.emits.setting).trans start.setting
    have loops : m.advanced.loops = c.loops := congrArg Setting.loops setting
    rw [insideScope, Compiler.words_of_kind mSettled one (by decide)] at reads
    change ReadsInit _ c.advanced.advanced.words _ _ _ at reads
    rw [Compiler.advanced_scope] at test
    rw [Compiler.advanced_scope, setting, loops] at body
    rw [Compiler.words_of_kind settled starts (by decide),
      Compiler.words_of_kind c.settled_advanced opened (by decide)]
    exact .forLoop starts opened reads one test two onward closed body

end Compile

end ScalarScript
