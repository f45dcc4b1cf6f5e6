import ScalarScript.Proofs.Number.Finite
import ScalarScript.Proofs.Source.Emission
import ScalarScript.Proofs.Source.Grammar
/-!
Compiling an expression: wherever it succeeds, the words read are an expression of the grammar, and
the code added is the code of its tree, whose operators get operands of their types.
-/
namespace ScalarScript

open Stateful Compile

-- Between the two states the code of the tree was added, and its words were read.
structure Elaborates (level : Level) (c : Compiler) (e : Expr) (d : Compiler) : Prop where
  emits : EmitsInScope c d e.code
  typed : e.Typed
  numbered : Numbered c.free (labelsOf e.code) d.free
  parses : c.Settled → d.Settled ∧ Parses c.scope level c.words e d.words

-- An action that compiles the expressions of a level and yields their types.
def Faithful (level : Level) (x : Compile Ty) : Prop :=
  ∀ ⦃c d : Compiler⦄ ⦃type : Ty⦄, x c = .ok type d → ∃ e, Elaborates level c e d ∧ e.type = type

theorem Faithful.lift {level lower : Level} {x : Compile Ty} (below : level.below = some lower)
    (faithful : Faithful lower x) : Faithful level x := by
  intro c d type ran
  obtain ⟨e, elaborates, typed⟩ := faithful ran
  refine ⟨e, ⟨elaborates.emits, elaborates.typed, elaborates.numbered, ?_⟩, typed⟩
  intro settled
  obtain ⟨later, parses⟩ := elaborates.parses settled
  exact ⟨later, .lift below parses⟩

theorem Scope.resolve?_name {scope : Scope} {name : String} {s : Symbol}
    (found : scope.resolve? name = some s) : s.name = name := by
  obtain ⟨_, _, t, rfl, here, _⟩ := List.findSome?_eq_some_iff.mp found
  simpa using List.find?_some here

attribute [local simp] labelsOf_cons Instruction.move Instruction.binary Instruction.unary
  Instruction.push Instruction.pop Instruction.branch Instruction.label regroup

namespace Compile

-- A literal: one word, and a move of its value.
theorem elaborates_constant {c : Compiler} {v : Value} (known : v.isNull = true → v = .null)
    (more : c.current.kind ≠ .finish)
    (parses : ∀ rest, Parses c.scope .primary (c.current :: rest) (.constant v) rest) :
    Elaborates .primary c (.constant v)
      (c.advanced.emitted (.move eax (.ofValue v))) := by
  refine ⟨?_, known, .none (by simp), ?_⟩
  · exact (EmitsInScope.advance c).trans (.emitted (by rintro ⟨⟩) _)
  · intro settled
    refine ⟨c.settled_advanced.emitted _, ?_⟩
    rw [Compiler.words_eq_cons settled more, Compiler.words_emitted]
    exact parses _

-- Between the two states the arguments were computed and pushed.
structure ElaboratesArgs (c : Compiler) (args : Args) (d : Compiler) : Prop where
  emits : EmitsInScope c d args.code
  typed : args.Typed
  numbered : Numbered c.free (labelsOf args.code) d.free
  parses : c.Settled → d.Settled ∧ ParsesArgs c.scope c.words args d.words

theorem arguments_ok {self : Compile Ty} (faithful : Faithful .choice self) {name : String}
    {params : List Ty} {steps count n : Nat} {c d : Compiler}
    (ran : arguments self name params steps count c = .ok n d) :
    ∃ args, ElaboratesArgs c args d ∧ n = count + args.types.length ∧
      List.Forall₂ (fun wanted given => Ty.accepts false wanted given = true)
        ((params.drop count).take args.types.length) args.types := by
  induction steps generalizing count c with
  | zero => exact absurd ran (fail_ne_ok _ _ _ _)
  | succ steps ih =>
    simp only [arguments, bind_eq_ok_iff, line_apply, EStateM.Result.ok.injEq, ↓existsAndEq,
      true_and] at ran
    obtain ⟨type, middle, first, ran⟩ := ran
    obtain ⟨e, elaborates, rfl⟩ := faithful first
    cases position : params[count]? with
    | none =>
      rw [position] at ran
      exact absurd ran (failAt_ne_ok _ _ _ _ _)
    | some wanted =>
      simp only [position, refuseAt_eq_ok_iff, bind_eq_ok_iff, emit_apply, accept_eq_ok_iff,
        EStateM.Result.ok.injEq, Bool.not_eq_true', Bool.not_eq_false, ↓existsAndEq, true_and,
        exists_const] at ran
      obtain ⟨accepted, more, next, comma, ran⟩ := ran
      have here : params.drop count = wanted :: params.drop (count + 1) := by
        obtain ⟨bound, rfl⟩ := List.getElem?_eq_some_iff.mp position
        exact List.drop_eq_getElem_cons bound
      have pushed : EmitsInScope c (middle.emitted (.push eax)) (e.code ++ [Instruction.push eax]) :=
        elaborates.emits.trans (.emitted (by rintro ⟨⟩) middle)
      rcases comma with ⟨comma, rfl, rfl⟩ | ⟨_, rfl, rfl⟩
      · simp only [if_true] at ran
        obtain ⟨args, others, rfl, accepts⟩ := ih ran
        have inScope : (middle.emitted (.push eax)).advanced.scope = c.scope := by
          rw [Compiler.advanced_scope, pushed.scope]
        refine ⟨.cons e args, ⟨?_, ⟨elaborates.typed, others.typed⟩, ?_, ?_⟩, ?_, ?_⟩
        · have emits := (pushed.trans (.advance _)).trans others.emits
          simpa [Args.code] using emits
        · have later := others.numbered
          simp only [Compiler.free_advanced, Compiler.free_emitted] at later
          simpa [Args.code] using elaborates.numbered.append later
        · intro settled
          obtain ⟨later, parses⟩ := elaborates.parses settled
          obtain ⟨last, parsesArgs⟩ := others.parses (Compiler.settled_advanced _)
          have word := Compiler.words_eq_cons (later.emitted (.push eax))
            (by rw [comma]; decide)
          rw [Compiler.words_emitted] at word
          rw [word] at parses
          rw [inScope] at parsesArgs
          exact ⟨last, .more parses comma parsesArgs⟩
        · simp only [Args.types, List.length_cons]
          omega
        · simp only [Args.types, List.length_cons, here, List.take_succ_cons]
          exact .cons accepted accepts
      · simp only [Bool.false_eq_true, if_false, pure_apply, EStateM.Result.ok.injEq] at ran
        obtain ⟨rfl, rfl⟩ := ran
        refine ⟨.cons e .nil, ⟨by simpa [Args.code] using pushed, ⟨elaborates.typed, trivial⟩,
          by simpa [Args.code] using elaborates.numbered, ?_⟩, rfl, ?_⟩
        · intro settled
          obtain ⟨later, parses⟩ := elaborates.parses settled
          exact ⟨later.emitted _, by rw [Compiler.words_emitted]; exact .last parses⟩
        · simp only [Args.types, List.length_cons, List.length_nil, here, List.take_succ_cons,
            List.take_zero]
          exact .cons accepted .nil

-- The closing parenthesis of a call, the number of its arguments, and the call itself.
theorem finishCall_ok {symbol : Symbol} {name : String} {l count : Nat} {c d : Compiler} {type : Ty}
    (named : symbol.name = name)
    (ran : (do
      expect .rightParen
      if count ≠ symbol.params.length then
        failAt l (.notEnoughArguments name symbol.params.length count)
      if symbol.isExternal then emit (.hostCall symbol.index name)
      else emit (.call symbol.label name)
      return symbol.returnType : Compile Ty) c = .ok type d) :
    c.current.kind = .rightParen ∧ count = symbol.params.length ∧ type = symbol.returnType ∧
      d = c.advanced.emitted symbol.callInstruction := by
  simp only [bind_eq_ok_iff, expect_eq_ok_iff, refuseAt_eq_ok_iff, ↓existsAndEq, exists_const,
    and_true, ne_eq, Decidable.not_not] at ran
  obtain ⟨closed, enough, ran⟩ := ran
  refine ⟨closed, enough, ?_⟩
  subst named
  by_cases host : symbol.isExternal = true
  · simp only [host, if_true, bind_eq_ok_iff, emit_apply, pure_apply, EStateM.Result.ok.injEq,
      ↓existsAndEq, true_and, exists_const] at ran
    exact ⟨ran.1.symm, by rw [Symbol.callInstruction, if_pos host, ran.2]⟩
  · simp only [host, if_false, bind_eq_ok_iff, emit_apply, pure_apply, EStateM.Result.ok.injEq,
      ↓existsAndEq, true_and, exists_const, Bool.false_eq_true] at ran
    exact ⟨ran.1.symm, by rw [Symbol.callInstruction, if_neg host, ran.2]⟩

theorem callInstruction_active (s : Symbol) : ¬ s.callInstruction.opcode.isMark = true := by
  unfold Symbol.callInstruction
  split <;> rintro ⟨⟩

theorem labelsOf_callInstruction (s : Symbol) : labelsOf [s.callInstruction] = [] := by
  unfold Symbol.callInstruction
  split <;> rfl

theorem call_ok {self : Compile Ty} (faithful : Faithful .choice self) {steps : Nat}
    {c d : Compiler} {type : Ty} (name : c.current.kind = .identifier)
    (paren : c.following = .leftParen) (ran : call self steps c = .ok type d) :
    ∃ e, Elaborates .primary c e d ∧ e.type = type := by
  simp only [call, bind_eq_ok_iff, token_apply, resolve?_apply, EStateM.Result.ok.injEq,
    ↓existsAndEq, true_and] at ran
  cases found : c.scope.resolve? c.current.literal with
  | none =>
    rw [found] at ran
    exact absurd ran (failUndefined_ne_ok _ _ _ _ _ _)
  | some symbol =>
    have named := Scope.resolve?_name found
    simp only [found, refuse_eq_ok_iff, bind_eq_ok_iff (x := advance), advance_apply,
      EStateM.Result.ok.injEq, ↓existsAndEq, true_and, exists_const, Bool.not_eq_true',
      Bool.not_eq_false] at ran
    obtain ⟨function, ran⟩ := ran
    generalize entered : c.advanced.advanced = u at ran
    have inScope : u.scope = c.scope := by simp [← entered]
    have settled : u.Settled := entered ▸ Compiler.settled_advanced _
    have empty : EmitsInScope c u [] := entered ▸ (EmitsInScope.advance c).trans (.advance _)
    -- the name and the opening parenthesis
    have opened : c.Settled → ∃ t, t.kind = .leftParen ∧ c.words = c.current :: t :: u.words := by
      intro first
      rw [Compiler.following_eq] at paren
      have second := Compiler.words_eq_cons c.settled_advanced (by rw [paren]; decide)
      rw [entered] at second
      refine ⟨_, paren, ?_⟩
      rw [Compiler.words_eq_cons first (by rw [name]; decide), second]
    rw [bind_of_ok (token_apply u)] at ran
    split at ran
    · rename_i closed
      rw [bind_of_ok (pure_apply 0 u)] at ran
      obtain ⟨_, none, rfl, rfl⟩ := finishCall_ok named ran
      have free : u.free = c.free := by simp [← entered]
      refine ⟨.call symbol .nil, ⟨?_, ?_, ?_, ?_⟩, rfl⟩
      · have emits := (empty.trans (.advance u)).trans
          (.emitted (callInstruction_active symbol) _)
        simpa [Expr.code, Args.code] using emits
      · refine ⟨function, trivial, ?_⟩
        rw [List.length_eq_zero_iff.mp none.symm]
        exact .nil
      · rw [Expr.code, Args.code, List.nil_append, labelsOf_callInstruction]
        exact .none (by simp [free])
      · intro first
        obtain ⟨t, paren, words⟩ := opened first
        refine ⟨u.settled_advanced.emitted _, ?_⟩
        rw [words, Compiler.words_eq_cons settled (by rw [closed]; decide), Compiler.words_emitted]
        exact .callNone name paren found closed
    · obtain ⟨count, v, given, ran⟩ := bind_eq_ok_iff.mp ran
      obtain ⟨args, elaborates, rfl, accepts⟩ := arguments_ok faithful given
      obtain ⟨closed, enough, rfl, rfl⟩ := finishCall_ok named ran
      have free : u.free = c.free := by simp [← entered]
      refine ⟨.call symbol args, ⟨?_, ?_, ?_, ?_⟩, rfl⟩
      · have emits := (empty.trans elaborates.emits).trans ((EmitsInScope.advance v).trans
          (.emitted (callInstruction_active symbol) _))
        simpa [Expr.code] using emits
      · rw [Nat.zero_add] at enough
        rw [enough, List.drop_zero, List.take_length] at accepts
        exact ⟨function, elaborates.typed, accepts⟩
      · rw [Expr.code, labelsOf_append, labelsOf_callInstruction, List.append_nil]
        simpa [free] using elaborates.numbered
      · intro first
        obtain ⟨t, paren, words⟩ := opened first
        obtain ⟨later, parses⟩ := elaborates.parses settled
        refine ⟨v.settled_advanced.emitted _, ?_⟩
        rw [Compiler.words_eq_cons later (by rw [closed]; decide), inScope] at parses
        rw [words, Compiler.words_emitted]
        exact .call name paren found parses closed

theorem primary_ok {self : Compile Ty} (faithful : Faithful .choice self) (steps : Nat) :
    Faithful .primary (primary self steps) := by
  intro c d type ran
  simp only [primary, bind_eq_ok_iff, token_apply, EStateM.Result.ok.injEq, ↓existsAndEq,
    true_and] at ran
  cases kind : c.current.kind
  case number =>
    simp only [kind] at ran
    cases read : Number.parse? c.current.literal with
    | none =>
      rw [read] at ran
      exact absurd ran (fail_ne_ok _ _ _ _)
    | some x =>
      simp only [read, loadValue, bind_eq_ok_iff, advance_apply, emit_apply, pure_apply,
        EStateM.Result.ok.injEq, ↓existsAndEq, true_and, exists_const] at ran
      obtain ⟨rfl, rfl⟩ := ran
      have finite := Number.isFinite_of_parse? read
      refine ⟨_, elaborates_constant ?_ (by rw [kind]; decide) fun _ => .number kind read, rfl⟩
      simp [Value.number, finite, Value.isNull]
  case string =>
    simp only [kind, loadValue, bind_eq_ok_iff, advance_apply, emit_apply, pure_apply,
      EStateM.Result.ok.injEq, ↓existsAndEq, true_and, exists_const] at ran
    obtain ⟨rfl, rfl⟩ := ran
    exact ⟨_, elaborates_constant (by simp [Value.text, Value.isNull]) (by rw [kind]; decide)
      fun _ => .string kind, rfl⟩
  case kwTrue =>
    simp only [kind, loadValue, bind_eq_ok_iff, advance_apply, emit_apply, pure_apply,
      EStateM.Result.ok.injEq, ↓existsAndEq, true_and, exists_const] at ran
    obtain ⟨rfl, rfl⟩ := ran
    refine ⟨_, elaborates_constant (by simp [Value.truth, Value.isNull]) (by rw [kind]; decide) ?_,
      rfl⟩
    intro rest
    have parses : Parses c.scope .primary (c.current :: rest) _ rest := .truth (.inl kind)
    rwa [kind] at parses
  case kwFalse =>
    simp only [kind, loadValue, bind_eq_ok_iff, advance_apply, emit_apply, pure_apply,
      EStateM.Result.ok.injEq, ↓existsAndEq, true_and, exists_const] at ran
    obtain ⟨rfl, rfl⟩ := ran
    refine ⟨_, elaborates_constant (by simp [Value.truth, Value.isNull]) (by rw [kind]; decide) ?_,
      rfl⟩
    intro rest
    have parses : Parses c.scope .primary (c.current :: rest) _ rest := .truth (.inr kind)
    rwa [kind] at parses
  case kwNull =>
    simp only [kind, loadValue, bind_eq_ok_iff, advance_apply, emit_apply, pure_apply,
      EStateM.Result.ok.injEq, ↓existsAndEq, true_and, exists_const] at ran
    obtain ⟨rfl, rfl⟩ := ran
    exact ⟨_, elaborates_constant (fun _ => rfl) (by rw [kind]; decide) fun _ => .null kind, rfl⟩
  case leftParen =>
    simp only [kind, bind_eq_ok_iff, advance_apply, expect_eq_ok_iff, pure_apply,
      EStateM.Result.ok.injEq, ↓existsAndEq, true_and, exists_const, and_true] at ran
    obtain ⟨u, inner, closed, rfl⟩ := ran
    obtain ⟨e, elaborates, rfl⟩ := faithful inner
    have inScope : c.advanced.scope = c.scope := c.advanced_scope
    refine ⟨e, ⟨?_, elaborates.typed, by simpa using elaborates.numbered, ?_⟩, rfl⟩
    · have emits := ((EmitsInScope.advance c).trans elaborates.emits).trans
        (.advance u)
      simpa using emits
    · intro settled
      obtain ⟨later, parses⟩ := elaborates.parses c.settled_advanced
      rw [Compiler.words_eq_cons later (by rw [closed]; decide), inScope] at parses
      refine ⟨u.settled_advanced, ?_⟩
      rw [Compiler.words_eq_cons settled (by rw [kind]; decide)]
      exact .parens kind parses closed
  case identifier =>
    simp only [kind, bind_eq_ok_iff, get_apply, EStateM.Result.ok.injEq, ↓existsAndEq, true_and]
      at ran
    split at ran
    · rename_i paren
      exact call_ok faithful kind paren ran
    · rename_i alone
      simp only [bind_eq_ok_iff, resolve?_apply, EStateM.Result.ok.injEq, ↓existsAndEq, true_and]
        at ran
      cases found : c.scope.resolve? c.current.literal with
      | none =>
        rw [found] at ran
        exact absurd ran (failUndefined_ne_ok _ _ _ _ _ _)
      | some symbol =>
        simp only [found, refuse_eq_ok_iff, bind_eq_ok_iff, advance_apply, emit_apply, pure_apply,
          EStateM.Result.ok.injEq, ↓existsAndEq, true_and, exists_const, Bool.not_eq_true] at ran
        obtain ⟨plain, rfl, rfl⟩ := ran
        refine ⟨.var symbol, ⟨?_, plain, .none (by simp), ?_⟩, rfl⟩
        · exact (EmitsInScope.advance c).trans
            (.emitted (by rintro ⟨⟩) _)
        · intro settled
          refine ⟨c.settled_advanced.emitted _, ?_⟩
          rw [Compiler.words_eq_cons settled (by rw [kind]; decide), Compiler.words_emitted]
          refine .var kind ?_ found
          intro u first paren
          rw [Compiler.following_eq, Compiler.current_eq_of_mem c.settled_advanced first] at alone
          exact alone paren
  all_goals
    simp only [kind] at ran
    exact absurd ran (fail_ne_ok _ _ _ _)

theorem Ty.eq_of_accepts_true {a b : Ty} (accepted : Ty.accepts true a b = true) : b = a := by
  simp only [Ty.accepts, Bool.not_true, Bool.false_and, Bool.or_false, beq_iff_eq] at accepted
  exact accepted.symm

-- An operator in front of another expression of the level.
theorem elaborates_unary {op : UnaryOp} {e : Expr} {c d : Compiler}
    (inner : Elaborates .unary c.advanced e d) (typed : e.type = op.resultType)
    (more : c.current.kind ≠ .finish)
    (parses : ∀ {words rest}, Parses c.scope .unary words e rest →
      Parses c.scope .unary (c.current :: words) (.unary op e) rest) :
    Elaborates .unary c (.unary op e) (d.emitted (.unary (.unary op) eax)) := by
  have inScope : c.advanced.scope = c.scope := c.advanced_scope
  refine ⟨?_, ⟨inner.typed, typed⟩, by simpa [Expr.code] using inner.numbered, ?_⟩
  · have emits := ((EmitsInScope.advance c).trans inner.emits).trans
      (.emitted (i := .unary (.unary op) eax) (by rintro ⟨⟩) d)
    simpa [Expr.code] using emits
  · intro settled
    obtain ⟨later, inside⟩ := inner.parses c.settled_advanced
    refine ⟨later.emitted _, ?_⟩
    rw [Compiler.words_eq_cons settled more, Compiler.words_emitted]
    exact parses (inScope ▸ inside)

theorem unary_ok {x : Compile Ty} (faithful : Faithful .primary x) (steps : Nat) :
    Faithful .unary (unary x steps) := by
  induction steps with
  | zero =>
    intro c d type ran
    exact absurd ran (fail_ne_ok _ _ _ _)
  | succ steps ih =>
    intro c d type ran
    simp only [unary, bind_eq_ok_iff, token_apply, EStateM.Result.ok.injEq, ↓existsAndEq,
      true_and] at ran
    by_cases minus : c.current.kind = .minus
    · simp only [minus, bind_eq_ok_iff, advance_apply, refuseAt_eq_ok_iff, emit_apply, pure_apply,
        EStateM.Result.ok.injEq, ↓existsAndEq, true_and, exists_const, Bool.not_eq_true',
        Bool.not_eq_false] at ran
      obtain ⟨given, u, inner, accepted, rfl, rfl⟩ := ran
      obtain ⟨e, elaborates, rfl⟩ := ih inner
      exact ⟨.unary .negate e, elaborates_unary elaborates (Ty.eq_of_accepts_true accepted)
        (by rw [minus]; decide) (.negate minus), rfl⟩
    · by_cases bang : c.current.kind = .bang
      · simp only [bang, bind_eq_ok_iff, advance_apply, refuseAt_eq_ok_iff, emit_apply, pure_apply,
          EStateM.Result.ok.injEq, ↓existsAndEq, true_and, exists_const, Bool.not_eq_true',
          Bool.not_eq_false] at ran
        obtain ⟨given, u, inner, accepted, rfl, rfl⟩ := ran
        obtain ⟨e, elaborates, rfl⟩ := ih inner
        exact ⟨.unary .not e, elaborates_unary elaborates (Ty.eq_of_accepts_true accepted)
          (by rw [bang]; decide) (.not bang), rfl⟩
      · have plain : x c = .ok type d := by
          cases kind : c.current.kind <;> simp_all only [reduceCtorEq, not_false_eq_true]
        exact faithful.lift rfl plain

-- Two operands and what an operator of the level makes of them.
theorem elaborates_join {level lower : Level} {c₀ c u v d : Compiler} {a b e : Expr}
    {middle tail : List Instruction} (below : level.below = some lower)
    (left : Elaborates level c₀ a c) (more : c.current.kind ≠ .finish)
    (between : EmitsInScope c u middle)
    (started : u.Settled ∧ u.words = c.advanced.words)
    (right : Elaborates lower u b v) (after : EmitsInScope v d tail) (kept : d.ahead = v.ahead)
    (joins : level.Joins c.current.kind a b e) (typed : e.Typed)
    (numbers : Numbered u.free (labelsOf b.code) v.free →
      Numbered c.free (labelsOf (middle ++ b.code ++ tail)) d.free)
    (code : e.code = a.code ++ (middle ++ b.code ++ tail)) : Elaborates level c₀ e d := by
  have inScope : u.scope = c₀.scope := between.scope.trans left.emits.scope
  refine ⟨?_, typed, ?_, ?_⟩
  · rw [code]
    exact left.emits.trans ((between.trans right.emits).trans after)
  · rw [code, labelsOf_append]
    exact left.numbered.append (numbers right.numbered)
  · intro settled
    obtain ⟨later, first⟩ := left.parses settled
    obtain ⟨last, second⟩ := right.parses started.1
    rw [Compiler.words_eq_cons later more, ← started.2] at first
    rw [inScope] at second
    refine ⟨?_, ?_⟩
    · unfold Compiler.Settled
      rw [kept]
      exact last
    · have same : d.words = v.words := by rw [Compiler.words, kept, Compiler.words]
      rw [same]
      exact .join below first joins second

theorem rightOperand_ok {x : Compile Ty} {c d : Compiler} {type : Ty} {l : Nat}
    (ran : rightOperand x c = .ok (type, l) d) :
    ∃ u, x (c.emitted (.push eax)) = .ok type u ∧
      d = (u.emitted (.move ebx eax)).emitted (.pop eax) := by
  simp only [rightOperand, bind_eq_ok_iff, emit_apply, line_apply, pure_apply,
    EStateM.Result.ok.injEq, Prod.mk.injEq, ↓existsAndEq, true_and, exists_const] at ran
  obtain ⟨u, inner, _, rfl⟩ := ran
  exact ⟨u, inner, rfl⟩

theorem emits_regroup (c : Compiler) :
    EmitsInScope c ((c.emitted (.move ebx eax)).emitted (.pop eax)) regroup :=
  (EmitsInScope.emitted (i := .move ebx eax) (by rintro ⟨⟩) c).trans
    (.emitted (by rintro ⟨⟩) _)

theorem emits_pushLeft (c : Compiler) :
    EmitsInScope c (c.advanced.emitted (.push eax)) [.push eax] :=
  (EmitsInScope.advance c).trans
    (.emitted (by rintro ⟨⟩) _)

theorem settled_pushLeft (c : Compiler) :
    (c.advanced.emitted (.push eax)).Settled ∧
      (c.advanced.emitted (.push eax)).words = c.advanced.words :=
  ⟨c.settled_advanced.emitted _, Compiler.words_emitted _ _⟩

-- The operand of an operator of the level below, once the left one is done.
theorem elaborates_binary {level lower : Level} {c₀ c u : Compiler} {a b : Expr} {op : BinaryOp}
    (below : level.below = some lower) (left : Elaborates level c₀ a c)
    (more : c.current.kind ≠ .finish)
    (right : Elaborates lower (c.advanced.emitted (.push eax)) b u)
    (joins : level.Joins c.current.kind a b (.binary op a b))
    (types : a.type = op.operandType ∧ b.type = op.operandType) :
    Elaborates level c₀ (.binary op a b)
      (((u.emitted (.move ebx eax)).emitted (.pop eax)).emitted (.binary (.binary op) eax ebx)) := by
  have after := (emits_regroup u).trans (.emitted (i := .binary (.binary op) eax ebx)
    (by rintro ⟨⟩) _)
  refine elaborates_join below left more (emits_pushLeft c) (settled_pushLeft c) right after
    (by simp) joins ⟨left.typed, right.typed, types⟩ ?_ (by simp [Expr.code])
  intro numbered
  simpa using numbered

theorem arithmeticTail_ok {level lower : Level} {ops : Kind → Option BinaryOp} {x : Compile Ty}
    (below : level.below = some lower) (faithful : Faithful lower x)
    (joins : ∀ {k op a b}, ops k = some op → level.Joins k a b (.binary op a b))
    (numeric : ∀ {k op}, ops k = some op → k ≠ .finish ∧ op.operandType = .double)
    {leftLine steps : Nat} {type left : Ty} {c₀ c d : Compiler} {a : Expr}
    (before : Elaborates level c₀ a c) (typed : a.type = left)
    (ran : arithmeticTail ops x leftLine steps left c = .ok type d) :
    ∃ e, Elaborates level c₀ e d ∧ e.type = type := by
  induction steps generalizing c a with
  | zero => exact absurd ran (fail_ne_ok _ _ _ _)
  | succ steps ih =>
    simp only [arithmeticTail, bind_eq_ok_iff, token_apply, EStateM.Result.ok.injEq, ↓existsAndEq,
      true_and] at ran
    cases known : ops c.current.kind with
    | none =>
      simp only [known, pure_apply, EStateM.Result.ok.injEq] at ran
      obtain ⟨rfl, rfl⟩ := ran
      exact ⟨a, before, typed⟩
    | some op =>
      simp only [known, bind_eq_ok_iff, advance_apply, refuseAt_eq_ok_iff, emit_apply,
        EStateM.Result.ok.injEq, ↓existsAndEq, true_and, exists_const, Bool.not_eq_true',
        Bool.not_eq_false, Prod.exists] at ran
      obtain ⟨right, rightLine, v, operand, leftNumeric, rightNumeric, ran⟩ := ran
      obtain ⟨u, inner, rfl⟩ := rightOperand_ok operand
      obtain ⟨b, elaborates, rfl⟩ := faithful inner
      obtain ⟨more, result⟩ := numeric known
      have types : a.type = op.operandType ∧ b.type = op.operandType := by
        rw [result, typed]
        exact ⟨Ty.eq_of_accepts_true leftNumeric, Ty.eq_of_accepts_true rightNumeric⟩
      refine ih (elaborates_binary below before more elaborates (joins known) types) ?_ ran
      exact types.1.symm.trans typed

theorem arithmetic_ok {level lower : Level} {ops : Kind → Option BinaryOp} {x : Compile Ty}
    (below : level.below = some lower) (faithful : Faithful lower x)
    (joins : ∀ {k op a b}, ops k = some op → level.Joins k a b (.binary op a b))
    (numeric : ∀ {k op}, ops k = some op → k ≠ .finish ∧ op.operandType = .double) (steps : Nat) :
    Faithful level (arithmetic ops x steps) := by
  intro c d type ran
  simp only [arithmetic, bind_eq_ok_iff, line_apply, EStateM.Result.ok.injEq, ↓existsAndEq,
    true_and] at ran
  obtain ⟨left, u, first, ran⟩ := ran
  obtain ⟨a, elaborates, typed⟩ := faithful.lift below first
  exact arithmeticTail_ok below faithful joins numeric elaborates typed ran

theorem powers_numeric {k : Kind} {op : BinaryOp} (known : powers k = some op) :
    k ≠ .finish ∧ op.operandType = .double := by
  cases k <;> simp [powers] at known
  subst known
  exact ⟨by decide, rfl⟩

theorem products_numeric {k : Kind} {op : BinaryOp} (known : products k = some op) :
    k ≠ .finish ∧ op.operandType = .double := by
  cases k <;> simp [products] at known <;> subst known <;> exact ⟨by decide, rfl⟩

-- Which operation a plus or a minus stands for.
theorem sumOp_ok {operator : Kind} {leftLine : Nat} {a b : Expr} {op : BinaryOp} {c d : Compiler}
    (either : operator = .plus ∨ operator = .minus)
    (ran : sumOp operator leftLine a.type c = .ok op d) :
    d = c ∧ a.type = op.operandType ∧ Level.Joins .sum operator a b (.binary op a b) := by
  unfold sumOp at ran
  rcases either with rfl | rfl
  · rw [if_pos rfl] at ran
    cases left : a.type <;> simp only [left, pure_apply, EStateM.Result.ok.injEq] at ran
    case double =>
      obtain ⟨rfl, rfl⟩ := ran
      exact ⟨rfl, rfl, .add left⟩
    case string =>
      obtain ⟨rfl, rfl⟩ := ran
      exact ⟨rfl, rfl, .concat left⟩
    all_goals exact absurd ran (failAt_ne_ok _ _ _ _ _)
  · rw [if_neg (by decide)] at ran
    split at ran
    · exact absurd ran (failAt_ne_ok _ _ _ _ _)
    · rename_i numeric
      simp only [pure_apply, EStateM.Result.ok.injEq] at ran
      obtain ⟨rfl, rfl⟩ := ran
      simp only [Bool.not_eq_true', Bool.not_eq_false] at numeric
      exact ⟨rfl, Ty.eq_of_accepts_true numeric, .sub⟩

theorem sumTail_ok {x : Compile Ty} (faithful : Faithful .product x) {leftLine steps : Nat}
    {type left : Ty} {c₀ c d : Compiler} {a : Expr} (before : Elaborates .sum c₀ a c)
    (typed : a.type = left) (ran : sumTail x leftLine steps left c = .ok type d) :
    ∃ e, Elaborates .sum c₀ e d ∧ e.type = type := by
  induction steps generalizing c a with
  | zero => exact absurd ran (fail_ne_ok _ _ _ _)
  | succ steps ih =>
    simp only [sumTail, bind_eq_ok_iff, token_apply, EStateM.Result.ok.injEq, ↓existsAndEq,
      true_and, Bool.or_eq_true, decide_eq_true_eq] at ran
    split at ran
    · rename_i either
      subst typed
      simp only [bind_eq_ok_iff, advance_apply, refuseAt_eq_ok_iff, emit_apply,
        EStateM.Result.ok.injEq, ↓existsAndEq, true_and, exists_const, Bool.not_eq_true',
        Bool.not_eq_false, Prod.exists] at ran
      obtain ⟨right, rightLine, v, operand, op, w, chosen, equal, ran⟩ := ran
      obtain ⟨u, inner, rfl⟩ := rightOperand_ok operand
      obtain ⟨b, elaborates, rfl⟩ := faithful inner
      obtain ⟨rfl, result, joins⟩ := sumOp_ok (b := b) either chosen
      have types : a.type = op.operandType ∧ b.type = op.operandType :=
        ⟨result, (Ty.eq_of_accepts_true equal).trans result⟩
      have more : c.current.kind ≠ .finish := by
        rcases either with plus | minus
        · rw [plus]
          decide
        · rw [minus]
          decide
      exact ih (elaborates_binary rfl before more elaborates joins types) result.symm ran
    · simp only [pure_apply, EStateM.Result.ok.injEq] at ran
      obtain ⟨rfl, rfl⟩ := ran
      exact ⟨a, before, typed⟩

theorem sum_ok {x : Compile Ty} (faithful : Faithful .product x) (steps : Nat) :
    Faithful .sum (sum x steps) := by
  intro c d type ran
  simp only [sum, bind_eq_ok_iff, line_apply, EStateM.Result.ok.injEq, ↓existsAndEq,
    true_and] at ran
  obtain ⟨left, u, first, ran⟩ := ran
  have lifted : Faithful .sum x := faithful.lift rfl
  obtain ⟨a, elaborates, typed⟩ := lifted first
  exact sumTail_ok faithful elaborates typed ran

-- What a comparison asks of its operands.
theorem checkComparison_ok {operator : Kind} {condition : Condition} {leftLine rightLine : Nat}
    {left right : Ty} {c d : Compiler} {u : Unit} (known : comparison? operator = some condition)
    (ran : checkComparison operator leftLine left rightLine right c = .ok u d) :
    d = c ∧ if condition = .equal ∨ condition = .notEqual then Ty.accepts false left right = true
      else left = .double ∧ right = .double := by
  have shape : (operator = .equal ∨ operator = .notEqual) ↔
      (condition = .equal ∨ condition = .notEqual) := by
    cases operator <;> simp [comparison?] at known <;> subst known <;> simp
  unfold checkComparison at ran
  simp only [Bool.or_eq_true, decide_eq_true_eq, shape] at ran
  split at ran
  · rename_i equality
    rw [if_pos equality]
    split at ran
    · exact absurd ran (failAt_ne_ok _ _ _ _ _)
    · rename_i accepted
      cases ran
      exact ⟨rfl, by simpa using accepted⟩
  · rename_i order
    rw [if_neg order]
    simp only [refuseAt_eq_ok_iff, Bool.not_eq_true', Bool.not_eq_false] at ran
    obtain ⟨leftNumeric, ran⟩ := ran
    split at ran
    · exact absurd ran (failAt_ne_ok _ _ _ _ _)
    · rename_i rightNumeric
      cases ran
      simp only [Bool.not_eq_false] at rightNumeric
      exact ⟨rfl, Ty.eq_of_accepts_true leftNumeric, Ty.eq_of_accepts_true rightNumeric⟩

theorem comparisonTail_ok {x : Compile Ty} (faithful : Faithful .sum x) {leftLine steps : Nat}
    {type left : Ty} {c₀ c d : Compiler} {a : Expr} (before : Elaborates .comparison c₀ a c)
    (typed : a.type = left) (ran : comparisonTail x leftLine steps left c = .ok type d) :
    ∃ e, Elaborates .comparison c₀ e d ∧ e.type = type := by
  induction steps generalizing c a left with
  | zero => exact absurd ran (fail_ne_ok _ _ _ _)
  | succ steps ih =>
    simp only [comparisonTail, bind_eq_ok_iff, token_apply, EStateM.Result.ok.injEq, ↓existsAndEq,
      true_and] at ran
    cases known : comparison? c.current.kind with
    | none =>
      simp only [known, pure_apply, EStateM.Result.ok.injEq] at ran
      obtain ⟨rfl, rfl⟩ := ran
      exact ⟨a, before, typed⟩
    | some condition =>
      subst typed
      simp only [known, bind_eq_ok_iff, advance_apply, emit_apply, EStateM.Result.ok.injEq,
        ↓existsAndEq, true_and, exists_const, Prod.exists] at ran
      obtain ⟨right, rightLine, v, operand, _, w, checked, ran⟩ := ran
      obtain ⟨u, inner, rfl⟩ := rightOperand_ok operand
      obtain ⟨b, elaborates, rfl⟩ := faithful inner
      obtain ⟨rfl, types⟩ := checkComparison_ok known checked
      have more : c.current.kind ≠ .finish := by
        intro finished
        simp [finished, comparison?] at known
      have after := ((emits_regroup u).trans (.emitted (i := .binary .compare eax ebx)
        (by rintro ⟨⟩) _)).trans (.emitted (i := .unary (.setIf condition) eax)
          (by rintro ⟨⟩) _)
      have joined : Elaborates .comparison c₀ (.compare condition a b) _ :=
        elaborates_join rfl before more (emits_pushLeft c) (settled_pushLeft c) elaborates after
          (by simp) (.comparison known) ⟨before.typed, elaborates.typed, types⟩
          (fun numbered => by simpa using numbered) (by simp [Expr.code])
      exact ih joined rfl ran

theorem comparison_ok {x : Compile Ty} (faithful : Faithful .sum x) (steps : Nat) :
    Faithful .comparison (comparison x steps) := by
  intro c d type ran
  simp only [comparison, bind_eq_ok_iff, line_apply, EStateM.Result.ok.injEq, ↓existsAndEq,
    true_and] at ran
  obtain ⟨left, u, first, ran⟩ := ran
  have lifted : Faithful .comparison x := faithful.lift rfl
  obtain ⟨a, elaborates, typed⟩ := lifted first
  exact comparisonTail_ok faithful elaborates typed ran

theorem emits_skipRight (c : Compiler) (connective : Connective) :
    let tested := c.labelled.emitted (.unary .test eax)
    let jumped := tested.push (.branch (.jumpIf connective.rule.skip) c.free)
    let pushed := jumped.emitted (.push eax)
    EmitsInScope c pushed.advanced
      [.unary .test eax, .branch (.jumpIf connective.rule.skip) c.free, .push eax] ∧
    pushed.advanced.words = c.advanced.words := by
  intro tested jumped pushed
  refine ⟨?_, ?_⟩
  · have emits := ((((EmitsInScope.labelled c).trans (.emitted (i := .unary .test eax)
      (by rintro ⟨⟩) _)).trans (.push
        (i := .branch (.jumpIf connective.rule.skip) c.free)
        (by rintro ⟨⟩) tested)).trans (.emitted (i := .push eax)
          (by rintro ⟨⟩) jumped)).trans (.advance pushed)
    simpa using emits
  · rw [Compiler.words_advanced, Compiler.words_advanced]
    simp [pushed, jumped, tested]

theorem logicalTail_ok {level lower : Level} {connective : Connective} {x : Compile Ty}
    (below : level.below = some lower) (faithful : Faithful lower x)
    (joins : ∀ {a b done}, level.Joins connective.rule.operator a b (.logical connective a b done))
    {leftLine steps : Nat} {type left : Ty} {c₀ c d : Compiler} {a : Expr}
    (before : Elaborates level c₀ a c) (typed : a.type = left)
    (ran : logicalTail connective.rule x steps leftLine left c = .ok type d) :
    ∃ e, Elaborates level c₀ e d ∧ e.type = type := by
  induction steps generalizing c a left leftLine with
  | zero => exact absurd ran (fail_ne_ok _ _ _ _)
  | succ steps ih =>
    simp only [logicalTail, bind_eq_ok_iff, token_apply, EStateM.Result.ok.injEq, ↓existsAndEq,
      true_and] at ran
    split at ran
    · rename_i here
      subst typed
      simp only [bind_eq_ok_iff, refuseAt_eq_ok_iff, freshLabel_apply, emit_apply, emitJump_apply,
        emitLabel_apply, advance_apply, line_apply, EStateM.Result.ok.injEq, ↓existsAndEq,
        true_and, exists_const, Bool.not_eq_true', Bool.not_eq_false] at ran
      obtain ⟨leftBool, right, u, operand, rightBool, ran⟩ := ran
      obtain ⟨b, elaborates, rfl⟩ := faithful operand
      have more : c.current.kind ≠ .finish := by
        rw [here]
        cases connective <;> decide
      have types : a.type = .bool ∧ b.type = .bool :=
        ⟨Ty.eq_of_accepts_true leftBool, Ty.eq_of_accepts_true rightBool⟩
      obtain ⟨between, words⟩ := emits_skipRight c connective
      have after := ((emits_regroup u).trans (.emitted
        (i := .binary (.binary connective.rule.op) eax ebx) (by rintro ⟨⟩) _)).trans
        (.push (i := .label c.free) (by rintro ⟨⟩) _)
      have joined : Elaborates level c₀ (.logical connective a b c.free) _ :=
        elaborates_join below before more between ⟨Compiler.settled_advanced _, words⟩ elaborates
          after (by simp) (here ▸ joins) ⟨before.typed, elaborates.typed, types⟩
          (fun numbered => by simpa using Numbered.insert (b := []) (by simpa using numbered))
          (by simp [Expr.code])
      exact ih joined rfl ran
    · simp only [pure_apply, EStateM.Result.ok.injEq] at ran
      obtain ⟨rfl, rfl⟩ := ran
      exact ⟨a, before, typed⟩

theorem logical_ok {level lower : Level} {connective : Connective} {x : Compile Ty}
    (below : level.below = some lower) (faithful : Faithful lower x)
    (joins : ∀ {a b done}, level.Joins connective.rule.operator a b (.logical connective a b done))
    (steps : Nat) : Faithful level (logical connective.rule x steps) := by
  intro c d type ran
  simp only [logical, bind_eq_ok_iff, line_apply, EStateM.Result.ok.injEq, ↓existsAndEq,
    true_and] at ran
  obtain ⟨left, u, first, ran⟩ := ran
  obtain ⟨a, elaborates, typed⟩ := faithful.lift below first
  exact logicalTail_ok below faithful joins elaborates typed ran

theorem operatorLevels_ok {self : Compile Ty} (faithful : Faithful .choice self) (steps : Nat) :
    Faithful .disjunction (operatorLevels self steps) := by
  have unary := unary_ok (primary_ok faithful steps) steps
  have power : Faithful .power _ := arithmetic_ok rfl unary .power powers_numeric steps
  have product : Faithful .product _ := arithmetic_ok rfl power .product products_numeric steps
  have comparison := comparison_ok (sum_ok product steps) steps
  have conjunction : Faithful .conjunction (logical Connective.and.rule _ steps) :=
    logical_ok rfl comparison .conjunction steps
  have disjunction : Faithful .disjunction (logical Connective.or.rule _ steps) :=
    logical_ok rfl conjunction .disjunction steps
  exact disjunction

theorem ternary_ok {self : Compile Ty} (faithful : Faithful .choice self) (steps : Nat) :
    Faithful .choice (ternary self steps) := by
  intro c d type ran
  simp only [ternary, bind_eq_ok_iff, line_apply, token_apply, EStateM.Result.ok.injEq,
    ↓existsAndEq, true_and] at ran
  obtain ⟨conditionType, u, first, ran⟩ := ran
  obtain ⟨e, condition, rfl⟩ := operatorLevels_ok faithful steps first
  split at ran
  · simp only [pure_apply, EStateM.Result.ok.injEq] at ran
    obtain ⟨rfl, rfl⟩ := ran
    have lifted : Elaborates .choice c e u := ⟨condition.emits, condition.typed, condition.numbered,
      fun settled => (condition.parses settled).imp id (.lift rfl)⟩
    exact ⟨e, lifted, rfl⟩
  · rename_i asks
    rw [not_not] at asks
    simp only [bind_eq_ok_iff, refuseAt_eq_ok_iff, freshLabel_apply, emit_apply, emitJump_apply,
      emitLabel_apply, advance_apply, expect_eq_ok_iff, line_apply, pure_apply,
      EStateM.Result.ok.injEq, ↓existsAndEq, true_and, and_true, exists_const, Bool.not_eq_true',
      Bool.not_eq_false] at ran
    obtain ⟨conditionBool, whenTrue, v, second, divides, whenFalse, w, third, accepted, rfl, rfl⟩ := ran
    obtain ⟨a, first, rfl⟩ := faithful second
    obtain ⟨b, last, rfl⟩ := faithful third
    have toTrue : EmitsInScope u _ [.unary .test eax, .branch (.jumpIf .equal) u.free] :=
      (((EmitsInScope.labelled u).trans (.labelled _)).trans (.emitted (i := .unary .test eax)
        (by rintro ⟨⟩) _)).trans
        (.push (i := .branch (.jumpIf .equal) u.free) (by rintro ⟨⟩) _)
    have kept : ((u.labelled.labelled.emitted (.unary .test eax)).push
        (.branch (.jumpIf .equal) u.free)).ahead = u.ahead := by simp
    have freeTrue : ((u.labelled.labelled.emitted (.unary .test eax)).push
        (.branch (.jumpIf .equal) u.free)).free = u.free + 1 + 1 := by simp
    generalize (u.labelled.labelled.emitted (.unary .test eax)).push
      (.branch (.jumpIf .equal) u.free) = jumped at *
    have toFalse : EmitsInScope v _ [.branch .jump u.labelled.free, .label u.free] :=
      (((EmitsInScope.advance v).trans (.push (i := .branch .jump u.labelled.free)
        (by rintro ⟨⟩) _)).trans
        (.push (i := .label u.free) (by rintro ⟨⟩) _))
    have scopeTrue : jumped.advanced.scope = c.scope := by
      rw [Compiler.advanced_scope, toTrue.scope, condition.emits.scope]
    have scopeFalse : v.scope = c.scope := first.emits.scope.trans scopeTrue
    refine ⟨.choose e a b u.free u.labelled.free, ⟨?_, ?_, ?_, ?_⟩, rfl⟩
    · have emits := ((((condition.emits.trans toTrue).trans (.advance jumped)).trans
        first.emits).trans toFalse).trans (last.emits.trans
          (.push (i := .label u.labelled.free) (by rintro ⟨⟩) w))
      simpa [Expr.code] using emits
    · exact ⟨condition.typed, first.typed, last.typed, Ty.eq_of_accepts_true conditionBool, accepted⟩
    · have branches := first.numbered
      have otherwise := last.numbered
      simp only [Compiler.free_advanced, freeTrue, Compiler.free_push] at branches otherwise
      have inner : Numbered (u.free + 1 + 1)
          ((labelsOf a.code ++ labelsOf b.code) ++ []) w.free := by
        simpa using branches.append otherwise
      have both := inner.insert
      rw [List.append_assoc] at both
      have whole := condition.numbered.append both.insert
      simpa [Expr.code] using whole
    · intro settled
      obtain ⟨afterCondition, parsesCondition⟩ := condition.parses settled
      obtain ⟨afterTrue, parsesTrue⟩ := first.parses jumped.settled_advanced
      obtain ⟨afterFalse, parsesFalse⟩ :=
        last.parses ((v.settled_advanced.push _).push _)
      have words : jumped.advanced.words = u.advanced.words := by
        rw [Compiler.words_advanced, Compiler.words_advanced, kept]
      rw [Compiler.words_eq_cons afterCondition (by rw [asks]; decide), ← words] at parsesCondition
      rw [Compiler.words_eq_cons afterTrue (by rw [divides]; decide), scopeTrue] at parsesTrue
      rw [toFalse.scope, scopeFalse] at parsesFalse
      exact ⟨afterFalse.push _, .choose parsesCondition asks parsesTrue divides parsesFalse⟩

-- Every expression that compiles is one of the grammar, and its code is the code of its tree.
theorem expression_ok (depth : Nat) : Faithful .choice (expression depth) := by
  induction depth with
  | zero =>
    intro c d type ran
    exact absurd ran (fail_ne_ok _ _ _ _)
  | succ depth ih => exact ternary_ok ih depth

end Compile

end ScalarScript
