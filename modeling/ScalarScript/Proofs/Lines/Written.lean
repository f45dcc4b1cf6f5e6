import ScalarScript.Proofs.Lines.Clause
import ScalarScript.Proofs.Lines.Marker
/-!
What a clause is compiled to: code that begins with neither a label nor a jump, whose labels were
given out meanwhile, and whose markers were put in before the last token of the clause was passed.
-/
namespace ScalarScript

open Stateful Compile

-- Code that begins, and not with a label or a jump.
def Loud (code : List Instruction) : Prop :=
  ∃ i rest, code = i :: rest ∧ i.opcode.silent = false

theorem Loud.append {a : List Instruction} (loud : Loud a) (b : List Instruction) :
    Loud (a ++ b) := by
  obtain ⟨i, rest, rfl, active⟩ := loud
  exact ⟨i, rest ++ b, rfl, active⟩

mutual

theorem Expr.loud : (e : Expr) → Loud e.code
  | .constant _ | .var _ => ⟨_, [], rfl, rfl⟩
  | .call s args => by
    rw [Expr.code]
    rcases args.loud with none | loud
    · rw [none]
      exact ⟨_, [], rfl, by unfold Symbol.callInstruction; split <;> rfl⟩
    · exact loud.append _
  | .unary _ e => by
    rw [Expr.code]
    exact e.loud.append _
  | .binary _ a _ | .compare _ a _ => by
    simp only [Expr.code, List.append_assoc]
    exact a.loud.append _
  | .logical _ a _ _ | .choose a _ _ _ _ => by
    simp only [Expr.code, List.append_assoc]
    exact a.loud.append _

theorem Args.loud : (args : Args) → args.code = [] ∨ Loud args.code
  | .nil => .inl rfl
  | .cons e _ => .inr (by rw [Args.code]; exact e.loud.append _)

end

theorem ReadsSimple.loud {scope : Scope} {words rest : List Token} {a : Stmt}
    (reads : ReadsSimple scope words a rest) : Loud a.code := by
  cases reads with
  | assign => exact (Expr.loud _).append _
  | expr => exact Expr.loud _

theorem ReadsName.loud {scope : Scope} {type : Scalar} {words rest : List Token} {a : Stmt}
    {s : Symbol} (reads : ReadsName scope type words a s rest) : Loud a.code := by
  cases reads <;> exact ⟨_, _, rfl, rfl⟩

theorem ReadsNames.loud {type : Scalar} {scope after : Scope} {words rest : List Token} {a : Stmt}
    (reads : ReadsNames type scope words a after rest) : Loud a.code := by
  cases reads with
  | last reads => exact reads.loud
  | more reads _ _ => exact reads.loud.append _

theorem ReadsInit.loud {scope after : Scope} {words rest : List Token} {a : Stmt}
    (reads : ReadsInit scope words a after rest) : a.code = [] ∨ Loud a.code := by
  cases reads with
  | none => exact .inl rfl
  | simple reads => exact .inr reads.loud
  | names _ reads => exact .inr reads.loud

theorem ReadsStep.loud {scope : Scope} {words rest : List Token} {a : Stmt}
    (reads : ReadsStep scope words a rest) : a.code = [] ∨ Loud a.code := by
  cases reads with
  | none => exact .inl rfl
  | simple reads => exact .inr reads.loud

-- From the one state to the other, every property that survives the moves of expressions survives,
-- whatever labels are at hand.
def Sustains (c d : Compiler) : Prop :=
  ∀ ⦃Q : Compiler → Prop⦄, (Upheld fun _ => Q) → Q c → Q d

namespace Sustains

variable {α : Type} {c d e : Compiler}

theorem trans (first : Sustains c d) (second : Sustains d e) : Sustains c e :=
  fun _ up holds => second up (first up holds)

theorem act {x : Compile α} {a : α} {labels : List Int} (ran : x c = .ok a d)
    (keeps : ∀ {P}, Upheld P → Upholds P labels x) : Sustains c d :=
  fun _ up holds => (keeps up (List.Subset.refl labels) holds ran).1

theorem advance (c : Compiler) : Sustains c c.advanced :=
  fun _ up holds => up.advance (G := []) holds

theorem emit {i : Instruction} (active : i.opcode.isMark = false) (c : Compiler) :
    Sustains c (c.emitted i) :=
  fun _ up holds => up.emit (G := [i.target]) active (fun _ => List.mem_singleton_self _) holds

theorem jump (l : Int) (c : Compiler) : Sustains c (c.push (.branch .jump l)) :=
  fun _ up holds => up.jump (G := [l]) (.inl rfl) (List.mem_singleton_self _) holds

end Sustains

-- What a clause comes to. Behind its last token, it may jump.
structure Written (c d : Compiler) : Prop where
  closes : ∃ p, Sustains c p ∧ (d = p.advanced ∨ ∃ l, d = p.advanced.push (.branch .jump l))
  code : ∃ code, Emits c d code ∧ Numbered c.free (labelsOf code) d.free ∧ (code = [] ∨ Loud code)

namespace Written

variable {c d : Compiler} {t : Stmt}

theorem onward (written : Written c d) : Sustains c d := by
  obtain ⟨p, begins, rfl | ⟨l, rfl⟩⟩ := written.closes
  · exact begins.trans (.advance p)
  · exact (begins.trans (.advance p)).trans (.jump l _)

-- The last token ends a tree.
theorem of_builds {p : Compiler} (builds : Builds c t p) (begins : Sustains c p)
    (loud : t.code = [] ∨ Loud t.code) : Written c p.advanced := by
  refine ⟨⟨p, begins, .inl rfl⟩, t.code, ?_, ?_, loud⟩
  · simpa using builds.emits.trans (EmitsInScope.advance p).toEmits
  · simpa using builds.numbered

end Written

namespace Compile

variable {depth : Nat} {c d : Compiler}

theorem expression_onward {type : Ty} (ran : expression depth c = .ok type d) : Sustains c d :=
  .act ran fun up => expression_upholds up depth

theorem written_condition (settled : c.Settled)
    (ran : condition (expression depth) c = .ok () d) : Written c d := by
  obtain ⟨_, e, emits, numbered, _⟩ := condition_ok (expression_ok depth) settled ran
  have loud := e.loud.append [.unary .test eax]
  simp only [condition, bind_eq_ok_iff, expect_eq_ok_iff, line_apply, refuseAt_eq_ok_iff,
    emit_apply, EStateM.Result.ok.injEq, ↓existsAndEq, true_and, and_true, exists_const] at ran
  obtain ⟨_, _, v, inner, _, _, rfl⟩ := ran
  refine ⟨⟨v.emitted (.unary .test eax), ?_, .inl rfl⟩, _, emits.toEmits, ?_, .inr loud⟩
  · exact ((Sustains.advance c).trans (expression_onward inner)).trans (.emit rfl v)
  · simpa [labelsOf_cons, Instruction.unary] using numbered

theorem written_forInit (settled : c.Settled)
    (ran : (do forInit (statement depth) (expression depth) depth; expect .semicolon) c =
      .ok () d) : Written c d := by
  obtain ⟨_, p, inner, ended⟩ := bind_eq_ok_iff.mp ran
  obtain ⟨_, rfl⟩ := expect_eq_ok_iff.mp ended
  obtain ⟨_, a, builds, reads⟩ := forInit_ok (expression_ok depth) settled inner
  exact .of_builds builds
    (.act inner fun up => forInit_upholds up (expression_upholds up depth) depth) reads.loud

theorem written_forCondition {done : Int} (settled : c.Settled)
    (ran : (do forCondition (expression depth) done; expect .semicolon) c = .ok () d) :
    Written c d := by
  obtain ⟨_, p, inner, ended⟩ := bind_eq_ok_iff.mp ran
  obtain ⟨_, rfl⟩ := expect_eq_ok_iff.mp ended
  obtain ⟨_, e, emits, numbered, _⟩ := forCondition_ok (expression_ok depth) settled inner
  refine ⟨⟨p, ?_, .inl rfl⟩, Stmt.guard e done, ?_, by simpa using numbered, ?_⟩
  · exact .act inner fun up => forCondition_upholds up (expression_upholds up depth) done
  · simpa using (emits.trans (.advance p)).toEmits
  · cases e with
    | none => exact .inl rfl
    | some e => exact .inr (e.loud.append _)

theorem written_forStep (settled : c.Settled)
    (ran : (do forStep (expression depth); expect .rightParen) c = .ok () d) : Written c d := by
  obtain ⟨_, p, inner, ended⟩ := bind_eq_ok_iff.mp ran
  obtain ⟨_, rfl⟩ := expect_eq_ok_iff.mp ended
  obtain ⟨_, _, a, builds, _, reads⟩ := forStep_ok (expression_ok depth) settled inner
  exact .of_builds builds
    (.act inner fun up => forStep_upholds up (expression_upholds up depth)) reads.loud

theorem written_returnValue (ran : returnValue (expression depth) c = .ok () d) : Written c d := by
  simp only [returnValue, bind_eq_ok_iff, get_apply, EStateM.Result.ok.injEq, ↓existsAndEq,
    true_and] at ran
  cases enclosing : c.enclosing with
  | none =>
    rw [enclosing] at ran
    exact absurd ran (fail_ne_ok _ _ _ _)
  | some f =>
    simp only [enclosing, bind_eq_ok_iff (x := advance), bind_eq_ok_iff (x := token), advance_apply,
      token_apply, EStateM.Result.ok.injEq, ↓existsAndEq, true_and, exists_const] at ran
    split at ran
    · simp only [bind_eq_ok_iff, emit_apply, expect_eq_ok_iff, emitJump_apply,
        EStateM.Result.ok.injEq, ↓existsAndEq, true_and, and_true, exists_const] at ran
      obtain ⟨_, rfl⟩ := ran
      have emits := (((EmitsInScope.advance c).trans (.emitted (i := .move eax .null)
        (by rintro ⟨⟩) _)).trans (.advance _)).trans
        (.push (i := .branch .jump f.returnLabel) (by rintro ⟨⟩) _)
      refine ⟨⟨_, (Sustains.advance c).trans (.emit rfl _), .inr ⟨_, rfl⟩⟩, _, emits.toEmits,
        ?_, .inr ⟨_, _, rfl, rfl⟩⟩
      exact .none (by simp)
    · simp only [bind_eq_ok_iff, line_apply, refuseAt_eq_ok_iff, expect_eq_ok_iff, emitJump_apply,
        EStateM.Result.ok.injEq, ↓existsAndEq, true_and, and_true, exists_const] at ran
      obtain ⟨_, v, inner, _, _, rfl⟩ := ran
      obtain ⟨e, elaborates, _⟩ := expression_ok depth inner
      have emits := (((EmitsInScope.advance c).trans elaborates.emits).trans (.advance v)).trans
        (.push (i := .branch .jump f.returnLabel) (by rintro ⟨⟩) _)
      refine ⟨⟨v, (Sustains.advance c).trans (expression_onward inner), .inr ⟨_, rfl⟩⟩,
        e.code ++ [.branch .jump f.returnLabel], by simpa using emits.toEmits, ?_,
        .inr (e.loud.append _)⟩
      simpa [labelsOf_cons, Instruction.branch] using elaborates.numbered

theorem written_exitProgram (ran : exitProgram (expression depth) c = .ok () d) :
    Written c d := by
  simp only [exitProgram, bind_eq_ok_iff (x := advance), bind_eq_ok_iff (x := token), advance_apply,
    token_apply, EStateM.Result.ok.injEq, ↓existsAndEq, true_and, exists_const] at ran
  split at ran
  · simp only [bind_eq_ok_iff, emit_apply, advance_apply, EStateM.Result.ok.injEq, ↓existsAndEq,
      true_and, exists_const] at ran
    subst ran
    have emits := ((EmitsInScope.advance c).trans (.emitted (i := .unary .exit .null)
      (by rintro ⟨⟩) _)).trans (.advance _)
    refine ⟨⟨_, (Sustains.advance c).trans (.emit rfl _), .inl rfl⟩, _, emits.toEmits,
      .none (by simp), .inr ⟨_, _, rfl, rfl⟩⟩
  · simp only [bind_eq_ok_iff, line_apply, get_apply, EStateM.Result.ok.injEq, ↓existsAndEq,
      true_and] at ran
    obtain ⟨_, v, inner, ran⟩ := ran
    obtain ⟨e, elaborates, _⟩ := expression_ok depth inner
    have leaves : d = (v.emitted (.unary .exit eax)).advanced := by
      cases exitType : v.exitType with
      | none =>
        simp only [exitType, bind_eq_ok_iff, emit_apply, expect_eq_ok_iff, EStateM.Result.ok.injEq,
          ↓existsAndEq, true_and, exists_const] at ran
        exact ran.2
      | some wanted =>
        simp only [exitType, refuseAt_eq_ok_iff, bind_eq_ok_iff, emit_apply, expect_eq_ok_iff,
          EStateM.Result.ok.injEq, ↓existsAndEq, true_and, exists_const] at ran
        exact ran.2.2
    rw [leaves]
    have emits := ((EmitsInScope.advance c).trans elaborates.emits).trans
      ((EmitsInScope.emitted (i := .unary .exit eax) (by rintro ⟨⟩) v).trans (.advance _))
    refine ⟨⟨_, ((Sustains.advance c).trans (expression_onward inner)).trans (.emit rfl v), .inl rfl⟩,
      e.code ++ [.unary .exit eax], by simpa using emits.toEmits, ?_, .inr (e.loud.append _)⟩
    simpa [labelsOf_cons, Instruction.unary] using elaborates.numbered

theorem written_statement (settled : c.Settled) (brief : c.Brief)
    (ran : statement (depth + 1) c = .ok () d) : Written c d := by
  unfold Compiler.Brief at brief
  cases scalar : c.current.kind.scalar? with
  | some type =>
    rw [scalar] at brief
    obtain ⟨b, p, declared, ran⟩ := statement_declares scalar ran
    obtain ⟨named, ⟨_, _, opened, _⟩ | ⟨rfl, _, inner⟩⟩ := declaration_eq_ok declared
    · exact absurd opened brief
    obtain ⟨_, a, builds, reads⟩ := variables_ok (expression_ok depth) named inner
    simp only [Bool.not_false, if_true, expect_eq_ok_iff] at ran
    obtain ⟨_, rfl⟩ := ran
    refine .of_builds builds ?_ (.inr reads.loud)
    exact ((Sustains.advance c).trans (.advance _)).trans
      (.act inner fun up => declarators_upholds up (expression_upholds up depth) type depth _ _)
  | none =>
    rw [scalar] at brief
    simp only [List.mem_cons, List.not_mem_nil, or_false, not_or] at brief
    simp only [statement, statementBy, bind_eq_ok_iff (x := token), token_apply,
      EStateM.Result.ok.injEq, ↓existsAndEq, true_and] at ran
    generalize c.current.kind = kind at brief scalar ran
    split at ran
    case h_7 => exact written_returnValue ran
    case h_8 => exact written_exitProgram ran
    case h_11 =>
      rw [scalar] at ran
      obtain ⟨_, p, inner, ran⟩ := bind_eq_ok_iff.mp ran
      obtain ⟨_, rfl⟩ := expect_eq_ok_iff.mp ran
      obtain ⟨_, a, builds, _, reads⟩ := simple_ok (expression_ok depth) settled inner
      exact .of_builds builds
        (.act inner fun up => simple_upholds up (expression_upholds up depth)) (.inr reads.loud)
    all_goals simp_all

end Compile

end ScalarScript
