import ScalarScript.Proofs.Layout.Twin
/-!
Expressions compiled side by side. Each level of the grammar takes twins to twins if the next one
does, whatever the bounds on its recursion are, as long as they exceed the number of words ahead.
-/
namespace ScalarScript

open Stateful Compile

variable {n steps steps' : Nat}

namespace Compile

theorem arguments_parallel {self self' : Compile Ty} (inner : Parallel n self self')
    (name : String) (params : List Ty) (count : Nat) (enough : n < steps) (enough' : n < steps') :
    Parallel n (arguments self name params steps count)
      (arguments self' name params steps' count) := by
  intro m small a b c d twin
  induction steps generalizing m steps' count c d n with
  | zero => omega
  | succ steps ih =>
    obtain ⟨steps', rfl⟩ : ∃ k, steps' = k + 1 := ⟨steps' - 1, by omega⟩
    unfold arguments
    refine .line ?_
    refine .bind (inner small twin) ?_
    rintro type _ c d rfl twin
    cases params[count]? with
    | none => exact .failAt rfl rfl rfl
    | some wanted =>
      refine .refuseAt rfl fun _ => ?_
      refine .emit twin (by rintro ⟨⟩) fun twin => ?_
      refine .accept twin (by decide) (fun k fewer later => ?_) (.ok rfl twin)
      subst fewer
      have inner := inner.mono (show k ≤ n by omega)
      refine (ih inner (count + 1) (by omega) (by omega) le_rfl later).mono ?_
      exact fun _ _ twin => twin.mono (Nat.le_succ k)

-- The closing parenthesis of a call, the number of its arguments, and the call itself.
theorem finishCall_parallel (symbol : Symbol) (name : String) (l l' count : Nat) :
    Parallel n
      (do
        expect .rightParen
        if count ≠ symbol.params.length then
          failAt l (.notEnoughArguments name symbol.params.length count)
        if symbol.isExternal then emit (.hostCall symbol.index name)
        else emit (.call symbol.label name)
        return symbol.returnType)
      (do
        expect .rightParen
        if count ≠ symbol.params.length then
          failAt l' (.notEnoughArguments name symbol.params.length count)
        if symbol.isExternal then emit (.hostCall symbol.index name)
        else emit (.call symbol.label name)
        return symbol.returnType) := by
  intro m _ a b c d twin
  refine .expect twin (by decide) fun k c d fewer twin => ?_
  have twin := twin.mono (show k ≤ m by omega)
  refine .refuseAt rfl fun _ => ?_
  refine .ite (fun _ => ?_) fun _ => ?_
  all_goals exact .emit twin (by rintro ⟨⟩) fun twin => .ok rfl twin

-- A call starts with a word, so that its arguments stand at fewer words.
theorem call_agree {self self' : Compile Ty} {a b : List Instruction} {c d : Compiler}
    (inner : ∀ m < n, Parallel m self self') (enough : n ≤ steps) (enough' : n ≤ steps')
    (twin : Twin a b n c d) (real : c.current.kind ≠ .finish) :
    Agree Eq (Twin a b n) (call self steps c) (call self' steps' d) := by
  unfold call
  refine .token twin ?_
  refine .resolve? twin ?_
  cases c.scope.resolve? c.current.literal with
  | none => exact .failUndefined _ _ twin.scope rfl
  | some symbol =>
    dsimp only
    refine .ite (fun _ => .stop rfl rfl rfl) fun _ => ?_
    refine .take twin real fun m fewer later => ?_
    subst fewer
    refine .advance later fun twin => ?_
    refine .token twin ?_
    have fewer (c d : Compiler) (twin : Twin a b m c d) : Twin a b (m + 1) c d :=
      twin.mono (Nat.le_succ m)
    refine .mono ?_ fewer
    refine .ite (fun _ => finishCall_parallel symbol _ _ _ 0 le_rfl twin) fun _ => ?_
    refine .bind
      (arguments_parallel (inner m (Nat.lt_succ_self m)) _ _ _ enough enough' le_rfl twin) ?_
    rintro count _ c d rfl twin
    exact finishCall_parallel symbol _ _ _ count le_rfl twin

theorem primary_parallel {self self' : Compile Ty} (inner : ∀ m < n, Parallel m self self')
    (enough : n < steps) (enough' : n < steps') :
    Parallel n (primary self steps) (primary self' steps') := by
  intro m small a b c d twin
  have constant (v : Value) (type : Ty) : Agree Eq (Twin a b m)
      ((do advance; loadValue v; return type : Compile Ty) c)
      ((do advance; loadValue v; return type : Compile Ty) d) :=
    .advance twin fun twin => .emit twin (by rintro ⟨⟩) fun twin => .ok rfl twin
  unfold primary
  refine .token twin ?_
  cases here : c.current.kind
  case number =>
    dsimp only
    cases Number.parse? c.current.literal with
    | none => exact .fail rfl rfl rfl
    | some x => exact constant _ _
  case string => exact constant _ _
  case kwTrue => exact constant _ _
  case kwFalse => exact constant _ _
  case kwNull => exact constant _ _
  case leftParen =>
    dsimp only
    refine .take twin (by rw [here]; decide) fun k fewer later => ?_
    refine .bind (inner k (by omega) le_rfl later) ?_
    rintro type _ c d rfl twin
    refine .expect twin (by decide) fun j c d fewer twin => ?_
    exact .ok rfl (twin.mono (by omega))
  case identifier =>
    dsimp only
    refine .get ?_
    rw [twin.following]
    refine .ite (fun _ => ?_) fun _ => ?_
    · exact call_agree (fun k few => inner k (by omega)) (by omega) (by omega) twin
        (by rw [here]; decide)
    · refine .resolve? twin ?_
      cases c.scope.resolve? c.current.literal with
      | none => exact .failUndefined _ _ twin.scope rfl
      | some symbol =>
        dsimp only
        refine .ite (fun _ => .stop rfl rfl rfl) fun _ => ?_
        refine .advance twin fun twin => ?_
        exact .emit twin (by rintro ⟨⟩) fun twin => .ok rfl twin
  -- the error names the word, not where it stands
  all_goals exact .fail rfl (by rw [← here]; rfl) rfl

theorem unary_parallel {operand operand' : Compile Ty} (inner : Parallel n operand operand')
    (enough : n < steps) (enough' : n < steps') :
    Parallel n (unary operand steps) (unary operand' steps') := by
  intro m small a b c d twin
  induction steps generalizing m steps' c d n with
  | zero => omega
  | succ steps ih =>
    obtain ⟨steps', rfl⟩ : ∃ k, steps' = k + 1 := ⟨steps' - 1, by omega⟩
    have again (k : Nat) (fewer : m = k + 1) {c d : Compiler} (twin : Twin a b k c d) :
        Agree Eq (Twin a b m) (unary operand steps c) (unary operand' steps' d) := by
      have inner := inner.mono (show k ≤ n by omega)
      refine (ih inner (by omega) (by omega) le_rfl twin).mono ?_
      exact fun _ _ twin => twin.mono (by omega)
    unfold unary
    refine .token twin ?_
    cases here : c.current.kind
    case minus =>
      dsimp only
      refine .take twin (by rw [here]; decide) fun k fewer later => ?_
      refine .bind (again k fewer later) ?_
      rintro type _ c d rfl twin
      refine .refuseAt rfl fun _ => ?_
      exact .emit twin (by rintro ⟨⟩) fun twin => .ok rfl twin
    case bang =>
      dsimp only
      refine .take twin (by rw [here]; decide) fun k fewer later => ?_
      refine .bind (again k fewer later) ?_
      rintro type _ c d rfl twin
      refine .refuseAt rfl fun _ => ?_
      exact .emit twin (by rintro ⟨⟩) fun twin => .ok rfl twin
    all_goals exact inner small twin

-- The type of the right operand is the same on both sides; the line where it starts is not.
theorem rightOperand_agree {operand operand' : Compile Ty} {a b : List Instruction}
    {c d : Compiler} (inner : Parallel n operand operand') (twin : Twin a b n c d) :
    Agree (fun x y => x.1 = y.1) (Twin a b n) (rightOperand operand c)
      (rightOperand operand' d) := by
  unfold rightOperand
  refine .emit twin (by rintro ⟨⟩) fun twin => ?_
  refine .line ?_
  refine .bind (inner le_rfl twin) ?_
  rintro type _ c d rfl twin
  refine .emit twin (by rintro ⟨⟩) fun twin => ?_
  exact .emit twin (by rintro ⟨⟩) fun twin => .ok rfl twin

theorem arithmeticTail_parallel {operand operand' : Compile Ty} {ops : Kind → Option BinaryOp}
    (ends : ops .finish = none) (inner : Parallel n operand operand') (l l' : Nat) (left : Ty)
    (enough : n < steps) (enough' : n < steps') :
    Parallel n (arithmeticTail ops operand l steps left)
      (arithmeticTail ops operand' l' steps' left) := by
  intro m small a b c d twin
  induction steps generalizing m steps' c d n with
  | zero => omega
  | succ steps ih =>
    obtain ⟨steps', rfl⟩ : ∃ k, steps' = k + 1 := ⟨steps' - 1, by omega⟩
    unfold arithmeticTail
    refine .token twin ?_
    dsimp only
    cases op : ops c.current.kind with
    | none => exact .ok rfl twin
    | some op =>
      have real : c.current.kind ≠ .finish := by
        intro finish
        simp [finish, ends] at op
      refine .take twin real fun k fewer later => ?_
      subst fewer
      have inner := inner.mono (show k ≤ n by omega)
      refine .bind (rightOperand_agree inner later) ?_
      rintro ⟨right, _⟩ ⟨_, _⟩ c d rfl twin
      dsimp only
      refine .refuseAt rfl fun _ => ?_
      refine .refuseAt rfl fun _ => ?_
      refine .emit twin (by rintro ⟨⟩) fun twin => ?_
      refine (ih inner (by omega) (by omega) le_rfl twin).mono ?_
      exact fun _ _ twin => twin.mono (Nat.le_succ k)

theorem arithmetic_parallel {operand operand' : Compile Ty} (ops : Kind → Option BinaryOp)
    (ends : ops .finish = none) (inner : Parallel n operand operand') (enough : n < steps)
    (enough' : n < steps') :
    Parallel n (arithmetic ops operand steps) (arithmetic ops operand' steps') := by
  intro m small a b c d twin
  unfold arithmetic
  refine .line ?_
  refine .bind (inner small twin) ?_
  rintro left _ c d rfl twin
  exact arithmeticTail_parallel ends inner _ _ left enough enough' small twin

theorem sumOp_agree {a b : List Instruction} {c d : Compiler} (operator : Kind) (l l' : Nat)
    (left : Ty) (twin : Twin a b n c d) :
    Agree Eq (Twin a b n) (sumOp operator l left c) (sumOp operator l' left d) := by
  unfold sumOp
  refine .ite (fun _ => ?_) fun _ => .ite (fun _ => .failAt rfl rfl rfl) fun _ => .ok rfl twin
  cases left
  case double => exact .ok rfl twin
  case string => exact .ok rfl twin
  all_goals exact .failAt rfl rfl rfl

theorem sumTail_parallel {operand operand' : Compile Ty} (inner : Parallel n operand operand')
    (l l' : Nat) (left : Ty) (enough : n < steps) (enough' : n < steps') :
    Parallel n (sumTail operand l steps left) (sumTail operand' l' steps' left) := by
  intro m small a b c d twin
  induction steps generalizing m steps' c d n with
  | zero => omega
  | succ steps ih =>
    obtain ⟨steps', rfl⟩ : ∃ k, steps' = k + 1 := ⟨steps' - 1, by omega⟩
    unfold sumTail
    refine .token twin ?_
    refine .ite (fun operator => ?_) fun _ => .ok rfl twin
    have real : c.current.kind ≠ .finish := by
      intro finish
      simp [finish] at operator
    refine .take twin real fun k fewer later => ?_
    subst fewer
    have inner := inner.mono (show k ≤ n by omega)
    refine .bind (rightOperand_agree inner later) ?_
    rintro ⟨right, _⟩ ⟨_, _⟩ c d rfl twin
    refine .bind (sumOp_agree _ _ _ left twin) ?_
    rintro op _ c d rfl twin
    refine .refuseAt rfl fun _ => ?_
    refine .emit twin (by rintro ⟨⟩) fun twin => ?_
    refine (ih inner (by omega) (by omega) le_rfl twin).mono ?_
    exact fun _ _ twin => twin.mono (Nat.le_succ k)

theorem sum_parallel {operand operand' : Compile Ty} (inner : Parallel n operand operand')
    (enough : n < steps) (enough' : n < steps') :
    Parallel n (sum operand steps) (sum operand' steps') := by
  intro m small a b c d twin
  unfold sum
  refine .line ?_
  refine .bind (inner small twin) ?_
  rintro left _ c d rfl twin
  exact sumTail_parallel inner _ _ left enough enough' small twin

theorem checkComparison_agree {a b : List Instruction} {c d : Compiler} (operator : Kind)
    (l l' : Nat) (left : Ty) (r r' : Nat) (right : Ty) (twin : Twin a b n c d) :
    Agree Eq (Twin a b n) (checkComparison operator l left r right c)
      (checkComparison operator l' left r' right d) := by
  unfold checkComparison
  refine .ite (fun _ => ?_) fun _ => ?_
  · exact .ite (fun _ => .failAt rfl rfl rfl) fun _ => .ok rfl twin
  · refine .refuseAt rfl fun _ => ?_
    exact .ite (fun _ => .failAt rfl rfl rfl) fun _ => .ok rfl twin

theorem comparisonTail_parallel {operand operand' : Compile Ty}
    (inner : Parallel n operand operand') (l l' : Nat) (left : Ty) (enough : n < steps)
    (enough' : n < steps') :
    Parallel n (comparisonTail operand l steps left) (comparisonTail operand' l' steps' left) := by
  intro m small a b c d twin
  induction steps generalizing m steps' c d n left with
  | zero => omega
  | succ steps ih =>
    obtain ⟨steps', rfl⟩ : ∃ k, steps' = k + 1 := ⟨steps' - 1, by omega⟩
    unfold comparisonTail
    refine .token twin ?_
    dsimp only
    cases operator : comparison? c.current.kind with
    | none => exact .ok rfl twin
    | some condition =>
      have real : c.current.kind ≠ .finish := by
        intro finish
        simp [finish, comparison?] at operator
      refine .take twin real fun k fewer later => ?_
      subst fewer
      have inner := inner.mono (show k ≤ n by omega)
      refine .bind (rightOperand_agree inner later) ?_
      rintro ⟨right, _⟩ ⟨_, _⟩ c d rfl twin
      refine .bind (checkComparison_agree _ _ _ left _ _ right twin) ?_
      rintro _ _ c d rfl twin
      refine .emit twin (by rintro ⟨⟩) fun twin => ?_
      refine .emit twin (by rintro ⟨⟩) fun twin => ?_
      refine (ih inner .bool (by omega) (by omega) le_rfl twin).mono ?_
      exact fun _ _ twin => twin.mono (Nat.le_succ k)

theorem comparison_parallel {operand operand' : Compile Ty} (inner : Parallel n operand operand')
    (enough : n < steps) (enough' : n < steps') :
    Parallel n (comparison operand steps) (comparison operand' steps') := by
  intro m small a b c d twin
  unfold comparison
  refine .line ?_
  refine .bind (inner small twin) ?_
  rintro left _ c d rfl twin
  exact comparisonTail_parallel inner _ _ left enough enough' small twin

theorem logicalTail_parallel {rule : Logical} {operand operand' : Compile Ty}
    (real : rule.operator ≠ .finish) (inner : Parallel n operand operand') (l l' : Nat) (left : Ty)
    (enough : n < steps) (enough' : n < steps') :
    Parallel n (logicalTail rule operand steps l left)
      (logicalTail rule operand' steps' l' left) := by
  intro m small a b c d twin
  induction steps generalizing m steps' c d n l l' left with
  | zero => omega
  | succ steps ih =>
    obtain ⟨steps', rfl⟩ : ∃ k, steps' = k + 1 := ⟨steps' - 1, by omega⟩
    unfold logicalTail
    refine .token twin ?_
    refine .ite (fun operator => ?_) fun _ => .ok rfl twin
    refine .refuseAt rfl fun _ => ?_
    refine .freshLabel twin fun twin => ?_
    refine .emit twin (by rintro ⟨⟩) fun twin => ?_
    refine .emitJump twin fun twin => ?_
    refine .emit twin (by rintro ⟨⟩) fun twin => ?_
    refine .take twin (by simpa [operator] using real) fun k fewer later => ?_
    subst fewer
    have inner := inner.mono (show k ≤ n by omega)
    refine .line ?_
    refine .bind (inner le_rfl later) ?_
    rintro right _ c d rfl twin
    refine .refuseAt rfl fun _ => ?_
    refine .emit twin (by rintro ⟨⟩) fun twin => ?_
    refine .emit twin (by rintro ⟨⟩) fun twin => ?_
    refine .emit twin (by rintro ⟨⟩) fun twin => ?_
    refine .emitLabel twin fun twin => ?_
    refine (ih inner _ _ .bool (by omega) (by omega) le_rfl twin).mono ?_
    exact fun _ _ twin => twin.mono (Nat.le_succ k)

theorem logical_parallel (rule : Logical) {operand operand' : Compile Ty}
    (real : rule.operator ≠ .finish) (inner : Parallel n operand operand') (enough : n < steps)
    (enough' : n < steps') :
    Parallel n (logical rule operand steps) (logical rule operand' steps') := by
  intro m small a b c d twin
  unfold logical
  refine .line ?_
  refine .bind (inner small twin) ?_
  rintro left _ c d rfl twin
  exact logicalTail_parallel real inner _ _ left enough enough' small twin

theorem operatorLevels_parallel {self self' : Compile Ty} (inner : ∀ m < n, Parallel m self self')
    (enough : n < steps) (enough' : n < steps') :
    Parallel n (operatorLevels self steps) (operatorLevels self' steps') := by
  have tight := unary_parallel (primary_parallel inner enough enough') enough enough'
  have power := arithmetic_parallel powers rfl tight enough enough'
  have product := arithmetic_parallel products rfl power enough enough'
  have ordered := comparison_parallel (sum_parallel product enough enough') enough enough'
  have conjunction := logical_parallel conjunctionRule (by decide) ordered enough enough'
  exact logical_parallel disjunctionRule (by decide) conjunction enough enough'

theorem ternary_parallel {self self' : Compile Ty} (inner : ∀ m < n, Parallel m self self')
    (enough : n < steps) (enough' : n < steps') :
    Parallel n (ternary self steps) (ternary self' steps') := by
  intro m small a b c d twin
  unfold ternary
  refine .line ?_
  refine .bind (operatorLevels_parallel inner enough enough' small twin) ?_
  rintro type _ c d rfl twin
  refine .token twin ?_
  refine .ite (fun _ => .ok rfl twin) fun asks => ?_
  refine .refuseAt rfl fun _ => ?_
  refine .freshLabel twin fun twin => ?_
  refine .freshLabel twin fun twin => ?_
  refine .emit twin (by rintro ⟨⟩) fun twin => ?_
  refine .emitJump twin fun twin => ?_
  have question : c.current.kind = .question := Decidable.not_not.mp asks
  refine .take twin (by simp [question]) fun k fewer later => ?_
  refine .bind (inner k (by omega) le_rfl later) ?_
  rintro whenTrue _ c d rfl twin
  refine .expect twin (by decide) fun j c d fewer' twin => ?_
  refine .emitJump twin fun twin => ?_
  refine .emitLabel twin fun twin => ?_
  refine .line ?_
  refine .bind (inner j (by omega) le_rfl twin) ?_
  rintro whenFalse _ c d rfl twin
  refine .emitLabel twin fun twin => ?_
  refine .refuseAt rfl fun _ => ?_
  exact .ok rfl (twin.mono (by omega))

-- How deeply an expression may be nested makes no difference, once it exceeds the words ahead.
theorem expression_parallel (enough : n + 2 ≤ steps) (enough' : n + 2 ≤ steps') :
    Parallel n (expression steps) (expression steps') := by
  induction n using Nat.strong_induction_on generalizing steps steps' with
  | _ n ih =>
    obtain ⟨steps, rfl⟩ : ∃ k, steps = k + 1 := ⟨steps - 1, by omega⟩
    obtain ⟨steps', rfl⟩ : ∃ k, steps' = k + 1 := ⟨steps' - 1, by omega⟩
    refine ternary_parallel ?_ (by omega) (by omega)
    intro m few
    exact ih m few (by omega) (by omega)

end Compile

end ScalarScript
