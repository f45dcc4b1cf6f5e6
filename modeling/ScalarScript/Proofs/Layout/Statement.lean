import ScalarScript.Proofs.Layout.Expression
import ScalarScript.Proofs.Source.Loop
/-!
Statements compiled side by side. A statement passes a word at least, so that the bounds on the
number of statements are never reached.
-/
namespace ScalarScript

open Stateful Compile

section

variable {α β γ : Type} {S : Compiler → Compiler → Prop} {a b : List Instruction} {n : Nat}
  {c d : Compiler}

-- A value that nothing looks at.
theorem Agree.discard {Q : α → β → Prop} {x : Compile α} {y : Compile β}
    (agree : Agree Q S (x c) (y d)) : Agree Eq S (Functor.discard x c) (Functor.discard y d) := by
  have one : Functor.discard x c = EStateM.map (Function.const α ()) x c := rfl
  have two : Functor.discard y d = EStateM.map (Function.const β ()) y d := rfl
  rw [one, two]
  unfold EStateM.map
  generalize x c = first at agree
  generalize y d = second at agree
  cases agree with
  | ok values states => exact .ok rfl states
  | error same objects => exact .error same objects

end

namespace Compile

variable {n steps steps' : Nat} {a b : List Instruction} {c d : Compiler}
  {self self' : Compile Unit} {expr expr' : Compile Ty}

theorem assignment_parallel (exprs : Parallel n expr expr') :
    Parallel n (assignment expr) (assignment expr') := by
  intro m small a b c d twin
  unfold assignment
  refine .token twin ?_
  refine .resolve? twin ?_
  cases c.scope.resolve? c.current.literal with
  | none => exact .failUndefined _ _ twin.scope rfl
  | some symbol =>
    dsimp only
    refine .refuseAt rfl fun _ => ?_
    refine .advance twin fun twin => ?_
    refine .advance twin fun twin => ?_
    refine .line ?_
    refine .bind (exprs small twin) ?_
    rintro type _ c d rfl twin
    refine .refuseAt rfl fun _ => ?_
    rw [emit_apply, emit_apply]
    exact .ok rfl (twin.emitted (by rintro ⟨⟩))

theorem simple_parallel (exprs : Parallel n expr expr') :
    Parallel n (simple expr) (simple expr') := by
  intro m small a b c d twin
  unfold simple
  refine .token twin ?_
  refine .get ?_
  rw [twin.following]
  refine .ite (fun _ => assignment_parallel exprs small twin) fun _ => ?_
  exact .discard (exprs small twin)

theorem declarators_parallel (exprs : Parallel n expr expr') (type : Scalar) (name : String)
    (l l' : Nat) (enough : n < steps) (enough' : n < steps') :
    Parallel n (declarators expr type steps name l) (declarators expr' type steps' name l') := by
  intro m small a b c d twin
  induction steps generalizing m steps' c d n name l l' with
  | zero => omega
  | succ steps ih =>
    obtain ⟨steps', rfl⟩ : ∃ k, steps' = k + 1 := ⟨steps' - 1, by omega⟩
    unfold declarators
    refine .bind (twin.onScope l l' _ _ fun _ => rfl) ?_
    rintro symbol _ c d rfl twin
    have others {k : Nat} {c d : Compiler} (few : k ≤ m) (twin : Twin a b k c d) :
        Agree Eq (Twin a b m)
          ((do
            discard (onScope l .declaration fun s => do return (symbol, ← s.define symbol))
            if ← accept .comma then
              let nextLine ← line
              let next ← expectName
              declarators expr type steps next nextLine : Compile Unit) c)
          ((do
            discard (onScope l' .declaration fun s => do return (symbol, ← s.define symbol))
            if ← accept .comma then
              let nextLine ← line
              let next ← expectName
              declarators expr' type steps' next nextLine : Compile Unit) d) := by
      refine .bind (.discard (twin.onScope l l' _ _ fun _ => rfl)) ?_
      rintro _ _ c d rfl twin
      refine .accept twin (by decide) (fun j fewer later => ?_) (.ok rfl (twin.mono few))
      refine .line ?_
      refine .bind later.expectName ?_
      rintro next _ c d rfl passed
      refine (ih (exprs.mono (show j ≤ n by omega)) next _ _ (by omega) (by omega) le_rfl
        passed.twin).mono ?_
      exact fun _ _ twin => twin.mono (by omega)
    refine .emit twin (by rintro ⟨⟩) fun twin => ?_
    refine .accept twin (by decide) (fun k fewer later => ?_) (others le_rfl twin)
    refine .line ?_
    refine .bind (exprs (show k ≤ n by omega) later) ?_
    rintro given _ c d rfl twin
    refine .refuseAt rfl fun _ => ?_
    exact .emit twin (by rintro ⟨⟩) fun twin => others (by omega) twin

-- What of a parameter does not depend on layout.
def Param.word (p : Param) : String × Scalar := (p.name, p.type)

theorem parameters_agree (enough : n < steps) (enough' : n < steps') (twin : Twin a b n c d) :
    Agree (fun p q => p.map Param.word = q.map Param.word) (Twin a b n) (parameters steps c)
      (parameters steps' d) := by
  induction steps generalizing n steps' c d with
  | zero => omega
  | succ steps ih =>
    obtain ⟨steps', rfl⟩ : ∃ k, steps' = k + 1 := ⟨steps' - 1, by omega⟩
    unfold parameters
    refine .token twin ?_
    dsimp only
    cases scalar : c.current.kind.scalar? with
    | none => exact .fail rfl rfl rfl
    | some type =>
      refine .advance twin fun twin => ?_
      refine .line ?_
      refine .bind twin.expectName ?_
      rintro name _ c d rfl passed
      refine .accept passed.twin (by decide) (fun k fewer later => ?_) (.ok rfl passed.twin)
      refine .bind (ih (by omega) (by omega) later) ?_
      intro p q c d same twin
      exact .ok (by simp [Param.word, same]) (twin.mono (by omega))

theorem parameterList_agree (enough : n < steps) (enough' : n < steps') (twin : Twin a b n c d) :
    Agree (fun p q => p.map Param.word = q.map Param.word) (Twin a b n) (parameterList steps c)
      (parameterList steps' d) := by
  unfold parameterList
  refine .token twin ?_
  exact .ite (fun _ => .ok rfl twin) fun _ => parameters_agree enough enough' twin

theorem bindParams_agree {params others : List Param}
    (same : params.map Param.word = others.map Param.word) (twin : Twin a b n c d) :
    Agree Eq (Twin a b n) (bindParams params c) (bindParams others d) := by
  induction params generalizing others c d with
  | nil =>
    cases others with
    | nil => exact .ok rfl twin
    | cons => simp at same
  | cons p params ih =>
    cases others with
    | nil => simp at same
    | cons q others =>
      obtain ⟨word, same⟩ := List.cons.inj same
      obtain ⟨name, type⟩ := Prod.mk.inj word
      unfold bindParams
      rw [name, type]
      refine .bind (twin.onScope _ _ _ _ fun _ => rfl) ?_
      rintro symbol _ c d rfl twin
      refine .emit twin (by rintro ⟨⟩) fun twin => ?_
      refine .bind (ih same twin) ?_
      rintro operands _ c d rfl twin
      exact .ok rfl twin

theorem forM_emit_parallel (f : Operand → Instruction) (active : ∀ o, ¬ (f o).opcode.isMark = true)
    (operands : List Operand) :
    Parallel n (operands.forM fun o => emit (f o)) (operands.forM fun o => emit (f o)) := by
  intro m _ a b c d twin
  induction operands generalizing c d with
  | nil => exact .ok rfl twin
  | cons o operands ih => exact .emit twin (active o) fun twin => ih twin

-- Statements up to a brace. Each passes a word, so that the bound is never reached.
theorem statements_parallel {missing : CompileFault} (real : missing.exhausts = false)
    (inner : Forward n self self') (enough : n < steps) (enough' : n < steps') :
    Parallel n (statements self missing steps) (statements self' missing steps') := by
  intro m small a b c d twin
  induction steps generalizing m steps' c d n with
  | zero => omega
  | succ steps ih =>
    obtain ⟨steps', rfl⟩ : ∃ k, steps' = k + 1 := ⟨steps' - 1, by omega⟩
    have again : Agree Eq (Twin a b m) ((do self; statements self missing steps : Compile Unit) c)
        ((do self'; statements self' missing steps' : Compile Unit) d) := by
      refine .bind (inner small twin) ?_
      rintro _ _ c d rfl ⟨k, fewer, later⟩
      have inner : Forward k self self' := fun j few => inner (by omega)
      refine (ih inner (by omega) (by omega) le_rfl later).mono ?_
      exact fun _ _ twin => twin.mono (by omega)
    unfold statements
    refine .token twin ?_
    cases here : c.current.kind
    case rightBrace => exact .ok rfl twin
    case finish => exact .fail rfl rfl real
    all_goals exact again

-- A body that is compiled at a place of its own.
theorem inFunction_agree {α : Type} {m : Nat} {x y : Compile α} (f : Enclosing)
    (twin : Twin a b n c d)
    (acts : ∀ c d, Twin a b n c d → Agree Eq (Twin a b m) (x c) (y d)) :
    Agree Eq (Twin a b m) (inFunction f x c) (inFunction f y d) := by
  have loops : d.loops = c.loops := congrArg Setting.loops twin.setting
  have enclosing : d.enclosing = c.enclosing := congrArg Setting.enclosing twin.setting
  unfold inFunction
  refine .get ?_
  refine .altered ?_
  refine .bind (acts _ _ (twin.placed [] (some f))) ?_
  rintro u _ c' d' rfl later
  rw [loops, enclosing]
  refine .altered ?_
  exact .ok rfl (later.placed _ _)

theorem functionBody_agree {params others : List Param} (f : Enclosing) (skip : Int)
    (inner : ∀ m < n, Forward m self self') (enough : n ≤ steps) (enough' : n ≤ steps')
    (same : params.map Param.word = others.map Param.word) (twin : Twin a b n c d) :
    Agree Eq (Twin a b n) (functionBody self steps params f skip c)
      (functionBody self' steps' others f skip d) := by
  unfold functionBody
  refine .innermost twin ?_
  refine .emit twin (by rintro ⟨⟩) fun entered => ?_
  refine .step (lastIndex_apply _) (lastIndex_apply _) ?_
  have entered := entered.rebase
  refine .bind (bindParams_agree same entered) ?_
  rintro slots _ c' d' rfl later
  refine .bind (forM_emit_parallel _ (by rintro _ ⟨⟩) _ le_rfl later) ?_
  rintro _ _ c' d' rfl later
  refine .bind (R := Twin _ _ n) (Q := Eq) (inFunction_agree f later fun c' d' later => ?_) ?_
  · refine .expect later (by decide) fun k c' d' fewer later => ?_
    refine (statements_parallel rfl (inner k (by omega)) (by omega) (by omega) le_rfl later).mono ?_
    exact fun _ _ twin => twin.mono (by omega)
  rintro _ _ c' d' rfl later
  refine .emit later (by rintro ⟨⟩) fun later => ?_
  refine .emitLabel later fun later => ?_
  refine .emit later (by rintro ⟨⟩) fun later => ?_
  refine .emit later (by rintro ⟨⟩) fun later => ?_
  refine .emitLabel later fun later => ?_
  refine .get ?_
  rw [later.scope]
  refine .step (amend_apply _ _ _) (amend_apply _ _ _) ?_
  exact .ok rfl (twin.amended (by rintro ⟨⟩) later)

theorem function_agree (returnType : Scalar) (name : String) (l l' : Nat)
    (inner : ∀ m < n, Forward m self self') (enough : n < steps) (enough' : n < steps')
    (twin : Twin a b n c d) :
    Agree Eq (Twin a b n) (function self steps returnType name l c)
      (function self' steps' returnType name l' d) := by
  unfold function
  refine .advance twin fun twin => ?_
  refine .bind (parameterList_agree enough enough' twin) ?_
  intro params others c d same twin
  have types : others.map (·.type.ty) = params.map (·.type.ty) := by
    have types := congrArg (List.map fun p : String × Scalar => p.2.ty) same
    simpa [Param.word, Function.comp_def] using types.symm
  have length : others.length = params.length := by
    simpa using congrArg List.length same.symm
  refine .expect twin (by decide) fun k c d fewer twin => ?_
  refine .freshLabel twin fun twin => ?_
  refine .freshLabel twin fun twin => ?_
  refine .freshLabel twin fun twin => ?_
  rw [types, length]
  refine .bind (.discard (twin.onScope l l' _ _ fun _ => rfl)) ?_
  rintro _ _ c d rfl twin
  refine .emitJump twin fun twin => ?_
  refine .emitLabel twin fun twin => ?_
  refine .innermost twin ?_
  refine .bind (twin.within _ fun twin => functionBody_agree _ _ (fun j few => inner j (by omega))
    (by omega) (by omega) same twin) ?_
  rintro size _ c d rfl twin
  refine .advance twin fun twin => ?_
  exact .ok rfl { twin.mono (show k ≤ n by omega) with }

-- A declaration starts with its type.
theorem declaration_agree (allowFunction : Bool) (type : Scalar)
    (inner : ∀ m < n, Forward m self self') (exprs : Parallel n expr expr') (enough : n < steps)
    (enough' : n < steps') (twin : Twin a b n c d) (real : c.current.kind ≠ .finish) :
    Agree Eq (Fewer a b n) (declaration self expr steps allowFunction type c)
      (declaration self' expr' steps' allowFunction type d) := by
  unfold declaration
  refine .take twin real fun k fewer later => ?_
  have shorter (c d : Compiler) (twin : Twin a b k c d) : Fewer a b n c d := ⟨k, fewer, twin⟩
  refine .line ?_
  refine .bind later.expectName ?_
  rintro name _ c d rfl passed
  have twin := passed.twin
  refine .token twin ?_
  refine .ite (fun _ => ?_) fun _ => ?_
  · refine .ite (fun _ => .stop rfl rfl rfl) fun _ => ?_
    refine .bind (function_agree type name _ _ (fun j few => inner j (by omega)) (by omega)
      (by omega) twin) ?_
    rintro _ _ c d rfl twin
    exact .ok rfl (shorter c d twin)
  · refine .bind (declarators_parallel exprs type name _ _ enough enough' (by omega) twin) ?_
    rintro _ _ c d rfl twin
    exact .ok rfl (shorter c d twin)

theorem condition_parallel (exprs : Parallel n expr expr') :
    Parallel n (condition expr) (condition expr') := by
  intro m small a b c d twin
  unfold condition
  refine .expect twin (by decide) fun k c d fewer twin => ?_
  refine .line ?_
  refine .bind (exprs (by omega) twin) ?_
  rintro type _ c d rfl twin
  refine .refuseAt rfl fun _ => ?_
  refine .emit twin (by rintro ⟨⟩) fun twin => ?_
  refine (twin.expect (by decide)).mono fun _ _ passed => ?_
  exact passed.twin.mono (by omega)

theorem conditional_agree (inner : ∀ m < n, Forward m self self') (exprs : Parallel n expr expr')
    (twin : Twin a b n c d) (real : c.current.kind ≠ .finish) :
    Agree Eq (Fewer a b n) (conditional self expr c) (conditional self' expr' d) := by
  unfold conditional
  refine .take twin real fun k fewer later => ?_
  have shorter {c d : Compiler} (twin : Twin a b k c d) : Fewer a b n c d := ⟨k, fewer, twin⟩
  have statement := (inner k (by omega)).parallel
  refine .bind (condition_parallel exprs (by omega) later) ?_
  rintro _ _ c d rfl twin
  refine .freshLabel twin fun twin => ?_
  refine .emitJump twin fun twin => ?_
  refine .bind (statement le_rfl twin) ?_
  rintro _ _ c d rfl twin
  refine .token twin ?_
  refine .ite (fun _ => .ok rfl (shorter (twin.push _))) fun _ => ?_
  refine .advance twin fun twin => ?_
  refine .freshLabel twin fun twin => ?_
  refine .emitJump twin fun twin => ?_
  refine .emitLabel twin fun twin => ?_
  refine .bind (statement le_rfl twin) ?_
  rintro _ _ c d rfl twin
  exact .ok rfl (shorter (twin.push _))

theorem loopBody_parallel (done : Int) (inner : Parallel n self self') :
    Parallel n (loopBody self done) (loopBody self' done) := by
  intro m small a b c d twin
  unfold loopBody
  refine .altered ?_
  refine .bind (inner small (twin.looping (done :: ·))) ?_
  rintro _ _ c d rfl twin
  exact .ok rfl (twin.looping List.tail)

theorem whileLoop_agree (inner : ∀ m < n, Forward m self self') (exprs : Parallel n expr expr')
    (twin : Twin a b n c d) (real : c.current.kind ≠ .finish) :
    Agree Eq (Fewer a b n) (whileLoop self expr c) (whileLoop self' expr' d) := by
  unfold whileLoop
  refine .take twin real fun k fewer later => ?_
  refine .freshLabel later fun twin => ?_
  refine .freshLabel twin fun twin => ?_
  refine .emitLabel twin fun twin => ?_
  refine .bind (condition_parallel exprs (by omega) twin) ?_
  rintro _ _ c d rfl twin
  refine .emitJump twin fun twin => ?_
  refine .bind (loopBody_parallel _ (inner k (by omega)).parallel le_rfl twin) ?_
  rintro _ _ c d rfl twin
  refine .emitJump twin fun twin => ?_
  exact .ok rfl ⟨k, fewer, twin.push _⟩

theorem loopWhile_agree (inner : ∀ m < n, Forward m self self') (exprs : Parallel n expr expr')
    (twin : Twin a b n c d) (real : c.current.kind ≠ .finish) :
    Agree Eq (Fewer a b n) (loopWhile self expr c) (loopWhile self' expr' d) := by
  unfold loopWhile
  refine .take twin real fun k fewer later => ?_
  refine .freshLabel later fun twin => ?_
  refine .freshLabel twin fun twin => ?_
  refine .emitLabel twin fun twin => ?_
  refine .bind (loopBody_parallel _ (inner k (by omega)).parallel le_rfl twin) ?_
  rintro _ _ c d rfl twin
  refine .expect twin (by decide) fun j c d fewer' twin => ?_
  refine .bind (condition_parallel exprs (by omega) twin) ?_
  rintro _ _ c d rfl twin
  refine .emitJump twin fun twin => ?_
  refine .expect twin (by decide) fun i c d fewer'' twin => ?_
  exact .ok rfl ⟨k, fewer, (twin.push _).mono (by omega)⟩

-- Both pass over the same words.
theorem skipStep_parallel (nesting : Nat) (enough : n < steps) (enough' : n < steps') :
    Parallel n (skipStep steps nesting) (skipStep steps' nesting) := by
  intro m small a b c d twin
  induction steps generalizing m steps' c d n nesting with
  | zero => omega
  | succ steps ih =>
    obtain ⟨steps', rfl⟩ : ∃ k, steps' = k + 1 := ⟨steps' - 1, by omega⟩
    have again (nesting : Nat) (real : c.current.kind ≠ .finish) : Agree Eq (Twin a b m)
        ((do advance; skipStep steps nesting : Compile Unit) c)
        ((do advance; skipStep steps' nesting : Compile Unit) d) := by
      refine .take twin real fun k fewer later => ?_
      have passed := ih nesting (show k < steps by omega) (show k < steps' by omega) le_rfl later
      exact passed.mono fun _ _ twin => twin.mono (by omega)
    unfold skipStep
    refine .token twin ?_
    cases here : c.current.kind
    case finish => exact .fail rfl rfl rfl
    case leftParen => exact again _ (by rw [here]; decide)
    case rightParen => exact .ite (fun _ => .ok rfl twin) fun _ => again _ (by rw [here]; decide)
    all_goals exact again _ (by rw [here]; decide)

theorem forInit_parallel (inner : ∀ m < n, Forward m self self') (exprs : Parallel n expr expr')
    (enough : n < steps) (enough' : n < steps') :
    Parallel n (forInit self expr steps) (forInit self' expr' steps') := by
  intro m small a b c d twin
  unfold forInit
  refine .token twin ?_
  dsimp only
  cases scalar : c.current.kind.scalar? with
  | none => exact .ite (fun _ => simple_parallel exprs small twin) fun _ => .ok rfl twin
  | some type =>
    have real : c.current.kind ≠ .finish := by
      intro last
      simp [last, Kind.scalar?] at scalar
    have declared : Agree Eq (Fewer a b m) (declaration self expr steps false type c)
        (declaration self' expr' steps' false type d) :=
      declaration_agree false type (fun j few => inner j (by omega)) (exprs.mono small)
        (by omega) (by omega) twin real
    exact .discard (declared.mono fun _ _ => Fewer.twin)

theorem forCondition_parallel (exprs : Parallel n expr expr') (done : Int) :
    Parallel n (forCondition expr done) (forCondition expr' done) := by
  intro m small a b c d twin
  unfold forCondition
  refine .token twin ?_
  refine .ite (fun _ => ?_) fun _ => .ok rfl twin
  refine .line ?_
  refine .bind (exprs small twin) ?_
  rintro type _ c d rfl twin
  refine .refuseAt rfl fun _ => ?_
  refine .emit twin (by rintro ⟨⟩) fun twin => ?_
  exact .ok rfl (twin.push _)

theorem forStep_parallel (exprs : Parallel n expr expr') :
    Parallel n (forStep expr) (forStep expr') := by
  intro m small a b c d twin
  unfold forStep
  refine .token twin ?_
  refine .ite (fun _ => ?_) fun _ => .ok rfl twin
  refine .bind (simple_parallel exprs small twin) ?_
  rintro _ _ c d rfl twin
  refine .token twin ?_
  exact .ite (fun _ => .fail rfl rfl rfl) fun _ => .ok rfl twin

-- The step clause stands between the same words on both sides, so that going back to it, and on to
-- what follows the body, keeps twins.
theorem forLoop_agree (inner : ∀ m < n, Forward m self self') (exprs : Parallel n expr expr')
    (enough : n < steps) (enough' : n < steps') (twin : Twin a b n c d)
    (real : c.current.kind ≠ .finish) :
    Agree Eq (Fewer a b n) (forLoop self expr steps c) (forLoop self' expr' steps' d) := by
  unfold forLoop
  refine .take twin real fun k fewer later => ?_
  refine .expect later (by decide) fun j c d fewer' twin => ?_
  refine .innermost twin ?_
  have inner (i : Nat) (few : i ≤ j) : Forward i self self' := inner i (by omega)
  have exprs : Parallel j expr expr' := exprs.mono (by omega)
  have shorter (c d : Compiler) (twin : Twin a b j c d) : Fewer a b n c d :=
    ⟨k, fewer, twin.mono (by omega)⟩
  refine (twin.within _ fun twin => ?_).mono shorter
  refine .bind (forInit_parallel (fun i few => inner i (by omega)) exprs (by omega) (by omega)
    le_rfl twin) ?_
  rintro _ _ c d rfl twin
  refine .expect twin (by decide) fun i c d few twin => ?_
  refine .freshLabel twin fun twin => ?_
  refine .freshLabel twin fun twin => ?_
  refine .emitLabel twin fun twin => ?_
  refine .bind (forCondition_parallel exprs _ (by omega) twin) ?_
  rintro _ _ c d rfl twin
  refine .expect twin (by decide) fun h c d few' step => ?_
  refine .get ?_
  refine .bind (skipStep_parallel 0 (by omega) (by omega) le_rfl step) ?_
  rintro _ _ c d rfl twin
  refine .advance twin fun twin => ?_
  refine .bind (loopBody_parallel _ (inner h (by omega)).parallel le_rfl twin) ?_
  rintro _ _ c d rfl resume
  refine .get ?_
  refine .step (seek_apply _ _) (seek_apply _ _) ?_
  refine .bind (forStep_parallel exprs (by omega) (resume.settle step.words step.left)) ?_
  rintro _ _ c d rfl twin
  refine .step (seek_apply _ _) (seek_apply _ _) ?_
  have twin := twin.settle resume.words resume.left
  refine .emitJump twin fun twin => ?_
  exact .ok rfl ((twin.push _).mono (by omega))

theorem breakLoop_agree (twin : Twin a b n c d) (real : c.current.kind ≠ .finish) :
    Agree Eq (Fewer a b n) (breakLoop c) (breakLoop d) := by
  unfold breakLoop
  refine .get ?_
  rw [show d.loops = c.loops from congrArg Setting.loops twin.setting]
  cases c.loops with
  | nil => exact .fail rfl rfl rfl
  | cons done outer =>
    refine .take twin real fun k fewer later => ?_
    refine .expect later (by decide) fun j c d fewer' twin => ?_
    exact .ok rfl ⟨k, fewer, (twin.push _).mono (by omega)⟩

theorem returnValue_agree (exprs : Parallel n expr expr') (twin : Twin a b n c d)
    (real : c.current.kind ≠ .finish) :
    Agree Eq (Fewer a b n) (returnValue expr c) (returnValue expr' d) := by
  unfold returnValue
  refine .get ?_
  rw [show d.enclosing = c.enclosing from congrArg Setting.enclosing twin.setting]
  cases c.enclosing with
  | none => exact .fail rfl rfl rfl
  | some f =>
    refine .take twin real fun k fewer later => ?_
    have leave {c d : Compiler} (twin : Twin a b k c d) : Agree Eq (Fewer a b n)
        ((do expect .semicolon; emitJump .jump f.returnLabel : Compile Unit) c)
        ((do expect .semicolon; emitJump .jump f.returnLabel : Compile Unit) d) := by
      refine .expect twin (by decide) fun j c d fewer' twin => ?_
      exact .ok rfl ⟨k, fewer, (twin.push _).mono (by omega)⟩
    refine .token later ?_
    refine .ite (fun _ => ?_) fun _ => ?_
    · exact .emit later (by rintro ⟨⟩) fun twin => leave twin
    · refine .line ?_
      refine .bind (exprs (by omega) later) ?_
      rintro type _ c d rfl twin
      exact .refuseAt rfl fun _ => leave twin

theorem exitProgram_agree (exprs : Parallel n expr expr') (twin : Twin a b n c d)
    (real : c.current.kind ≠ .finish) :
    Agree Eq (Fewer a b n) (exitProgram expr c) (exitProgram expr' d) := by
  unfold exitProgram
  refine .take twin real fun k fewer later => ?_
  refine .token later ?_
  refine .ite (fun _ => ?_) fun _ => ?_
  · refine .emit later (by rintro ⟨⟩) fun twin => ?_
    exact .ok rfl ⟨k, fewer, twin.onward⟩
  · refine .line ?_
    refine .bind (exprs (by omega) later) ?_
    rintro type _ c d rfl twin
    have leave : Agree Eq (Fewer a b n)
        ((do emit (.unary .exit eax); expect .semicolon : Compile Unit) c)
        ((do emit (.unary .exit eax); expect .semicolon : Compile Unit) d) := by
      refine .emit twin (by rintro ⟨⟩) fun twin => ?_
      refine (twin.expect (by decide)).mono fun _ _ passed => ⟨k, fewer, passed.twin⟩
    refine .get ?_
    rw [show d.exitType = c.exitType from congrArg Setting.exitType twin.setting]
    cases c.exitType with
    | none => exact leave
    | some wanted => exact .refuseAt rfl fun _ => leave

theorem block_agree (inner : ∀ m < n, Forward m self self') (enough : n < steps)
    (enough' : n < steps') (twin : Twin a b n c d) (real : c.current.kind ≠ .finish) :
    Agree Eq (Fewer a b n) (block self steps c) (block self' steps' d) := by
  unfold block
  refine .take twin real fun k fewer later => ?_
  refine .innermost later ?_
  refine (later.within _ fun twin => ?_).mono fun _ _ twin => ⟨k, fewer, twin⟩
  refine .bind (statements_parallel rfl (inner k (by omega)) (by omega) (by omega) le_rfl twin) ?_
  rintro _ _ c d rfl twin
  exact .ok rfl twin.onward

theorem statementBy_forward (inner : ∀ m < n, Forward m self self')
    (exprs : Parallel n expr expr') (enough : n < steps) (enough' : n < steps') :
    Forward n (statementBy self expr steps) (statementBy self' expr' steps') := by
  intro m small a b c d twin
  have inner (k : Nat) (few : k < m) : Forward k self self' := inner k (by omega)
  have exprs : Parallel m expr expr' := exprs.mono small
  have plain : Agree Eq (Fewer a b m) ((do simple expr; expect .semicolon : Compile Unit) c)
      ((do simple expr'; expect .semicolon : Compile Unit) d) := by
    refine .bind (simple_parallel exprs le_rfl twin) ?_
    rintro _ _ c d rfl twin
    exact twin.expect (by decide)
  have declared (type : Scalar) (real : c.current.kind ≠ .finish) : Agree Eq (Fewer a b m)
      ((do if !(← declaration self expr steps true type) then expect .semicolon : Compile Unit) c)
      ((do
        if !(← declaration self' expr' steps' true type) then expect .semicolon
          : Compile Unit) d) := by
    refine .bind (declaration_agree true type inner exprs (by omega) (by omega) twin real) ?_
    rintro isFunction _ c d rfl passed
    refine .ite (fun _ => ?_) fun _ => .ok rfl passed
    obtain ⟨k, fewer, twin⟩ := passed
    exact (twin.expect (by decide)).mono fun _ _ passed => ⟨k, fewer, passed.twin⟩
  unfold statementBy
  refine .token twin ?_
  cases here : c.current.kind
  case leftBrace => exact block_agree inner (by omega) (by omega) twin (by rw [here]; decide)
  case kwIf => exact conditional_agree inner exprs twin (by rw [here]; decide)
  case kwWhile => exact whileLoop_agree inner exprs twin (by rw [here]; decide)
  case kwFor => exact forLoop_agree inner exprs (by omega) (by omega) twin (by rw [here]; decide)
  case kwLoop => exact loopWhile_agree inner exprs twin (by rw [here]; decide)
  case kwBreak => exact breakLoop_agree twin (by rw [here]; decide)
  case kwReturn => exact returnValue_agree exprs twin (by rw [here]; decide)
  case kwExit => exact exitProgram_agree exprs twin (by rw [here]; decide)
  case semicolon => exact .ok rfl (twin.advanced (by rw [here]; decide))
  case rightBrace => exact .fail rfl rfl rfl
  all_goals first
    | exact plain
    | exact declared _ (by rw [here]; decide)

theorem statement_forward (enough : n + 3 ≤ steps) (enough' : n + 3 ≤ steps') :
    Forward n (statement steps) (statement steps') := by
  induction n using Nat.strong_induction_on generalizing steps steps' with
  | _ n ih =>
    obtain ⟨steps, rfl⟩ : ∃ k, steps = k + 1 := ⟨steps - 1, by omega⟩
    obtain ⟨steps', rfl⟩ : ∃ k, steps' = k + 1 := ⟨steps' - 1, by omega⟩
    refine statementBy_forward ?_ (expression_parallel (by omega) (by omega)) (by omega) (by omega)
    intro m few
    exact ih m few (by omega) (by omega)

end Compile

end ScalarScript
