import ScalarScript.Proofs.Typing.Check
/-!
The code of a tree is checked: expressions leave a value of their type in `eax`, statements leave
the stack as it was, and functions come to their ends with a value of the declared type.
-/
namespace ScalarScript

open Compile (eax ebx)

-- What is known at the labels of expressions, in the order of their code.
mutual

def Expr.marks (chain : Chain) (ready : Ready) : List Ty → Expr → List (Int × Mark)
  | _, .constant _ | _, .var _ => []
  | stack, .call _ args => args.marks chain ready stack
  | stack, .unary _ e => e.marks chain ready stack
  | stack, .binary _ a b | stack, .compare _ a b =>
    a.marks chain ready stack ++ b.marks chain ready (a.type :: stack)
  | stack, .logical _ a b done =>
    a.marks chain ready stack ++ b.marks chain ready (a.type :: stack) ++
      [(done, ⟨chain, true, ready, stack, some .bool⟩)]
  | stack, .choose c a b otherwise done =>
    c.marks chain ready stack ++ a.marks chain ready stack ++
      [(otherwise, ⟨chain, true, ready, stack, none⟩)] ++ b.marks chain ready stack ++
      [(done, ⟨chain, true, ready, stack, some (if a.type = .null then b.type else a.type)⟩)]

def Args.marks (chain : Chain) (ready : Ready) : List Ty → Args → List (Int × Mark)
  | _, .nil => []
  | stack, .cons e rest => e.marks chain ready stack ++ rest.marks chain ready (e.type :: stack)

end

-- A point between statements.
def Mark.rest (chain : Chain) (ready : Ready) : Mark := ⟨chain, true, ready, [], none⟩

-- The labels of a condition that may be left out.
def Stmt.guardMarks (chain : Chain) (ready : Ready) : Option Expr → List (Int × Mark)
  | none => []
  | some e => e.marks chain ready []

-- What is known at the labels of statements, in the order of their code.
def Stmt.marks : Chain → Ready → Stmt → List (Int × Mark)
  | _, _, skip | _, _, leave _ => []
  | chain, before, seq a b => marks chain before a ++ marks chain (a.ready before) b
  | chain, before, block a => marks chain before a
  | chain, before, expr e | chain, before, assign _ e => e.marks chain before []
  | chain, before, declare _ s e => guardMarks chain (s :: before) e
  | chain, before, yield e _ | chain, before, exit e => guardMarks chain before e
  | chain, before, function r body =>
    (r.entry, (r.signature body chain before).start) ::
      marks (r.frame body :: chain) (r.symbols ++ before) body ++
      [(r.result, ⟨r.frame body :: chain, true, [], [], some r.returnType.ty⟩),
        (r.skip, .rest chain before)]
  | chain, before, ifThen e a otherwise =>
    e.marks chain before [] ++ marks chain before a ++ [(otherwise, .rest chain before)]
  | chain, before, ifElse e a b otherwise done =>
    e.marks chain before [] ++ marks chain before a ++ [(otherwise, .rest chain before)] ++
      marks chain before b ++ [(done, .rest chain before)]
  | chain, before, whileLoop e a top done =>
    (top, .rest chain before) :: e.marks chain before [] ++ marks chain before a ++
      [(done, .rest chain before)]
  | chain, before, forLoop init e a step top done =>
    marks chain before init ++ (top, .rest chain (init.ready before)) ::
      guardMarks chain (init.ready before) e ++ marks chain (init.ready before) a ++
      marks chain (a.ready (init.ready before)) step ++ [(done, .rest chain (init.ready before))]
  | chain, before, loopWhile a e top done =>
    (top, .rest chain before) :: marks chain before a ++ e.marks chain (a.ready before) [] ++
      [(done, .rest chain (a.ready before))]

-- Types that a variable, a parameter or a result is declared with.
structure Outline.Plain (o : Outline) : Prop where
  hosts : ∀ d ∈ o.hosts, d.type ≠ .null ∧ (d.type = .function → ∀ p ∈ d.params, p ≠ .null)
  params : ∀ label f, o.functions label = some f → ∀ p ∈ f.params, p ≠ .null
  exitType : ∀ t ∈ o.exitType, t ≠ .null

namespace Symbol

theorem Fits.type_ne_null {o : Outline} {chain : Chain} {ready : Ready} {s : Symbol}
    (plain : o.Plain) (fits : s.Fits o chain ready) (held : s.isFunction = false) : s.type ≠ .null := by
  unfold Fits at fits
  split at fits
  · obtain ⟨i, d, _, present, same, _⟩ := fits
    rw [← same]
    exact (plain.hosts d (List.mem_of_getElem? present)).1
  · obtain ⟨_, leads⟩ := fits
    rw [if_neg (by simp [held])] at leads
    obtain ⟨⟨_, _, l, _, _, _, _, typed⟩, _⟩ := leads
    rw [typed]
    cases l.type <;> rintro ⟨⟩

theorem Fits.params_ne_null {o : Outline} {chain : Chain} {ready : Ready} {s : Symbol}
    (plain : o.Plain) (fits : s.Fits o chain ready) (function : s.isFunction = true) :
    ∀ p ∈ s.params, p ≠ .null := by
  unfold Fits at fits
  split at fits
  · obtain ⟨i, d, _, present, same, callable⟩ := fits
    rw [← (callable function).1]
    refine (plain.hosts d (List.mem_of_getElem? present)).2 ?_
    rw [same]
    simpa [isFunction] using function
  · obtain ⟨_, leads⟩ := fits
    obtain ⟨body, f, before, known, _⟩ := leads
    exact plain.params _ _ known

end Symbol

theorem Ty.into_of_forall_accepts {params given : List Ty}
    (accepted : List.Forall₂ (fun wanted given => Ty.accepts false wanted given = true) params given)
    (plain : ∀ p ∈ params, p ≠ .null) : List.Forall₂ Ty.Into given.reverse params.reverse := by
  rw [List.forall₂_reverse_iff]
  induction accepted with
  | nil => exact .nil
  | cons first _ ih =>
    refine .cons (Ty.into_of_accepts first (plain _ List.mem_cons_self)) (ih ?_)
    intro p member
    exact plain p (List.mem_cons_of_mem _ member)

-- Both branches of a choice have its type.
theorem Ty.into_choice {a b : Ty} (accepted : Ty.accepts false a b = true) :
    a.Into (if a = .null then b else a) ∧ b.Into (if a = .null then b else a) := by
  split
  · rename_i none
    exact ⟨.inr none, .inl rfl⟩
  · rename_i some
    exact ⟨.inl rfl, Ty.into_of_accepts accepted some⟩

-- Code that can run with these operands on the stack, whatever the registers hold and whatever else
-- is ready.
def Follows (Γ : Plan) (υ : Shape) (chain : Chain) (ready : Ready) (stack : List Ty)
    (code : List Instruction) : Prop :=
  ∀ σ : Shape, σ.chain = chain → σ.inside = true → ready ⊆ σ.ready → σ.stack = stack →
    Check Γ υ σ code

-- Code that can run with a value of that type in `eax`.
def FollowsValue (Γ : Plan) (υ : Shape) (chain : Chain) (ready : Ready) (stack : List Ty) (t : Ty)
    (code : List Instruction) : Prop :=
  ∀ more, ready ⊆ more → Check Γ υ ⟨⟨chain, true, more, stack, some t⟩, none, none⟩ code

section

variable {Γ : Plan} {υ : Shape} {chain : Chain} {ready : Ready}

theorem Follows.mono {stack : List Ty} {code : List Instruction} {more : Ready}
    (follows : Follows Γ υ chain ready stack code) (less : ready ⊆ more) :
    Follows Γ υ chain more stack code :=
  fun σ chained inside enough stacked => follows σ chained inside (List.Subset.trans less enough) stacked

theorem Follows.value {stack : List Ty} {code : List Instruction}
    (follows : Follows Γ υ chain ready stack code) (t : Ty) :
    FollowsValue Γ υ chain ready stack t code :=
  fun _ enough => follows _ rfl rfl enough rfl

theorem Follows.load {stack : List Ty} {o : Operand} {t : Ty} {rest : List Instruction}
    (source : ∀ more, ready ⊆ more → Source Γ.outline chain more o t)
    (later : FollowsValue Γ υ chain ready stack t rest) :
    Follows Γ υ chain ready stack (.move eax o :: rest) := by
  rintro σ rfl inside enough rfl
  refine .load inside (source _ enough) ?_
  have after := later σ.ready enough
  unfold Shape.holding
  rw [inside]
  exact after

theorem Follows.label {stack : List Ty} {label : Int} {rest : List Instruction}
    (target : Γ.labels label = some ⟨chain, true, ready, stack, none⟩)
    (later : Follows Γ υ chain ready stack rest) :
    Follows Γ υ chain ready stack (.label label :: rest) := by
  rintro σ rfl inside enough rfl
  exact .label target ⟨rfl, inside, enough, rfl, (by simp)⟩
    (later _ rfl rfl (List.Subset.refl _) rfl)

theorem FollowsValue.push {stack : List Ty} {t : Ty} {rest : List Instruction}
    (later : Follows Γ υ chain ready (t :: stack) rest) :
    FollowsValue Γ υ chain ready stack t (.push eax :: rest) :=
  fun _ enough => Check.push rfl (later _ rfl rfl enough rfl)

-- The right operand goes to `ebx` and the left one comes back.
theorem FollowsValue.regroup {stack : List Ty} {t u : Ty} {rest : List Instruction}
    (later : ∀ more, ready ⊆ more → Check Γ υ ⟨⟨chain, true, more, stack, some t⟩, some u, none⟩ rest) :
    FollowsValue Γ υ chain ready (t :: stack) u (regroup ++ rest) :=
  fun more enough => .keep rfl (.pop rfl (later more enough))

theorem Follows.callInstruction {s : Symbol} {args : Args} {stack : List Ty}
    {rest : List Instruction} (plain : Γ.outline.Plain) (function : s.isFunction = true)
    (fits : s.Fits Γ.outline chain ready)
    (accepted : List.Forall₂ (fun wanted given => Ty.accepts false wanted given = true) s.params
      args.types)
    (later : FollowsValue Γ υ chain ready stack s.returnType rest) :
    Follows Γ υ chain ready (args.types.reverse ++ stack) (s.callInstruction :: rest) := by
  have into := Ty.into_of_forall_accepts accepted (fits.params_ne_null plain function)
  rintro σ rfl inside enough arguments
  have after : Check Γ υ ({ σ with stack }.holding s.returnType) rest := by
    have behind := later σ.ready enough
    unfold Shape.holding
    rw [inside]
    exact behind
  unfold Symbol.callInstruction
  split
  · rename_i host
    exact .hostCall inside (by simpa [Symbol.isExternal] using host) function (fits.mono enough)
      arguments into after
  · rename_i script
    exact .call inside (by simpa [Symbol.isExternal] using script) function (fits.mono enough)
      arguments into after

mutual

theorem Expr.check (plain : Γ.outline.Plain) : (e : Expr) → {stack : List Ty} →
    {rest : List Instruction} → e.Ok Γ.outline chain ready →
    (∀ p ∈ e.marks chain ready stack, Γ.labels p.1 = some p.2) →
    FollowsValue Γ υ chain ready stack e.type rest →
    Follows Γ υ chain ready stack (e.code ++ rest)
  | .constant v, stack, rest, ok, _, later => by
    rw [Expr.code, List.singleton_append]
    exact .load (fun _ _ => .constant v ok.1) later
  | .var s, stack, rest, ok, _, later => by
    rw [Expr.code, List.singleton_append]
    exact .load (fun _ enough => .var s ok.1 (ok.2.mono enough)) later
  | .call s args, stack, rest, ok, marks, later => by
    rw [Expr.code, List.append_assoc, List.singleton_append]
    exact args.check plain ⟨ok.1.2.1, ok.2.2⟩ marks
      (.callInstruction plain ok.1.1 ok.2.1 ok.1.2.2 later)
  | .unary op e, stack, rest, ok, marks, later => by
    rw [Expr.code, List.append_assoc, List.singleton_append]
    refine e.check plain ⟨ok.1.1, ok.2⟩ marks ?_
    rw [ok.1.2]
    exact fun more enough => .unary rfl (later more enough)
  | .binary op a b, stack, rest, ok, marks, later => by
    obtain ⟨⟨aTyped, bTyped, left, right⟩, aFits, bFits⟩ := ok
    rw [Expr.marks, List.forall_mem_append] at marks
    simp only [Expr.code, List.append_assoc, List.cons_append, List.nil_append]
    refine a.check plain ⟨aTyped, aFits⟩ marks.1
      (.push (b.check plain ⟨bTyped, bFits⟩ marks.2 (.regroup ?_)))
    rw [left, right]
    exact fun more enough => .binary rfl rfl (later more enough)
  | .compare c a b, stack, rest, ok, marks, later => by
    obtain ⟨⟨aTyped, bTyped, types⟩, aFits, bFits⟩ := ok
    rw [Expr.marks, List.forall_mem_append] at marks
    simp only [Expr.code, List.append_assoc, List.cons_append, List.nil_append]
    refine a.check plain ⟨aTyped, aFits⟩ marks.1
      (.push (b.check plain ⟨bTyped, bFits⟩ marks.2 (.regroup ?_)))
    refine fun more enough => .compare c.isOrder rfl rfl ?_ (.setIf rfl id (later more enough))
    intro order
    rw [if_neg (by rintro (rfl | rfl) <;> cases order)] at types
    exact types
  | .logical c a b done, stack, rest, ok, marks, later => by
    obtain ⟨⟨aTyped, bTyped, left, right⟩, aFits, bFits⟩ := ok
    simp only [Expr.marks, List.forall_mem_append, List.forall_mem_singleton] at marks
    obtain ⟨⟨aMarks, bMarks⟩, target⟩ := marks
    simp only [Expr.code, List.append_assoc, List.cons_append, List.nil_append]
    refine a.check plain ⟨aTyped, aFits⟩ aMarks ?_
    rw [left] at bMarks ⊢
    have plainSkip : c.rule.skip.isOrder = false := by cases c <;> rfl
    have boolean : c.rule.op.operandType = .bool := by cases c <;> rfl
    have meets (σ : Shape) (more : Ready) (enough : ready ⊆ more)
        (h : σ = ⟨⟨chain, true, more, stack, some .bool⟩, σ.ebx, σ.flags⟩) :
        σ.Meets ⟨chain, true, ready, stack, some .bool⟩ := by
      rw [h]
      exact ⟨rfl, rfl, enough, rfl, by rintro _ ⟨rfl⟩; exact ⟨_, rfl, .inl rfl⟩⟩
    have onward : FollowsValue Γ υ chain ready stack .bool (.push eax :: (b.code ++ (regroup ++
        .binary (.binary c.rule.op) eax ebx :: .label done :: rest))) := by
      refine .push (b.check plain ⟨bTyped, bFits⟩ bMarks (.regroup ?_))
      rw [right]
      intro more enough
      refine .binary (by rw [boolean]) (by rw [boolean]) ?_
      rw [boolean]
      exact .label target (meets _ more enough rfl) (later ready (List.Subset.refl _))
    exact fun more enough => .test rfl
      (.jumpIf rfl plainSkip target (meets _ more enough rfl) (onward more enough))
  | .choose c a b otherwise done, stack, rest, ok, marks, later => by
    obtain ⟨⟨cTyped, aTyped, bTyped, condition, accepted⟩, cFits, aFits, bFits⟩ := ok
    simp only [Expr.marks, List.forall_mem_append, List.forall_mem_singleton] at marks
    obtain ⟨⟨⟨⟨cMarks, aMarks⟩, other⟩, bMarks⟩, target⟩ := marks
    simp only [Expr.code, List.append_assoc, List.cons_append, List.nil_append]
    obtain ⟨aInto, bInto⟩ := Ty.into_choice accepted
    have second : Follows Γ υ chain ready stack
        (.label otherwise :: (b.code ++ .label done :: rest)) := by
      refine .label other (b.check plain ⟨bTyped, bFits⟩ bMarks ?_)
      exact fun more enough => .label target
        ⟨rfl, rfl, enough, rfl, by rintro _ ⟨rfl⟩; exact ⟨_, rfl, bInto⟩⟩
        (later ready (List.Subset.refl _))
    have first : Follows Γ υ chain ready stack (a.code ++ .branch .jump done ::
        .label otherwise :: (b.code ++ .label done :: rest)) := by
      refine a.check plain ⟨aTyped, aFits⟩ aMarks ?_
      exact fun more enough => .jump target
        ⟨rfl, rfl, enough, rfl, by rintro _ ⟨rfl⟩; exact ⟨_, rfl, aInto⟩⟩
        (second ⟨⟨chain, true, ready, stack, none⟩, none, none⟩ rfl rfl (List.Subset.refl _) rfl)
    refine c.check plain ⟨cTyped, cFits⟩ cMarks ?_
    rw [condition]
    exact fun more enough => .test rfl
      (.jumpIf rfl rfl other ⟨rfl, rfl, enough, rfl, (by simp)⟩ (first _ rfl rfl enough rfl))

theorem Args.check (plain : Γ.outline.Plain) : (args : Args) → {stack : List Ty} →
    {rest : List Instruction} → args.Typed ∧ args.All (·.Fits Γ.outline chain ready) →
    (∀ p ∈ args.marks chain ready stack, Γ.labels p.1 = some p.2) →
    Follows Γ υ chain ready (args.types.reverse ++ stack) rest →
    Follows Γ υ chain ready stack (args.code ++ rest)
  | .nil, stack, rest, _, _, later => by simpa [Args.code, Args.types] using later
  | .cons e args, stack, rest, ok, marks, later => by
    rw [Args.marks, List.forall_mem_append] at marks
    simp only [Args.code, List.append_assoc, List.cons_append]
    refine e.check plain ⟨ok.1.1, ok.2.1⟩ marks.1
      (.push (args.check plain ⟨ok.1.2, ok.2.2⟩ marks.2 ?_))
    simpa [Args.types] using later

end

theorem FollowsValue.test {stack : List Ty} {less : Ready} {c : Condition} {label : Int}
    {rest : List Instruction} (plain : c.isOrder = false)
    (target : Γ.labels label = some ⟨chain, true, less, stack, none⟩) (fewer : less ⊆ ready)
    (later : Follows Γ υ chain ready stack rest) :
    FollowsValue Γ υ chain ready stack .bool
      (.unary .test eax :: .branch (.jumpIf c) label :: rest) :=
  fun _ enough => Check.test rfl (.jumpIf rfl plain target
    ⟨rfl, rfl, List.Subset.trans fewer enough, rfl, (by simp)⟩ (later _ rfl rfl enough rfl))

theorem Follows.jump {stack : List Ty} {less : Ready} {label : Int} {rest : List Instruction}
    (target : Γ.labels label = some ⟨chain, true, less, stack, none⟩) (fewer : less ⊆ ready)
    (later : ∃ τ, Check Γ υ τ rest) :
    Follows Γ υ chain ready stack (.branch .jump label :: rest) := by
  rintro σ rfl inside enough rfl
  obtain ⟨τ, checked⟩ := later
  exact .jump target ⟨rfl, inside, List.Subset.trans fewer enough, rfl, (by simp)⟩ checked

theorem Follows.somehow {stack : List Ty} {code : List Instruction}
    (follows : Follows Γ υ chain ready stack code) : ∃ τ, Check Γ υ τ code :=
  ⟨⟨⟨chain, true, ready, stack, none⟩, none, none⟩, follows _ rfl rfl (List.Subset.refl _) rfl⟩

theorem Follows.allocate {r : Routine} {body : Stmt} (depth : r.depth = chain.length + 1)
    {params : List (Compile.Param × Nat)} (known : ∀ x ∈ params, r.params[x.2]? = some x.1)
    {stack : List Ty} {rest : List Instruction}
    (later : Follows Γ υ (r.frame body :: chain)
      ((params.map fun x => r.variable x.2 x.1).reverse ++ ready) stack rest) :
    Follows Γ υ (r.frame body :: chain) ready stack
      (params.map (fun (p, index) => Instruction.unary (.allocate p.type) (r.slot index p)) ++
        rest) := by
  induction params generalizing ready with
  | nil => exact later
  | cons x params ih =>
    obtain ⟨found, known⟩ := List.forall_mem_cons.mp known
    rintro σ chained inside enough rfl
    have onward := List.cons_subset_cons (r.variable x.2 x.1) enough
    refine Check.allocate (s := r.variable x.2 x.1) inside rfl ?_ ?_ ?_
      (ih known ?_ _ chained inside onward rfl)
    · rw [chained]
      exact depth
    · change r.depth ≠ 0
      omega
    · rw [chained]
      exact Routine.variable_inLayout depth found
    · simpa using later

theorem Follows.take {r : Routine} {body : Stmt} (depth : r.depth = chain.length + 1)
    {params : List (Compile.Param × Nat)}
    (known : ∀ x ∈ params, r.params[x.2]? = some x.1 ∧ r.variable x.2 x.1 ∈ ready)
    {rest : List Instruction} (later : Follows Γ υ (r.frame body :: chain) ready [] rest) :
    Follows Γ υ (r.frame body :: chain) ready (params.map fun x => x.1.type.ty)
      (params.map (fun (p, index) => Instruction.pop (r.slot index p)) ++ rest) := by
  induction params with
  | nil => exact later
  | cons x params ih =>
    obtain ⟨⟨found, sure⟩, known⟩ := List.forall_mem_cons.mp known
    rintro σ chained inside enough stacked
    refine Check.receive (s := r.variable x.2 x.1) inside (r.isFunction_variable x.2 x.1) ?_ stacked
      (.inl rfl) (ih known _ chained inside enough rfl)
    rw [chained]
    exact Routine.variable_fits depth found (enough sure)

-- Parameters are allocated, then taken from the stack.
theorem Follows.receive {r : Routine} {body : Stmt} {rest : List Instruction}
    (depth : r.depth = chain.length + 1)
    (later : Follows Γ υ (r.frame body :: chain) (r.symbols ++ ready) [] rest) :
    Follows Γ υ (r.frame body :: chain) ready (r.paramTypes.map Scalar.ty).reverse
      (r.receive ++ rest) := by
  have known : ∀ x ∈ r.params.zipIdx, r.params[x.2]? = some x.1 := by
    rintro ⟨p, index⟩ member
    exact List.mem_zipIdx_iff_getElem?.mp member
  have types : (r.paramTypes.map Scalar.ty).reverse =
      r.params.zipIdx.reverse.map fun x => x.1.type.ty := by
    have params := List.zipIdx_map_fst 0 r.params
    calc (r.paramTypes.map Scalar.ty).reverse
        = ((r.params.zipIdx.map Prod.fst).map fun p => p.type.ty).reverse := by
          rw [params, Routine.paramTypes, List.map_map]
          rfl
      _ = _ := by rw [List.map_map, List.map_reverse]; rfl
  have code : r.receive = r.params.zipIdx.map (fun (p, index) =>
      Instruction.unary (.allocate p.type) (r.slot index p)) ++
      r.params.zipIdx.reverse.map fun (p, index) => Instruction.pop (r.slot index p) := by
    rw [Routine.receive, List.map_reverse]
  rw [types, code, List.append_assoc]
  refine .allocate depth known (.take depth ?_ later)
  intro x member
  have found := known x (List.mem_reverse.mp member)
  exact ⟨found, List.mem_append_left _ (Routine.mem_symbols.mpr ⟨x.2, x.1, found, rfl⟩)⟩

-- A function ends with a value of its type.
def Concludes (Γ : Plan) (chain : Chain) : Prop :=
  ∀ body ∈ chain.head?, ∀ f ∈ body.enclosing, f.returnType ≠ .null ∧
    Γ.labels f.returnLabel = some ⟨chain, true, [], [], some f.returnType⟩

-- Control that leaves the innermost loop comes to a point between statements, at which no more is
-- ready than before.
def Leaves (Γ : Plan) (chain : Chain) (ready : Ready) (loops : List Int) : Prop :=
  ∀ label ∈ loops.head?, ∃ less, less ⊆ ready ∧ Γ.labels label = some (.rest chain less)

theorem Leaves.mono {loops : List Int} {more : Ready} (leaves : Leaves Γ chain ready loops)
    (less : ready ⊆ more) : Leaves Γ chain more loops := by
  intro label first
  obtain ⟨fewer, subset, known⟩ := leaves label first
  exact ⟨fewer, List.Subset.trans subset less, known⟩

-- The end of a function, reached from its body.
theorem Follows.conclude {r : Routine} {body : Stmt} {before : Ready} {rest : List Instruction}
    (depth : r.depth = chain.length + 1)
    (result : Γ.labels r.result =
      some ⟨r.frame body :: chain, true, [], [], some r.returnType.ty⟩)
    (skip : Γ.labels r.skip = some (.rest chain before)) (later : Follows Γ υ chain before [] rest) :
    Follows Γ υ (r.frame body :: chain) ready [] (Stmt.conclude r ++ rest) := by
  have length : (r.depth : Int) = (r.frame body :: chain).length := by rw [depth]; rfl
  refine .load (fun _ _ => .constant .null fun _ => rfl) ?_
  refine fun more _ => .label result
    ⟨rfl, rfl, List.nil_subset _, rfl, by rintro _ ⟨rfl⟩; exact ⟨_, rfl, .inr rfl⟩⟩ ?_
  rw [length]
  refine .popScope rfl rfl rfl ?_
  exact .ret rfl rfl rfl rfl rfl (.inl rfl) (Follows.label skip later
    ⟨⟨chain, true, before, [], none⟩, none, none⟩ rfl rfl (List.Subset.refl _) rfl)

-- A function starts by making its frame.
theorem Check.start {r : Routine} {body : Stmt} {before : Ready} {rest : List Instruction}
    (deep : r.depth ≤ Γ.outline.depths) (depth : r.depth = chain.length + 1)
    (bound : ∀ v ∈ before, v.depth ≤ chain.length)
    (later : Follows Γ υ (r.frame body :: chain) before (r.paramTypes.map Scalar.ty).reverse rest) :
    Check Γ υ { (r.signature body chain before).start with }
      (.pushScope r.depth (r.params.length + body.count) :: rest) := by
  have length : (r.depth : Int) = (r.frame body :: chain).length := by rw [depth]; rfl
  have size : (r.params.length + body.count : Int) = (r.frame body).layout.length := by
    simp [Routine.frame, Routine.locals, Stmt.length_slots]
  rw [length, size]
  exact .pushScope rfl rfl (depth.symm.le.trans deep)
    (fun v member => Nat.lt_succ_of_le (bound v member))
    (later _ rfl rfl (List.Subset.refl _) rfl)

-- A condition: where it fails, control goes to a label.
theorem Stmt.check_guard (plain : Γ.outline.Plain) {e : Option Expr} {otherwise : Int}
    {less : Ready} {rest : List Instruction}
    (ok : ∀ test ∈ e, test.Ok Γ.outline chain ready ∧ test.type = .bool)
    (marks : ∀ p ∈ guardMarks chain ready e, Γ.labels p.1 = some p.2)
    (target : Γ.labels otherwise = some (.rest chain less)) (fewer : less ⊆ ready)
    (later : Follows Γ υ chain ready [] rest) :
    Follows Γ υ chain ready [] (guard e otherwise ++ rest) := by
  cases e with
  | none => exact later
  | some e =>
    obtain ⟨eOk, boolean⟩ := ok e rfl
    simp only [guard, List.append_assoc, List.cons_append, List.nil_append]
    refine e.check plain eOk marks ?_
    rw [boolean]
    exact .test rfl target fewer later

theorem Stmt.check (plain : Γ.outline.Plain) (t : Stmt) {chain : Chain} {before : Ready}
    {loops : List Int} {rest : List Instruction} (ok : t.Ok Γ.outline chain before loops)
    (marks : ∀ p ∈ t.marks chain before, Γ.labels p.1 = some p.2) (ends : Concludes Γ chain)
    (leaves : t.leaves = true → Leaves Γ chain before loops)
    (later : Follows Γ υ chain (t.ready before) [] rest) :
    Follows Γ υ chain before [] (t.code ++ rest) := by
  induction t generalizing chain before loops rest with
  | skip => exact later
  | seq a b aCheck bCheck =>
    rw [Stmt.marks, List.forall_mem_append] at marks
    rw [Stmt.code, List.append_assoc]
    rw [Stmt.leaves, Bool.or_eq_true] at leaves
    refine aCheck ok.1 marks.1 ends (fun out => leaves (.inl out))
      (bCheck ok.2 marks.2 ends (fun out => (leaves (.inr out)).mono ?_) later)
    exact a.subset_ready before
  | block a check =>
    exact check ok marks ends leaves (later.mono (a.subset_ready before))
  | expr e => exact e.check plain ok marks (later.value _)
  | assign s e =>
    obtain ⟨eOk, held, fits, accepted⟩ := ok
    rw [Stmt.code, List.append_assoc]
    refine e.check plain eOk marks fun more enough => ?_
    exact .store rfl held (fits.mono enough) rfl
      (Ty.into_of_accepts accepted (fits.type_ne_null plain held)) (later.value _ more enough)
  | declare type s init =>
    obtain ⟨depth, inner, typed, inLayout, initOk⟩ := ok
    have allocates {code : List Instruction} (later : Follows Γ υ chain (s :: before) [] code) :
        Follows Γ υ chain before [] (.unary (.allocate type) s.operand :: code) := by
      rintro σ rfl inside enough empty
      exact .allocate inside typed depth inner inLayout
        (later _ rfl inside (List.cons_subset_cons s enough) empty)
    cases init with
    | none => exact allocates later
    | some e =>
      obtain ⟨⟨eTyped, eFits⟩, accepted⟩ := initOk e rfl
      have scalar : s.type ≠ .null := by
        rw [typed]
        cases type <;> rintro ⟨⟩
      have eOk : e.Ok Γ.outline chain (s :: before) :=
        ⟨eTyped, Expr.All.imp (fun _ fits => fits.mono (List.subset_cons_self s before)) e eFits⟩
      simp only [Stmt.code, List.append_assoc, List.cons_append, List.nil_append]
      refine allocates (e.check plain eOk marks fun more enough => ?_)
      exact .store rfl (Symbol.isFunction_of_scalar typed) (Symbol.fits_of_inLayout typed depth inner
        inLayout (.inl (enough List.mem_cons_self))) rfl
        (Ty.into_of_accepts (typed ▸ accepted) scalar) (later.value _ more enough)
  | function r body bodyCheck =>
    obtain ⟨depth, deep, known, bound, bodyOk⟩ := ok
    simp only [Stmt.marks, List.cons_append, List.forall_mem_cons, List.forall_mem_append,
      List.not_mem_nil, IsEmpty.forall_iff, implies_true, and_true] at marks
    obtain ⟨entry, bodyMarks, result, skip⟩ := marks
    simp only [Stmt.code, List.append_assoc, List.cons_append, List.nil_append]
    have scalar : r.returnType.ty ≠ .null := by cases r.returnType <;> rintro ⟨⟩
    have inner : Concludes Γ (r.frame body :: chain) := by
      rintro _ ⟨rfl⟩ _ ⟨rfl⟩
      exact ⟨scalar, result⟩
    have whole : Follows Γ υ (r.frame body :: chain) before _ _ :=
      .receive depth (bodyCheck bodyOk bodyMarks inner (fun _ => by simp [Leaves])
        (.conclude depth result skip later))
    have start := Check.start deep depth bound whole
    exact .jump skip (List.Subset.refl _) ⟨{ (r.signature body chain before).start with },
      .label entry ⟨rfl, rfl, List.Subset.refl _, rfl, by rintro _ ⟨⟩⟩ start⟩
  | ifThen e a otherwise aCheck =>
    obtain ⟨eOk, boolean, aOk⟩ := ok
    simp only [Stmt.marks, List.forall_mem_append, List.forall_mem_singleton] at marks
    obtain ⟨⟨eMarks, aMarks⟩, target⟩ := marks
    simp only [Stmt.code, List.append_assoc, List.cons_append, List.nil_append]
    refine check_guard plain ?_ eMarks target (List.Subset.refl _)
      (aCheck aOk aMarks ends leaves ((Follows.label target later).mono (a.subset_ready before)))
    rintro _ ⟨rfl⟩
    exact ⟨eOk, boolean⟩
  | ifElse e a b otherwise done aCheck bCheck =>
    obtain ⟨eOk, boolean, aOk, bOk⟩ := ok
    simp only [Stmt.marks, List.forall_mem_append, List.forall_mem_singleton] at marks
    obtain ⟨⟨⟨⟨eMarks, aMarks⟩, other⟩, bMarks⟩, target⟩ := marks
    simp only [Stmt.code, List.append_assoc, List.cons_append, List.nil_append]
    rw [Stmt.leaves, Bool.or_eq_true] at leaves
    have second := Follows.label other (bCheck bOk bMarks ends (fun out => leaves (.inr out))
      ((Follows.label target later).mono (b.subset_ready before)))
    refine check_guard plain ?_ eMarks other (List.Subset.refl _)
      (aCheck aOk aMarks ends (fun out => leaves (.inl out))
        (.jump target (a.subset_ready before) second.somehow))
    rintro _ ⟨rfl⟩
    exact ⟨eOk, boolean⟩
  | whileLoop e a top done aCheck =>
    obtain ⟨eOk, boolean, aOk⟩ := ok
    simp only [Stmt.marks, List.cons_append, List.forall_mem_cons, List.forall_mem_append,
      List.not_mem_nil, IsEmpty.forall_iff, implies_true, and_true] at marks
    obtain ⟨start, ⟨eMarks, aMarks⟩, target⟩ := marks
    simp only [Stmt.code, List.append_assoc, List.cons_append, List.nil_append]
    have out : Leaves Γ chain before (done :: loops) := by
      rintro _ ⟨rfl⟩
      exact ⟨before, List.Subset.refl _, target⟩
    refine .label start (check_guard plain ?_ eMarks target (List.Subset.refl _)
      (aCheck aOk aMarks ends (fun _ => out)
        (.jump start (a.subset_ready before) (Follows.label target later).somehow)))
    rintro _ ⟨rfl⟩
    exact ⟨eOk, boolean⟩
  | forLoop init e a step top done initCheck aCheck stepCheck =>
    obtain ⟨initOk, eOk, aOk, stepOk⟩ := ok
    simp only [Stmt.marks, List.forall_mem_cons, List.forall_mem_append, List.not_mem_nil,
      IsEmpty.forall_iff, implies_true, and_true] at marks
    obtain ⟨⟨⟨⟨initMarks, start, eMarks⟩, aMarks⟩, stepMarks⟩, target⟩ := marks
    simp only [Stmt.code, List.append_assoc, List.cons_append, List.nil_append]
    have out : Leaves Γ chain (init.ready before) (done :: loops) := by
      rintro _ ⟨rfl⟩
      exact ⟨_, List.Subset.refl _, target⟩
    have behind := Follows.label target (later.mono (init.subset_ready before))
    have again : Follows Γ υ chain (step.ready (a.ready (init.ready before))) []
        (.branch .jump top :: .label done :: rest) :=
      .jump start (List.Subset.trans (a.subset_ready _) (step.subset_ready _)) behind.somehow
    exact initCheck initOk initMarks ends (fun _ => by simp [Leaves])
      (.label start (check_guard plain eOk eMarks target (List.Subset.refl _)
        (aCheck aOk aMarks ends (fun _ => out)
          (stepCheck stepOk stepMarks ends (fun _ => by simp [Leaves]) again))))
  | loopWhile a e top done aCheck =>
    obtain ⟨aOk, kept, eOk, boolean⟩ := ok
    simp only [Stmt.marks, List.cons_append, List.forall_mem_cons, List.forall_mem_append,
      List.not_mem_nil, IsEmpty.forall_iff, implies_true, and_true] at marks
    obtain ⟨start, ⟨aMarks, eMarks⟩, target⟩ := marks
    simp only [Stmt.code, List.append_assoc, List.cons_append, List.nil_append]
    refine .label start (aCheck aOk aMarks ends ?_ (e.check plain eOk eMarks ?_))
    · rintro out _ ⟨rfl⟩
      exact ⟨_, by rw [kept out]; exact List.Subset.refl _, target⟩
    · rw [boolean]
      exact .test rfl start (a.subset_ready before) (.label target later)
  | leave done =>
    rw [Stmt.code, List.singleton_append]
    obtain ⟨less, fewer, target⟩ := leaves rfl done ok
    exact .jump target fewer later.somehow
  | yield e result =>
    obtain ⟨body, f, head, function, rfl, valueOk⟩ := ok
    obtain ⟨scalar, target⟩ := ends body head f function
    obtain ⟨τ, checked⟩ := later.somehow
    cases e with
    | none =>
      refine .load (fun _ _ => .constant .null fun _ => rfl) ?_
      exact fun _ _ => .jump target
        ⟨rfl, rfl, List.nil_subset _, rfl, by rintro _ ⟨rfl⟩; exact ⟨_, rfl, .inr rfl⟩⟩ checked
    | some e =>
      obtain ⟨eOk, accepted⟩ := valueOk e rfl
      rw [Stmt.code, List.append_assoc]
      refine e.check plain eOk marks ?_
      refine fun _ _ => .jump target ⟨rfl, rfl, List.nil_subset _, rfl, ?_⟩ checked
      rintro _ ⟨rfl⟩
      exact ⟨_, rfl, Ty.into_of_accepts accepted scalar⟩
  | exit e =>
    obtain ⟨τ, checked⟩ := later.somehow
    cases e with
    | none => exact fun σ _ _ _ empty => .exitNull empty checked
    | some e =>
      obtain ⟨eOk, accepted⟩ := ok e rfl
      rw [Stmt.code, List.append_assoc]
      refine e.check plain eOk marks fun _ _ => .exit rfl rfl ?_ checked
      intro wanted asked
      exact Ty.into_of_accepts (accepted wanted asked) (plain.exitType wanted asked)

end

end ScalarScript
