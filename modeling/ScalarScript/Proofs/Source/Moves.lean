import ScalarScript.Proofs.Source.Completeness
import ScalarScript.Proofs.Source.Program
/-!
What the compiler keeps. It is made of a few moves: to pass a token, to add an instruction, to give
out a label, to declare a name. A property of states that survives every move survives every action,
and the code is only ever extended. Which labels an action can name is told as well: those that it
was given, and those that its state leads to.
-/
namespace ScalarScript

open Stateful Compile

-- The entry of a function of the script.
def Symbol.entries (s : Symbol) : List Int :=
  if s.isFunction && !s.isExternal then [s.label] else []

def Scope.entries (scope : Scope) : List Int := scope.flatMap fun t => t.symbols.flatMap Symbol.entries

-- What stays of an instruction when the size of a frame is put in.
def Instruction.face (i : Instruction) : Opcode × Int × Int := (i.opcode, i.target, i.line)

namespace Compiler

def faces (c : Compiler) : List (Opcode × Int × Int) := c.program.code.toList.map Instruction.face

-- The labels that a state leads to: the ends of the loops and of the function around, and the
-- entries of the functions in scope.
def known (c : Compiler) : List Int :=
  c.loops ++ (c.enclosing.map (·.returnLabel)).toList ++ c.scope.entries

theorem mem_known {c : Compiler} {l : Int} :
    l ∈ c.known ↔ l ∈ c.loops ∨ (∃ f ∈ c.enclosing, f.returnLabel = l) ∨ l ∈ c.scope.entries := by
  simp [known]

end Compiler

-- What survives the moves that expressions and simple statements consist of. It may speak of the
-- labels at hand; an action may leave them to the compiler's state, and take them from there.
structure Upheld (P : List Int → Compiler → Prop) : Prop where
  weaken : ∀ {G H c}, H ⊆ G → P G c → P H c
  gather : ∀ {G c}, P G c → P (c.known ++ G) c
  advance : ∀ {G c}, P G c → P G c.advanced
  emit : ∀ {G c} {i : Instruction}, i.opcode.isMark = false →
    (i.opcode.isBranch = true → i.target ∈ G) → P G c → P G (c.emitted i)
  label : ∀ {G c l}, l ∈ G → P G c → P G (c.push (.label l))
  jump : ∀ {G c l o}, o = .jump ∨ (∃ condition, o = .jumpIf condition) → l ∈ G → P G c →
    P G (c.push (.branch o l))
  fresh : ∀ {G c}, P G c → P ((c.free : Int) :: G) c.labelled
  rescope : ∀ {G c} (scope : Scope) (maxDepth : Nat) (log : List LogRecord),
    scope.entries ⊆ c.scope.entries → P G c → P G { c with scope, maxDepth, log }

-- What survives all moves. Labels are kept for those inside a loop or a function, or in its name; a
-- loop goes back to a place where the compiler was before; the size of a frame is put in its place.
structure Lasting (P : List Int → Compiler → Prop) : Prop extends Upheld P where
  lend : ∀ {G c} (scope : Scope) (loops : List Int) (enclosing : Option Enclosing),
    (∀ l ∈ ({ c with scope, loops, enclosing } : Compiler).known, l ∈ c.known ∨ l ∈ G) →
    P G c → P G { c with scope, loops, enclosing }
  detour : ∀ {G H c d}, P G c → P H d → P H (d.settle c.ahead)
  amend : ∀ {G c} {index : Nat} {depth size : Int},
    c.faces[index]? = some (Instruction.pushScope depth size).face → P G c →
    P G (c.amended index (.pushScope depth size))

-- An action, with some labels at hand, that keeps a property and adds to the code.
def Upholds {α : Type} (P : List Int → Compiler → Prop) (L : List Int) (x : Compile α) : Prop :=
  ∀ ⦃G : List Int⦄ ⦃c d : Compiler⦄ ⦃a : α⦄, L ⊆ G → P G c → x c = .ok a d →
    P G d ∧ c.faces <+: d.faces

theorem Compiler.faces_push (c : Compiler) (i : Instruction) :
    (c.push i).faces = c.faces ++ [i.face] := by
  simp [faces, push]

theorem Compiler.faces_emitted (c : Compiler) (i : Instruction) :
    c.faces <+: (c.emitted i).faces := by
  unfold emitted
  split
  · exact ⟨_, by simp [push, faces]; rfl⟩
  · exact ⟨_, (c.faces_push i).symm⟩

theorem Compiler.faces_emitted_last (c : Compiler) (i : Instruction) :
    (c.emitted i).faces[(c.emitted i).program.size - 1]? = some i.face := by
  unfold emitted
  split <;> simp [faces, push, Program.size]

@[simp] theorem Compiler.faces_settle (c : Compiler) (tokens : List Token) :
    (c.settle tokens).faces = c.faces := by
  obtain ⟨_, _, same⟩ := c.settle_eq tokens
  rw [same]
  rfl

@[simp] theorem Compiler.faces_advanced (c : Compiler) : c.advanced.faces = c.faces :=
  c.faces_settle _

@[simp] theorem Compiler.faces_inside (c : Compiler) (table : Table) :
    (c.inside table).faces = c.faces := rfl

@[simp] theorem Compiler.faces_outside (c : Compiler) : c.outside.faces = c.faces := rfl

theorem Scope.entries_of_resolve? {scope : Scope} {name : String} {s : Symbol}
    (found : scope.resolve? name = some s) : s.entries ⊆ scope.entries := by
  obtain ⟨t, member, declared⟩ := List.exists_of_findSome?_eq_some found
  intro l entry
  exact List.mem_flatMap.mpr ⟨t, member,
    List.mem_flatMap.mpr ⟨s, List.mem_of_find?_eq_some declared, entry⟩⟩

theorem Scope.entries_claimed (scope : Scope) (n : Nat) : (scope.claimed n).entries = scope.entries := by
  induction scope with
  | nil => rfl
  | cons t rest ih =>
    unfold claimed
    split
    · exact congrArg (t.symbols.flatMap Symbol.entries ++ ·) ih
    · rfl

theorem Scope.entries_adding_subset (scope : Scope) (extra : List Symbol) :
    (scope.adding extra).entries ⊆ extra.flatMap Symbol.entries ++ scope.entries := by
  cases scope with
  | nil => exact List.nil_subset _
  | cons t rest => simp [adding, entries]

theorem Symbol.entries_variable {s : Symbol} {type : Scalar} (typed : s.type = type.ty) :
    s.entries = [] := by
  cases type <;> simp [entries, isFunction, typed, Scalar.ty]

namespace Upheld

variable {P : List Int → Compiler → Prop} {G : List Int} {c : Compiler}

-- A table without symbols brings no entry.
theorem inside (up : Upheld P) {table : Table} (bare : table.symbols = []) (holds : P G c) :
    P G (c.inside table) :=
  up.rescope (table :: c.scope) (max c.maxDepth table.depth) c.log
    (by simp [Scope.entries, bare]) holds

theorem outside (up : Upheld P) (holds : P G c) : P G c.outside := by
  refine up.rescope c.scope.tail c.maxDepth c.log (fun l entry => ?_) holds
  obtain ⟨t, inside, found⟩ := List.mem_flatMap.mp entry
  exact List.mem_flatMap.mpr ⟨t, List.mem_of_mem_tail inside, found⟩

end Upheld

namespace Upholds

variable {P : List Int → Compiler → Prop} {L : List Int} {α β : Type} {x y : Compile α}
  {f : α → Compile β}

theorem mono {K : List Int} (keeps : Upholds P K x) (fewer : K ⊆ L) : Upholds P L x :=
  fun _ _ _ _ known => keeps (List.Subset.trans fewer known)

-- Actions that need no labels.
theorem any (keeps : Upholds P [] x) : Upholds P L x := keeps.mono (List.nil_subset _)

theorem bind (first : Upholds P L x) (second : ∀ a, Upholds P L (f a)) :
    Upholds P L (x >>= f) := by
  intro G c d b known holds ran
  obtain ⟨a, m, one, two⟩ := bind_eq_ok_iff.mp ran
  obtain ⟨middle, grown⟩ := first known holds one
  obtain ⟨after, more⟩ := second a known middle two
  exact ⟨after, grown.trans more⟩

theorem pure (a : α) : Upholds P L (Pure.pure a : Compile α) := by
  intro G c d b known holds ran
  cases ran
  exact ⟨holds, List.prefix_rfl⟩

theorem fails (never : ∀ c d a, x c ≠ .ok a d) : Upholds P L x :=
  fun _ c d a _ _ ran => absurd ran (never c d a)

theorem fail (fault : CompileFault) : Upholds P L (Compile.fail fault : Compile α) :=
  .fails (fail_ne_ok fault)

theorem failAt (l : Nat) (fault : CompileFault) :
    Upholds P L (Compile.failAt l fault : Compile α) := .fails (failAt_ne_ok l fault)

theorem failUndefined (l : Nat) (name : String) (fault : CompileFault) :
    Upholds P L (Compile.failUndefined l name fault : Compile α) :=
  .fails (failUndefined_ne_ok l name fault)

theorem ite {p : Prop} [Decidable p] (holds : Upholds P L x) (otherwise : Upholds P L y) :
    Upholds P L (if p then x else y) := by
  split
  · exact holds
  · exact otherwise

-- What is refused on a condition goes on without it.
theorem refuseAt {p : Prop} [Decidable p] {l : Nat} {fault : CompileFault} {g : α → Compile β}
    {rest : Compile β} (keeps : Upholds P L rest) :
    Upholds P L (if p then (Compile.failAt l fault >>= g) else rest) :=
  fun _ _ _ _ known holds ran => keeps known holds (refuseAt_eq_ok_iff.mp ran).2

theorem refuse {p : Prop} [Decidable p] {fault : CompileFault} {g : α → Compile β}
    {rest : Compile β} (keeps : Upholds P L rest) :
    Upholds P L (if p then (Compile.fail fault >>= g) else rest) :=
  fun _ _ _ _ known holds ran => keeps known holds (refuse_eq_ok_iff.mp ran).2

-- An action that looks at the state and leaves it alone.
theorem look {g : Compiler → α} : Upholds P L (fun c => .ok (g c) c : Compile α) := by
  intro G c d a known holds ran
  cases ran
  exact ⟨holds, List.prefix_rfl⟩

theorem token : Upholds P L Compile.token := look

theorem line : Upholds P L Compile.line := look

theorem innermost : Upholds P L Compile.innermost := look

theorem get : Upholds P L (MonadState.get : Compile Compiler) := look

theorem discard (keeps : Upholds P L x) : Upholds P L (Functor.discard x) := by
  intro G c d u known holds ran
  obtain ⟨a, inner⟩ := discard_eq_ok_iff.mp ran
  exact keeps known holds inner

section

variable (up : Upheld P)

include up

theorem advance : Upholds P L Compile.advance := by
  rintro G c d u known holds ⟨⟩
  exact ⟨up.advance holds, by rw [Compiler.faces_settle]⟩

theorem accept (kind : Kind) : Upholds P L (Compile.accept kind) :=
  .bind .token fun _ => .ite (.bind (.advance up) fun _ => .pure _) (.pure _)

theorem expect (kind : Kind) : Upholds P L (Compile.expect kind) :=
  .bind .token fun _ => .ite (.advance up) (.ite (.fail _) (.fail _))

theorem expectName : Upholds P L Compile.expectName :=
  .bind .token fun _ => .ite (.bind (.advance up) fun _ => .pure _) (.fail _)

theorem emit {i : Instruction} (active : i.opcode.isMark = false)
    (plain : i.opcode.isBranch = false) : Upholds P L (Compile.emit i) := by
  rintro G c d u known holds ⟨⟩
  exact ⟨up.emit active (by simp [plain]) holds, c.faces_emitted i⟩

theorem call {l : Int} {name : String} (member : l ∈ L) :
    Upholds P L (Compile.emit (.call l name)) := by
  rintro G c d u known holds ⟨⟩
  exact ⟨up.emit rfl (fun _ => known member) holds, c.faces_emitted _⟩

theorem label {l : Int} (member : l ∈ L) : Upholds P L (Compile.emitLabel l) := by
  rintro G c d u known holds ⟨⟩
  exact ⟨up.label (known member) holds, ⟨_, (c.faces_push _).symm⟩⟩

theorem jump {l : Int} (member : l ∈ L) : Upholds P L (Compile.emitJump .jump l) := by
  rintro G c d u known holds ⟨⟩
  exact ⟨up.jump (.inl rfl) (known member) holds, ⟨_, (c.faces_push _).symm⟩⟩

theorem jumpIf {condition : Condition} {l : Int} (member : l ∈ L) :
    Upholds P L (Compile.emitJump (.jumpIf condition) l) := by
  rintro G c d u known holds ⟨⟩
  exact ⟨up.jump (.inr ⟨_, rfl⟩) (known member) holds, ⟨_, (c.faces_push _).symm⟩⟩

-- A label that is given out is at hand from then on.
theorem fresh {g : Int → Compile β} (second : ∀ l, Upholds P (l :: L) (g l)) :
    Upholds P L (freshLabel >>= g) := by
  intro G c d b known holds ran
  obtain ⟨_, m, ⟨⟩, two⟩ := bind_eq_ok_iff.mp ran
  obtain ⟨after, grown⟩ := second _ (List.cons_subset_cons _ known) (up.fresh holds) two
  exact ⟨up.weaken (List.subset_cons_self _ _) after, grown⟩

-- So are the labels that the state leads to, once it is looked at.
theorem read {g : Compiler → Compile β} (second : ∀ c, Upholds P (c.known ++ L) (g c)) :
    Upholds P L (do let c ← MonadState.get; g c) := by
  intro G c d b known holds ran
  obtain ⟨_, m, ⟨⟩, two⟩ := bind_eq_ok_iff.mp ran
  obtain ⟨after, grown⟩ :=
    second c (List.append_subset.mpr ⟨List.subset_append_left _ _,
      List.Subset.trans known (List.subset_append_right _ _)⟩) (up.gather holds) two
  exact ⟨up.weaken (List.subset_append_right _ _) after, grown⟩

theorem resolve? {name : String} {g : Option Symbol → Compile β}
    (second : ∀ found : Option Symbol, Upholds P (found.toList.flatMap Symbol.entries ++ L)
      (g found)) : Upholds P L (do let found ← Compile.resolve? name; g found) := by
  refine fun G c d b known holds ran => ?_
  obtain ⟨_, m, ⟨⟩, two⟩ := bind_eq_ok_iff.mp ran
  have entries : (c.scope.resolve? name).toList.flatMap Symbol.entries ⊆ c.known := by
    cases found : c.scope.resolve? name with
    | none => exact List.nil_subset _
    | some s =>
      intro l entry
      refine Compiler.mem_known.mpr (.inr (.inr (Scope.entries_of_resolve? found ?_)))
      simpa using entry
  obtain ⟨after, grown⟩ := second _ (List.append_subset.mpr
    ⟨List.Subset.trans entries (List.subset_append_left _ _),
      List.Subset.trans known (List.subset_append_right _ _)⟩)
    (up.gather holds) two
  exact ⟨up.weaken (List.subset_append_right _ _) after, grown⟩

-- A change of the scope that brings no entry.
theorem onScope {l : Nat} {fault : SymbolError → CompileFault}
    {change : Scope → Except SymbolError (Symbol × Scope)} {g : Symbol → Compile β}
    (grows : ∀ scope s after, change scope = .ok (s, after) →
      after.entries ⊆ scope.entries ∧ Upholds P L (g s)) :
    Upholds P L (do let s ← Compile.onScope l fault change; g s) := by
  intro G c d b known holds ran
  obtain ⟨s, m, one, two⟩ := bind_eq_ok_iff.mp ran
  obtain ⟨scope, changed, rfl⟩ := onScope_eq_ok_iff.mp one
  obtain ⟨entries, second⟩ := grows _ _ _ changed
  have result := second known (up.rescope (c := c) scope c.maxDepth c.log entries holds) two
  exact result

theorem declares {l : Nat} {fault : SymbolError → CompileFault}
    {change : Scope → Except SymbolError (Symbol × Scope)}
    (grows : ∀ scope s after, change scope = .ok (s, after) → after.entries ⊆ scope.entries) :
    Upholds P L (Functor.discard (Compile.onScope l fault change)) := by
  refine .discard ?_
  rw [← bind_pure (Compile.onScope l fault change)]
  exact .onScope up fun scope s after changed => ⟨grows _ _ _ changed, .pure _⟩

-- The same for a table that comes and goes.
theorem within {table : Table} (bare : table.symbols = []) (keeps : Upholds P L x) :
    Upholds P L (Compile.within table x) := by
  intro G c d a known holds ran
  obtain ⟨m, inner, rfl⟩ := within_eq_ok_iff.mp ran
  obtain ⟨after, grown⟩ := keeps known (up.inside bare holds) inner
  exact ⟨up.outside after, grown⟩

theorem report (r : LogRecord) : Upholds P L (Compile.report r) := by
  rintro G c d u known holds ⟨⟩
  exact ⟨up.rescope c.scope c.maxDepth (r :: c.log) (List.Subset.refl _) holds, List.prefix_rfl⟩

end

end Upholds

namespace Compile

section

variable {P : List Int → Compiler → Prop} (up : Upheld P) {self expr operand : Compile Ty}

include up

theorem arguments_upholds (inner : Upholds P [] self) (name : String) (params : List Ty)
    (steps count : Nat) : Upholds P [] (arguments self name params steps count) := by
  induction steps generalizing count with
  | zero => exact .fail _
  | succ steps ih =>
    refine .bind .line fun _ => .bind inner fun type => ?_
    cases params[count]? with
    | none => exact .failAt _ _
    | some wanted =>
      exact .refuseAt (.bind (.emit up rfl rfl) fun _ => .bind (.accept up _) fun _ => .ite (ih _) (.pure _))

theorem call_upholds (inner : Upholds P [] self) (steps : Nat) : Upholds P [] (call self steps) := by
  refine .bind .token fun start => .resolve? up fun found => ?_
  cases found with
  | none => exact .failUndefined _ _ _
  | some symbol =>
    by_cases function : symbol.isFunction = true
    · have ends (count : Nat) : Upholds P ((some symbol).toList.flatMap Symbol.entries ++ []) (do
          expect .rightParen
          if count ≠ symbol.params.length then
            failAt start.line (.notEnoughArguments start.literal symbol.params.length count)
          if symbol.isExternal then emit (.hostCall symbol.index start.literal)
          else emit (.call symbol.label start.literal)
          return symbol.returnType) := by
        refine .bind (.expect up _) fun _ => .refuseAt ?_
        by_cases external : symbol.isExternal = true
        · rw [if_pos external]
          exact .bind (.emit up rfl rfl) fun _ => .pure _
        · rw [if_neg external]
          refine .bind (.call up ?_) fun _ => .pure _
          simp [Symbol.entries, function, external]
      exact .refuse (.bind (.advance up) fun _ => .bind (.advance up) fun _ => .bind .token fun _ =>
        .ite (ends 0) (.bind (arguments_upholds up inner _ _ _ _).any ends))
    · refine fun G c d a known holds ran => absurd (refuse_eq_ok_iff.mp ran).1 ?_
      simp [function]

theorem primary_upholds (inner : Upholds P [] self) (steps : Nat) :
    Upholds P [] (primary self steps) := by
  refine .bind .token fun t => ?_
  have constant (v : Value) (type : Ty) :
      Upholds P [] (do advance; loadValue v; return type : Compile Ty) :=
    .bind (.advance up) fun _ => .bind (.emit up rfl rfl) fun _ => .pure _
  cases t.kind
  case number =>
    dsimp only
    cases Number.parse? t.literal with
    | none => exact .fail _
    | some x => exact constant _ _
  case string => exact constant _ _
  case kwTrue => exact constant _ _
  case kwFalse => exact constant _ _
  case kwNull => exact constant _ _
  case leftParen =>
    exact .bind (.advance up) fun _ => .bind inner fun _ => .bind (.expect up _) fun _ => .pure _
  case identifier =>
    refine .bind .get fun _ => .ite (call_upholds up inner steps) ?_
    refine .resolve? up fun found => ?_
    cases found with
    | none => exact .failUndefined _ _ _
    | some symbol =>
      exact .refuse (.bind (.advance up) fun _ => .bind (.emit up rfl rfl) fun _ => .pure _)
  all_goals exact .fail _

theorem unary_upholds (inner : Upholds P [] operand) (steps : Nat) :
    Upholds P [] (unary operand steps) := by
  induction steps with
  | zero => exact .fail _
  | succ steps ih =>
    refine .bind .token fun t => ?_
    cases t.kind
    case minus =>
      exact .bind (.advance up) fun _ => .bind ih fun _ =>
        .refuseAt (.bind (.emit up rfl rfl) fun _ => .pure _)
    case bang =>
      exact .bind (.advance up) fun _ => .bind ih fun _ =>
        .refuseAt (.bind (.emit up rfl rfl) fun _ => .pure _)
    all_goals exact inner

theorem rightOperand_upholds (inner : Upholds P [] operand) :
    Upholds P [] (rightOperand operand) :=
  .bind (.emit up rfl rfl) fun _ => .bind .line fun _ => .bind inner fun _ =>
    .bind (.emit up rfl rfl) fun _ => .bind (.emit up rfl rfl) fun _ => .pure _

theorem arithmeticTail_upholds (ops : Kind → Option BinaryOp) (inner : Upholds P [] operand)
    (l steps : Nat) (left : Ty) : Upholds P [] (arithmeticTail ops operand l steps left) := by
  induction steps with
  | zero => exact .fail _
  | succ steps ih =>
    refine .bind .token fun t => ?_
    dsimp only
    cases ops t.kind with
    | none => exact .pure _
    | some op =>
      exact .bind (.advance up) fun _ => .bind (rightOperand_upholds up inner) fun _ =>
        .refuseAt (.refuseAt (.bind (.emit up rfl rfl) fun _ => ih))

theorem arithmetic_upholds (ops : Kind → Option BinaryOp) (inner : Upholds P [] operand)
    (steps : Nat) : Upholds P [] (arithmetic ops operand steps) :=
  .bind .line fun _ => .bind inner fun _ => arithmeticTail_upholds up ops inner _ _ _

omit up in
theorem sumOp_upholds (operator : Kind) (l : Nat) (left : Ty) :
    Upholds P [] (sumOp operator l left) := by
  refine .ite ?_ (.ite (.failAt _ _) (.pure _))
  cases left
  case double => exact .pure _
  case string => exact .pure _
  all_goals exact .failAt _ _

theorem sumTail_upholds (inner : Upholds P [] operand) (l steps : Nat) (left : Ty) :
    Upholds P [] (sumTail operand l steps left) := by
  induction steps with
  | zero => exact .fail _
  | succ steps ih =>
    refine .bind .token fun t => .ite ?_ (.pure _)
    exact .bind (.advance up) fun _ => .bind (rightOperand_upholds up inner) fun _ =>
      .bind (sumOp_upholds _ _ _) fun _ => .refuseAt (.bind (.emit up rfl rfl) fun _ => ih)

theorem sum_upholds (inner : Upholds P [] operand) (steps : Nat) :
    Upholds P [] (sum operand steps) :=
  .bind .line fun _ => .bind inner fun _ => sumTail_upholds up inner _ _ _

omit up in
theorem checkComparison_upholds (operator : Kind) (l : Nat) (left : Ty) (r : Nat) (right : Ty) :
    Upholds P [] (checkComparison operator l left r right) :=
  .ite (.ite (.failAt _ _) (.pure _)) (.ite (.bind (.failAt _ _) fun _ => .ite (.failAt _ _)
    (.pure _)) (.ite (.failAt _ _) (.pure _)))

theorem comparisonTail_upholds (inner : Upholds P [] operand) (l steps : Nat) (left : Ty) :
    Upholds P [] (comparisonTail operand l steps left) := by
  induction steps generalizing left with
  | zero => exact .fail _
  | succ steps ih =>
    refine .bind .token fun t => ?_
    dsimp only
    cases comparison? t.kind with
    | none => exact .pure _
    | some condition =>
      exact .bind (.advance up) fun _ => .bind (rightOperand_upholds up inner) fun _ =>
        .bind (checkComparison_upholds _ _ _ _ _) fun _ => .bind (.emit up rfl rfl) fun _ =>
          .bind (.emit up rfl rfl) fun _ => ih _

theorem comparison_upholds (inner : Upholds P [] operand) (steps : Nat) :
    Upholds P [] (comparison operand steps) :=
  .bind .line fun _ => .bind inner fun _ => comparisonTail_upholds up inner _ _ _

theorem logicalTail_upholds (rule : Logical) (inner : Upholds P [] operand) (steps l : Nat)
    (left : Ty) : Upholds P [] (logicalTail rule operand steps l left) := by
  induction steps generalizing l left with
  | zero => exact .fail _
  | succ steps ih =>
    refine .bind .token fun t => .ite (.refuseAt ?_) (.pure _)
    exact .fresh up fun done => .bind (.emit up rfl rfl) fun _ =>
      .bind (.jumpIf up List.mem_cons_self) fun _ => .bind (.emit up rfl rfl) fun _ =>
        .bind (.advance up) fun _ => .bind .line fun _ => .bind inner.any fun _ =>
          .refuseAt (.bind (.emit up rfl rfl) fun _ => .bind (.emit up rfl rfl) fun _ =>
            .bind (.emit up rfl rfl) fun _ => .bind (.label up List.mem_cons_self) fun _ =>
              (ih _ _).any)

theorem logical_upholds (rule : Logical) (inner : Upholds P [] operand) (steps : Nat) :
    Upholds P [] (logical rule operand steps) :=
  .bind .line fun _ => .bind inner fun _ => logicalTail_upholds up rule inner _ _ _

theorem operatorLevels_upholds (inner : Upholds P [] self) (steps : Nat) :
    Upholds P [] (operatorLevels self steps) := by
  have tight := unary_upholds up (primary_upholds up inner steps) steps
  have product := arithmetic_upholds up products (arithmetic_upholds up powers tight steps) steps
  have ordered := comparison_upholds up (sum_upholds up product steps) steps
  exact logical_upholds up _ (logical_upholds up _ ordered steps) steps

theorem ternary_upholds (inner : Upholds P [] self) (steps : Nat) :
    Upholds P [] (ternary self steps) := by
  refine .bind .line fun _ => .bind (operatorLevels_upholds up inner steps) fun _ => ?_
  refine .bind .token fun _ => .ite (.pure _) (.refuseAt ?_)
  exact .fresh up fun otherwise => .fresh up fun done => .bind (.emit up rfl rfl) fun _ =>
    .bind (.jumpIf up (by simp)) fun _ => .bind (.advance up) fun _ => .bind inner.any fun _ =>
      .bind (.expect up _) fun _ => .bind (.jump up (by simp)) fun _ =>
        .bind (.label up (by simp)) fun _ => .bind .line fun _ => .bind inner.any fun _ =>
          .bind (.label up (by simp)) fun _ => .refuseAt (.pure _)

theorem expression_upholds (depth : Nat) : Upholds P [] (expression depth) := by
  induction depth with
  | zero => exact .fail _
  | succ depth ih => exact ternary_upholds up ih depth

theorem assignment_upholds (exprs : Upholds P [] expr) : Upholds P [] (assignment expr) := by
  refine .bind .token fun _ => .resolve? up fun found => ?_
  cases found with
  | none => exact .failUndefined _ _ _
  | some symbol =>
    exact .refuseAt (.bind (.advance up) fun _ => .bind (.advance up) fun _ => .bind .line fun _ =>
      .bind exprs.any fun _ => .refuseAt (.emit up rfl rfl))

theorem simple_upholds (exprs : Upholds P [] expr) : Upholds P [] (simple expr) :=
  .bind .token fun _ => .bind .get fun _ => .ite (assignment_upholds up exprs) (.discard exprs)

theorem declarators_upholds (exprs : Upholds P [] expr) (type : Scalar) (steps : Nat)
    (name : String) (l : Nat) : Upholds P [] (declarators expr type steps name l) := by
  induction steps generalizing name l with
  | zero => exact .fail _
  | succ steps ih =>
    refine .onScope up fun scope symbol after reserved => ?_
    obtain ⟨rfl, rfl⟩ := Scope.reserve_eq_ok reserved
    refine ⟨by rw [Scope.entries_claimed]; exact List.Subset.refl _, ?_⟩
    generalize made : (Symbol.mk name type.ty _ _ _ _ _ : Symbol) = symbol
    have typed : symbol.type = type.ty := by rw [← made]
    refine .bind (.emit up rfl rfl) fun _ => .bind (.accept up _) fun _ => ?_
    have others : Upholds P [] (do
        discard (onScope l .declaration fun s => do return (symbol, ← s.define symbol))
        if ← accept .comma then
          let nextLine ← line
          let next ← expectName
          declarators expr type steps next nextLine : Compile Unit) := by
      refine .bind (.declares up fun scope s after changed => ?_) fun _ => .bind (.accept up _)
        fun _ => .ite (.bind .line fun _ => .bind (.expectName up) fun _ => ih _ _) (.pure _)
      cases defined : scope.define symbol with
      | error e => simp [defined, bind, Except.bind] at changed
      | ok next =>
        simp only [defined, bind, Except.bind, pure, Except.pure, Except.ok.injEq,
          Prod.mk.injEq] at changed
        rw [← changed.2, Scope.define_eq_ok defined]
        simpa [Symbol.entries_variable typed] using scope.entries_adding_subset [symbol]
    exact .ite (.bind .line fun _ => .bind exprs fun _ =>
      .refuseAt (.bind (.emit up rfl rfl) fun _ => others)) others

theorem parameters_upholds (steps : Nat) : Upholds P [] (parameters steps) := by
  induction steps with
  | zero => exact .fail _
  | succ steps ih =>
    refine .bind .token fun t => ?_
    dsimp only
    cases t.kind.scalar? with
    | none => exact .fail _
    | some type =>
      exact .bind (.advance up) fun _ => .bind .line fun _ => .bind (.expectName up) fun _ =>
        .bind (.accept up _) fun _ => .ite (.bind ih fun _ => .pure _) (.pure _)

theorem parameterList_upholds (steps : Nat) : Upholds P [] (parameterList steps) :=
  .bind .token fun _ => .ite (.pure _) (parameters_upholds up steps)

theorem bindParams_upholds (params : List Param) : Upholds P [] (bindParams params) := by
  induction params with
  | nil => exact .pure _
  | cons p params ih =>
    refine .onScope up fun scope symbol after declared => ?_
    obtain ⟨rfl, rfl⟩ := Scope.declare_eq_ok declared
    refine ⟨?_, .bind (.emit up rfl rfl) fun _ => .bind ih fun _ => .pure _⟩
    generalize made : (Symbol.mk p.name p.type.ty _ _ _ _ _ : Symbol) = symbol
    have typed : symbol.type = p.type.ty := by rw [← made]
    simpa [Symbol.entries_variable typed, Scope.entries_claimed] using
      (scope.claimed 1).entries_adding_subset [symbol]

theorem forM_pop_upholds (operands : List Operand) :
    Upholds P [] (operands.forM fun o => emit (.pop o)) := by
  induction operands with
  | nil => exact .pure _
  | cons o operands ih => exact .bind (.emit up rfl rfl) fun _ => ih

theorem condition_upholds (exprs : Upholds P [] expr) : Upholds P [] (condition expr) :=
  .bind (.expect up _) fun _ => .bind .line fun _ => .bind exprs fun _ =>
    .refuseAt (.bind (.emit up rfl rfl) fun _ => .expect up _)

theorem forCondition_upholds (exprs : Upholds P [] expr) (done : Int) :
    Upholds P [done] (forCondition expr done) :=
  .bind .token fun _ => .ite (.bind .line fun _ => .bind exprs.any fun _ => .refuseAt
    (.bind (.emit up rfl rfl) fun _ => .jumpIf up List.mem_cons_self)) (.pure _)

theorem forStep_upholds (exprs : Upholds P [] expr) : Upholds P [] (forStep expr) :=
  .bind .token fun _ => .ite (.bind (simple_upholds up exprs) fun _ => .bind .token fun _ =>
    .ite (.fail _) (.pure _)) (.pure _)

theorem skipStep_upholds (steps nesting : Nat) : Upholds P [] (skipStep steps nesting) := by
  induction steps generalizing nesting with
  | zero => exact .fail _
  | succ steps ih =>
    refine .bind .token fun t => ?_
    cases t.kind
    case finish => exact .fail _
    case leftParen => exact .bind (.advance up) fun _ => ih _
    case rightParen => exact .ite (.pure _) (.bind (.advance up) fun _ => ih _)
    all_goals exact .bind (.advance up) fun _ => ih _

theorem breakLoop_upholds : Upholds P [] breakLoop := by
  refine .read up fun c => ?_
  cases loops : c.loops with
  | nil => exact .fail _
  | cons done outer =>
    exact .bind (.advance up) fun _ => .bind (.expect up _) fun _ =>
      .jump up (by simp [Compiler.known, loops])

theorem returnValue_upholds (exprs : Upholds P [] expr) : Upholds P [] (returnValue expr) := by
  refine .read up fun c => ?_
  cases enclosing : c.enclosing with
  | none => exact .fail _
  | some f =>
    have leave : Upholds P (c.known ++ []) (do
        expect .semicolon
        emitJump .jump f.returnLabel : Compile Unit) :=
      .bind (.expect up _) fun _ => .jump up (by simp [Compiler.known, enclosing])
    exact .bind (.advance up) fun _ => .bind .token fun _ => .ite (.bind (.emit up rfl rfl) fun _ => leave)
      (.bind .line fun _ => .bind exprs.any fun _ => .refuseAt leave)

theorem exitProgram_upholds (exprs : Upholds P [] expr) : Upholds P [] (exitProgram expr) := by
  refine .bind (.advance up) fun _ => .bind .token fun _ =>
    .ite (.bind (.emit up rfl rfl) fun _ => .advance up) (.bind .line fun _ => .bind exprs fun _ =>
      .bind .get fun c => ?_)
  have leave : Upholds P [] (do emit (.unary .exit eax); expect .semicolon : Compile Unit) :=
    .bind (.emit up rfl rfl) fun _ => .expect up _
  cases c.exitType with
  | none => exact leave
  | some wanted => exact .refuseAt leave

-- A declaration keeps what its variables keep, and functions where they may stand.
theorem declaration_upholds {statement : Compile Unit} (exprs : Upholds P [] expr) (steps : Nat)
    {allowFunction : Bool} (functions : allowFunction = true → ∀ type name l,
      Upholds P [] (function statement steps type name l)) (type : Scalar) :
    Upholds P [] (declaration statement expr steps allowFunction type) := by
  refine .bind (.advance up) fun _ => .bind .line fun _ => .bind (.expectName up) fun _ =>
    .bind .token fun _ => .ite ?_ (.bind (declarators_upholds up exprs _ _ _ _) fun _ => .pure _)
  by_cases allowed : allowFunction = true
  · exact .refuse (.bind (functions allowed _ _ _) fun _ => .pure _)
  · refine fun G c d a known holds ran => absurd (refuse_eq_ok_iff.mp ran).1 ?_
    simp [allowed]

theorem forInit_upholds {statement : Compile Unit} (exprs : Upholds P [] expr) (steps : Nat) :
    Upholds P [] (forInit statement expr steps) := by
  refine .bind .token fun t => ?_
  cases t.kind.scalar? with
  | none => exact .ite (simple_upholds up exprs) (.pure _)
  | some type =>
    exact .discard (declaration_upholds up exprs _ (fun never => absurd never Bool.false_ne_true) _)

end

end Compile

end ScalarScript
