import ScalarScript.Proofs.Source.Names
import ScalarScript.Proofs.Source.Tree
import Mathlib.Data.List.Infix
/-!
Where the variables and functions of a program live. The program is a body of its own, and so is
every function; around the innermost body stand the others, out to the program. A symbol fits when
it leads to a slot, or to a function, of one of them. A slot is filled once its declaration was
executed; that is known of the variables that are ready.
-/
namespace ScalarScript

-- The program, or a function.
structure Body where
  -- none for the program itself
  enclosing : Option Enclosing
  entry : Int
  -- the variables in its slots
  layout : List Local
  deriving DecidableEq

-- Bodies from the innermost to the outermost. Their number is the depth of the innermost.
abbrev Chain := List Body

-- The bodies from a depth outward.
def Chain.outer (chain : Chain) (depth : Nat) : Chain := chain.drop (chain.length - depth)

-- Variables whose declarations were executed for certain.
abbrev Ready := List Symbol

structure Signature where
  params : List Ty
  -- the variables around the function that are ready wherever its name is in sight
  ready : Ready
  -- the body of the function and those around it
  chain : Chain

-- What the parts of a program know of each other.
structure Outline where
  hosts : List Declaration
  -- by the labels at which they start
  functions : Int → Option Signature
  -- the variables whose declarations may have been passed over
  passed : List Symbol
  exitType : Option Ty
  -- the depth of the deepest body
  depths : Nat

namespace Chain

theorem outer_length (chain : Chain) : chain.outer chain.length = chain := by simp [outer]

theorem outer_cons {chain : Chain} {depth : Nat} (inside : depth ≤ chain.length) (body : Body) :
    outer (body :: chain) depth = outer chain depth := by
  unfold outer
  rw [List.length_cons, Nat.succ_sub inside, List.drop_succ_cons]

theorem outer_suffix (chain : Chain) (depth : Nat) : chain.outer depth <:+ chain :=
  List.drop_suffix _ _

theorem length_outer {chain : Chain} {depth : Nat} (inside : depth ≤ chain.length) :
    (chain.outer depth).length = depth := by
  unfold outer
  rw [List.length_drop]
  omega

end Chain

namespace Symbol

-- A name of the host.
def OfHost (hosts : List Declaration) (s : Symbol) : Prop :=
  ∃ (i : Nat) (d : Declaration), s.index = i ∧ hosts[i]? = some d ∧ d.type = s.type ∧
    (s.isFunction = true → d.params = s.params ∧ d.returnType = s.returnType)

-- A slot of the body at the symbol's depth.
def InLayout (chain : Chain) (s : Symbol) : Prop :=
  ∃ (body : Body) (i : Nat) (l : Local), (chain.outer s.depth).head? = some body ∧ s.index = i ∧
    body.layout[i]? = some l ∧ s.name = l.name ∧ s.type = l.type.ty

-- A function defined in the body at the symbol's depth. What it relies on is ready.
def OfFunction (o : Outline) (chain : Chain) (ready : Ready) (s : Symbol) : Prop :=
  ∃ (body : Body) (f : Enclosing) (before : Ready),
    o.functions s.label = some ⟨s.params, before, body :: chain.outer s.depth⟩ ∧
    body.enclosing = some f ∧ f.returnType = s.returnType ∧ before ⊆ ready ∧
    ∀ v ∈ before, v.depth ≤ s.depth

def Fits (o : Outline) (chain : Chain) (ready : Ready) (s : Symbol) : Prop :=
  if s.depth = 0 then s.OfHost o.hosts
  else s.depth ≤ chain.length ∧
    if s.isFunction = true then s.OfFunction o chain ready
    else s.InLayout chain ∧ (s ∈ ready ∨ s ∈ o.passed)

-- What a symbol leads to stays in sight in an inner body.
theorem Fits.cons {o : Outline} {chain : Chain} {ready : Ready} {s : Symbol}
    (fits : s.Fits o chain ready) (body : Body) : s.Fits o (body :: chain) ready := by
  unfold Fits at fits ⊢
  split
  · rename_i host
    rwa [if_pos host] at fits
  · rename_i inner
    rw [if_neg inner] at fits
    obtain ⟨inside, leads⟩ := fits
    refine ⟨Nat.le_succ_of_le inside, ?_⟩
    rw [InLayout, OfFunction] at leads ⊢
    rwa [Chain.outer_cons inside]

theorem Fits.mono {o : Outline} {chain : Chain} {ready later : Ready} {s : Symbol}
    (fits : s.Fits o chain ready) (more : ready ⊆ later) : s.Fits o chain later := by
  unfold Fits at fits ⊢
  split
  · rename_i host
    rwa [if_pos host] at fits
  · rename_i inner
    rw [if_neg inner] at fits
    refine ⟨fits.1, ?_⟩
    split
    · rename_i function
      rw [if_pos function] at fits
      obtain ⟨body, f, before, known, enclosing, returned, inside, bound⟩ := fits.2
      exact ⟨body, f, before, known, enclosing, returned, List.Subset.trans inside more, bound⟩
    · rename_i plain
      rw [if_neg plain] at fits
      exact ⟨fits.2.1, fits.2.2.imp_left (more ·)⟩

theorem isFunction_of_scalar {s : Symbol} {type : Scalar} (typed : s.type = type.ty) :
    s.isFunction = false := by
  rw [isFunction, typed]
  cases type <;> rfl

-- A variable of the innermost body.
theorem fits_of_inLayout {o : Outline} {chain : Chain} {ready : Ready} {s : Symbol}
    {type : Scalar} (typed : s.type = type.ty) (depth : s.depth = chain.length)
    (inner : s.depth ≠ 0) (inLayout : s.InLayout chain) (sure : s ∈ ready ∨ s ∈ o.passed) :
    s.Fits o chain ready := by
  rw [Fits, if_neg inner, if_neg (by simp [isFunction_of_scalar typed])]
  exact ⟨depth.le, inLayout, sure⟩

end Symbol

-- Every name in scope leads somewhere.
def Scope.Fits (o : Outline) (chain : Chain) (ready : Ready) (scope : Scope) : Prop :=
  ∀ t ∈ scope, ∀ s ∈ t.symbols, s.Fits o chain ready

def Expr.Ok (o : Outline) (chain : Chain) (ready : Ready) (e : Expr) : Prop :=
  e.Typed ∧ e.All (·.Fits o chain ready)

def Routine.frame (r : Routine) (body : Stmt) : Body where
  enclosing := some r.enclosing
  entry := r.entry
  layout := r.locals ++ body.slots

def Routine.signature (r : Routine) (body : Stmt) (chain : Chain) (ready : Ready) : Signature :=
  ⟨r.paramTypes.map Scalar.ty, ready, r.frame body :: chain⟩

namespace Routine

variable {chain : Chain} {r : Routine} {body : Stmt} {index : Nat} {p : Compile.Param}

theorem isFunction_variable (r : Routine) (index : Nat) (p : Compile.Param) :
    (r.variable index p).isFunction = false :=
  Symbol.isFunction_of_scalar rfl

theorem variable_inLayout (depth : r.depth = chain.length + 1)
    (found : r.params[index]? = some p) :
    (r.variable index p).InLayout (r.frame body :: chain) := by
  refine ⟨r.frame body, index, ⟨p.name, p.type⟩, ?_, rfl, ?_, rfl, rfl⟩
  · have here : (r.variable index p).depth = List.length (r.frame body :: chain) := depth
    rw [here, Chain.outer_length, List.head?_cons]
  · have given : r.locals[index]? = some ⟨p.name, p.type⟩ := by simp [locals, found]
    exact (List.getElem?_append_left (List.getElem?_eq_some_iff.mp given).1).trans given

-- Parameters are ready in the body.
theorem variable_fits {o : Outline} {ready : Ready} (depth : r.depth = chain.length + 1)
    (found : r.params[index]? = some p) (sure : r.variable index p ∈ ready) :
    (r.variable index p).Fits o (r.frame body :: chain) ready := by
  have inner : (r.variable index p).depth ≠ 0 := by
    change r.depth ≠ 0
    omega
  exact Symbol.fits_of_inLayout rfl depth inner (variable_inLayout depth found)
    (.inl sure)

theorem mem_symbols {s : Symbol} :
    s ∈ r.symbols ↔ ∃ index p, r.params[index]? = some p ∧ s = r.variable index p := by
  simp only [symbols, List.mem_reverse, List.mem_map, Prod.exists, List.mem_zipIdx_iff_getElem?]
  constructor
  · rintro ⟨p, index, found, rfl⟩
    exact ⟨index, p, found, rfl⟩
  · rintro ⟨index, p, found, rfl⟩
    exact ⟨p, index, found, rfl⟩

-- The name of a function leads to its body.
theorem symbol_fits {o : Outline} {before : Ready}
    (known : o.functions r.entry = some (r.signature body chain before))
    (depth : r.depth = chain.length + 1) (inner : chain ≠ [])
    (bound : ∀ v ∈ before, v.depth ≤ chain.length) : r.symbol.Fits o chain before := by
  have here : r.symbol.depth = chain.length := by
    change r.depth - 1 = _
    omega
  have deep : r.symbol.depth ≠ 0 := by
    rw [here]
    simpa using inner
  rw [Symbol.Fits, if_neg deep]
  refine ⟨here.le, r.frame body, r.enclosing, before, ?_, rfl, rfl, List.Subset.refl _, ?_⟩
  · rw [here, Chain.outer_length]
    exact known
  · rw [here]
    exact bound

end Routine

namespace Stmt

-- The program itself as a body.
def frame (t : Stmt) : Body := ⟨none, 0, t.slots⟩

-- The variables that are ready behind a statement. What a branch or a loop declares may have been
-- passed over, and what a block declares is out of sight.
def ready : Ready → Stmt → Ready
  | before, seq a b => b.ready (a.ready before)
  | before, declare _ s _ => s :: before
  | before, loopWhile a _ _ _ => a.ready before
  | before, _ => before

-- Whether control may leave the loop around the statement from inside it.
def leaves : Stmt → Bool
  | seq a b | ifElse _ a b _ _ => a.leaves || b.leaves
  | block a | ifThen _ a _ => a.leaves
  | leave _ => true
  | _ => false

-- The functions defined in a statement, by their entries.
def functions : Chain → Ready → Stmt → List (Int × Signature)
  | chain, before, seq a b => functions chain before a ++ functions chain (a.ready before) b
  | chain, before, ifElse _ a b _ _ => functions chain before a ++ functions chain before b
  | chain, before, block a | chain, before, ifThen _ a _ | chain, before, whileLoop _ a _ _
  | chain, before, loopWhile a _ _ _ => functions chain before a
  | chain, before, forLoop init _ a _ _ _ => functions chain (init.ready before) a
  | chain, before, function r body =>
    (r.entry, r.signature body chain before) ::
      functions (r.frame body :: chain) (r.symbols ++ before) body
  | _, _, _ => []

-- A statement whose names lead somewhere and whose parts have the types asked for. The labels are
-- those of the loops around it.
def Ok (o : Outline) : Chain → Ready → List Int → Stmt → Prop
  | _, _, _, skip => True
  | chain, before, loops, seq a b =>
    Ok o chain before loops a ∧ Ok o chain (a.ready before) loops b
  | chain, before, loops, block a => Ok o chain before loops a
  | chain, before, _, expr e => e.Ok o chain before
  | chain, before, _, assign s e =>
    e.Ok o chain before ∧ s.isFunction = false ∧ s.Fits o chain before ∧
      Ty.accepts false s.type e.type = true
  | chain, before, _, declare type s init =>
    s.depth = chain.length ∧ s.depth ≠ 0 ∧ s.type = type.ty ∧ s.InLayout chain ∧
      ∀ e ∈ init, e.Ok o chain before ∧ Ty.accepts false type.ty e.type = true
  | chain, before, _, function r body =>
    r.depth = chain.length + 1 ∧ r.depth ≤ o.depths ∧
      o.functions r.entry = some (r.signature body chain before) ∧
      (∀ v ∈ before, v.depth ≤ chain.length) ∧
      Ok o (r.frame body :: chain) (r.symbols ++ before) [] body
  | chain, before, loops, ifThen e a _ =>
    e.Ok o chain before ∧ e.type = .bool ∧ Ok o chain before loops a
  | chain, before, loops, ifElse e a b _ _ =>
    e.Ok o chain before ∧ e.type = .bool ∧ Ok o chain before loops a ∧ Ok o chain before loops b
  | chain, before, loops, whileLoop e a _ done =>
    e.Ok o chain before ∧ e.type = .bool ∧ Ok o chain before (done :: loops) a
  | chain, before, loops, forLoop init e a step _ done =>
    Ok o chain before [] init ∧
      (∀ test ∈ e, test.Ok o chain (init.ready before) ∧ test.type = .bool) ∧
      Ok o chain (init.ready before) (done :: loops) a ∧
      Ok o chain (a.ready (init.ready before)) [] step
  | chain, before, loops, loopWhile a e _ done =>
    Ok o chain before (done :: loops) a ∧ (a.leaves = true → a.ready before = before) ∧
      e.Ok o chain (a.ready before) ∧ e.type = .bool
  | _, _, loops, leave done => loops.head? = some done
  | chain, before, _, yield e result =>
    ∃ body f, chain.head? = some body ∧ body.enclosing = some f ∧ f.returnLabel = result ∧
      ∀ value ∈ e, value.Ok o chain before ∧ Ty.accepts false f.returnType value.type = true
  | chain, before, _, exit e =>
    ∀ value ∈ e, value.Ok o chain before ∧
      ∀ wanted ∈ o.exitType, Ty.accepts false wanted value.type = true

theorem subset_ready (t : Stmt) (before : Ready) : before ⊆ t.ready before := by
  induction t generalizing before with
  | seq a b aMore bMore => exact List.Subset.trans (aMore before) (bMore _)
  | declare type s init => exact List.subset_cons_self s before
  | loopWhile a e top done more => exact more before
  | _ => exact List.Subset.refl before

end Stmt

namespace Scope

variable {o : Outline} {chain : Chain} {ready : Ready} {scope : Scope}

-- Fitting is a matter of symbols alone.
theorem fits_claimed {n : Nat} :
    (scope.claimed n).Fits o chain ready ↔ scope.Fits o chain ready := by
  unfold Fits
  induction scope with
  | nil => rfl
  | cons t rest ih =>
    by_cases block : t.isBlock = true
    · simp [claimed, block, ih]
    · simp [claimed, block]

theorem fits_adding {extra : List Symbol} (fits : scope.Fits o chain ready)
    (more : ∀ s ∈ extra, s.Fits o chain ready) : (scope.adding extra).Fits o chain ready := by
  cases scope with
  | nil => exact fits
  | cons t rest =>
    intro u member s declared
    rcases List.mem_cons.mp member with rfl | outer
    · rcases List.mem_append.mp declared with new | old
      · exact more s new
      · exact fits t List.mem_cons_self s old
    · exact fits u (List.mem_cons_of_mem _ outer) s declared

theorem fits_fresh {t : Table} (fits : scope.Fits o chain ready) (fresh : t.symbols = []) :
    Fits o chain ready (t :: scope) := by
  intro u member s declared
  rcases List.mem_cons.mp member with rfl | outer
  · rw [fresh] at declared
    cases declared
  · exact fits u outer s declared

theorem Fits.cons (fits : scope.Fits o chain ready) (body : Body) :
    scope.Fits o (body :: chain) ready :=
  fun t member s declared => (fits t member s declared).cons body

theorem Fits.mono {later : Ready} (fits : scope.Fits o chain ready) (more : ready ⊆ later) :
    scope.Fits o chain later :=
  fun t member s declared => (fits t member s declared).mono more

theorem Fits.resolve (fits : scope.Fits o chain ready) {name : String} {s : Symbol}
    (found : scope.resolve? name = some s) : s.Fits o chain ready := by
  obtain ⟨t, member, here⟩ := List.exists_of_findSome?_eq_some found
  exact fits t member s (List.mem_of_find?_eq_some here)

end Scope

end ScalarScript
