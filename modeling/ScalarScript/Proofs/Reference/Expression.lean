import ScalarScript.Proofs.Reference.Simulation
/-!
The code of an expression computes what the expression evaluates to. It leaves the value in `eax`,
and the operand stack and the calls as they were.
-/
namespace ScalarScript

open Symbolic Compile Evaluation

variable {World : Type}

-- A state behind the code of an expression.
structure Yields (returns : List (List Instruction)) (stack : List (Option Value))
    (rest : List Instruction) (v : Value) (after : Storage World) (l : Config World) : Prop where
  rest : l.rest = rest
  returns : l.returns = returns
  value : l.core.registers.eax = v
  storage : l.core.storage = after
  stack : l.core.stack = stack

-- The values of arguments on the stack, the last one on top.
def onStack (values : List Value) (stack : List (Option Value)) : List (Option Value) :=
  values.reverse.map some ++ stack

theorem onStack_cons (v : Value) (values : List Value) (stack : List (Option Value)) :
    onStack (v :: values) stack = onStack values (some v :: stack) := by
  simp [onStack]

-- A state behind the code of so many arguments.
structure YieldsArgs (count : Nat) (returns : List (List Instruction)) (stack : List (Option Value))
    (rest : List Instruction) (values : List Value) (after : Storage World) (l : Config World) :
    Prop where
  length : values.length = count
  rest : l.rest = rest
  returns : l.returns = returns
  storage : l.core.storage = after
  stack : l.core.stack = onStack values stack

-- A state with two operands at hand.
structure AtHand (returns : List (List Instruction)) (stack : List (Option Value))
    (rest : List Instruction) (x y : Value) (after : Storage World) (l : Config World) : Prop where
  rest : l.rest = rest
  returns : l.returns = returns
  left : l.core.registers.eax = x
  right : l.core.registers.ebx = y
  storage : l.core.storage = after
  stack : l.core.stack = stack

-- Inside some code no step of interest starts.
def Quiet (marks : Nat → Bool) (low high : Nat) : Prop :=
  ∀ place, low ≤ place → place < high → marks place = false

theorem Quiet.mono {marks : Nat → Bool} {low high low' high' : Nat} (quiet : Quiet marks low high)
    (above : low ≤ low') (below : high' ≤ high) : Quiet marks low' high' :=
  fun place after before => quiet place (by omega) (by omega)

theorem named_of_quiet {marks : Nat → Bool} {place : Nat} (quiet : marks place = false) :
    named marks place = [] := by
  simp [named, quiet]

-- The core with the value of `eax` on the stack.
def Core.laden (c : Core World) : Core World :=
  { c with stack := some c.registers.eax :: c.stack }

namespace Simulates

variable {α : Type} {env : Environment World} {whole rest : List Instruction} {marks : Nat → Bool}
  {floor bound place : Nat} {k : Config World} {there : α → Storage World → Config World → Prop}

-- An instruction that computes a value into `eax`, or fails.
theorem load {i : Instruction} {r : Except RuntimeFault Value} (first : k.rest = i :: rest)
    (active : i.opcode ≠ .label) (lies : LiesAt whole place k.rest)
    (does : deed env.externals i k.core = match k.core.effect i with
      | .ok after => .proceed after []
      | .error fault => .stop (.error fault) k.core [])
    (effect : k.core.effect i = r.map (k.core.setRegister .eax)) :
    Simulates env whole marks floor bound k (Yields k.returns k.core.stack rest)
      ((raise r k.core.storage).behind (named marks place)) := by
  rw [effect] at does
  cases r with
  | ok v =>
    have moved : Symbolic.move env whole k =
        .next { k with rest, core := k.core.setRegister .eax v } [] := by
      simp only [Symbolic.move, first, does, Except.map]
    have reached : Simulates env whole marks floor (bound - 1)
        { k with rest, core := k.core.setRegister .eax v }
        (Yields k.returns k.core.stack rest) (.done v k.core.storage []) :=
      .here ⟨rfl, rfl, rfl, rfl, rfl⟩
    simpa [Outcome.behind] using reached.move first active lies moved id
  | error f =>
    have ended : Simulates env whole marks floor bound k (Yields k.returns k.core.stack rest) _ :=
      stop first lies does
    simpa [Outcome.behind] using ended

-- A value is put aside.
theorem aside {out : Outcome World α} (first : k.rest = .push eax :: rest)
    (lies : LiesAt whole place k.rest) (quiet : marks place = false)
    (onward : Simulates env whole marks floor bound { k with rest, core := k.core.laden }
      there out) :
    Simulates env whole marks floor bound k there out :=
  work first (by decide) lies quiet rfl onward

-- The left operand comes back from the stack.
theorem regrouped {x y : Value} {stack : List (Option Value)} {out : Outcome World α}
    (first : k.rest = regroup ++ rest) (lies : LiesAt whole place k.rest)
    (quiet : marks place = false ∧ marks (place + 1) = false)
    (value : k.core.registers.eax = y) (top : k.core.stack = some x :: stack)
    (onward : ∀ l, AtHand k.returns stack rest x y k.core.storage l →
      Simulates env whole marks floor bound l there out) :
    Simulates env whole marks floor bound k there out := by
  have kept : deed env.externals (.move ebx eax) k.core =
      .proceed (k.core.setRegister .ebx k.core.registers.eax) [] := rfl
  refine work first (by decide) lies quiet.1 kept ?_
  have behind : LiesAt whole (place + 1) (.pop eax :: rest) := lies.behind (a := [_]) first
  have popped : deed env.externals (.pop eax) (k.core.setRegister .ebx k.core.registers.eax) =
      .proceed ({ k.core.setRegister .ebx k.core.registers.eax with stack }.setRegister .eax x)
        [] := by
    have waits : (k.core.setRegister .ebx k.core.registers.eax).stack = some x :: stack := top
    have effect := Core.effect_pop _ waits
    simp only [deed, Instruction.pop, Instruction.unary] at effect ⊢
    rw [effect]
  refine work rfl (by decide) behind quiet.2 popped ?_
  exact onward _ ⟨rfl, rfl, rfl, value, rfl, rfl⟩

-- A test leaves its outcome in a flag.
theorem tested {f : Bool → Storage World → Outcome World α}
    (first : k.rest = .unary .test eax :: rest) (lies : LiesAt whole place k.rest)
    (quiet : marks place = false)
    (onward : ∀ b, Simulates env whole marks floor bound
      ⟨rest, k.returns, { k.core with flags := { equal := !b } }⟩ there (f b k.core.storage)) :
    Simulates env whole marks floor bound k there
      ((k.core.registers.eax.isTrue k.core.storage).bind f) := by
  have does : deed env.externals (.unary .test eax) k.core =
      match (Fault.lift k.core.registers.eax.condition).map fun truth =>
        { k.core with flags := { equal := !truth } } with
      | .ok core => .proceed core []
      | .error fault => .stop (.error fault) k.core [] := by
    rw [← Core.effect_test]
    rfl
  cases truth : Fault.lift k.core.registers.eax.condition with
  | error fault =>
    rw [truth] at does
    have ended : Simulates env whole marks floor bound k there _ := stop first lies does
    rw [named_of_quiet quiet] at ended
    simpa [Value.isTrue, lift, truth] using ended
  | ok b =>
    rw [truth] at does
    rw [Value.isTrue, lift, truth, raise_ok, Outcome.done_bind]
    exact work first (by rintro ⟨⟩) lies quiet does (onward b)

theorem jumped {label : Int} {target : List Instruction} {x : Outcome World α}
    (first : k.rest = .branch .jump label :: rest) (lies : LiesAt whole place k.rest)
    (quiet : marks place = false) (found : seek label whole = some target)
    (onward : Simulates env whole marks floor bound { k with rest := target } there x) :
    Simulates env whole marks floor bound k there x :=
  jump first (by rintro ⟨⟩) lies quiet rfl found onward

-- A jump that depends on the flags.
theorem jumpedIf {condition : Condition} {label : Int} {target : List Instruction}
    {x : Outcome World α} (first : k.rest = .branch (.jumpIf condition) label :: rest)
    (lies : LiesAt whole place k.rest) (quiet : marks place = false)
    (found : seek label whole = some target)
    (onward : Simulates env whole marks floor bound
      { k with rest := if condition.holds k.core.flags then target else rest } there x) :
    Simulates env whole marks floor bound k there x := by
  cases holds : condition.holds k.core.flags with
  | true =>
    rw [holds, if_pos rfl] at onward
    have branch : deed env.externals (.branch (.jumpIf condition) label) k.core = .branch := by
      simp only [deed, Instruction.branch, holds, if_true]
    exact jump first (by rintro ⟨⟩) lies quiet branch found onward
  | false =>
    rw [holds, if_neg (by decide)] at onward
    have pass : deed env.externals (.branch (.jumpIf condition) label) k.core =
        .proceed k.core [] := by
      simp only [deed, Instruction.branch, holds, Bool.false_eq_true, if_false]
    exact work first (by rintro ⟨⟩) lies quiet pass onward

-- A test and a jump on its outcome.
theorem branched {condition : Condition} {label : Int} {target : List Instruction}
    {f : Bool → Storage World → Outcome World α}
    (first : k.rest = .unary .test eax :: .branch (.jumpIf condition) label :: rest)
    (lies : LiesAt whole place k.rest)
    (quiet : marks place = false ∧ marks (place + 1) = false)
    (found : seek label whole = some target)
    (onward : ∀ (b : Bool) (l : Config World),
      Yields k.returns k.core.stack (if condition.holds { equal := !b } then target else rest)
        k.core.registers.eax k.core.storage l →
      Simulates env whole marks floor bound l there (f b k.core.storage)) :
    Simulates env whole marks floor bound k there
      ((k.core.registers.eax.isTrue k.core.storage).bind f) := by
  refine tested first lies quiet.1 fun b => ?_
  refine jumpedIf rfl (lies.behind (a := [_]) first) quiet.2 found ?_
  exact onward b _ ⟨rfl, rfl, rfl, rfl, rfl⟩

end Simulates

namespace Yields

variable {env : Environment World} {whole : List Instruction} {marks : Nat → Bool}
  {floor bound : Nat}
  {returns : List (List Instruction)} {stack : List (Option Value)} {rest : List Instruction}
  {k : Config World} {x : Outcome World Value}

-- A label behind the code is passed.
theorem label {id : Int}
    (run : Simulates env whole marks floor bound k (Yields returns stack (.label id :: rest)) x) :
    Simulates env whole marks floor bound k (Yields returns stack rest) x := by
  refine run.extend fun v m l there => .label there.rest ?_
  exact .here ⟨rfl, there.returns, there.value, there.storage, there.stack⟩

-- So is a jump.
theorem jump {place : Nat} {id : Int} {later : List Instruction}
    (run : Simulates env whole marks floor bound k
      (Yields returns stack (.branch .jump id :: later)) x)
    (lies : LiesAt whole place (.branch .jump id :: later)) (quiet : marks place = false)
    (found : seek id whole = some rest) :
    Simulates env whole marks floor bound k (Yields returns stack rest) x := by
  refine run.extend fun v m l there => ?_
  refine .jumped there.rest (there.rest ▸ lies) quiet found ?_
  exact .here ⟨rfl, there.returns, there.value, there.storage, there.stack⟩

end Yields

section

variable (env : Environment World) (whole : List Instruction) (marks : Nat → Bool)
  (floor bound : Nat)
  (returns : List (List Instruction)) (call : Symbol → List Value → Evaluation World Value)

-- The code of a call does what the call does.
def Answers (s : Symbol) : Prop :=
  ∀ ⦃k : Config World⦄ ⦃place : Nat⦄ ⦃rest : List Instruction⦄ ⦃values : List Value⦄
    ⦃stack : List (Option Value)⦄, k.rest = s.callInstruction :: rest →
    LiesAt whole place k.rest → k.returns = returns → k.core.stack = onStack values stack →
    values.length = s.params.length →
    Simulates env whole marks floor bound k (Yields returns stack rest)
      ((call s values k.core.storage).behind (named marks place))

-- The code of an expression computes its value.
def Expr.Simulated (e : Expr) : Prop :=
  ∀ ⦃place : Nat⦄ ⦃k : Config World⦄ ⦃rest : List Instruction⦄, k.rest = e.code ++ rest →
    LiesAt whole place k.rest → Quiet marks (place + 1) (place + e.code.length) →
      k.returns = returns →
    Simulates env whole marks floor bound k (Yields returns k.core.stack rest)
      ((e.eval call k.core.storage).behind (named marks place))

-- The events of arriving at the code of arguments, if there are any.
def Args.arrival (marks : Nat → Bool) (place : Nat) : Args → List Event
  | .nil => []
  | .cons _ _ => named marks place

-- The code of arguments leaves their values on the stack.
def Args.Simulated (args : Args) : Prop :=
  ∀ ⦃place : Nat⦄ ⦃k : Config World⦄ ⦃rest : List Instruction⦄, k.rest = args.code ++ rest →
    LiesAt whole place k.rest → Quiet marks (place + 1) (place + args.code.length) →
    k.returns = returns →
    Simulates env whole marks floor bound k (YieldsArgs args.types.length returns k.core.stack rest)
      ((args.eval call k.core.storage).behind (args.arrival marks place))

end

section

variable {env : Environment World} {whole : List Instruction} {marks : Nat → Bool}
  {floor bound : Nat}
  {returns : List (List Instruction)} {call : Symbol → List Value → Evaluation World Value}

theorem Connective.skip_holds (c : Connective) (truth : Bool) :
    c.rule.skip.holds { equal := !truth } = decide (truth = c.settled) := by
  cases c <;> cases truth <;> rfl

namespace Expr.Simulated

variable {a b c e : Expr}

theorem constant (v : Value) :
    (Expr.constant v).Simulated env whole marks floor bound returns call := by
  intro place k rest first lies quiet inside
  subst inside
  have resolved : k.core.resolve (.ofValue v) = .ok v.literal := by cases v <;> rfl
  have effect := k.core.effect_load (.ofValue v)
  rw [resolved] at effect
  exact Simulates.load first (by rintro ⟨⟩) lies rfl effect

theorem var (s : Symbol) : (Expr.var s).Simulated env whole marks floor bound returns call := by
  intro place k rest first lies quiet inside
  subst inside
  have effect := k.core.effect_load s.operand
  rw [k.core.resolve_operand] at effect
  exact Simulates.load first (by rintro ⟨⟩) lies rfl effect

theorem unary (op : UnaryOp) (operand : e.Simulated env whole marks floor bound returns call) :
    (Expr.unary op e).Simulated env whole marks floor bound returns call := by
  intro place k rest first lies quiet inside
  simp only [Expr.code, List.append_assoc, List.length_append, List.length_singleton] at first quiet
  have evaluated := operand first lies (quiet.mono le_rfl (by omega)) inside
  rw [Expr.eval, bind_apply, ← Outcome.bind_behind]
  refine evaluated.bind fun v m l there => ?_
  have behind : LiesAt whole (place + e.code.length) l.rest := by
    rw [there.rest]
    exact lies.behind first
  have effect := l.core.effect_unary op
  rw [there.value] at effect
  have run : Simulates env whole marks floor bound l _ _ :=
    Simulates.load there.rest (by rintro ⟨⟩) behind rfl effect
  have unmarked := quiet (place + e.code.length) (by have := e.code_length_pos; omega) (by omega)
  rwa [named_of_quiet unmarked, Outcome.behind_nil, there.storage, there.returns,
    there.stack] at run

-- The right operand, once the left one is in `eax`.
theorem right {α : Type} {there : α → Storage World → Config World → Prop} {place : Nat}
    {k : Config World} {rest : List Instruction} {f : Value → Storage World → Outcome World α}
    (right : b.Simulated env whole marks floor bound returns call)
    (first : k.rest = .push eax :: (b.code ++ (regroup ++ rest))) (lies : LiesAt whole place k.rest)
    (quiet : Quiet marks place (place + b.code.length + 3)) (inside : k.returns = returns)
    (onward : ∀ y m l, LiesAt whole (place + b.code.length + 3) l.rest →
      AtHand returns k.core.stack rest k.core.registers.eax y m l →
      Simulates env whole marks floor bound l there (f y m)) :
    Simulates env whole marks floor bound k there ((b.eval call k.core.storage).bind f) := by
  refine Simulates.aside first lies (quiet _ (by omega) (by omega)) ?_
  have behind : LiesAt whole (place + 1) (b.code ++ (regroup ++ rest)) :=
    lies.behind (a := [_]) first
  have evaluated := @right (place + 1) ⟨_, k.returns, k.core.laden⟩ _ rfl behind
    (quiet.mono (by omega) (by omega)) inside
  rw [named_of_quiet (quiet _ (by omega) (by omega)), Outcome.behind_nil] at evaluated
  refine evaluated.bind fun y m l there => ?_
  have last : LiesAt whole (place + 1 + b.code.length) l.rest := by
    rw [there.rest]
    exact behind.behind rfl
  refine Simulates.regrouped there.rest last
    ⟨quiet _ (by omega) (by omega), quiet _ (by omega) (by omega)⟩ there.value there.stack ?_
  rintro l' ⟨next, returns, left, right, storage, stack⟩
  have lies' : LiesAt whole (place + b.code.length + 3) l'.rest := by
    have finish := last.behind (a := regroup) there.rest
    rwa [next, show place + b.code.length + 3 = place + 1 + b.code.length + 2 by omega]
  exact onward y m l' lies' ⟨next, returns.trans there.returns, left, right,
    storage.trans there.storage, stack⟩

-- An operation on the operands at hand.
theorem applied (op : BinaryOp) {place : Nat} {l : Config World} {rest : List Instruction}
    {stack : List (Option Value)} {x y : Value} {m : Storage World}
    (at_hand : AtHand returns stack (.binary (.binary op) eax ebx :: rest) x y m l)
    (lies : LiesAt whole place l.rest) (unmarked : marks place = false) :
    Simulates env whole marks floor bound l (Yields returns stack rest)
      ((lift (op.apply x y) : Evaluation World Value) m) := by
  have effect := l.core.effect_binary op
  rw [at_hand.left, at_hand.right] at effect
  have run : Simulates env whole marks floor bound l _ _ :=
    Simulates.load at_hand.rest (by rintro ⟨⟩) lies rfl effect
  rwa [named_of_quiet unmarked, Outcome.behind_nil, at_hand.storage, at_hand.returns,
    at_hand.stack] at run

theorem binary (op : BinaryOp) (left : a.Simulated env whole marks floor bound returns call)
    (right : b.Simulated env whole marks floor bound returns call) :
    (Expr.binary op a b).Simulated env whole marks floor bound returns call := by
  intro place k rest first lies quiet inside
  have span : (Expr.binary op a b).code.length = a.code.length + b.code.length + 4 := by
    simp only [Expr.code, regroup, List.length_append, List.length_cons, List.length_nil]
    omega
  rw [span] at quiet
  have positive := a.code_length_pos
  have split : k.rest = a.code ++ (.push eax :: (b.code ++ (regroup ++
      (.binary (.binary op) eax ebx :: rest)))) := by simp [first, Expr.code]
  rw [Expr.eval, bind_apply, ← Outcome.bind_behind]
  refine (left split lies (quiet.mono le_rfl (by omega)) inside).bind fun x m l there => ?_
  have behind := there.rest ▸ lies.behind split
  rw [bind_apply, ← there.storage, ← there.value, ← there.stack]
  refine right.right there.rest behind (quiet.mono (by omega) (by omega))
    there.returns fun y m l' last operands => ?_
  exact applied op operands last (quiet _ (by omega) (by omega))

theorem compare (condition : Condition)
    (left : a.Simulated env whole marks floor bound returns call)
    (right : b.Simulated env whole marks floor bound returns call) :
    (Expr.compare condition a b).Simulated env whole marks floor bound returns call := by
  intro place k rest first lies quiet inside
  have span : (Expr.compare condition a b).code.length = a.code.length + b.code.length + 5 := by
    simp only [Expr.code, regroup, List.length_append, List.length_cons, List.length_nil]
    omega
  rw [span] at quiet
  have positive := a.code_length_pos
  have split : k.rest = a.code ++ (.push eax :: (b.code ++ (regroup ++
      (.binary .compare eax ebx :: .unary (.setIf condition) eax :: rest)))) := by
    simp [first, Expr.code]
  rw [Expr.eval, bind_apply, ← Outcome.bind_behind]
  refine (left split lies (quiet.mono le_rfl (by omega)) inside).bind fun x m l there => ?_
  have behind := there.rest ▸ lies.behind split
  rw [bind_apply, ← there.storage, ← there.value, ← there.stack]
  refine right.right there.rest behind (quiet.mono (by omega) (by omega))
    there.returns fun y m l' last operands => ?_
  refine Simulates.work operands.rest (by decide) last (quiet _ (by omega) (by omega)) rfl ?_
  refine Simulates.work rfl (by rintro ⟨⟩) (last.behind (a := [_]) operands.rest)
    (quiet _ (by simp; omega) (by simp; omega)) rfl ?_
  rw [← operands.left, ← operands.right, ← operands.storage]
  exact .here ⟨rfl, operands.returns, rfl, rfl, operands.stack⟩

-- Where the left operand settles the outcome, control passes the right one over.
theorem logical (connective : Connective) (done : Int) (unique : (labelsOf whole).Nodup)
    (left : a.Simulated env whole marks floor bound returns call)
    (right : b.Simulated env whole marks floor bound returns call) :
    (Expr.logical connective a b done).Simulated env whole marks floor bound returns call := by
  intro place k rest first lies quiet inside
  have span :
      (Expr.logical connective a b done).code.length = a.code.length + b.code.length + 7 := by
    simp only [Expr.code, regroup, List.length_append, List.length_cons, List.length_nil]
    omega
  rw [span] at quiet
  have positive := a.code_length_pos
  have split :
      k.rest = a.code ++ (.unary .test eax :: .branch (.jumpIf connective.rule.skip) done ::
      .push eax :: (b.code ++ (regroup ++
        (.binary (.binary connective.rule.op) eax ebx :: .label done :: rest)))) := by
    simp [first, Expr.code]
  have tested := lies.behind split
  have loaded :
      LiesAt whole (place + a.code.length + 2) (.push eax :: (b.code ++ (regroup ++ _))) :=
    tested.behind (a := [_, _]) rfl
  have found : seek done whole = some rest :=
    (loaded.behind (a := .push eax :: (b.code ++ (regroup ++ [_]))) (by simp; rfl)).seek unique
  rw [Expr.eval, bind_apply, ← Outcome.bind_behind]
  refine (left split lies (quiet.mono le_rfl (by omega)) inside).bind fun x m l there => ?_
  rw [bind_apply, ← there.storage, ← there.value, ← there.stack]
  refine Simulates.branched there.rest (there.rest ▸ tested)
    ⟨quiet _ (by omega) (by omega), quiet _ (by omega) (by omega)⟩ found fun truth l' onward => ?_
  obtain ⟨next, returns', value, storage, stack⟩ := onward
  rw [connective.skip_holds] at next
  by_cases settled : truth = connective.settled
  · rw [if_pos settled]
    rw [if_pos (by simpa using settled)] at next
    exact .here ⟨next, returns'.trans there.returns, value, storage, stack⟩
  · rw [if_neg settled]
    rw [if_neg (by simpa using settled)] at next
    rw [← storage, ← stack, ← value]
    refine right.right next (next ▸ loaded) (quiet.mono (by omega) (by omega))
      (returns'.trans there.returns) fun y m' l'' last operands => ?_
    exact Yields.label (applied _ operands last (quiet _ (by omega) (by omega)))

-- Control passes one of the branches over.
theorem choose (otherwise done : Int) (unique : (labelsOf whole).Nodup)
    (condition : c.Simulated env whole marks floor bound returns call)
    (left : a.Simulated env whole marks floor bound returns call)
    (right : b.Simulated env whole marks floor bound returns call) :
    (Expr.choose c a b otherwise done).Simulated env whole marks floor bound returns call := by
  intro place k rest first lies quiet inside
  have span : (Expr.choose c a b otherwise done).code.length =
      c.code.length + a.code.length + b.code.length + 5 := by
    simp only [Expr.code, List.length_append, List.length_cons, List.length_nil]
    omega
  rw [span] at quiet
  have positive := c.code_length_pos
  have split : k.rest = c.code ++ (.unary .test eax :: .branch (.jumpIf .equal) otherwise ::
      (a.code ++ (.branch .jump done :: .label otherwise ::
        (b.code ++ (.label done :: rest))))) := by
    simp [first, Expr.code]
  have tested := lies.behind split
  have chosen : LiesAt whole (place + c.code.length + 2) (a.code ++ (_ :: _ :: (b.code ++ _))) :=
    tested.behind (a := [_, _]) rfl
  have past := chosen.behind rfl
  have other : LiesAt whole (place + c.code.length + 2 + a.code.length + 2) (b.code ++ _) :=
    past.behind (a := [_, _]) rfl
  have found : seek done whole = some rest :=
    (past.behind (a := .branch .jump done :: .label otherwise :: b.code) rfl).seek unique
  rw [Expr.eval, bind_apply, ← Outcome.bind_behind]
  refine (condition split lies (quiet.mono le_rfl (by omega)) inside).bind fun x m l there => ?_
  rw [bind_apply, ← there.storage, ← there.value, ← there.stack]
  refine Simulates.branched there.rest (there.rest ▸ tested)
    ⟨quiet _ (by omega) (by omega), quiet _ (by omega) (by omega)⟩
    ((past.behind (a := [_]) rfl).seek unique) fun truth l' onward => ?_
  obtain ⟨next, returns', value, storage, stack⟩ := onward
  rw [← storage, ← stack]
  cases truth with
  | true =>
    replace next : l'.rest = a.code ++ _ := next
    have evaluated := left next (next ▸ chosen) (quiet.mono (by omega) (by omega))
      (returns'.trans there.returns)
    rw [named_of_quiet (quiet _ (by omega) (by omega)), Outcome.behind_nil] at evaluated
    exact Yields.jump evaluated past (quiet _ (by omega) (by omega)) found
  | false =>
    replace next : l'.rest = b.code ++ _ := next
    have evaluated := right next (next ▸ other) (quiet.mono (by omega) (by omega))
      (returns'.trans there.returns)
    rw [named_of_quiet (quiet _ (by omega) (by omega)), Outcome.behind_nil] at evaluated
    exact Yields.label evaluated

end Expr.Simulated

namespace Args.Simulated

theorem nil : Args.nil.Simulated env whole marks floor bound returns call := by
  intro place k rest first lies quiet inside
  exact .here ⟨rfl, first, inside, rfl, rfl⟩

theorem cons {e : Expr} {others : Args}
    (head : e.Simulated env whole marks floor bound returns call)
    (tail : others.Simulated env whole marks floor bound returns call) :
    (Args.cons e others).Simulated env whole marks floor bound returns call := by
  intro place k rest first lies quiet inside
  simp only [Args.code, List.append_assoc, List.length_append, List.length_cons] at first quiet
  have positive := e.code_length_pos
  have loaded := lies.behind first
  rw [Args.eval, bind_apply, Args.arrival, ← Outcome.bind_behind]
  refine (head first lies (quiet.mono le_rfl (by omega)) inside).bind fun v m l there => ?_
  refine Simulates.aside there.rest (there.rest ▸ loaded) (quiet _ (by omega) (by omega)) ?_
  have evaluated := @tail _ ⟨_, l.returns, l.core.laden⟩ _ rfl (loaded.behind (a := [_]) rfl)
    (quiet.mono (by omega) (by simp; omega)) there.returns
  have unmarked : others.arrival marks (place + e.code.length + 1) = [] := by
    cases others with
    | nil => rfl
    | cons e' others =>
      have positive' := e'.code_length_pos
      refine named_of_quiet (quiet _ (by omega) ?_)
      simp only [Args.code, List.length_append]
      omega
  rw [List.length_singleton, unmarked, Outcome.behind_nil] at evaluated
  rw [bind_apply, ← there.storage]
  refine evaluated.bind fun values m' l' later => .here ?_
  refine ⟨by simp [later.length, Args.types], later.rest, later.returns, later.storage, ?_⟩
  rw [later.stack, onStack_cons, ← there.value, ← there.stack]
  rfl

end Args.Simulated

theorem Expr.Simulated.callOf {s : Symbol} {args : Args}
    (answers : Answers env whole marks floor bound returns call s)
    (count : args.types.length = s.params.length)
    (arguments : args.Simulated env whole marks floor bound returns call) :
    (Expr.call s args).Simulated env whole marks floor bound returns call := by
  intro place k rest first lies quiet inside
  simp only [Expr.code, List.append_assoc, List.length_append, List.length_cons] at first quiet
  have evaluated := arguments first lies (quiet.mono le_rfl (by omega)) inside
  have run := evaluated.bind fun values m l there => by
    have answer := answers there.rest (there.rest ▸ lies.behind first) there.returns there.stack
      (there.length.trans count)
    rwa [there.storage] at answer
  rw [Expr.eval_call, bind_apply]
  cases args with
  | nil => simpa [Args.arrival, Args.eval, Args.code, Outcome.done_bind] using run
  | cons e others =>
    have positive := e.code_length_pos
    have unmarked : marks (place + (Args.cons e others).code.length) = false := by
      refine quiet _ ?_ (by omega)
      simp only [Args.code, List.length_append]
      omega
    simp only [Args.arrival, named_of_quiet unmarked, Outcome.behind_nil] at run
    rwa [Outcome.bind_behind] at run

mutual

theorem Expr.simulated (unique : (labelsOf whole).Nodup) : (e : Expr) → e.Typed →
    e.All (fun s => s.isFunction = true → Answers env whole marks floor bound returns call s) →
    e.Simulated env whole marks floor bound returns call
  | .constant v, _, _ => Expr.Simulated.constant v
  | .var s, _, _ => Expr.Simulated.var s
  | .unary op e, typed, known => Expr.Simulated.unary op (e.simulated unique typed.1 known)
  | .binary op a b, typed, known =>
    Expr.Simulated.binary op (a.simulated unique typed.1 known.1)
      (b.simulated unique typed.2.1 known.2)
  | .compare condition a b, typed, known =>
    Expr.Simulated.compare condition (a.simulated unique typed.1 known.1)
      (b.simulated unique typed.2.1 known.2)
  | .logical c a b done, typed, known =>
    Expr.Simulated.logical c done unique (a.simulated unique typed.1 known.1)
      (b.simulated unique typed.2.1 known.2)
  | .choose c a b otherwise done, typed, known =>
    Expr.Simulated.choose otherwise done unique (c.simulated unique typed.1 known.1)
      (a.simulated unique typed.2.1 known.2.1) (b.simulated unique typed.2.2.1 known.2.2)
  | .call _ args, typed, known =>
    Expr.Simulated.callOf (known.1 typed.1) typed.2.2.length_eq.symm
      (args.simulated unique typed.2.1 known.2)

theorem Args.simulated (unique : (labelsOf whole).Nodup) : (args : Args) → args.Typed →
    args.All (fun s => s.isFunction = true → Answers env whole marks floor bound returns call s) →
    args.Simulated env whole marks floor bound returns call
  | .nil, _, _ => Args.Simulated.nil
  | .cons e rest, typed, known =>
    Args.Simulated.cons (e.simulated unique typed.1 known.1) (rest.simulated unique typed.2 known.2)

end

end

end ScalarScript
