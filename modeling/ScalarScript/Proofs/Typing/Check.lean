import ScalarScript.Proofs.Source.Scoping
import ScalarScript.Proofs.Symbolic.Marks
/-!
What code relies on at each of its points: the bodies around it, the variables that are ready, the
types of the operands on the stack and in the registers, and where the flags come from. Code is
checked from its first instruction on; at a label all ways must agree.
-/
namespace ScalarScript

open Compile (eax ebx)

-- A value of the given type can stand where the other one is wanted.
def Ty.Into (given wanted : Ty) : Prop := given = wanted ∨ given = .null

theorem Ty.into_of_accepts {wanted given : Ty} (accepted : Ty.accepts false wanted given = true)
    (plain : wanted ≠ .null) : given.Into wanted := by
  simp only [accepts, Bool.or_eq_true, beq_iff_eq, Bool.not_false, Bool.true_and] at accepted
  rcases accepted with same | none | none
  · exact .inl same.symm
  · exact absurd none plain
  · exact .inr none

-- What is known at a label.
structure Mark where
  -- the body that runs and those around it
  chain : Chain
  -- whether the frame of that body is there
  inside : Bool
  -- the variables whose declarations were executed
  ready : Ready
  -- the operands that the body has on the stack, top first
  stack : List Ty
  -- none where the register is not relied on
  eax : Option Ty

-- What is known between two instructions.
structure Shape extends Mark where
  ebx : Option Ty := none
  -- none where the flags are not relied on, else whether they stem from comparing numbers
  flags : Option Bool := none

namespace Shape

-- A value in `eax`, and nothing else.
def holding (σ : Shape) (t : Ty) : Shape :=
  { σ with eax := some t, ebx := none, flags := none }

-- A point from which a label can be reached.
structure Meets (σ : Shape) (m : Mark) : Prop where
  chain : σ.chain = m.chain
  inside : σ.inside = m.inside
  ready : m.ready ⊆ σ.ready
  stack : σ.stack = m.stack
  eax : ∀ wanted ∈ m.eax, ∃ given, σ.eax = some given ∧ given.Into wanted

end Shape

-- What a function finds at its entry: its arguments on the stack, the last one on top.
def Signature.start (f : Signature) : Mark := ⟨f.chain, false, f.ready, f.params.reverse, none⟩

-- What the parts of a program rely on: its outline, and what is known at each label.
structure Plan where
  outline : Outline
  labels : Int → Option Mark
  -- whether the host keeps to its declarations
  trusted : Prop

-- What can be loaded, with its type: a constant or a variable.
inductive Source (o : Outline) (chain : Chain) (ready : Ready) : Operand → Ty → Prop where
  | constant (v : Value) (plain : v.isNull = true → v = .null) :
      Source o chain ready (.ofValue v) v.type
  | var (s : Symbol) (plain : s.isFunction = false) (fits : s.Fits o chain ready) :
      Source o chain ready s.operand s.type

-- Conditions that ask for an order.
def Condition.isOrder : Condition → Bool
  | .equal | .notEqual => false
  | _ => true

-- Code that can run from a point where so much is known. Behind its end the last shape holds.
inductive Check (Γ : Plan) (υ : Shape) : Shape → List Instruction → Prop where
  | nil : Check Γ υ υ []
  | load {σ : Shape} {o : Operand} {t : Ty} {rest : List Instruction} (inside : σ.inside = true)
      (source : Source Γ.outline σ.chain σ.ready o t) (later : Check Γ υ (σ.holding t) rest) :
      Check Γ υ σ (.move eax o :: rest)
  | store {σ : Shape} {s : Symbol} {t : Ty} {rest : List Instruction} (inside : σ.inside = true)
      (plain : s.isFunction = false) (fits : s.Fits Γ.outline σ.chain σ.ready) (given : σ.eax = some t)
      (into : t.Into s.type) (later : Check Γ υ (σ.holding t) rest) :
      Check Γ υ σ (.move s.operand eax :: rest)
  | push {σ : Shape} {t : Ty} {rest : List Instruction} (given : σ.eax = some t)
      (later : Check Γ υ { σ with stack := t :: σ.stack, eax := none, ebx := none, flags := none }
        rest) : Check Γ υ σ (.push eax :: rest)
  | keep {σ : Shape} {t : Ty} {rest : List Instruction} (given : σ.eax = some t)
      (later : Check Γ υ { σ with eax := none, ebx := some t, flags := none } rest) :
      Check Γ υ σ (.move ebx eax :: rest)
  | pop {σ : Shape} {t : Ty} {stack : List Ty} {rest : List Instruction}
      (given : σ.stack = t :: stack)
      (later : Check Γ υ { σ with stack, eax := some t, flags := none } rest) :
      Check Γ υ σ (.pop eax :: rest)
  | binary {σ : Shape} {op : BinaryOp} {rest : List Instruction}
      (left : σ.eax = some op.operandType) (right : σ.ebx = some op.operandType)
      (later : Check Γ υ (σ.holding op.operandType) rest) :
      Check Γ υ σ (.binary (.binary op) eax ebx :: rest)
  | unary {σ : Shape} {op : UnaryOp} {rest : List Instruction} (given : σ.eax = some op.resultType)
      (later : Check Γ υ (σ.holding op.resultType) rest) : Check Γ υ σ (.unary (.unary op) eax :: rest)
  | compare {σ : Shape} {t u : Ty} {rest : List Instruction} (ordered : Bool)
      (left : σ.eax = some t) (right : σ.ebx = some u)
      (numbers : ordered = true → t = .double ∧ u = .double)
      (later : Check Γ υ { σ with eax := none, ebx := none, flags := some ordered } rest) :
      Check Γ υ σ (.binary .compare eax ebx :: rest)
  | setIf {σ : Shape} {c : Condition} {ordered : Bool} {rest : List Instruction}
      (given : σ.flags = some ordered) (order : c.isOrder = true → ordered = true)
      (later : Check Γ υ (σ.holding .bool) rest) : Check Γ υ σ (.unary (.setIf c) eax :: rest)
  | test {σ : Shape} {rest : List Instruction} (given : σ.eax = some .bool)
      (later : Check Γ υ { σ with ebx := none, flags := some false } rest) :
      Check Γ υ σ (.unary .test eax :: rest)
  | jumpIf {σ : Shape} {c : Condition} {ordered : Bool} {label : Int} {m : Mark}
      {rest : List Instruction} (given : σ.flags = some ordered) (plain : c.isOrder = false)
      (target : Γ.labels label = some m) (meets : σ.Meets m)
      (later : Check Γ υ { σ with flags := none } rest) :
      Check Γ υ σ (.branch (.jumpIf c) label :: rest)
  | jump {σ τ : Shape} {label : Int} {m : Mark} {rest : List Instruction}
      (target : Γ.labels label = some m) (meets : σ.Meets m) (later : Check Γ υ τ rest) :
      Check Γ υ σ (.branch .jump label :: rest)
  | label {σ : Shape} {label : Int} {m : Mark} {rest : List Instruction}
      (target : Γ.labels label = some m) (meets : σ.Meets m) (later : Check Γ υ { m with } rest) :
      Check Γ υ σ (.label label :: rest)
  | call {σ : Shape} {s : Symbol} {given stack : List Ty} {rest : List Instruction}
      (inside : σ.inside = true) (inner : s.depth ≠ 0) (function : s.isFunction = true)
      (fits : s.Fits Γ.outline σ.chain σ.ready) (arguments : σ.stack = given ++ stack)
      (into : List.Forall₂ Ty.Into given s.params.reverse)
      (later : Check Γ υ ({ σ with stack }.holding s.returnType) rest) :
      Check Γ υ σ (.call s.label s.name :: rest)
  | hostCall {σ : Shape} {s : Symbol} {given stack : List Ty} {rest : List Instruction}
      (inside : σ.inside = true) (outer : s.depth = 0) (function : s.isFunction = true)
      (fits : s.Fits Γ.outline σ.chain σ.ready) (arguments : σ.stack = given ++ stack)
      (into : List.Forall₂ Ty.Into given s.params.reverse)
      (later : Check Γ υ ({ σ with stack }.holding s.returnType) rest) :
      Check Γ υ σ (.hostCall s.index s.name :: rest)
  | exitNull {σ τ : Shape} {rest : List Instruction} (empty : σ.stack = [])
      (later : Check Γ υ τ rest) : Check Γ υ σ (.unary .exit .null :: rest)
  | exit {σ τ : Shape} {t : Ty} {rest : List Instruction} (empty : σ.stack = [])
      (given : σ.eax = some t) (into : ∀ wanted ∈ Γ.outline.exitType, t.Into wanted)
      (later : Check Γ υ τ rest) : Check Γ υ σ (.unary .exit eax :: rest)
  | allocate {σ : Shape} {s : Symbol} {t : Scalar} {rest : List Instruction}
      (inside : σ.inside = true) (typed : s.type = t.ty) (depth : s.depth = σ.chain.length)
      (inner : s.depth ≠ 0) (inLayout : s.InLayout σ.chain)
      (later : Check Γ υ { σ with ready := s :: σ.ready, ebx := none, flags := none } rest) :
      Check Γ υ σ (.unary (.allocate t) s.operand :: rest)
  | receive {σ : Shape} {s : Symbol} {t : Ty} {stack : List Ty} {rest : List Instruction}
      (inside : σ.inside = true) (plain : s.isFunction = false) (fits : s.Fits Γ.outline σ.chain σ.ready)
      (given : σ.stack = t :: stack) (into : t.Into s.type)
      (later : Check Γ υ { σ with stack, ebx := none, flags := none } rest) :
      Check Γ υ σ (.pop s.operand :: rest)
  | pushScope {σ : Shape} {body : Body} {parents : Chain} {rest : List Instruction}
      (outside : σ.inside = false) (chain : σ.chain = body :: parents)
      (deep : σ.chain.length ≤ Γ.outline.depths) (outer : ∀ s ∈ σ.ready, s.depth < σ.chain.length)
      (later : Check Γ υ { σ with inside := true, ebx := none, flags := none } rest) :
      Check Γ υ σ (.pushScope σ.chain.length body.layout.length :: rest)
  | popScope {σ : Shape} {body : Body} {f : Enclosing} {rest : List Instruction}
      (inside : σ.inside = true) (chain : σ.chain.head? = some body)
      (function : body.enclosing = some f)
      (later : Check Γ υ { σ with inside := false, ready := [], ebx := none, flags := none } rest) :
      Check Γ υ σ (.popScope σ.chain.length :: rest)
  | ret {σ τ : Shape} {body : Body} {f : Enclosing} {t : Ty} {rest : List Instruction}
      (outside : σ.inside = false) (chain : σ.chain.head? = some body)
      (function : body.enclosing = some f) (empty : σ.stack = []) (given : σ.eax = some t)
      (into : t.Into f.returnType) (later : Check Γ υ τ rest) : Check Γ υ σ (.plain .ret :: rest)

-- The first instruction leads from one shape to another, whatever follows.
theorem Check.uncons {Γ : Plan} {υ σ : Shape} {i : Instruction} {rest : List Instruction}
    (checked : Check Γ υ σ (i :: rest)) :
    ∃ τ, Check Γ υ τ rest ∧ ∀ υ' code, Check Γ υ' τ code → Check Γ υ' σ (i :: code) := by
  cases checked with
  | load inside source later => exact ⟨_, later, fun _ _ => .load inside source⟩
  | store inside plain fits given into later =>
    exact ⟨_, later, fun _ _ => .store inside plain fits given into⟩
  | push given later => exact ⟨_, later, fun _ _ => .push given⟩
  | keep given later => exact ⟨_, later, fun _ _ => .keep given⟩
  | pop given later => exact ⟨_, later, fun _ _ => .pop given⟩
  | binary left right later => exact ⟨_, later, fun _ _ => .binary left right⟩
  | unary given later => exact ⟨_, later, fun _ _ => .unary given⟩
  | compare ordered left right numbers later =>
    exact ⟨_, later, fun _ _ => .compare ordered left right numbers⟩
  | setIf given order later => exact ⟨_, later, fun _ _ => .setIf given order⟩
  | test given later => exact ⟨_, later, fun _ _ => .test given⟩
  | jumpIf given plain target meets later =>
    exact ⟨_, later, fun _ _ => .jumpIf given plain target meets⟩
  | jump target meets later => exact ⟨_, later, fun _ _ => .jump target meets⟩
  | label target meets later => exact ⟨_, later, fun _ _ => .label target meets⟩
  | call inside inner function fits arguments into later =>
    exact ⟨_, later, fun _ _ => .call inside inner function fits arguments into⟩
  | hostCall inside outer function fits arguments into later =>
    exact ⟨_, later, fun _ _ => .hostCall inside outer function fits arguments into⟩
  | exitNull empty later => exact ⟨_, later, fun _ _ => .exitNull empty⟩
  | exit empty given into later => exact ⟨_, later, fun _ _ => .exit empty given into⟩
  | allocate inside typed depth inner inLayout later =>
    exact ⟨_, later, fun _ _ => .allocate inside typed depth inner inLayout⟩
  | receive inside plain fits given into later =>
    exact ⟨_, later, fun _ _ => .receive inside plain fits given into⟩
  | pushScope outside chain deep outer later =>
    exact ⟨_, later, fun _ _ => .pushScope outside chain deep outer⟩
  | popScope inside chain function later =>
    exact ⟨_, later, fun _ _ => .popScope inside chain function⟩
  | ret outside chain function empty given into later =>
    exact ⟨_, later, fun _ _ => .ret outside chain function empty given into⟩

-- A check of code is a check of its first part, and of the second from there on.
theorem Check.split {Γ : Plan} {υ σ : Shape} {a b : List Instruction}
    (checked : Check Γ υ σ (a ++ b)) : ∃ τ, Check Γ τ σ a ∧ Check Γ υ τ b := by
  induction a generalizing σ with
  | nil => exact ⟨σ, .nil, checked⟩
  | cons i a ih =>
    obtain ⟨τ, later, leads⟩ := checked.uncons
    obtain ⟨ρ, first, second⟩ := ih later
    exact ⟨ρ, leads ρ a first, second⟩

-- The code behind a label is checked with what is known at the label.
theorem Check.seek {Γ : Plan} {υ σ : Shape} {code rest : List Instruction} {label : Int}
    (checked : Check Γ υ σ code) (found : seek label code = some rest) :
    ∃ m, Γ.labels label = some m ∧ Check Γ υ { m with } rest := by
  induction code generalizing σ with
  | nil => cases found
  | cons i code ih =>
    by_cases here : i.opcode = .label ∧ i.target = label
    · rw [ScalarScript.seek, if_pos here] at found
      cases found
      cases checked with
      | label target meets later => exact ⟨_, here.2 ▸ target, later⟩
      | _ => cases here.1
    · rw [ScalarScript.seek, if_neg here] at found
      obtain ⟨τ, later, _⟩ := checked.uncons
      exact ih later found

end ScalarScript
