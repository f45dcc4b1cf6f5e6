import ScalarScript.Compile.Statement
import ScalarScript.Value.Operation
import Mathlib.Data.List.Forall2
import Mathlib.Data.Int.Order.Basic
/-!
Trees of expressions and statements, each with the code that stands for it. Names are resolved:
a tree holds the symbols themselves and the labels that its code uses.
-/
namespace ScalarScript

inductive Connective where
  | and | or
  deriving DecidableEq, Repr

def Connective.rule : Connective → Compile.Logical
  | .and => Compile.conjunctionRule
  | .or => Compile.disjunctionRule

mutual

inductive Expr where
  | constant (v : Value)
  | var (s : Symbol)
  | call (s : Symbol) (args : Args)
  | unary (op : UnaryOp) (e : Expr)
  | binary (op : BinaryOp) (left right : Expr)
  | compare (condition : Condition) (left right : Expr)
  | logical (c : Connective) (left right : Expr) (done : Int)
  | choose (condition whenTrue whenFalse : Expr) (otherwise done : Int)

-- Arguments, the first one outermost.
inductive Args where
  | nil
  | cons (first : Expr) (rest : Args)

end

open Compile (eax ebx)

-- The left operand comes back from the stack, the right one goes to `ebx`.
def regroup : List Instruction := [.move ebx eax, .pop eax]

def UnaryOp.resultType : UnaryOp → Ty
  | .negate => .double
  | .not => .bool

def Symbol.callInstruction (s : Symbol) : Instruction :=
  if s.isExternal then .hostCall s.index s.name else .call s.label s.name

def Expr.type : Expr → Ty
  | constant v => v.type
  | var s => s.type
  | call s _ => s.returnType
  | unary op _ => op.resultType
  | binary op _ _ => op.operandType
  | compare .. | logical .. => .bool
  | choose _ a b _ _ => if a.type = .null then b.type else a.type

def Args.types : Args → List Ty
  | nil => []
  | cons e rest => e.type :: rest.types

mutual

-- Every expression leaves its value in `eax`.
def Expr.code : Expr → List Instruction
  | .constant v => [.move eax (.ofValue v)]
  | .var s => [.move eax s.operand]
  | .call s args => args.code ++ [s.callInstruction]
  | .unary op e => e.code ++ [.unary (.unary op) eax]
  | .binary op a b => a.code ++ .push eax :: b.code ++ regroup ++ [.binary (.binary op) eax ebx]
  | .compare c a b =>
    a.code ++ .push eax :: b.code ++ regroup ++
      [.binary .compare eax ebx, .unary (.setIf c) eax]
  | .logical c a b done =>
    a.code ++ [.unary .test eax, .branch (.jumpIf c.rule.skip) done, .push eax] ++ b.code ++
      regroup ++ [.binary (.binary c.rule.op) eax ebx, .label done]
  | .choose c a b otherwise done =>
    c.code ++ [.unary .test eax, .branch (.jumpIf .equal) otherwise] ++ a.code ++
      [.branch .jump done, .label otherwise] ++ b.code ++ [.label done]

-- Arguments end up on the stack, the last one on top.
def Args.code : Args → List Instruction
  | .nil => []
  | .cons e rest => e.code ++ .push eax :: rest.code

end

theorem Expr.code_length_pos (e : Expr) : 0 < e.code.length := by
  cases e <;> simp only [Expr.code, List.length_append, List.length_cons] <;> omega

mutual

-- Operators get operands of their types. A null may stand for a value of any type in a call, in a
-- comparison for equality and in one branch of a choice.
def Expr.Typed : Expr → Prop
  | .constant v => v.isNull = true → v = .null
  | .var s => s.isFunction = false
  | .call s args => s.isFunction = true ∧ args.Typed ∧
      List.Forall₂ (fun wanted given => Ty.accepts false wanted given = true) s.params args.types
  | .unary op e => e.Typed ∧ e.type = op.resultType
  | .binary op a b => a.Typed ∧ b.Typed ∧ a.type = op.operandType ∧ b.type = op.operandType
  | .compare c a b => a.Typed ∧ b.Typed ∧
      if c = .equal ∨ c = .notEqual then Ty.accepts false a.type b.type = true
      else a.type = .double ∧ b.type = .double
  | .logical _ a b _ => a.Typed ∧ b.Typed ∧ a.type = .bool ∧ b.type = .bool
  | .choose c a b _ _ => c.Typed ∧ a.Typed ∧ b.Typed ∧ c.type = .bool ∧
      Ty.accepts false a.type b.type = true

def Args.Typed : Args → Prop
  | .nil => True
  | .cons e rest => e.Typed ∧ rest.Typed

end

mutual

-- Every symbol of the tree is as asked.
def Expr.All (p : Symbol → Prop) : Expr → Prop
  | .constant _ => True
  | .var s => p s
  | .call s args => p s ∧ args.All p
  | .unary _ e => e.All p
  | .binary _ a b | .compare _ a b | .logical _ a b _ => a.All p ∧ b.All p
  | .choose c a b _ _ => c.All p ∧ a.All p ∧ b.All p

def Args.All (p : Symbol → Prop) : Args → Prop
  | .nil => True
  | .cons e rest => e.All p ∧ rest.All p

end

mutual

theorem Expr.All.imp {p q : Symbol → Prop} (implies : ∀ s, p s → q s) :
    (e : Expr) → e.All p → e.All q
  | .constant _, _ => trivial
  | .var s, given => implies s given
  | .call s args, given => ⟨implies s given.1, Args.All.imp implies args given.2⟩
  | .unary _ e, given => Expr.All.imp implies e given
  | .binary _ a b, given => ⟨Expr.All.imp implies a given.1, Expr.All.imp implies b given.2⟩
  | .compare _ a b, given => ⟨Expr.All.imp implies a given.1, Expr.All.imp implies b given.2⟩
  | .logical _ a b _, given => ⟨Expr.All.imp implies a given.1, Expr.All.imp implies b given.2⟩
  | .choose c a b _ _, given =>
    ⟨Expr.All.imp implies c given.1, Expr.All.imp implies a given.2.1,
      Expr.All.imp implies b given.2.2⟩

theorem Args.All.imp {p q : Symbol → Prop} (implies : ∀ s, p s → q s) :
    (args : Args) → args.All p → args.All q
  | .nil, _ => trivial
  | .cons e rest, given => ⟨Expr.All.imp implies e given.1, Args.All.imp implies rest given.2⟩

end

-- A variable of a body.
structure Local where
  name : String
  type : Scalar
  deriving DecidableEq

-- The head of a function definition: its frame, and the labels around and in its code.
structure Routine where
  name : String
  returnType : Scalar
  params : List Compile.Param
  depth : Nat
  skip : Int
  entry : Int
  result : Int

namespace Routine

def slot (r : Routine) (index : Nat) (p : Compile.Param) : Operand :=
  .slot ⟨p.type.ty, r.depth, index, p.name⟩

-- Parameters are allocated in order, and popped last first.
def receive (r : Routine) : List Instruction :=
  r.params.zipIdx.map (fun (p, index) => Instruction.unary (.allocate p.type) (r.slot index p)) ++
    (r.params.zipIdx.map fun (p, index) => Instruction.pop (r.slot index p)).reverse

def paramTypes (r : Routine) : List Scalar := r.params.map (·.type)

-- The name of the function, in the body that defines it.
def symbol (r : Routine) : Symbol where
  name := r.name
  type := .function
  depth := r.depth - 1
  index := -1
  label := r.entry
  params := r.paramTypes.map Scalar.ty
  returnType := r.returnType.ty

def enclosing (r : Routine) : Enclosing := ⟨r.name, r.returnType.ty, r.result⟩

def locals (r : Routine) : List Local := r.params.map fun p => ⟨p.name, p.type⟩

end Routine

-- The variable of a parameter.
def Routine.variable (r : Routine) (index : Nat) (p : Compile.Param) : Symbol where
  name := p.name
  type := p.type.ty
  depth := r.depth
  index := index

-- The variables of the parameters, last first.
def Routine.symbols (r : Routine) : List Symbol :=
  (r.params.zipIdx.map fun (p, index) => r.variable index p).reverse

inductive Stmt where
  | skip
  | seq (a b : Stmt)
  -- names declared inside are gone behind it
  | block (a : Stmt)
  | expr (e : Expr)
  | assign (s : Symbol) (e : Expr)
  | declare (type : Scalar) (s : Symbol) (init : Option Expr)
  | function (r : Routine) (body : Stmt)
  | ifThen (e : Expr) (a : Stmt) (otherwise : Int)
  | ifElse (e : Expr) (a b : Stmt) (otherwise done : Int)
  | whileLoop (e : Expr) (body : Stmt) (top done : Int)
  | forLoop (init : Stmt) (e : Option Expr) (body step : Stmt) (top done : Int)
  | loopWhile (body : Stmt) (e : Expr) (top done : Int)
  | leave (done : Int)
  | yield (e : Option Expr) (result : Int)
  | exit (e : Option Expr)

namespace Stmt

-- The number of variables declared; those of inner functions belong to them.
def count : Stmt → Nat
  | seq a b | ifElse _ a b _ _ => a.count + b.count
  | forLoop a _ b c _ _ => a.count + b.count + c.count
  | declare .. => 1
  | block a | ifThen _ a _ | whileLoop _ a _ _ | loopWhile a _ _ _ => a.count
  | _ => 0

-- The variables declared, in order.
def slots : Stmt → List Local
  | seq a b | ifElse _ a b _ _ => a.slots ++ b.slots
  | forLoop a _ b c _ _ => a.slots ++ b.slots ++ c.slots
  | declare type s _ => [⟨s.name, type⟩]
  | block a | ifThen _ a _ | whileLoop _ a _ _ | loopWhile a _ _ _ => a.slots
  | _ => []

theorem length_slots (t : Stmt) : t.slots.length = t.count := by
  induction t with
  | seq a b aLength bLength | ifElse e a b otherwise done aLength bLength =>
    rw [slots, count, List.length_append, aLength, bLength]
  | forLoop a e b c top done aLength bLength cLength =>
    rw [slots, count, List.length_append, List.length_append, aLength, bLength, cLength]
  | block a length | ifThen e a otherwise length | whileLoop e a top done length =>
    exact length
  | loopWhile a e top done length => exact length
  | declare type s init => rfl
  | skip | expr e | assign s e | function r body _ | leave done | yield e result | exit e => rfl

-- The variables whose names are in sight where control may have passed their declarations over.
-- These are declared without braces of their own in a branch, or in a body that may not run at all.
def passed : Bool → Stmt → List Symbol
  | inBranch, seq a b => a.passed inBranch ++ b.passed inBranch
  | _, block a => a.passed false
  | inBranch, declare _ s _ => if inBranch then [s] else []
  | _, function _ body => body.passed false
  | _, ifThen _ a _ | _, whileLoop _ a _ _ => a.passed true
  | _, ifElse _ a b _ _ => a.passed true ++ b.passed true
  | _, forLoop _ _ a _ _ _ => a.passed false
  | inBranch, loopWhile a _ _ _ => a.passed inBranch
  | _, _ => []

-- The functions defined, those inside them included.
def routines : Stmt → List Routine
  | seq a b | ifElse _ a b _ _ => a.routines ++ b.routines
  | forLoop a _ b c _ _ => a.routines ++ b.routines ++ c.routines
  | block a | ifThen _ a _ | whileLoop _ a _ _ | loopWhile a _ _ _ => a.routines
  | function r body => r :: body.routines
  | _ => []

-- Leaves a body for good, its value in `eax`.
def conclude (r : Routine) : List Instruction :=
  [.move eax .null, .label r.result, .popScope r.depth, .plain .ret, .label r.skip]

-- The code of a condition: where it fails, control goes to a label. There may be none.
def guard : Option Expr → Int → List Instruction
  | none, _ => []
  | some e, otherwise => e.code ++ [.unary .test eax, .branch (.jumpIf .equal) otherwise]

def code : Stmt → List Instruction
  | skip => []
  | seq a b => a.code ++ b.code
  | block a => a.code
  | expr e => e.code
  | assign s e => e.code ++ [.move s.operand eax]
  | declare type s none => [.unary (.allocate type) s.operand]
  | declare type s (some e) =>
    .unary (.allocate type) s.operand :: e.code ++ [.move s.operand eax]
  | function r body =>
    [.branch .jump r.skip, .label r.entry, .pushScope r.depth (r.params.length + body.count)]
      ++ r.receive ++ body.code ++ conclude r
  | ifThen e a otherwise => guard (some e) otherwise ++ a.code ++ [.label otherwise]
  | ifElse e a b otherwise done =>
    guard (some e) otherwise ++ a.code ++ [.branch .jump done, .label otherwise] ++ b.code ++
      [.label done]
  | whileLoop e a top done =>
    .label top :: guard (some e) done ++ a.code ++ [.branch .jump top, .label done]
  | forLoop init e a step top done =>
    init.code ++ .label top :: guard e done ++ a.code ++ step.code ++
      [.branch .jump top, .label done]
  | loopWhile a e top done =>
    .label top :: a.code ++ e.code ++
      [.unary .test eax, .branch (.jumpIf .notEqual) top, .label done]
  | leave done => [.branch .jump done]
  | yield none result => [.move eax .null, .branch .jump result]
  | yield (some e) result => e.code ++ [.branch .jump result]
  | exit none => [.unary .exit .null]
  | exit (some e) => e.code ++ [.unary .exit eax]

theorem code_seq (a b : Stmt) : (seq a b).code = a.code ++ b.code := by rw [code]

end Stmt

end ScalarScript
