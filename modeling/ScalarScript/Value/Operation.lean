import ScalarScript.Number.Arithmetic
import ScalarScript.Opcode
import ScalarScript.Value.Basic
/-!
Operations on values. None of them accepts a null, and a numeric result that is not finite is the
null value.
-/
namespace ScalarScript

-- Why an operation on values failed.
inductive Fault where
  | assignConstant
  | nullOperands (op : String) (left right : Value)
  | nullOperand
  | nullCondition
  | operandTypes (op : String) (wanted left right : Ty)
  | cannotNegate (type : Ty)
  | cannotInvert (type : Ty)
  | notCondition (type : Ty)
  | cannotAssign (source target : Ty)
  | unsupported (op : String)
  deriving Repr

inductive FaultKind where
  | constant | nullOperand | type | other
  deriving DecidableEq, Repr

namespace Fault

def kind : Fault → FaultKind
  | assignConstant => .constant
  | nullOperands .. | nullOperand | nullCondition => .nullOperand
  | operandTypes .. | cannotNegate _ | cannotInvert _ | notCondition _ | cannotAssign .. => .type
  | unsupported _ => .other

def message : Fault → String
  | assignConstant => "cannot assign to a constant"
  | nullOperands op a b => s!"null operand: {a.inspect} {op} {b.inspect}"
  | nullOperand => "null operand: cannot negate null"
  | nullCondition => "null operand: null used as a condition"
  | operandTypes op wanted a b =>
    s!"{op} requires {wanted.name} operands (got {a.name} and {b.name})"
  | cannotNegate t => s!"cannot negate {t.name}"
  | cannotInvert t => s!"cannot apply not to {t.name}"
  | notCondition t => s!"condition must be bool (got {t.name})"
  | cannotAssign source target => s!"cannot assign {source.name} to {target.name}"
  | unsupported op => s!"unsupported binary operation {op}"

end Fault

-- A result as a value: the null value where it is not finite.
def finiteOrNull (x : Float) : Value := if Number.isFinite x then .number x else .null

namespace BinaryOp

-- The type that both operands must have.
def operandType : BinaryOp → Ty
  | and | or => .bool
  | concat => .string
  | _ => .double

def onNumbers (op : BinaryOp) (x y : Float) : Value :=
  match op with
  | add => finiteOrNull (x + y)
  | sub => finiteOrNull (x - y)
  | mul => finiteOrNull (x * y)
  | div => if Number.aboutZero y then .null else finiteOrNull (x / y)
  | mod => if Number.aboutZero y then .null else finiteOrNull (Number.remainder x y)
  | pow => finiteOrNull (Number.power x y)
  | _ => .null

def apply (op : BinaryOp) (a b : Value) : Except Fault Value :=
  if a.isNull || b.isNull then .error (.nullOperands op.name a b)
  else match op.operandType, a, b with
    | .double, .double (some x), .double (some y) => .ok (op.onNumbers x y)
    | .bool, .bool (some p), .bool (some q) =>
      .ok (.truth (if op = .and then p && q else p || q))
    | .string, .string (some s), .string (some t) => .ok (.text (s ++ t))
    | wanted, _, _ => .error (.operandTypes op.name wanted a.type b.type)

end BinaryOp

-- Any operation code applied to two values; only the binary ones can succeed.
def Opcode.applyBinary (o : Opcode) (a b : Value) : Except Fault Value :=
  match o with
  | .binary op => op.apply a b
  | _ =>
    if a.isNull || b.isNull then .error (.nullOperands o.name a b)
    else .error (.unsupported o.name)

namespace Value

def negate (v : Value) : Except Fault Value :=
  if v.isNull then .error .nullOperand
  else match v with
    | double (some x) => .ok (number (-x))
    | v => .error (.cannotNegate v.type)

def invert (v : Value) : Except Fault Value :=
  if v.isNull then .error .nullOperand
  else match v with
    | bool (some b) => .ok (truth (!b))
    | v => .error (.cannotInvert v.type)

-- The outcome of a value used as a condition.
def condition (v : Value) : Except Fault Bool :=
  if v.isNull then .error .nullCondition
  else match v with
    | bool (some b) => .ok b
    | v => .error (.notCondition v.type)

-- What a variable that holds `old` holds after `new` is assigned to it: the type stays.
def store (old new : Value) : Except Fault Value :=
  match old, new with
  | null, _ => .error .assignConstant
  | bool _, bool v => .ok (bool v)
  | double _, double v => .ok (double v)
  | string _, string v => .ok (string v)
  | old, new =>
    if new.isNull then .ok (nullOf old.type) else .error (.cannotAssign new.type old.type)

theorem store_type {old new v : Value} (h : old.store new = .ok v) : v.type = old.type := by
  cases old <;> cases new <;> grind [store, type, nullOf]

end Value

def UnaryOp.apply : UnaryOp → Value → Except Fault Value
  | .negate => Value.negate
  | .not => Value.invert

end ScalarScript
