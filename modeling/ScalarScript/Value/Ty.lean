import ScalarScript.Text.Quoted
/-!
Types of values. Scripts declare the three scalar types only; the null type belongs to the null
literal, the function type to names that can be called.
-/
namespace ScalarScript

inductive Scalar where
  | bool | double | string
  deriving DecidableEq, Repr

inductive Ty where
  | null | bool | double | string | function
  -- a tag that stands for no type
  | other (tag : Nat)
  deriving DecidableEq, Repr

namespace Ty

def ofTag : Nat → Ty
  | 0 => null
  | 1 => bool
  | 2 => double
  | 3 => string
  | 4 => function
  | n => other n

def tag : Ty → Nat
  | null => 0
  | bool => 1
  | double => 2
  | string => 3
  | function => 4
  | other n => n

def name : Ty → String
  | null => "null"
  | bool => "bool"
  | double => "double"
  | string => "string"
  | function => "function"
  | other n => s!"type({n})"

def scalar? : Ty → Option Scalar
  | bool => some .bool
  | double => some .double
  | string => some .string
  | _ => none

def isScalar (t : Ty) : Bool := t.scalar?.isSome

-- The null type goes with every type, unless the match is strict.
def accepts (strict : Bool) (a b : Ty) : Bool := a == b || (!strict && (a == null || b == null))

theorem accepts_self (strict : Bool) (t : Ty) : accepts strict t t = true := by simp [accepts]

-- The type names that a declaration may use.
def declarable? (name : String) : Except String Ty :=
  if name = "bool" then .ok bool
  else if name = "double" then .ok double
  else if name = "string" then .ok string
  else .error s!"invalid type name {Text.quote name} (expected bool, double or string)"

end Ty

def Scalar.ty : Scalar → Ty
  | .bool => .bool
  | .double => .double
  | .string => .string

@[simp] theorem Scalar.scalar?_ty (s : Scalar) : s.ty.scalar? = some s := by cases s <;> rfl

end ScalarScript
