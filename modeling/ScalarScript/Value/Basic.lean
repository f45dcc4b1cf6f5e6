import ScalarScript.Number.Shortest
import ScalarScript.Value.Ty
/-!
Values: the null value, and booleans, numbers and texts, each of which may be a null of its type.
-/
namespace ScalarScript

-- The payload of a number is always finite; `Value.number` sees to that.
inductive Value where
  | null
  | bool (payload : Option Bool)
  | double (payload : Option Float)
  | string (payload : Option String)
  deriving Repr, Inhabited

namespace Value

-- A number; what is not finite becomes the null of its type.
def number (x : Float) : Value := double (if Number.isFinite x then some x else none)

def truth (b : Bool) : Value := bool (some b)

def text (s : String) : Value := string (some s)

def nullOf : Ty → Value
  | .bool => bool none
  | .double => double none
  | .string => string none
  | _ => null

def type : Value → Ty
  | null => .null
  | bool _ => .bool
  | double _ => .double
  | string _ => .string

def isNull : Value → Bool
  | null => true
  | bool v => v.isNone
  | double v => v.isNone
  | string v => v.isNone

def isNumeric : Value → Bool
  | double _ => true
  | _ => false

-- The text of a value in listings and messages.
def inspect : Value → String
  | bool (some b) => if b then "true" else "false"
  | double (some x) => Number.format x
  | string (some s) => Text.quote s
  | _ => "null"

-- The text of a value where a text is shown as it is; a null text shows nothing.
def plain : Value → String
  | string v => v.getD ""
  | v => v.inspect

-- Two nulls are equal whatever their types, and a null equals nothing else.
def equals : Value → Value → Bool
  | bool (some a), bool (some b) => a == b
  | double (some x), double (some y) => x == y
  | string (some s), string (some t) => s == t
  | a, b => a.isNull && b.isNull

def less : Value → Value → Bool
  | double (some x), double (some y) => x < y
  | _, _ => false

def greater (a b : Value) : Bool := b.less a

theorem equals_of_isNull {a b : Value} (h : a.isNull = true) : a.equals b = b.isNull := by
  rcases a with _ | (_ | _) | (_ | _) | (_ | _) <;> cases b <;> simp_all [equals, isNull]

end Value

end ScalarScript
