import ScalarScript.Binding
import ScalarScript.Number.Numeral
import ScalarScript.Text.Blank
/-!
The standard functions. What cannot be converted yields a null of the result's type, so that
scripts can test for it.
-/
namespace ScalarScript.Builtin

variable {World : Type}

-- A device for printed lines; it may fail with a message.
def Printer (World : Type) := World → String → Except String World

-- Takes the arguments one by one; past the last there are only nulls.
def argument (r : HostRequest) (position : Nat) : Value := r.arguments[position]?.getD .null

def number? : Value → Option Float
  | .double v => v
  | _ => none

def text? : Value → Option String
  | .string v => v
  | _ => none

-- A function that computes a value from its arguments, last argument first.
def pure (arity : Nat) (f : (Nat → Value) → Value) : HostFunction World := fun w r =>
  { world := w, popped := arity, result := .value (some (f (argument r))) }

def printing (printer : Printer World) (display : Value → String) : HostFunction World := fun w r =>
  let line := display (argument r 0)
  match printer w (line ++ "\n") with
  | .ok w => { world := w, popped := 1, result := .value (some (.text line)) }
  | .error message => { world := w, popped := 1, result := .failed message }

def numeric (f : Float → Float) : HostFunction World :=
  pure 1 fun arg => match number? (arg 0) with
    | some x => .number (f x)
    | none => .double none

def numeric2 (f : Float → Float → Float) : HostFunction World :=
  pure 2 fun arg => match number? (arg 1), number? (arg 0) with
    | some x, some y => .number (f x y)
    | _, _ => .double none

def toText (arg : Nat → Value) : Value := .string ((number? (arg 0)).map Number.format)

-- A text that denotes no number, or one too large, has no number.
def toNumber (arg : Nat → Value) : Value :=
  match (text? (arg 0)).bind fun s => Number.parse? (Text.trim s) with
  | some x => .number x
  | none => .double none

def length (arg : Nat → Value) : Value :=
  match text? (arg 0) with
  | some s => .number (Number.nearest false s.length 1)
  | none => .double none

def isWhole (x : Float) : Bool := x == Number.truncate x

-- Part of a text by start and length, which must be whole numbers within it.
def part (arg : Nat → Value) : Value :=
  match text? (arg 2), number? (arg 1), number? (arg 0) with
  | some s, some start, some count =>
    if isWhole start && isWhole count && start ≥ 0 && count ≥ 0 &&
        start + count ≤ Number.nearest false s.length 1 then
      let cs := s.toList.drop (Number.wholeNat start)
      .text (String.ofList (cs.take (Number.wholeNat count)))
    else .string none
  | _, _, _ => .string none

def bindings (printer : Printer World) : List (Binding World) :=
  let string := "string"
  let double := "double"
  let shown (v : Value) := (text? v).getD "null"
  [.function "print" string [string] (some (printing printer shown)),
   .function "printd" string [double] (some (printing printer Value.inspect)),
   .function "tostring" string [double] (some (pure 1 toText)),
   .function "todouble" double [string] (some (pure 1 toNumber)),
   .function "len" double [string] (some (pure 1 length)),
   .function "substr" string [string, double, double] (some (pure 3 part)),
   .function "abs" double [double] (some (numeric Float.abs)),
   .function "floor" double [double] (some (numeric Number.floor)),
   .function "ceil" double [double] (some (numeric Number.ceiling)),
   .function "round" double [double] (some (numeric Number.roundAway)),
   .function "sqrt" double [double] (some (numeric Float.sqrt)),
   .function "min" double [double, double] (some (numeric2 Number.minimum)),
   .function "max" double [double, double] (some (numeric2 Number.maximum))]

end ScalarScript.Builtin
