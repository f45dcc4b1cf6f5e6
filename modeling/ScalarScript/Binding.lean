import ScalarScript.Compile.State
import ScalarScript.Machine.Host
/-!
Bindings: the names that a host offers to scripts. A valid list of bindings gives the compiler its
declarations and the machine its slots, both in the same order.
-/
namespace ScalarScript

inductive Binding (World : Type) where
  -- types by their names
  | function (name returnType : String) (params : List String)
      (invoke : Option (HostFunction World))
  | variable (name : String) (cell : Option Cell)
  -- nothing at all
  | missing
  -- something of a kind that cannot be bound
  | foreign (name kind : String)

-- What a list of bindings provides.
structure Bound (World : Type) where
  declarations : List Declaration := []
  externals : List (External World) := []
  cells : List (Option Cell) := []

namespace Binding

variable {World : Type}

def name : Binding World → String
  | .function name .. | .variable name _ | .foreign name _ => name
  | .missing => ""

def cell? : Binding World → Option Cell
  | .variable _ cell => cell
  | _ => none

def withCell (b : Binding World) (cell : Option Cell) : Binding World :=
  match b with
  | .variable name _ => .variable name cell
  | b => b

-- The types of the parameters, and what is wrong with them.
def paramTypes (function : String) : Nat → List String → List Ty × List String
  | _, [] => ([], [])
  | position, p :: rest =>
    let (types, errors) := paramTypes function (position + 1) rest
    match Ty.declarable? p with
    | .ok type => (type :: types, errors)
    | .error e =>
      (types, s!"function {Text.quote function} parameter {position}: {e}" :: errors)

def resolveFunction (name returnType : String) (params : List String)
    (invoke : Option (HostFunction World)) : Except (List String) (Declaration × External World) :=
  let (types, paramErrors) := paramTypes name 1 params
  let (ret, retErrors) := match Ty.declarable? returnType with
    | .ok type => (type, [])
    | .error e => (Ty.null, [s!"function {Text.quote name} return type: {e}"])
  let implErrors :=
    if invoke.isNone then [s!"function {Text.quote name} has no implementation"] else []
  match implErrors ++ retErrors ++ paramErrors with
  | [] =>
    .ok ({ name, type := .function, params := types, returnType := ret },
      { name, function := invoke, arity := params.length, returnType := ret })
  | errors => .error errors

def resolveVariable (name : String) (cell : Option Cell) :
    Except (List String) (Declaration × External World) :=
  match cell with
  | none => .error [s!"variable {Text.quote name} has no value"]
  | some c =>
    if c.content.type.isScalar then .ok ({ name, type := c.content.type }, { name })
    else .error [s!"variable {Text.quote name} has unsupported type {c.content.type.name}"]

def resolveKind : Binding World → Except (List String) (Declaration × External World)
  | .function name returnType params invoke => resolveFunction name returnType params invoke
  | .variable name cell => resolveVariable name cell
  | .foreign name kind => .error [s!"binding {Text.quote name}: unsupported type {kind}"]
  | .missing => .error []

-- One binding, given its position and the names before it.
def resolveOne (position : Nat) (seen : List String) (b : Binding World) :
    Except (List String) (Declaration × External World) :=
  match b with
  | .missing => .error [s!"binding {position} is nil"]
  | b =>
    if b.name.isEmpty then .error [s!"binding {position} has no name"]
    else if seen.contains b.name then .error [s!"duplicate binding {Text.quote b.name}"]
    else b.resolveKind

-- All bindings, or everything that is wrong with them.
def resolveFrom : Nat → List String → List (Binding World) → Bound World × List String
  | _, _, [] => ({}, [])
  | position, seen, b :: rest =>
    let (bound, errors) := resolveFrom (position + 1) (b.name :: seen) rest
    match resolveOne position seen b with
    | .ok (declaration, ext) =>
      ({ declarations := declaration :: bound.declarations
         externals := ext :: bound.externals
         cells := b.cell? :: bound.cells }, errors)
    | .error found => (bound, found ++ errors)

def resolve (bindings : List (Binding World)) : Except (List String) (Bound World) :=
  match resolveFrom 0 [] bindings with
  | (bound, []) => .ok bound
  | (_, errors) => .error errors

end Binding

-- A value of the host that may become a variable.
inductive HostValue where
  | bool (b : Bool)
  | number (x : Float)
  | text (s : String)
  -- a kind that has no counterpart here, by its name
  | unsupported (kind : String)

namespace HostValue

def toValue? : HostValue → Except String Value
  | bool b => .ok (.truth b)
  | number x => .ok (.number x)
  | text s => .ok (.text s)
  | unsupported kind => .error s!"unsupported value type {kind}"

-- A variable, or a constant, with the value given.
def toCell? (name : String) (constant : Bool) (v : HostValue) : Except String Cell :=
  match v.toValue? with
  | .ok value => .ok { content := value, access := if constant then .constant else .mutable }
  | .error e =>
    let word := if constant then "constant" else "variable"
    .error s!"{word} {Text.quote name}: {e}"

-- What a host makes of a value; a null has no counterpart.
def ofValue : Value → Option HostValue
  | .bool v => v.map bool
  | .double v => v.map number
  | .string v => v.map text
  | .null => none

end HostValue

end ScalarScript
