import ScalarScript.Text.Quoted
import ScalarScript.Text.Sorted
import ScalarScript.Value.Ty
/-!
Scopes: tables of declared names, innermost first. A table that opens a frame gives out the slots
of that frame; a block takes its slots from the frame around it.
-/
namespace ScalarScript

structure Symbol where
  name : String
  -- functions have the function type
  type : Ty
  depth : Nat
  -- the slot in the frame at that depth; script functions have none
  index : Int
  -- where a script function starts
  label : Int := 0
  params : List Ty := []
  returnType : Ty := .null
  deriving DecidableEq, Repr

def Symbol.isFunction (s : Symbol) : Bool := s.type == .function

-- What the host provides lies at depth 0.
def Symbol.isExternal (s : Symbol) : Bool := s.depth == 0

inductive SymbolError where
  | duplicate (name : String)
  | notScalar (name : String) (type : Ty)
  | notOutermost (name : String)
  deriving DecidableEq, Repr

def SymbolError.message : SymbolError → String
  | duplicate name => s!"{Text.quote name} is already declared in this scope"
  | notScalar name type => s!"cannot declare {Text.quote name} with type {type.name}"
  | notOutermost name => s!"external function {Text.quote name} must be declared at depth 0"

structure Table where
  symbols : List Symbol := []
  -- a block shares the frame of the table around it
  isBlock : Bool := false
  depth : Nat := 0
  slots : Nat := 0
  deriving DecidableEq, Repr

namespace Table

def get? (t : Table) (name : String) : Option Symbol := t.symbols.find? (·.name == name)

def declares (t : Table) (name : String) : Bool := (t.get? name).isSome

-- Adds a symbol under a new name.
def define (t : Table) (s : Symbol) : Except SymbolError Table :=
  if t.declares s.name then .error (.duplicate s.name)
  else .ok { t with symbols := s :: t.symbols }

-- A table for a frame one level deeper.
def child (t : Table) : Table := { depth := t.depth + 1 }

-- A nested table for the same frame.
def block (t : Table) : Table := { isBlock := true, depth := t.depth }

end Table

-- Tables from the innermost to the outermost.
abbrev Scope := List Table

namespace Scope

def top (s : Scope) : Table := s.headD {}

-- The nearest declaration of a name.
def resolve? (s : Scope) (name : String) : Option Symbol := s.findSome? (·.get? name)

-- The next slot of the frame that the innermost table belongs to.
def claim : Scope → Nat × Scope
  | [] => (0, [])
  | t :: rest =>
    if t.isBlock then
      let (slot, rest) := claim rest
      (slot, t :: rest)
    else (t.slots, { t with slots := t.slots + 1 } :: rest)

-- The number of slots claimed in that frame.
def count : Scope → Nat
  | [] => 0
  | t :: rest => if t.isBlock then count rest else t.slots

def define (s : Scope) (symbol : Symbol) : Except SymbolError Scope :=
  match s with
  | [] => .ok []
  | t :: rest => do return (← t.define symbol) :: rest

-- Claims a slot for a variable whose name stays hidden for now.
def reserve (s : Scope) (name : String) (type : Ty) : Except SymbolError (Symbol × Scope) :=
  if !type.isScalar then .error (.notScalar name type)
  else if s.top.declares name then .error (.duplicate name)
  else
    let (slot, rest) := s.claim
    .ok ({ name, type, depth := s.top.depth, index := slot }, rest)

def declare (s : Scope) (name : String) (type : Ty) : Except SymbolError (Symbol × Scope) := do
  let (symbol, s) ← s.reserve name type
  return (symbol, ← s.define symbol)

-- Script functions take no slot.
def declareFunction (s : Scope) (name : String) (label : Int) (params : List Ty)
    (returnType : Ty) : Except SymbolError (Symbol × Scope) := do
  let symbol : Symbol :=
    { name, type := .function, depth := s.top.depth, index := -1, label, params, returnType }
  return (symbol, ← s.define symbol)

-- Host functions take a slot like every host variable.
def declareHostFunction (s : Scope) (name : String) (params : List Ty) (returnType : Ty) :
    Except SymbolError (Symbol × Scope) :=
  if s.top.depth ≠ 0 then .error (.notOutermost name)
  else if s.top.declares name then .error (.duplicate name)
  else do
    let (slot, s) := s.claim
    let symbol : Symbol :=
      { name, type := .function, depth := 0, index := slot, params, returnType }
    return (symbol, ← s.define symbol)

-- Every name that can be seen.
def names (s : Scope) : List String := Text.sorted (s.flatMap fun t => t.symbols.map (·.name))

end Scope

end ScalarScript
