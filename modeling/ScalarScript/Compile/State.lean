import ScalarScript.Compile.Fault
import ScalarScript.Diagnostic.Failure
import ScalarScript.Log
import ScalarScript.Program.Basic
/-!
The compiler's state and its basic moves: reading tokens, emitting instructions, declaring names.
A failed compilation keeps its state, so that what was emitted before the error can be seen.
-/
namespace ScalarScript

-- A name that the host provides: a function where the type is the function type.
structure Declaration where
  name : String
  type : Ty
  params : List Ty := []
  returnType : Ty := .null
  deriving DecidableEq, Repr

-- The function whose body is being compiled.
structure Enclosing where
  name : String
  returnType : Ty
  returnLabel : Int
  deriving DecidableEq, Repr

structure Compiler where
  -- the tokens from the current one on; never starts with a line mark
  ahead : List Token
  -- the texts of the source lines
  lines : List (Nat × String)
  -- the line at which the source ends
  lastLine : Nat
  -- the last line reached so far
  reached : Nat := 0
  -- a line whose marker goes before the next instruction
  pending : Option Nat := none
  program : Program := {}
  scope : Scope := [{}]
  maxDepth : Nat := 0
  -- where `break` goes, innermost loop first
  loops : List Int := []
  enclosing : Option Enclosing := none
  -- the type that exit values must have
  exitType : Option Ty := none
  -- latest first
  log : List LogRecord := []

abbrev Compile := EStateM CompileError Compiler

namespace Compiler

-- The current token. Behind the last one lies the end, on the last line.
def current (c : Compiler) : Token := c.ahead.headD ⟨.finish, "", c.lastLine⟩

def lineText (c : Compiler) (line : Nat) : String := (c.lines.lookup line).getD ""

-- Stands at the first of the tokens that is no line mark. A line reached for the first time gets
-- a marker.
def settle (c : Compiler) (tokens : List Token) : Compiler :=
  match tokens.dropWhile (·.kind = .lineMark) with
  | [] => { c with ahead := [] }
  | t :: rest =>
    if c.reached < t.line then
      { c with ahead := t :: rest, reached := t.line, pending := some t.line }
    else { c with ahead := t :: rest }

-- The kind of the token after the current one.
def following (c : Compiler) : Kind :=
  match c.ahead.tail.find? (·.kind ≠ .lineMark) with
  | some t => t.kind
  | none => .finish

def start (tokens : List Token) (exitType : Option Ty) : Compiler where
  ahead := []
  lines := ((tokens.filter (·.kind = .lineMark)).map fun t => (t.line, t.literal)).reverse
  lastLine := (tokens.getLast?.map (·.line)).getD 1
  exitType := exitType

def push (c : Compiler) (i : Instruction) : Compiler :=
  { c with program := { c.program with code := c.program.code.push i } }

end Compiler

namespace Compile

open Compiler

def token : Compile Token := return (← get).current

def line : Compile Nat := return (← token).line

def failAt {α : Type} (line : Nat) (f : CompileFault) : Compile α := do
  throw
    { code := f.code, message := f.message, line := line, sourceLine := (← get).lineText line }

-- Fails at the current token.
def fail {α : Type} (f : CompileFault) : Compile α := do failAt (← line) f

-- Fails for a name that nothing in scope has, with the nearest names.
def failUndefined {α : Type} (line : Nat) (name : String) (f : CompileFault) : Compile α := do
  throw
    { code := f.code, message := f.message, line := line, sourceLine := (← get).lineText line
      suggestions := Suggestion.similar name (← get).scope.names }

def advance : Compile Unit := modify fun c => c.settle c.ahead.tail

-- Goes back, or on, to a place kept earlier.
def seek (tokens : List Token) : Compile Unit := modify fun c => c.settle tokens

-- Takes the current token if it is of that kind.
def accept (kind : Kind) : Compile Bool := do
  if (← token).kind = kind then
    advance
    return true
  else return false

def expect (kind : Kind) : Compile Unit := do
  let t ← token
  if t.kind = kind then advance
  else if t.kind = .finish && kind = .rightBrace then fail .missingBrace
  else fail (.expected kind t)

def expectName : Compile String := do
  let t ← token
  if t.kind = .identifier then
    advance
    return t.literal
  else fail (.expected .identifier t)

-- Adds an instruction as it is. Labels and jumps are added this way: they cannot fail, so no
-- line marker goes before them.
def place (i : Instruction) : Compile Unit := modify (·.push i)

-- Adds an instruction, after the marker of a line reached since the last one.
def emit (i : Instruction) : Compile Unit := modify fun c =>
  match c.pending with
  | some line => ({ c with pending := none }.push (.debugLine line (c.lineText line))).push i
  | none => c.push i

def emitLabel (label : Int) : Compile Unit := place (.label label)

def emitJump (opcode : Opcode) (label : Int) : Compile Unit := place (.branch opcode label)

def freshLabel : Compile Int := modifyGet fun c =>
  let (label, program) := c.program.freshLabel
  (label, { c with program })

-- The place of the instruction added last.
def lastIndex : Compile Nat := return (← get).program.size - 1

-- Puts an instruction in the place of an earlier one.
def amend (index : Nat) (i : Instruction) : Compile Unit := modify fun c =>
  { c with program := { c.program with code := c.program.code.setIfInBounds index i } }

def report (r : LogRecord) : Compile Unit := modify fun c => { c with log := r :: c.log }

def enter (table : Table) : Compile Unit := modify fun c =>
  { c with scope := table :: c.scope, maxDepth := max c.maxDepth table.depth }

def leave : Compile Unit := modify fun c => { c with scope := c.scope.tail }

-- Runs with one more table in scope, which is gone afterwards, also after a failure.
def within {α : Type} (table : Table) (act : Compile α) : Compile α := fun c =>
  match (do enter table; act) c with
  | .ok a c => .ok a { c with scope := c.scope.tail }
  | .error e c => .error e { c with scope := c.scope.tail }

def innermost : Compile Table := return (← get).scope.top

-- Applies an operation on scopes; its failure is reported as the line and fault given.
def onScope (line : Nat) (fault : SymbolError → CompileFault)
    (f : Scope → Except SymbolError (Symbol × Scope)) : Compile Symbol := do
  match f (← get).scope with
  | .ok (symbol, scope) =>
    modify fun c => { c with scope }
    return symbol
  | .error e => failAt line (fault e)

def resolve? (name : String) : Compile (Option Symbol) := return (← get).scope.resolve? name

end Compile

-- The place of a variable as an operand.
def Symbol.operand (s : Symbol) : Operand := .slot ⟨s.type, s.depth, s.index, s.name⟩

end ScalarScript
