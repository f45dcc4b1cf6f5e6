import ScalarScript.Binding
import ScalarScript.Compile.Statement
import ScalarScript.Link
import ScalarScript.Machine.Run
import ScalarScript.Peephole.Optimize
import ScalarScript.Program.Listing
import ScalarScript.Token.Lexer
/-!
Scripts from source text to result: bindings are checked, the text is compiled, perhaps optimized,
linked and run.
-/
namespace ScalarScript

variable {World Watch : Type}

structure Settings (Watch : Type) where
  optimize : Bool := false
  -- the type name that exit values must have; none where empty
  exitType : String := ""
  instructionLimit : Int := 0
  contextInterval : Int := 1000
  maxCallDepth : Int := 10000
  observer : Option (Observer Watch) := none

-- A program on its way, as far as it came.
structure Build (World : Type) where
  bound : Bound World := {}
  program : Option Program := none
  savings : Option Savings := none
  log : List LogRecord := []

namespace Script

-- The type that exit values must have.
def exitType? (name : String) : Except Failure (Option Ty) :=
  if name.isEmpty then .ok none
  else match Ty.declarable? name with
    | .ok type => .ok (some type)
    | .error e => .error (.plain e)

def optimizeBuild (b : Build World) (p : Program) : Except Failure Unit × Build World × Program :=
  match ScalarScript.optimize p 0 with
  | .ok o =>
    (.ok (), { b with savings := some o.savings, log := b.log ++ o.log, program := some o.program },
      o.program)
  | .error e => (.error (.plain e), b, p)

def linkBuild (b : Build World) (p : Program) : Except Failure Unit × Build World :=
  match ScalarScript.link p with
  | .ok (p, log) => (.ok (), { b with program := some p, log := b.log ++ log })
  | .error f => (.error (.link f.error), b)

-- Compiles tokens, then optimizes and links the program.
def buildTokens (settings : Settings Watch) (b : Build World) (exitType : Option Ty)
    (tokens : List Token) : Except Failure Unit × Build World :=
  let c := compileTokens tokens b.bound.declarations exitType
  let b := { b with program := some c.program, log := c.log }
  match c.error with
  | some e => (.error (.compile e), b)
  | none =>
    if settings.optimize then
      match optimizeBuild b c.program with
      | (.ok _, b, p) => linkBuild b p
      | (.error e, b, _) => (.error e, b)
    else linkBuild b c.program

-- Bindings are looked at first, then the exit type, then the text.
def build (settings : Settings Watch) (bindings : List (Binding World)) (source : String) :
    Except Failure Unit × Build World :=
  match Binding.resolve bindings with
  | .error messages => (.error (.many messages), {})
  | .ok bound =>
    let b : Build World := { bound }
    match exitType? settings.exitType with
    | .error e => (.error e, b)
    | .ok exitType =>
      match tokenize source with
      | .error e => (.error (.lex e), b)
      | .ok tokens => buildTokens settings b exitType tokens

-- A program ready to be executed.
def compile (settings : Settings Watch) (bindings : List (Binding World)) (source : String) :
    Except Failure Program :=
  match build settings bindings source with
  | (.ok _, b) => .ok (b.program.getD {})
  | (.error e, _) => .error e

def machine (settings : Settings Watch) (bound : Bound World) (p : Program) :
    Except Failure (Machine World Watch) :=
  let made : Except String (Machine World Watch) :=
    Machine.ofProgram p bound.externals.toArray
  match made with
  | .error e => .error (.plain e)
  | .ok m =>
    .ok { m with
      observer := settings.observer
      instructionLimit := settings.instructionLimit
      contextInterval := settings.contextInterval
      maxCallDepth := settings.maxCallDepth }

-- How a run ended, and what it left to the host.
structure Execution (World Watch : Type) where
  outcome : Except Failure Value
  around : Surroundings World Watch
  log : List LogRecord := []

-- Runs a program. Out of fuel there is no answer.
def executeBound (fuel : Nat) (settings : Settings Watch) (bound : Bound World) (p : Program)
    (world : World) (watch : Watch) (context : Context) : Option (Execution World Watch) :=
  match machine settings bound p with
  | .error e => some ⟨.error e, ⟨bound.cells.toArray, world, watch, []⟩, []⟩
  | .ok m => do
    let r ← m.run fuel ⟨bound.cells.toArray, world, watch, []⟩ context
    let outcome := match r.outcome with
      | .ok v => .ok v
      | .error e => .error (.runtime e)
    return ⟨outcome, r.final.surroundings, r.log⟩

-- Runs a compiled program; the bindings must be like those it was compiled with.
def execute (fuel : Nat) (settings : Settings Watch) (bindings : List (Binding World))
    (p : Program) (world : World) (watch : Watch) (context : Context) :
    Option (Execution World Watch) :=
  match Binding.resolve bindings with
  | .error messages =>
    some ⟨.error (.many messages), ⟨(bindings.map Binding.cell?).toArray, world, watch, []⟩, []⟩
  | .ok bound => executeBound fuel settings bound p world watch context

structure Result (World Watch : Type) where
  outcome : Except Failure Value
  build : Build World
  around : Surroundings World Watch
  log : List LogRecord

-- The listing of what was built, also of a part.
def Result.listing (r : Result World Watch) : String :=
  match r.build.program with
  | none => ""
  | some p => (Listing.render false p).toOption.getD ""

-- Compiles and runs a source text.
def run (fuel : Nat) (settings : Settings Watch) (bindings : List (Binding World))
    (source : String) (world : World) (watch : Watch) (context : Context) :
    Option (Result World Watch) :=
  match build settings bindings source with
  | (.error e, b) =>
    some ⟨.error e, b, ⟨(bindings.map Binding.cell?).toArray, world, watch, []⟩, b.log⟩
  | (.ok _, b) => do
    let e ← executeBound fuel settings b.bound (b.program.getD {}) world watch context
    return ⟨e.outcome, b, e.around, b.log ++ e.log⟩

-- The bindings as a run left them.
def updateCells (bindings : List (Binding World)) (around : Surroundings World Watch) :
    List (Binding World) :=
  bindings.zipIdx.map fun (b, i) => b.withCell (around.cells[i]?.join)

end Script

end ScalarScript
