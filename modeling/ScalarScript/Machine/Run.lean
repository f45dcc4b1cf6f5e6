import ScalarScript.Log
import ScalarScript.Machine.Step
/-!
Runs from the first instruction to an exit value or an error.
-/
namespace ScalarScript

variable {World Watch : Type}

-- How a run may be cancelled from outside.
inductive Context where
  -- never looked at
  | background
  | live
  | cancelled
  deriving DecidableEq, Repr

-- What outlives a run: the host's variables and its world, the observer's state, and the room of
-- the operand stack.
structure Surroundings (World Watch : Type) where
  cells : Array (Option Cell)
  world : World
  watch : Watch
  room : List (Option Value) := []

namespace RunState

-- What a run leaves behind.
def surroundings (s : RunState World Watch) : Surroundings World Watch :=
  ⟨s.cells, s.world, s.watch, s.roomBelow s.stack.length⟩

-- What a machine holds that was never run: nothing of its own, not even a frame.
def unused (around : Surroundings World Watch) : RunState World Watch where
  scopes := #[]
  cells := around.cells
  world := around.world
  watch := around.watch
  room := around.room
  observedLine := 0

-- Under a context, which is not looked at yet.
def under (s : RunState World Watch) (context : Context) : RunState World Watch :=
  { s with
    cancellable := context ≠ .background
    cancelled := context = .cancelled
    sinceCheck := 0 }

end RunState

-- How a run ended and what it left.
structure RunReport (World Watch : Type) where
  outcome : Except RuntimeError Value
  final : RunState World Watch
  log : List LogRecord

-- A machine as its host holds it, with all that the last run left in it.
structure Device (World Watch : Type) where
  running : Bool := false
  state : RunState World Watch

namespace Device

-- A machine that was just made.
def new (around : Surroundings World Watch) : Device World Watch where
  state := .unused around

-- Begins a run, unless there is one on its way.
def begin (d : Device World Watch) : Except String (Device World Watch) :=
  if d.running then .error Core.alreadyRunning else .ok { d with running := true }

end Device

-- The machine as a host function finds it that it calls in that state.
def RunState.device (s : RunState World Watch) : Device World Watch := ⟨true, s⟩

namespace Machine

-- A machine needs a program that is ready.
def ofProgram (p : Program) (externals : Array (External World)) :
    Except String (Machine World Watch) :=
  if p.stage = .ready then .ok { code := p.code, externals }
  else .error s!"vm: program is {p.stage.name}, not ready"

-- The state that a run starts with, given what is around it.
def start (around : Surroundings World Watch) (context : Context) : RunState World Watch where
  scopes := #[[around.cells.map fun cell => if cell.isSome then .shared else .empty]]
  cells := around.cells
  world := around.world
  watch := around.watch
  room := around.room
  cancellable := context ≠ .background
  cancelled := context = .cancelled

-- Nothing else is left of the run before.
theorem reset_under (s : RunState World Watch) (context : Context) :
    s.reset.under context = start s.surroundings context := rfl

theorem surroundings_unused (around : Surroundings World Watch) :
    (RunState.unused around).surroundings = around := rfl

-- Steps until the run ends. Out of fuel there is no answer.
def runFrom (m : Machine World Watch) :
    Nat → RunState World Watch → Option (Except RuntimeError Value × RunState World Watch)
  | 0, _ => none
  | fuel + 1, s =>
    match Exec.step m s with
    | .error e s => some (.error e, s)
    | .ok (some v) s => some (.ok v, s)
    | .ok none s => runFrom m fuel s

def startedRecord (m : Machine World Watch) : LogRecord where
  message := "run started"
  fields := [("instructions", .int m.code.size), ("externals", .int m.externals.size)]

def finishedRecord (s : RunState World Watch) (v : Value) : LogRecord where
  message := "run finished"
  fields := [("executed", .int s.executed), ("result", .text v.inspect)]

def failedRecord (s : RunState World Watch) (e : RuntimeError) : LogRecord where
  level := .warn
  message := "runtime error"
  fields := [("error", .text e.text), ("address", .int s.address)]

-- A whole run. However it ends, the machine can be run again.
def use (m : Machine World Watch) (fuel : Nat) (context : Context) (d : Device World Watch) :
    Option (Except String (RunReport World Watch) × Device World Watch) :=
  match d.begin with
  | .error message => some (.error message, d)
  | .ok d => do
    let (outcome, final) ← m.runFrom fuel (d.state.reset.under context)
    let last := match outcome with
      | .ok v => finishedRecord final v
      | .error e => failedRecord final e
    return (.ok ⟨outcome, final, [m.startedRecord, last]⟩, ⟨false, final⟩)

-- A run of a machine that nobody else runs.
def run (m : Machine World Watch) (fuel : Nat) (around : Surroundings World Watch)
    (context : Context) : Option (RunReport World Watch) := do
  let (report, _) ← m.use fuel context (.new around)
  report.toOption

end Machine

end ScalarScript
