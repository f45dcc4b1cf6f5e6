import ScalarScript.Diagnostic.Failure
import ScalarScript.Machine.Core
import ScalarScript.Machine.Observer
import ScalarScript.Program.Basic
/-!
The machine and the state of a run: its core, the place in the program, the call stack, and what
the limits and the observer need.
-/
namespace ScalarScript

-- A call of a script function that has not returned.
structure Activation where
  function : String
  -- where to go on afterwards
  resume : Int
  -- where the call stands
  site : Int
  -- the line of the call, current again afterwards
  line : Int
  deriving DecidableEq, Repr

-- A machine: a linked program with its host and its limits.
structure Machine (World Watch : Type) where
  code : Array Instruction
  externals : Array (External World) := #[]
  observer : Option (Observer Watch) := none
  -- the most instructions of a run; no limit unless positive
  instructionLimit : Int := 0
  -- the number of instructions between two looks at the context; none unless positive
  contextInterval : Int := 1000
  maxCallDepth : Int := 10000

-- A run on its way.
structure RunState (World Watch : Type) extends Core World where
  address : Int := 0
  line : Int := 0
  -- unbounded here; a counter of 64 bits would take centuries to overflow
  executed : Nat := 0
  -- the places above the top of the operand stack, nearest first, with what they held last
  room : List (Option Value) := []
  -- innermost first
  calls : List Activation := []
  watch : Watch
  cancellable : Bool := false
  cancelled : Bool := false
  -- instructions since the last look at the context
  sinceCheck : Nat := 0
  observedLine : Int := -1

namespace RunState

variable {World Watch : Type}

def trace (s : RunState World Watch) : List Frame :=
  s.calls.map fun c => ⟨c.function, c.site, c.line⟩

-- A fault as an error at the current place.
def error (s : RunState World Watch) (f : RuntimeFault) : RuntimeError where
  code := f.code
  message := f.message
  address := s.address
  line := s.line
  stack := s.trace
  cause := f.cause?

-- The room above the operand stack after an instruction. A push takes a place of it; where there is
-- none, it is made for as many places as are filled. That is how small stacks grow. Large ones grow by
-- less, at the allocator's choice, which only a call that takes places back could tell. A pop gives a
-- place back.
def roomAfter (s : RunState World Watch) (o : Opcode) : List (Option Value) :=
  match o with
  | .push =>
    match s.room with
    | _ :: room => room
    | [] => List.replicate (s.stack.length - 1) none
  | .pop => s.stack.take 1 ++ s.room
  | _ => s.room

-- The room once that many places were taken off the operand stack.
def roomBelow (s : RunState World Watch) (count : Nat) : List (Option Value) :=
  (s.stack.take count).reverse ++ s.room

-- Takes that many places of the room back into the operand stack, as they are.
def regain (s : RunState World Watch) (count : Nat) : RunState World Watch :=
  { s with stack := (s.room.take count).reverse ++ s.stack, room := s.room.drop count }

-- Makes ready for a run, whatever the last one left. The operand stack keeps its places, and the
-- first frame shares the cells of the host's variables. The rest is the host's, or the context's.
def reset (s : RunState World Watch) : RunState World Watch :=
  { s with
    address := 0
    line := 0
    observedLine := -1
    executed := 0
    flags := {}
    stack := []
    room := s.roomBelow s.stack.length
    calls := []
    registers := s.registers.reset
    scopes := #[[s.cells.map fun cell => if cell.isSome then .shared else .empty]] }

end RunState

abbrev Exec (World Watch : Type) := EStateM RuntimeError (RunState World Watch)

end ScalarScript
