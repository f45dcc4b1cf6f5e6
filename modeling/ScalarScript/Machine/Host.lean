import ScalarScript.Value.Cell
/-!
What the host of a machine provides: variables, which are cells shared with the script, and
functions, which act on a world of the host's own.
-/
namespace ScalarScript

-- What a host function finds of the machine that calls it.
structure HostView where
  -- the answer to an attempt to run the machine again
  rerun : String
  -- the host's variables as they are
  cells : Array (Option Cell) := #[]

-- Where the host has no variables there is the answer alone.
instance : Coe String HostView := ⟨fun rerun => { rerun }⟩

structure HostRequest where
  -- the arguments, last first
  arguments : List Value
  view : HostView

abbrev HostRequest.rerun (r : HostRequest) : String := r.view.rerun

abbrev HostRequest.cells (r : HostRequest) : Array (Option Cell) := r.view.cells

inductive HostResult where
  | value (v : Option Value)
  | failed (message : String)
  | crashed (message : String)
  deriving Repr

structure HostReply (World : Type) where
  world : World
  -- how many arguments were taken, which may be more than there are
  popped : Nat
  -- whether the run was cancelled on the way
  cancels : Bool := false
  -- what was put into the host's variables, by their numbers, in that order
  stores : List (Nat × Value) := []
  result : HostResult

def HostFunction (World : Type) := World → HostRequest → HostReply World

-- One slot of depth 0. A slot without function is a variable, if the host has a cell for it.
structure External (World : Type) where
  name : String
  function : Option (HostFunction World) := none
  arity : Int := 0
  returnType : Ty := .null

namespace External

variable {World : Type}

-- The host function of a slot, with the slot itself.
def function? (externals : Array (External World)) (slot : Int) :
    Option (External World × HostFunction World) :=
  if slot < 0 then none
  else externals[slot.toNat]?.bind fun ext => ext.function.map (ext, ·)

end External

end ScalarScript
