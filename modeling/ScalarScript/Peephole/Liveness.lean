import ScalarScript.Program.Basic
/-!
Liveness: whether some path of the unlinked program reads a register, or the flags, before they are
written again.
-/
namespace ScalarScript

-- What an instruction does to the thing that is tracked.
inductive Effect where
  | pass | read | kill
  deriving DecidableEq, Repr

-- Calls leave no register intact, and whoever is returned to may read any of them.
def registerEffect (r : Operand) (i : Instruction) : Effect :=
  match i.opcode with
  | .call => .kill
  | .ret => .read
  | .hostCall => if r.same (.register .eax) then .kill else .pass
  | _ => if i.reads r then .read else if i.writes r then .kill else .pass

def flagEffect (i : Instruction) : Effect :=
  match i.opcode with
  | .compare | .test | .call => .kill
  | .ret | .jumpIf _ | .setIf _ => .read
  | _ => .pass

-- An unlinked program with the places of its labels; of two equal labels the later counts.
structure Flow where
  code : Array Instruction
  labels : List (Int × Nat)

namespace Flow

def of (code : Array Instruction) : Flow where
  code := code
  labels := ((code.toList.zipIdx.filter fun (i, _) => i.opcode = .label).map
    fun (i, n) => (i.target, n)).reverse

def label? (f : Flow) (id : Int) : Option Nat := f.labels.lookup id

-- Where control goes after an instruction that passes the tracked thing on; none where a label
-- is missing.
def successors? (f : Flow) (place : Nat) (i : Instruction) : Option (List Nat) :=
  match i.opcode with
  | .exit => some []
  | .jump => (f.label? i.target).map ([·])
  | .jumpIf _ => (f.label? i.target).map ([·, place + 1])
  | _ => some [place + 1]

-- Visits the pending places, each place once. A missing label counts as a read.
def search (f : Flow) (effect : Instruction → Effect) : Nat → Array Bool → List Nat → Bool
  | 0, _, _ => false
  | _ + 1, _, [] => false
  | steps + 1, visited, place :: pending =>
    match f.code[place]? with
    | none => search f effect steps visited pending
    | some i =>
      if visited[place]?.getD true then search f effect steps visited pending
      else
        let visited := visited.setIfInBounds place true
        match effect i with
        | .read => true
        | .kill => search f effect steps visited pending
        | .pass =>
          match f.successors? place i with
          | none => true
          | some next => search f effect steps visited (next ++ pending)

-- Whether what is tracked may be read from a place on. Every place adds at most two pending ones,
-- which bounds the number of steps.
def live (f : Flow) (start : Nat) (effect : Instruction → Effect) : Bool :=
  f.search effect (2 * f.code.size + 2) (Array.replicate f.code.size false) [start]

def registerDead (f : Flow) (start : Nat) (r : Operand) : Bool := !f.live start (registerEffect r)

def flagsDead (f : Flow) (start : Nat) : Bool := !f.live start flagEffect

end Flow

end ScalarScript
