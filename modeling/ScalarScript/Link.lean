import ScalarScript.Diagnostic.Failure
import ScalarScript.Log
import ScalarScript.Program.Basic
/-!
Linking: labels disappear, and branches go to addresses.
-/
namespace ScalarScript

inductive LinkFault where
  | duplicate (label : Int)
  | undefined (label : Int) (opcode : Opcode)
  deriving DecidableEq, Repr

def LinkFault.error : LinkFault → LinkError
  | duplicate label => ⟨.duplicateLabel, s!"duplicate label L{label}", label⟩
  | undefined label opcode =>
    ⟨.undefinedLabel, s!"undefined label L{label} in {opcode.name}", label⟩

namespace Link

-- Each label with the address of what follows it once all labels are gone.
def addresses : List Instruction → Nat → List (Int × Nat)
  | [], _ => []
  | i :: rest, next =>
    if i.opcode = .label then (i.target, next) :: addresses rest next
    else addresses rest (next + 1)

-- The first label that has occurred before.
def duplicate? : List Int → List Int → Option Int
  | _, [] => none
  | seen, label :: rest =>
    if seen.contains label then some label else duplicate? (label :: seen) rest

-- The first branch to a label that does not exist.
def undefined? (labels : List (Int × Nat)) (code : List Instruction) : Option Instruction :=
  code.find? fun i => i.opcode.isBranch && (labels.lookup i.target).isNone

def retarget (labels : List (Int × Nat)) (i : Instruction) : Instruction :=
  if i.opcode.isBranch then { i with target := ((labels.lookup i.target).getD 0 : Nat) } else i

-- Linking acts on a program where it is.
abbrev Linking := EStateM LinkFault Program

-- Both checks of a program: no label twice, and no branch to a label that is missing.
def check (labels : List (Int × Nat)) (p : Program) : Linking Unit := do
  match duplicate? [] (labels.map (·.1)) with
  | some label => throw (.duplicate label)
  | none => pure ()
  match undefined? labels p.code.toList with
  | some i => throw (.undefined i.target i.opcode)
  | none => pure ()

def dropLabels : Linking Unit :=
  modify fun p => { p with code := p.code.filter (·.opcode ≠ .label) }

-- Branches at those places go to addresses, one after the other.
def patchAll (labels : List (Int × Nat)) : List Nat → Linking Unit
  | [] => return
  | index :: rest => do
    modify fun p => { p with code := p.code.modify index (retarget labels) }
    patchAll labels rest

-- A ready program stays as it is.
def inPlace : Linking (List LogRecord) := do
  let p ← get
  if p.stage = .ready then return []
  let labels := addresses p.code.toList 0
  check labels p
  dropLabels
  patchAll labels (← get).branches
  modify Program.markReady
  return [{ message := "linked program"
            fields := [("labels", .int labels.length), ("instructions", .int (← get).size)] }]

end Link

-- The program ready to run.
def link (p : Program) : Except LinkFault (Program × List LogRecord) :=
  match Link.inPlace p with
  | .ok log q => .ok (q, log)
  | .error f _ => .error f

end ScalarScript
