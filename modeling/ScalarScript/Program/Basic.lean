import ScalarScript.Program.Instruction
/-!
Programs: instruction lists with a life cycle. A program is built, may be optimized once, and is
ready to run once linked; a ready program no longer changes.
-/
namespace ScalarScript

inductive Stage where
  | building | optimized | ready
  deriving DecidableEq, Repr

def Stage.name : Stage → String
  | .building => "building"
  | .optimized => "optimized"
  | .ready => "ready"

structure Program where
  code : Array Instruction := #[]
  stage : Stage := .building
  -- the next label that is still free
  nextLabel : Nat := 0
  deriving Repr

-- A request that no program can meet.
inductive Misuse where
  | linked
  | outOfRange
  | operandCount (opcode : Opcode) (given : Nat)
  -- a listing of an operation without a mnemonic
  | nameless
  deriving DecidableEq, Repr

-- Places outside the program have no message of their own.
def Misuse.message : Misuse → String
  | linked => "bytecode: program is linked and can no longer be modified"
  | operandCount o given =>
    let name := o.name?.getD ""
    s!"bytecode: {name} takes {o.operandCount} operands (got {given})"
  | outOfRange | nameless => "runtime error"

namespace Program

def size (p : Program) : Nat := p.code.size

-- A label that this program has never handed out.
def freshLabel (p : Program) : Int × Program :=
  (p.nextLabel, { p with nextLabel := p.nextLabel + 1 })

-- The number of instructions that are no marks.
def codeCount (p : Program) : Nat := p.code.countP fun i => !i.opcode.isMark

-- The places of the instructions that name another place.
def branches (p : Program) : List Nat :=
  (p.code.toList.zipIdx.filter fun (i, _) => i.opcode.isBranch).map Prod.snd

def requireMutable (p : Program) : Except Misuse Unit :=
  if p.stage = .ready then .error .linked else .ok ()

-- Adds instructions at the end and tells the place of the first.
def append (p : Program) (more : List Instruction) : Except Misuse (Program × Nat) := do
  p.requireMutable
  return ({ p with code := p.code ++ more.toArray }, p.size)

-- Puts an instruction in the place of another.
def patch (p : Program) (index : Int) (i : Instruction) : Except Misuse Program := do
  p.requireMutable
  if 0 ≤ index && index < p.size then
    return { p with code := p.code.setIfInBounds index.toNat i }
  else throw .outOfRange

-- Puts instructions in the place of the `count` ones from a place on.
def replace (p : Program) (index count : Int) (others : List Instruction) :
    Except Misuse Program := do
  p.requireMutable
  let after := index + count
  if 0 ≤ index && index ≤ p.size && 0 ≤ after && after ≤ p.size then
    let code := p.code.toList.take index.toNat ++ others ++ p.code.toList.drop after.toNat
    return { p with code := code.toArray }
  else throw .outOfRange

def remove (p : Program) (index : Int) : Except Misuse Program := p.replace index 1 []

-- Keeps the instructions that pass and counts the others.
def filter (p : Program) (keep : Instruction → Bool) : Except Misuse (Program × Nat) := do
  p.requireMutable
  let kept := p.code.filter keep
  return ({ p with code := kept }, p.size - kept.size)

-- Only a program that is being built can become an optimized one.
def markOptimized (p : Program) : Except String Program :=
  if p.stage = .building then .ok { p with stage := .optimized }
  else .error s!"cannot optimize a program in state {p.stage.name}"

def markReady (p : Program) : Program := { p with stage := .ready }

end Program

end ScalarScript
