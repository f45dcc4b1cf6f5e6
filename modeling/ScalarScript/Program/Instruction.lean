import ScalarScript.Opcode
import ScalarScript.Program.Operand
/-!
Instructions: an operation code with its operands and the numbers that marks, branches and scope
operations carry.
-/
namespace ScalarScript

structure Instruction where
  opcode : Opcode
  first : Operand := .absent
  second : Operand := .absent
  third : Operand := .absent
  -- The label of a mark or branch, the address a branch goes to once the program is linked, or
  -- the slot of a host function.
  target : Int := 0
  depth : Int := 0
  size : Int := 0
  line : Int := 0
  text : String := ""
  name : String := ""
  deriving Repr

namespace Instruction

def operands (i : Instruction) : List Operand :=
  [i.first, i.second, i.third].take i.opcode.operandCount

-- An instruction with the operands given, none where their number is wrong.
def ofOperands? (opcode : Opcode) (operands : List Operand) : Option Instruction :=
  if operands.length = opcode.operandCount then
    some
      { opcode
        first := operands[0]?.getD .absent
        second := operands[1]?.getD .absent
        third := operands[2]?.getD .absent }
  else none

def plain (opcode : Opcode) : Instruction := { opcode }

def unary (opcode : Opcode) (a : Operand) : Instruction := { opcode, first := a }

def binary (opcode : Opcode) (a b : Operand) : Instruction := { opcode, first := a, second := b }

def move (target source : Operand) : Instruction := binary .move target source

def push (a : Operand) : Instruction := unary .push a

def pop (a : Operand) : Instruction := unary .pop a

def label (id : Int) : Instruction := { opcode := .label, target := id }

def branch (opcode : Opcode) (id : Int) : Instruction := { opcode, target := id }

def call (id : Int) (name : String) : Instruction := { opcode := .call, target := id, name }

def hostCall (slot : Int) (name : String) : Instruction :=
  { opcode := .hostCall, target := slot, name }

def debugLine (line : Int) (text : String) : Instruction := { opcode := .debugLine, line, text }

def pushScope (depth size : Int) : Instruction := { opcode := .pushScope, depth, size }

def popScope (depth : Int) : Instruction := { opcode := .popScope, depth }

def scopeDepth (depths : Int) : Instruction := { opcode := .scopeDepth, size := depths }

def allocate (type : Scalar) (s : Slot) : Instruction := unary (.allocate type) (.slot s)

-- Whether some operand in a position of that use is the given one.
def touches (i : Instruction) (use : Nat → Bool) (o : Operand) : Bool :=
  i.operands.zipIdx.any fun (p, n) => use n && p.same o

def reads (i : Instruction) (o : Operand) : Bool := i.touches i.opcode.reads o

def writes (i : Instruction) (o : Operand) : Bool := i.touches i.opcode.writes o

def uses (i : Instruction) (o : Operand) : Bool := i.touches (fun _ => true) o

-- The text of an instruction. In a linked program branches show addresses, before that labels.
def render (linked : Bool) (i : Instruction) : String :=
  let name := i.opcode.name?.getD ""
  let place := if linked then toString i.target else s!"L{i.target}"
  match i.opcode with
  | .label => s!"L{i.target}:"
  | .debugLine => s!"-{i.line}-\t{i.text}"
  | .call => s!"{name} {place}" ++ if i.name.isEmpty then "" else s!" ({i.name})"
  | .hostCall => s!"{name} {i.target} ({i.name})"
  | .pushScope => s!"{name} {i.depth} {i.size}"
  | .popScope => s!"{name} {i.depth}"
  | .scopeDepth => s!"{name} {i.size}"
  | .jump | .jumpIf _ => s!"{name} {place}"
  | _ =>
    if i.operands.isEmpty then name
    else name ++ " " ++ ", ".intercalate (i.operands.map Operand.text)

end Instruction

end ScalarScript
