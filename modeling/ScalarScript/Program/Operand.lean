import ScalarScript.Value.Basic
/-!
Operands: what an instruction works on.
-/
namespace ScalarScript

-- One of the machine's scratch registers, or a number that none of them has.
structure Register where
  index : Nat
  deriving DecidableEq, Repr

namespace Register

def eax : Register := ⟨0⟩
def ebx : Register := ⟨1⟩
def ecx : Register := ⟨2⟩

def count : Nat := 3

def name (r : Register) : String :=
  match r.index with
  | 0 => "eax"
  | 1 => "ebx"
  | 2 => "ecx"
  | n => s!"r{n}"

end Register

-- A slot of the frame at an allocation depth. The name is for listings only.
structure Slot where
  type : Ty
  depth : Int
  index : Int
  name : String
  deriving DecidableEq, Repr

inductive Operand where
  | absent
  | register (r : Register)
  | slot (s : Slot)
  -- a constant that is not null
  | literal (v : Value)
  | null
  deriving Repr

namespace Operand

-- A value as a literal. The null of a scalar type becomes the value it is empty of.
def ofValue : Value → Operand
  | .bool v => literal (.truth (v.getD false))
  | .double v => literal (.number (v.getD 0))
  | .string v => literal (.text (v.getD ""))
  | .null => null

def isAbsent : Operand → Bool
  | absent => true
  | _ => false

def isRegister : Operand → Bool
  | register _ => true
  | _ => false

def isLiteral : Operand → Bool
  | literal _ | null => true
  | _ => false

-- The number of the operand's kind.
def kind : Operand → Nat
  | absent => 0
  | register _ => 1
  | slot _ => 2
  | literal _ => 3
  | null => 4

def type : Operand → Ty
  | slot s => s.type
  | literal v => v.type
  | _ => .null

-- Whether both operands are the same place or the same constant. Names do not count.
def same : Operand → Operand → Bool
  | absent, absent | null, null => true
  | register r, register s => r == s
  | slot s, slot t => s.type == t.type && s.depth == t.depth && s.index == t.index
  | literal a, literal b => a.type == b.type && a.equals b
  | _, _ => false

def text : Operand → String
  | absent => ""
  | register r => r.name
  | slot s =>
    let place := s!"{s.type.name}@{s.depth}:{s.index}"
    if s.name.isEmpty then place else s!"{s.name}({place})"
  | literal v => v.inspect
  | null => "null"

end Operand

end ScalarScript
