import ScalarScript.Value.Ty
/-!
Operation codes of the machine: their numbers, mnemonics, and how they use their operands.
-/
namespace ScalarScript

inductive Condition where
  | equal | notEqual | above | aboveEqual | below | belowEqual
  deriving DecidableEq, Repr

inductive BinaryOp where
  | add | sub | mul | div | mod | pow | and | or | concat
  deriving DecidableEq, Repr

inductive UnaryOp where
  | negate | not
  deriving DecidableEq, Repr

inductive Opcode where
  -- marks, which do nothing when executed
  | label | debugLine
  | call | hostCall | ret | exit
  | jump | jumpIf (condition : Condition)
  | compare | test | setIf (condition : Condition)
  | move | push | pop
  | binary (op : BinaryOp) | unary (op : UnaryOp)
  | pushScope | popScope | scopeDepth | allocate (type : Scalar)
  -- a number that no operation has
  | unknown (code : Nat)
  deriving DecidableEq, Repr

def Condition.all : List Condition := [.equal, .notEqual, .above, .aboveEqual, .below, .belowEqual]

def Condition.rank : Condition → Nat
  | .equal => 0
  | .notEqual => 1
  | .above => 2
  | .aboveEqual => 3
  | .below => 4
  | .belowEqual => 5

def Condition.suffix : Condition → String
  | .equal => "e"
  | .notEqual => "ne"
  | .above => "a"
  | .aboveEqual => "ae"
  | .below => "b"
  | .belowEqual => "be"

def BinaryOp.name : BinaryOp → String
  | .add => "add"
  | .sub => "sub"
  | .mul => "mul"
  | .div => "div"
  | .mod => "mod"
  | .pow => "pow"
  | .and => "and"
  | .or => "or"
  | .concat => "concat"

namespace Opcode

def code : Opcode → Nat
  | label => 1
  | debugLine => 2
  | call => 10
  | hostCall => 11
  | ret => 12
  | exit => 13
  | jump => 20
  | jumpIf c => 21 + c.rank
  | compare => 30
  | test => 31
  | setIf c => 40 + c.rank
  | move => 50
  | push => 51
  | pop => 52
  | binary .add => 60
  | binary .sub => 61
  | binary .mul => 62
  | binary .div => 63
  | binary .mod => 64
  | binary .pow => 65
  | unary .negate => 66
  | binary .and => 70
  | binary .or => 71
  | unary .not => 72
  | binary .concat => 80
  | pushScope => 90
  | popScope => 91
  | scopeDepth => 92
  | allocate .bool => 93
  | allocate .double => 94
  | allocate .string => 95
  | unknown n => n

-- Every operation that has a mnemonic, by ascending number.
def all : List Opcode :=
  [label, debugLine, call, hostCall, ret, exit, jump] ++ Condition.all.map jumpIf ++
  [compare, test] ++ Condition.all.map setIf ++
  [move, push, pop, binary .add, binary .sub, binary .mul, binary .div, binary .mod, binary .pow,
    unary .negate, binary .and, binary .or, unary .not, binary .concat,
    pushScope, popScope, scopeDepth, allocate .bool, allocate .double, allocate .string]

def ofCode (n : Nat) : Opcode := (all.find? (·.code == n)).getD (unknown n)

def name? : Opcode → Option String
  | label => some "label"
  | debugLine => some "debug"
  | call => some "call"
  | hostCall => some "excall"
  | ret => some "ret"
  | exit => some "exit"
  | jump => some "jmp"
  | jumpIf c => some ("j" ++ c.suffix)
  | compare => some "cmp"
  | test => some "test"
  | setIf c => some ("s" ++ c.suffix)
  | move => some "mov"
  | push => some "push"
  | pop => some "pop"
  | binary op => some op.name
  | unary .negate => some "neg"
  | unary .not => some "not"
  | pushScope => some "pushscope"
  | popScope => some "popscope"
  | scopeDepth => some "scopedepth"
  | allocate t => some t.ty.name
  | unknown _ => none

def name (o : Opcode) : String := o.name?.getD "invalid"

def ofName? (name : String) : Option Opcode := all.find? (·.name? == some name)

def operandCount : Opcode → Nat
  | compare | move | binary _ => 2
  | exit | test | setIf _ | push | pop | unary _ | allocate _ => 1
  | _ => 0

-- Whether the operation reads its operand of that position.
def reads : Opcode → Nat → Bool
  | move, i => i == 1
  | compare, i | binary _, i => i < 2
  | exit, i | test, i | push, i | unary _, i => i == 0
  | _, _ => false

-- Whether the operation writes its operand of that position.
def writes : Opcode → Nat → Bool
  | move, i | binary _, i | unary _, i | setIf _, i | pop, i | allocate _, i => i == 0
  | _, _ => false

-- Jumps and calls name a place in the program.
def isBranch : Opcode → Bool
  | jump | jumpIf _ | call => true
  | _ => false

def isMark : Opcode → Bool
  | label | debugLine => true
  | _ => false

def isConditionalJump : Opcode → Bool
  | jumpIf _ => true
  | _ => false

def isSet : Opcode → Bool
  | setIf _ => true
  | _ => false

-- The jump taken exactly when the set operation would store true.
def jumpForSet? : Opcode → Option Opcode
  | setIf c => some (jumpIf c)
  | _ => none

theorem ofCode_code_of_mem {o : Opcode} (h : o ∈ all) : ofCode o.code = o := by
  have check : ∀ o ∈ all, ofCode o.code = o := by decide
  exact check o h

theorem reads_lt {o : Opcode} {i : Nat} (h : o.reads i = true) : i < o.operandCount := by
  cases o <;> simp [reads] at h <;> simp [operandCount] <;> omega

theorem writes_lt {o : Opcode} {i : Nat} (h : o.writes i = true) : i < o.operandCount := by
  cases o <;> simp_all [writes, operandCount]

end Opcode

end ScalarScript
