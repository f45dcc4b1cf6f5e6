import ScalarScript.Peephole.Liveness
import ScalarScript.Value.Operation
/-!
Replacement rules for a few instructions in a row. A rule that drops a write makes sure first that
nobody reads what was written.
-/
namespace ScalarScript

inductive Rule where
  | selfMove | deadStore | pushPop | pushMovePop | foldUnary | foldBinary | propagate | fuseBranch
  deriving DecidableEq, Repr

namespace Rule

-- In the order in which they are tried.
def all : List Rule :=
  [selfMove, deadStore, pushPop, pushMovePop, foldUnary, foldBinary, propagate, fuseBranch]

def name : Rule → String
  | selfMove => "self-move"
  | deadStore => "dead-store"
  | pushPop => "push-pop"
  | pushMovePop => "push-mov-pop"
  | foldUnary => "fold-unary"
  | foldBinary => "fold-binop"
  | propagate => "propagate"
  | fuseBranch => "fuse-branch"

-- The number of instructions that the rule replaces.
def width : Rule → Nat
  | selfMove | deadStore => 1
  | pushPop | foldUnary | propagate => 2
  | pushMovePop | foldBinary | fuseBranch => 3

-- A write that cannot fail: only what the host provides may be constant.
def removable : Operand → Bool
  | .register _ => true
  | .slot s => 0 < s.depth
  | _ => false

-- `mov X, X` disappears.
def selfMove? (i : Instruction) : Option (List Instruction) :=
  if i.opcode = .move && i.first.same i.second && removable i.first then some [] else none

-- A move into a register that nobody reads disappears.
def deadStore? (f : Flow) (place : Nat) (i : Instruction) : Option (List Instruction) :=
  if i.opcode = .move && i.first.isRegister && f.registerDead (place + 1) i.first then some []
  else none

-- `push A; pop D` becomes `mov D, A`.
def pushPop? (push pop : Instruction) : Option (List Instruction) :=
  if push.opcode = .push && pop.opcode = .pop then some [.move pop.first push.first] else none

-- `push A; mov B, C; pop D` becomes `mov D, A; mov B, C`, unless `D` is `B` or `C`.
def pushMovePop? (push move pop : Instruction) : Option (List Instruction) :=
  if push.opcode = .push && move.opcode = .move && pop.opcode = .pop &&
      !pop.first.same move.second && !pop.first.same move.first then
    some [.move pop.first push.first, .move move.first move.second]
  else none

-- A constant moved into a register and negated or inverted there becomes one move.
def foldUnary? (move next : Instruction) : Option (List Instruction) :=
  match move.opcode, move.second, next.opcode with
  | .move, .literal v, .unary op =>
    if move.first.isRegister && next.first.same move.first then
      match op.apply v with
      | .ok folded => some [.move move.first (.ofValue folded)]
      | .error _ => none
    else none
  | _, _, _ => none

-- `mov R, A; op R, B; mov A, R` becomes `op A, B` where nobody reads `R` afterwards.
def foldBinary? (f : Flow) (place : Nat) (load compute store : Instruction) :
    Option (List Instruction) :=
  match load.opcode, compute.opcode, store.opcode with
  | .move, .binary op, .move =>
    let r := load.first
    let a := load.second
    let b := compute.second
    if r.isRegister && !a.isLiteral && !b.same r && compute.first.same r && store.first.same a &&
        store.second.same r && f.registerDead (place + 3) r then
      some [.binary (.binary op) a b]
    else none
  | _, _, _ => none

-- The instruction with one operand put in the place of another wherever that is read.
def substitute (i : Instruction) (old new : Operand) : Instruction :=
  let swap (n : Nat) (o : Operand) :=
    if n < i.opcode.operandCount && i.opcode.reads n && o.same old then new else o
  { i with first := swap 0 i.first, second := swap 1 i.second, third := swap 2 i.third }

-- A move into a register that only the next instruction reads: that one reads the source instead.
def propagate? (f : Flow) (place : Nat) (move next : Instruction) : Option (List Instruction) :=
  let r := move.first
  if move.opcode = .move && r.isRegister && next.reads r && !next.writes r &&
      f.registerDead (place + 2) r then
    some [substitute next r move.second]
  else none

-- The jump that replaces a set, a test and a jump. An order cannot be turned around: a comparison
-- with a null holds neither way.
def fusedJump? (set branch : Opcode) : Option Opcode :=
  match set, branch with
  | .setIf c, .jumpIf .notEqual => some (.jumpIf c)
  | .setIf .equal, .jumpIf .equal => some (.jumpIf .notEqual)
  | .setIf .notEqual, .jumpIf .equal => some (.jumpIf .equal)
  | _, _ => none

-- A flag stored in a register, tested and jumped on becomes a jump on the flag, where nobody reads
-- the register or the flags on either way.
def fuseBranch? (f : Flow) (place : Nat) (set test jump : Instruction) :
    Option (List Instruction) := do
  let r := set.first
  guard (set.opcode.isSet && test.opcode = .test && r.isRegister && test.first.same r)
  let code ← fusedJump? set.opcode jump.opcode
  let target ← f.label? jump.target
  guard (f.registerDead (place + 3) r && f.registerDead target r)
  guard (f.flagsDead (place + 3) && f.flagsDead target)
  return [.branch code jump.target]

-- What the rule puts in the place of the instructions at a place, if it applies there.
def replacement? (rule : Rule) (f : Flow) (place : Nat) : Option (List Instruction) := do
  let a ← f.code[place]?
  match rule with
  | selfMove => selfMove? a
  | deadStore => deadStore? f place a
  | pushPop => pushPop? a (← f.code[place + 1]?)
  | pushMovePop => pushMovePop? a (← f.code[place + 1]?) (← f.code[place + 2]?)
  | foldUnary => foldUnary? a (← f.code[place + 1]?)
  | foldBinary => foldBinary? f place a (← f.code[place + 1]?) (← f.code[place + 2]?)
  | propagate => propagate? f place a (← f.code[place + 1]?)
  | fuseBranch => fuseBranch? f place a (← f.code[place + 1]?) (← f.code[place + 2]?)

end Rule

end ScalarScript
