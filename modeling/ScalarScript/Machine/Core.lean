import ScalarScript.Machine.Fault
import ScalarScript.Machine.Host
import ScalarScript.Program.Instruction
/-!
The core of a run: what instructions work on, and what each of them does to it. Where control goes
next is not its concern.
-/
namespace ScalarScript

structure Flags where
  equal : Bool := false
  above : Bool := false
  below : Bool := false
  deriving DecidableEq, Repr

def Condition.holds (c : Condition) (f : Flags) : Bool :=
  match c with
  | .equal => f.equal
  | .notEqual => !f.equal
  | .above => f.above
  | .aboveEqual => f.above || f.equal
  | .below => f.below
  | .belowEqual => f.below || f.equal

structure Registers where
  eax : Value := .null
  ebx : Value := .null
  ecx : Value := .null
  deriving Repr

namespace Registers

def get? (rs : Registers) (r : Register) : Option Value :=
  match r.index with
  | 0 => some rs.eax
  | 1 => some rs.ebx
  | 2 => some rs.ecx
  | _ => none

def set (rs : Registers) (r : Register) (v : Value) : Registers :=
  match r.index with
  | 0 => { rs with eax := v }
  | 1 => { rs with ebx := v }
  | 2 => { rs with ecx := v }
  | _ => rs

-- Empties one register after the other.
def reset (rs : Registers) : Registers :=
  [Register.eax, .ebx, .ecx].foldl (·.set · .null) rs

theorem get?_set_same {rs : Registers} {r : Register} {v : Value} (h : r.index < 3) :
    (rs.set r v).get? r = some v := by
  obtain ⟨_ | _ | _ | n⟩ := r
  · rfl
  · rfl
  · rfl
  · change n + 3 < 3 at h
    omega

theorem get?_set_other {rs : Registers} {r s : Register} {v : Value} (h : s ≠ r) :
    (rs.set r v).get? s = rs.get? s := by
  obtain ⟨_ | _ | _ | n⟩ := r <;> obtain ⟨_ | _ | _ | m⟩ := s <;> simp_all [get?, set]

end Registers

-- One slot of a frame.
inductive FrameSlot where
  | empty
  | held (v : Value)
  -- the host's cell of the same number
  | shared
  deriving Repr, Inhabited

abbrev ScopeFrame := Array FrameSlot

-- There are three registers, three flags, an operand stack, and for every allocation depth a stack
-- of frames. The one frame of depth 0 belongs to the host.
structure Core (World : Type) where
  registers : Registers := {}
  flags : Flags := {}
  -- top first; a place that was never filled holds none
  stack : List (Option Value) := []
  -- by depth, and at each depth the top frame first
  scopes : Array (List ScopeFrame)
  -- the host's variables
  cells : Array (Option Cell)
  world : World

-- Where an operand's value is kept.
inductive Place where
  | register (r : Register)
  | slot (depth index : Nat)
  | host (index : Nat)
  | constant (v : Value)
  deriving Repr

-- Passes a failed operation on values on.
def Fault.lift {α : Type} (r : Except Fault α) : Except RuntimeFault α := r.mapError .value

namespace Core

variable {World : Type}

-- The top frame of a depth.
def frame? (c : Core World) (depth : Nat) : Option ScopeFrame := c.scopes[depth]?.bind List.head?

-- The slot that an operand addresses, in the top frame of its depth.
def slotOf (c : Core World) (s : Slot) : Except RuntimeFault (Nat × Nat × FrameSlot) :=
  if s.depth < 0 || c.scopes.size ≤ s.depth then .error (.operandDepth s.depth (.slot s))
  else match c.frame? s.depth.toNat with
    | none => .error (.noSlot (.slot s))
    | some frame =>
      if s.index < 0 then .error (.noSlot (.slot s))
      else match frame[s.index.toNat]? with
        | none => .error (.noSlot (.slot s))
        | some slot => .ok (s.depth.toNat, s.index.toNat, slot)

-- The place of an operand, which must hold a value.
def locate (c : Core World) (o : Operand) : Except RuntimeFault Place :=
  match o with
  | .register r =>
    if r.index < Register.count then .ok (.register r) else .error (.unknownRegister r)
  | .slot s => do
    match ← c.slotOf s with
    | (_, _, .empty) => throw (.unallocated o)
    | (depth, index, .held _) => return .slot depth index
    | (_, index, .shared) => return .host index
  | .literal v => .ok (.constant v)
  | .null => .ok (.constant .null)
  | .absent => .error (.unknownOperand o.kind)

def read (c : Core World) (p : Place) : Value :=
  match p with
  | .register r => (c.registers.get? r).getD .null
  | .slot depth index =>
    match (c.frame? depth).bind (·[index]?) with
    | some (.held v) => v
    | _ => .null
  | .host index => ((c.cells[index]?.join).map Cell.content).getD .null
  | .constant v => v

def resolve (c : Core World) (o : Operand) : Except RuntimeFault Value := (c.locate o).map c.read

def putSlot (c : Core World) (depth index : Nat) (slot : FrameSlot) : Core World :=
  { c with scopes := c.scopes.modify depth fun
      | frame :: rest => frame.setIfInBounds index slot :: rest
      | [] => [] }

def setRegister (c : Core World) (r : Register) (v : Value) : Core World :=
  { c with registers := c.registers.set r v }

def assign (c : Core World) (p : Place) (v : Value) : Except RuntimeFault (Core World) :=
  match p with
  | .register r => .ok (c.setRegister r v)
  | .slot depth index => do return c.putSlot depth index (.held (← Fault.lift ((c.read p).store v)))
  | .host index =>
    match c.cells[index]?.join with
    | some cell => do
      let cell ← Fault.lift (cell.assign v)
      return { c with cells := c.cells.setIfInBounds index (some cell) }
    | none => .ok c
  | .constant _ => .error (.value .assignConstant)

def allocate (c : Core World) (type : Scalar) (o : Operand) : Except RuntimeFault (Core World) :=
  match o with
  | .slot s => do
    let (depth, index, _) ← c.slotOf s
    return c.putSlot depth index (.held (.nullOf type.ty))
  | o => .error (.notAllocatable o)

-- The most slots that memory could hold, at sixteen bytes each.
def largestFrame : Int := Nat.pow 2 44

def pushScope (c : Core World) (depth size : Int) : Except RuntimeFault (Core World) :=
  if depth ≤ 0 || c.scopes.size ≤ depth then .error (.scopeDepth depth)
  else if size < 0 || largestFrame < size then .error .frameSize
  else .ok { c with
    scopes := c.scopes.modify depth.toNat (Array.replicate size.toNat .empty :: ·) }

def popScope (c : Core World) (depth : Int) : Except RuntimeFault (Core World) :=
  if depth ≤ 0 || c.scopes.size ≤ depth || (c.frame? depth.toNat).isNone then
    .error (.noFrame depth)
  else .ok { c with scopes := c.scopes.modify depth.toNat List.tail }

def pop (c : Core World) (o : Operand) : Except RuntimeFault (Core World) := do
  let target ← c.locate o
  match c.stack with
  | [] => throw .emptyStack
  | none :: _ => throw .blankPlace
  | some v :: rest => assign { c with stack := rest } target v

-- What an instruction does, calls of host functions apart.
def effect (i : Instruction) (c : Core World) : Except RuntimeFault (Core World) :=
  match i.opcode with
  | .exit | .jump | .jumpIf _ | .call | .ret | .hostCall => .ok c
  | .compare => do
    let x ← c.resolve i.first
    let y ← c.resolve i.second
    return { c with flags := ⟨x.equals y, x.greater y, x.less y⟩ }
  | .test => do
    let truth ← Fault.lift (← c.resolve i.first).condition
    return { c with flags := { equal := !truth } }
  | .setIf condition => do
    let target ← c.locate i.first
    c.assign target (.truth (condition.holds c.flags))
  | .move => do
    let target ← c.locate i.first
    c.assign target (← c.resolve i.second)
  | .push => do
    let v ← c.resolve i.first
    return { c with stack := some v :: c.stack }
  | .pop => c.pop i.first
  | .binary op => do
    let target ← c.locate i.first
    let source ← c.resolve i.second
    c.assign target (← Fault.lift (op.apply (c.read target) source))
  | .unary op => do
    let target ← c.locate i.first
    c.assign target (← Fault.lift (op.apply (c.read target)))
  | .scopeDepth =>
    .ok { c with scopes := c.scopes ++ Array.replicate (i.size.toNat - c.scopes.size) [] }
  | .pushScope => c.pushScope i.depth i.size
  | .popScope => c.popScope i.depth
  | .allocate type => c.allocate type i.first
  | .label | .debugLine | .unknown _ => .error (.opcode i.opcode.code)

-- The answer to every attempt to run a machine that is running.
def alreadyRunning : String := "vm is already running"

-- What a host function gets to see.
def request (c : Core World) (arity : Nat) : HostRequest where
  arguments := (c.stack.take arity).map (·.getD .null)
  view := { rerun := alreadyRunning, cells := c.cells }

-- A value that the host puts into one of its variables; a variable that refuses it stays as it is.
def store (cells : Array (Option Cell)) (index : Nat) (v : Value) : Array (Option Cell) :=
  cells.modify index fun cell => cell.map fun cell => (cell.assign v).toOption.getD cell

-- After a reply of the host. Whatever the host took, the arguments are gone.
def answered (c : Core World) (arity : Nat) (reply : HostReply World) : Core World :=
  { c with
    stack := c.stack.drop arity
    cells := reply.stores.foldl (fun cells (index, v) => store cells index v) c.cells
    world := reply.world }

end Core

namespace External

variable {World : Type}

-- The value that a host function gives, unless it failed or took too many arguments.
def answer (ext : External World) (reply : HostReply World) : Except RuntimeFault Value :=
  match reply.result with
  | .failed message => .error (.hostFailure ext.name message)
  | .crashed message => .error (.hostFailure ext.name ("panic: " ++ message))
  | .value v =>
    if ext.arity.toNat < reply.popped then .error (.overPopped ext.name ext.arity)
    else .ok (v.getD .null)

-- A result of the declared type, or a null.
def checkResult (ext : External World) (v : Value) : Except RuntimeFault Value :=
  if !v.isNull && ext.returnType.isScalar && v.type ≠ ext.returnType then
    .error (.wrongReturn ext.name v.type ext.returnType)
  else .ok v

end External

end ScalarScript
