import ScalarScript.Diagnostic.Code
import ScalarScript.Program.Operand
import ScalarScript.Value.Operation
/-!
What can go wrong in a run.
-/
namespace ScalarScript

-- Why a run failed.
inductive RuntimeFault where
  | value (f : Fault)
  | unknownRegister (r : Register)
  | unallocated (o : Operand)
  | unknownOperand (kind : Nat)
  | operandDepth (depth : Int) (o : Operand)
  | noSlot (o : Operand)
  | notAllocatable (o : Operand)
  | scopeDepth (depth : Int)
  | noFrame (depth : Int)
  | opcode (code : Nat)
  | emptyStack
  | emptyCalls
  | callOverflow (depth : Nat)
  | instructionLimit (limit : Int)
  | cancelled
  | halted
  | notHostFunction (slot : Int)
  | missingArguments (name : String) (arity : Int)
  | hostFailure (name message : String)
  | overPopped (name : String) (arity : Int)
  | wrongReturn (name : String) (given declared : Ty)
  | internal (message : String)
  -- a place of the operand stack that was never filled
  | blankPlace
  | noRoom (height room : Nat)
  | frameSize
  deriving Repr

namespace RuntimeFault

def code : RuntimeFault → Code
  | value f =>
    match f.kind with
    | .constant => .constantAssignment
    | .nullOperand => .nullOperand
    | .type => .typeError
    | .other => .invalidOperation
  | emptyStack | emptyCalls | noFrame _ | missingArguments .. | overPopped .. => .stackUnderflow
  | callOverflow _ => .callOverflow
  | instructionLimit _ => .instructionLimit
  | cancelled | halted => .cancelled
  | hostFailure .. => .hostFailure
  | wrongReturn .. => .typeError
  | _ => .invalidOperation

def message : RuntimeFault → String
  | value f => f.message
  | unknownRegister r => s!"unknown register {r.name}"
  | unallocated o => s!"variable {o.text} used before allocation"
  | unknownOperand kind => s!"unknown operand kind {kind}"
  | operandDepth depth o => s!"invalid allocation depth {depth} for {o.text}"
  | noSlot o => s!"no slot for {o.text}"
  | notAllocatable o => s!"cannot allocate {o.text}"
  | scopeDepth depth => s!"invalid allocation depth {depth}"
  | noFrame depth => s!"no frame to pop at depth {depth}"
  | opcode code => s!"invalid opcode {code}"
  | emptyStack => "pop from an empty operand stack"
  | emptyCalls => "return with an empty call stack"
  | callOverflow depth => s!"call stack overflow (depth {depth})"
  | instructionLimit limit => s!"instruction limit of {limit} exceeded"
  | cancelled => "execution cancelled: context canceled"
  | halted => "execution halted by observer"
  | notHostFunction slot => s!"slot {slot} is not an external function"
  | missingArguments name arity => s!"{name} expects {arity} arguments on the stack"
  | hostFailure name message => s!"{name}: {message}"
  | overPopped name arity => s!"{name} popped more than {arity} arguments"
  | wrongReturn name given declared => s!"{name} returned {given.name}, declared {declared.name}"
  | internal message => s!"internal error: {message}"
  | blankPlace =>
    "internal error: runtime error: invalid memory address or nil pointer dereference"
  | noRoom height room =>
    s!"internal error: runtime error: slice bounds out of range [:{height}] with capacity {room}"
  | frameSize => "internal error: runtime error: makeslice: len out of range"

-- The failure behind this one, where it comes from elsewhere.
def cause? : RuntimeFault → Option String
  | value f => some f.message
  | cancelled => some "context canceled"
  | hostFailure _ message => some message
  | _ => none

end RuntimeFault

end ScalarScript
