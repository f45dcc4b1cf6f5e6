import ScalarScript.Machine.Core
/-!
Faults by where they come from. What an instruction does to the core can fail in many ways, but it
is never too deep in calls, and it never was a host function that took too much.
-/
namespace ScalarScript

variable {World : Type}

-- Every fault that a result can be is of some kind.
def Raises {α : Type} (P : RuntimeFault → Prop) (r : Except RuntimeFault α) : Prop :=
  ∀ f, r = .error f → P f

section Raises

variable {α β : Type} {P Q : RuntimeFault → Prop}

theorem Raises.ok (a : α) : Raises P (.ok a : Except RuntimeFault α) := by
  intro f same
  cases same

theorem Raises.error {f : RuntimeFault} (kind : P f) :
    Raises P (.error f : Except RuntimeFault α) := by
  intro g same
  cases same
  exact kind

theorem Raises.bind {r : Except RuntimeFault α} {f : α → Except RuntimeFault β}
    (first : Raises P r) (second : ∀ a, Raises P (f a)) : Raises P (r >>= f) := by
  cases r with
  | ok a => exact second a
  | error g => exact .error (first g rfl)

theorem Raises.map {r : Except RuntimeFault α} (first : Raises P r) (f : α → β) :
    Raises P (r.map f) := by
  cases r with
  | ok a => exact .ok (f a)
  | error g => exact .error (first g rfl)

theorem Raises.imp {r : Except RuntimeFault α} (raises : Raises P r) (implies : ∀ f, P f → Q f) :
    Raises Q r := fun f failed => implies f (raises f failed)

end Raises

namespace RuntimeFault

-- Faults that neither calls nor host functions are needed for.
def OfCore : RuntimeFault → Prop
  | .callOverflow _ | .overPopped .. | .notHostFunction _ => False
  | _ => True

-- Those of operands that lead nowhere.
def OfOperand : RuntimeFault → Prop
  | .unknownRegister _ | .unallocated _ | .unknownOperand _ | .operandDepth .. | .noSlot _ => True
  | _ => False

theorem OfCore.of_operand {f : RuntimeFault} (stray : f.OfOperand) : f.OfCore := by
  cases f <;> trivial

theorem value_code_ne (f : Fault) : (RuntimeFault.value f).code ≠ .callOverflow := by
  cases kind : f.kind <;> simp only [code, kind] <;> decide

theorem OfCore.code_ne {f : RuntimeFault} (inner : f.OfCore) : f.code ≠ .callOverflow := by
  cases f with
  | callOverflow depth => exact inner.elim
  | value f => exact value_code_ne f
  | _ => simp only [code]; decide

end RuntimeFault

open RuntimeFault (OfCore OfOperand)

theorem raises_lift {α : Type} (r : Except Fault α) : Raises OfCore (Fault.lift r) := by
  cases r with
  | ok a => exact .ok a
  | error f => exact .error trivial

namespace Core

variable (c : Core World)

theorem strays_slotOf (s : Slot) : Raises OfOperand (c.slotOf s) := by
  unfold slotOf
  split
  · exact .error trivial
  · split
    · exact .error trivial
    · split
      · exact .error trivial
      · split
        · exact .error trivial
        · exact Raises.ok _

theorem strays_locate (o : Operand) : Raises OfOperand (c.locate o) := by
  cases o with
  | absent => exact .error trivial
  | register r =>
    show Raises OfOperand (if r.index < Register.count then _ else _)
    split
    · exact Raises.ok _
    · exact .error trivial
  | slot s =>
    refine (c.strays_slotOf s).bind fun (depth, index, slot) => ?_
    cases slot with
    | empty => exact .error trivial
    | held v => exact Raises.ok _
    | shared => exact Raises.ok _
  | literal v => exact Raises.ok _
  | null => exact Raises.ok _

theorem strays_resolve (o : Operand) : Raises OfOperand (c.resolve o) :=
  (c.strays_locate o).map c.read

theorem raises_slotOf (s : Slot) : Raises OfCore (c.slotOf s) :=
  (c.strays_slotOf s).imp fun _ => .of_operand

theorem raises_locate (o : Operand) : Raises OfCore (c.locate o) :=
  (c.strays_locate o).imp fun _ => .of_operand

theorem raises_resolve (o : Operand) : Raises OfCore (c.resolve o) :=
  (c.strays_resolve o).imp fun _ => .of_operand

theorem raises_assign (p : Place) (v : Value) : Raises OfCore (c.assign p v) := by
  cases p with
  | register r => exact Raises.ok _
  | slot depth index => exact (raises_lift _).bind fun _ => Raises.ok _
  | host index =>
    cases present : c.cells[index]?.join with
    | some cell =>
      simp only [assign, present]
      exact (raises_lift _).bind fun _ => Raises.ok _
    | none =>
      simp only [assign, present]
      exact Raises.ok _
  | constant w => exact .error trivial

theorem raises_allocate (type : Scalar) (o : Operand) : Raises OfCore (c.allocate type o) := by
  cases o with
  | slot s => exact (c.raises_slotOf s).bind fun (depth, index, _) => Raises.ok _
  | _ => exact .error trivial

theorem raises_pushScope (depth size : Int) : Raises OfCore (c.pushScope depth size) := by
  unfold pushScope
  split
  · exact .error trivial
  · split
    · exact .error trivial
    · exact Raises.ok _

theorem raises_popScope (depth : Int) : Raises OfCore (c.popScope depth) := by
  unfold popScope
  split
  · exact .error trivial
  · exact Raises.ok _

theorem raises_pop (o : Operand) : Raises OfCore (c.pop o) := by
  refine (c.raises_locate o).bind fun target => ?_
  cases c.stack with
  | nil => exact .error trivial
  | cons top rest =>
    cases top with
    | none => exact .error trivial
    | some v => exact raises_assign _ _ _

theorem raises_effect (i : Instruction) : Raises OfCore (c.effect i) := by
  unfold effect
  cases i.opcode with
  | exit | jump | jumpIf _ | call | ret | hostCall => exact Raises.ok c
  | compare =>
    exact (c.raises_resolve _).bind fun x => (c.raises_resolve _).bind fun y => Raises.ok _
  | test => exact (c.raises_resolve _).bind fun x => (raises_lift _).bind fun truth => Raises.ok _
  | setIf condition => exact (c.raises_locate _).bind fun target => c.raises_assign _ _
  | move =>
    exact (c.raises_locate _).bind fun target => (c.raises_resolve _).bind fun v =>
      c.raises_assign _ _
  | push => exact (c.raises_resolve _).bind fun v => Raises.ok _
  | pop => exact c.raises_pop _
  | binary op =>
    exact (c.raises_locate _).bind fun target => (c.raises_resolve _).bind fun source =>
      (raises_lift _).bind fun v => c.raises_assign _ _
  | unary op =>
    exact (c.raises_locate _).bind fun target => (raises_lift _).bind fun v => c.raises_assign _ _
  | scopeDepth => exact Raises.ok _
  | pushScope => exact c.raises_pushScope _ _
  | popScope => exact c.raises_popScope _
  | allocate type => exact c.raises_allocate _ _
  | label | debugLine | unknown _ => exact .error trivial

end Core

theorem raises_answer (ext : External World) (reply : HostReply World) :
    Raises (·.code ≠ .callOverflow) (ext.answer reply) := by
  unfold External.answer
  split
  · exact .error (by decide : Code.hostFailure ≠ Code.callOverflow)
  · exact .error (by decide : Code.hostFailure ≠ Code.callOverflow)
  · split
    · exact .error (by decide : Code.stackUnderflow ≠ Code.callOverflow)
    · exact .ok _

-- A host function is blamed only for what it took.
theorem overPopped_of_answer {ext : External World} {reply : HostReply World} {name : String}
    {arity : Int} (failed : ext.answer reply = .error (.overPopped name arity)) :
    ext.arity < reply.popped := by
  unfold External.answer at failed
  split at failed
  · cases failed
  · cases failed
  · split at failed
    · omega
    · cases failed

theorem raises_checkResult (ext : External World) (v : Value) :
    Raises OfCore (ext.checkResult v) := by
  unfold External.checkResult
  split
  · exact .error trivial
  · exact .ok _

end ScalarScript
