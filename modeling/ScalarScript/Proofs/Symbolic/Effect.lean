import ScalarScript.Machine.Core
import ScalarScript.Compile.Expression
/-!
What the instructions that compiled code consists of do to the core.
-/
namespace ScalarScript.Core

open Compile (eax ebx)

variable {World : Type} (c : Core World)

@[simp] theorem resolve_eax : c.resolve eax = .ok c.registers.eax := rfl

@[simp] theorem resolve_ebx : c.resolve ebx = .ok c.registers.ebx := rfl

@[simp] theorem resolve_null : c.resolve .null = .ok .null := rfl

@[simp] theorem resolve_literal (v : Value) : c.resolve (.literal v) = .ok v := rfl

@[simp] theorem setRegister_eax_eax (v : Value) : (c.setRegister .eax v).registers.eax = v := rfl

@[simp] theorem setRegister_eax_ebx (v : Value) :
    (c.setRegister .eax v).registers.ebx = c.registers.ebx := rfl

@[simp] theorem setRegister_ebx_eax (v : Value) :
    (c.setRegister .ebx v).registers.eax = c.registers.eax := rfl

@[simp] theorem setRegister_ebx_ebx (v : Value) : (c.setRegister .ebx v).registers.ebx = v := rfl

@[simp] theorem setRegister_flags (r : Register) (v : Value) :
    (c.setRegister r v).flags = c.flags := rfl

@[simp] theorem setRegister_stack (r : Register) (v : Value) :
    (c.setRegister r v).stack = c.stack := rfl

@[simp] theorem setRegister_scopes (r : Register) (v : Value) :
    (c.setRegister r v).scopes = c.scopes := rfl

@[simp] theorem setRegister_cells (r : Register) (v : Value) :
    (c.setRegister r v).cells = c.cells := rfl

@[simp] theorem setRegister_world (r : Register) (v : Value) :
    (c.setRegister r v).world = c.world := rfl

theorem effect_load (o : Operand) :
    c.effect (.move eax o) = (c.resolve o).map (c.setRegister .eax) := by
  change (do c.assign (.register .eax) (← c.resolve o)) = _
  cases c.resolve o <;> rfl

theorem effect_store (o : Operand) :
    c.effect (.move o eax) = (c.locate o).bind fun p => c.assign p c.registers.eax := rfl

theorem effect_pop {v : Value} {rest : List (Option Value)} (top : c.stack = some v :: rest) :
    c.effect (.pop eax) = .ok ({ c with stack := rest }.setRegister .eax v) := by
  change c.pop eax = _
  unfold pop
  rw [top]
  rfl

theorem effect_receive {o : Operand} {v : Value} {rest : List (Option Value)}
    (top : c.stack = some v :: rest) :
    c.effect (.pop o) = (c.locate o).bind fun p => assign { c with stack := rest } p v := by
  change c.pop o = _
  unfold pop
  rw [top]
  rfl

theorem effect_binary (op : BinaryOp) :
    c.effect (.binary (.binary op) eax ebx) =
      (Fault.lift (op.apply c.registers.eax c.registers.ebx)).map (c.setRegister .eax) := by
  change (do c.assign (.register .eax) (← Fault.lift (op.apply c.registers.eax c.registers.ebx))) = _
  cases Fault.lift (op.apply c.registers.eax c.registers.ebx) <;> rfl

theorem effect_unary (op : UnaryOp) :
    c.effect (.unary (.unary op) eax) =
      (Fault.lift (op.apply c.registers.eax)).map (c.setRegister .eax) := by
  change (do c.assign (.register .eax) (← Fault.lift (op.apply c.registers.eax))) = _
  cases Fault.lift (op.apply c.registers.eax) <;> rfl

-- The flags of a comparison.
def compared (x y : Value) : Flags := ⟨x.equals y, x.greater y, x.less y⟩

theorem effect_test :
    c.effect (.unary .test eax) =
      (Fault.lift c.registers.eax.condition).map fun truth =>
        { c with flags := { equal := !truth } } := by
  change (do
    let truth ← Fault.lift c.registers.eax.condition
    return { c with flags := { equal := !truth } }) = _
  cases Fault.lift c.registers.eax.condition <;> rfl

theorem effect_allocate (t : Scalar) (o : Operand) :
    c.effect (.unary (.allocate t) o) = c.allocate t o := rfl

theorem effect_pushScope (depth size : Int) :
    c.effect (.pushScope depth size) = c.pushScope depth size := rfl

theorem effect_popScope (depth : Int) : c.effect (.popScope depth) = c.popScope depth := rfl

@[simp]
theorem lift_ok {α : Type} (a : α) : Fault.lift (.ok a) = .ok a := rfl

@[simp]
theorem lift_error {α : Type} (f : Fault) :
    Fault.lift (.error f : Except Fault α) = .error (.value f) := rfl

theorem lift_eq_ok_iff {α : Type} {r : Except Fault α} {a : α} :
    Fault.lift r = .ok a ↔ r = .ok a := by
  cases r <;> simp

theorem pushScope_eq_ok {c d : Core World} {depth size : Int}
    (done : c.pushScope depth size = .ok d) :
    0 < depth ∧ depth < c.scopes.size ∧
      d = { c with
        scopes := c.scopes.modify depth.toNat (Array.replicate size.toNat .empty :: ·) } := by
  unfold pushScope at done
  split at done
  · cases done
  · rename_i inside
    split at done
    · cases done
    · cases done
      simp only [Bool.or_eq_true, decide_eq_true_eq, not_or] at inside
      exact ⟨by omega, by omega, rfl⟩

theorem popScope_eq_ok {c d : Core World} {depth : Int} (done : c.popScope depth = .ok d) :
    0 < depth ∧ depth < c.scopes.size ∧
      d = { c with scopes := c.scopes.modify depth.toNat List.tail } := by
  unfold popScope at done
  split at done
  · cases done
  · rename_i inside
    cases done
    simp only [Bool.or_eq_true, decide_eq_true_eq, not_or] at inside
    exact ⟨by omega, by omega, rfl⟩

end ScalarScript.Core
