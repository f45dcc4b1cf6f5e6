import ScalarScript.Value.Operation
/-!
Cells: places that hold a value. A variable keeps the type of what it holds, a constant keeps the
value itself, and a register takes whatever is assigned to it.
-/
namespace ScalarScript

inductive Access where
  | mutable
  | constant
  | register (name : String)
  deriving DecidableEq, Repr

structure Cell where
  content : Value
  access : Access := .mutable
  deriving Repr

namespace Cell

def isRegister (c : Cell) : Bool :=
  match c.access with
  | .register _ => true
  | _ => false

-- The null value itself can never change, unless a register holds it.
def isConstant (c : Cell) : Bool :=
  match c.access, c.content with
  | .register _, _ => false
  | .constant, _ => true
  | .mutable, .null => true
  | .mutable, _ => false

def assign (c : Cell) (v : Value) : Except Fault Cell :=
  match c.access with
  | .register _ => .ok { c with content := v }
  | .constant => .error .assignConstant
  | .mutable => (c.content.store v).map ({ c with content := · })

-- A register shows its name where other cells show their content.
def plain (c : Cell) : String :=
  match c.access with
  | .register name => name
  | _ => c.content.plain

theorem assign_of_isConstant {c : Cell} (h : c.isConstant = true) (v : Value) :
    c.assign v = .error .assignConstant := by
  obtain ⟨content, access⟩ := c
  cases access <;> cases content <;> simp_all [isConstant, assign, Value.store, Except.map]

theorem assign_access {c d : Cell} {v : Value} (h : c.assign v = .ok d) : d.access = c.access := by
  obtain ⟨content, access⟩ := c
  cases access <;> simp [assign, Except.map] at h
  · split at h <;> simp at h
    exact h ▸ rfl
  · exact h ▸ rfl

end Cell

end ScalarScript
