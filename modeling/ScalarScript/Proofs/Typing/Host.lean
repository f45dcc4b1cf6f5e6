import ScalarScript.Proofs.Typing.Value
/-!
What a program may rely on of its host: functions take what they declare, and the variables keep to
their types as long as host functions do.
-/
namespace ScalarScript

variable {World : Type}

-- Every function declared is there.
def Offers (hosts : List Declaration) (externals : Array (External World)) : Prop :=
  ∀ (i : Nat) d, hosts[i]? = some d → d.type = .function →
    ∃ ext f, External.function? externals i = some (ext, f) ∧ ext.arity = d.params.length ∧
      ext.returnType = d.returnType ∧ ext.returnType.isScalar = true

-- A variable of the host. It keeps to its type as long as the host does.
structure CellOk (trusted : Prop) (t : Ty) (register : Bool) (c : Cell) : Prop where
  fits : trusted → c.content.Fits t
  access : c.isRegister = register
  typed : register = false → c.content.type = t

def CellsOk (trusted : Prop) (hosts : List Declaration) (registers : Nat → Bool)
    (cells : Array (Option Cell)) : Prop :=
  ∀ (i : Nat) d, hosts[i]? = some d → d.type ≠ .function →
    ∃ c, cells[i]? = some (some c) ∧ CellOk trusted d.type (registers i) c

-- Host functions give nulls or values of the declared type, and put only such into registers, as long
-- as the variables that they find keep to their types.
structure Behaves (hosts : List Declaration) (externals : Array (External World))
    (registers : Nat → Bool) : Prop where
  result : ∀ slot ext f, External.function? externals slot = some (ext, f) →
    ∀ world request v, CellsOk True hosts registers request.cells →
      (f world request).result = .value (some v) → v.Fits ext.returnType
  stores : ∀ slot ext f, External.function? externals slot = some (ext, f) →
    ∀ world request, CellsOk True hosts registers request.cells →
      ∀ p ∈ (f world request).stores, registers p.1 = true →
        ∀ d, hosts[p.1]? = some d → p.2.Fits d.type

-- The frame of the host shares its variables.
def HostFrame (hosts : List Declaration) (scopes : Array (List ScopeFrame)) : Prop :=
  ∃ frame : ScopeFrame, scopes[0]? = some [frame] ∧
    ∀ (i : Nat) d, hosts[i]? = some d → d.type ≠ .function → frame[i]? = some .shared

theorem CellOk.assign {trusted : Prop} {t : Ty} {register : Bool} {c d : Cell} {v : Value}
    (ok : CellOk trusted t register c) (fits : trusted → register = true → v.Fits t)
    (done : c.assign v = .ok d) : CellOk trusted t register d := by
  have access := Cell.assign_access done
  have same : d.isRegister = register := by rw [Cell.isRegister, access, ← ok.access, Cell.isRegister]
  cases kept : c.access with
  | register name =>
    have held : register = true := by rw [← ok.access, Cell.isRegister, kept]
    simp only [Cell.assign, kept, Except.ok.injEq] at done
    rw [← done]
    exact ⟨fun trust => fits trust held, by rw [done]; exact same,
      fun free => absurd held (by simp [free])⟩
  | constant => simp [Cell.assign, kept] at done
  | mutable =>
    have free : register = false := by rw [← ok.access, Cell.isRegister, kept]
    cases stored : c.content.store v with
    | error f => simp [Cell.assign, kept, stored, Except.map] at done
    | ok w =>
      simp only [Cell.assign, kept, stored, Except.map, Except.ok.injEq] at done
      have typed : d.content.type = t := by
        rw [← done]
        exact (Value.store_type stored).trans (ok.typed free)
      exact ⟨fun _ => .inr typed, same, fun _ => typed⟩

theorem CellOk.assign_fault {trusted : Prop} {t : Ty} {register : Bool} {c : Cell} {v : Value}
    {f : Fault} (ok : CellOk trusted t register c) (fits : v.Fits t) (failed : c.assign v = .error f) :
    f.kind ≠ .type := by
  cases kept : c.access with
  | register name => simp [Cell.assign, kept] at failed
  | constant =>
    simp only [Cell.assign, kept, Except.error.injEq] at failed
    subst failed
    rintro ⟨⟩
  | mutable =>
    have free : register = false := by rw [← ok.access, Cell.isRegister, kept]
    cases stored : c.content.store v with
    | ok w => simp [Cell.assign, kept, stored, Except.map] at failed
    | error g =>
      simp only [Cell.assign, kept, stored, Except.map, Except.error.injEq] at failed
      subst failed
      exact Value.store_fault (by rw [ok.typed free]; exact fits) stored

namespace CellsOk

variable {trusted : Prop} {hosts : List Declaration} {registers : Nat → Bool}
  {cells : Array (Option Cell)}

theorem trusting (ok : CellsOk trusted hosts registers cells) (trust : trusted) :
    CellsOk True hosts registers cells := by
  intro i d declared held
  obtain ⟨c, present, kept⟩ := ok i d declared held
  exact ⟨c, present, fun _ => kept.fits trust, kept.access, kept.typed⟩

theorem set {i : Nat} {c : Cell} (ok : CellsOk trusted hosts registers cells)
    (fits : ∀ d, hosts[i]? = some d → d.type ≠ .function → CellOk trusted d.type (registers i) c) :
    CellsOk trusted hosts registers (cells.setIfInBounds i (some c)) := by
  intro j d declared held
  obtain ⟨old, present, kept⟩ := ok j d declared held
  by_cases same : i = j
  · subst same
    obtain ⟨inside, _⟩ := Array.getElem?_eq_some_iff.mp present
    exact ⟨c, by simp [inside], fits d declared held⟩
  · exact ⟨old, by rw [Array.getElem?_setIfInBounds_ne same, present], kept⟩

theorem store {i : Nat} {v : Value} (ok : CellsOk trusted hosts registers cells)
    (fits : trusted → registers i = true → ∀ d, hosts[i]? = some d → v.Fits d.type) :
    CellsOk trusted hosts registers (Core.store cells i v) := by
  intro j d declared held
  obtain ⟨old, present, kept⟩ := ok j d declared held
  unfold Core.store
  rw [Array.getElem?_modify]
  split
  · rename_i same
    subst same
    refine ⟨(old.assign v).toOption.getD old, by rw [present]; rfl, ?_⟩
    cases assigned : old.assign v with
    | error f => exact kept
    | ok new =>
      exact kept.assign (fun trust isRegister => fits trust isRegister d declared) assigned
  · exact ⟨old, present, kept⟩

theorem stores {stored : List (Nat × Value)} (ok : CellsOk trusted hosts registers cells)
    (fits : trusted → ∀ p ∈ stored, registers p.1 = true →
      ∀ d, hosts[p.1]? = some d → p.2.Fits d.type) :
    CellsOk trusted hosts registers
      (stored.foldl (fun cells (index, v) => Core.store cells index v) cells) := by
  induction stored generalizing cells with
  | nil => exact ok
  | cons p rest ih =>
    rw [List.foldl_cons]
    refine ih (ok.store fun trust => fits trust p List.mem_cons_self) ?_
    intro trust q later
    exact fits trust q (List.mem_cons_of_mem _ later)

end CellsOk

end ScalarScript
