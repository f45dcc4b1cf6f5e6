import ScalarScript.Proofs.Symbolic.Effect
import ScalarScript.Proofs.Symbolic.Machine
/-!
What evaluating a part of a program comes to, told without registers, an operand stack and labels.
Evaluation reads and writes the storage that frames, host variables and the host's world make up,
and leaves a trail of what can be seen of it.
-/
namespace ScalarScript

-- What a program remembers, the registers and the operand stack apart.
structure Storage (World : Type) where
  scopes : Array (List ScopeFrame)
  cells : Array (Option Cell)
  world : World

-- A call of the host, or a step of the program, which is told by its place.
inductive Event where
  | call (made : HostCall)
  | step (place : Nat)

inductive Outcome (World α : Type) where
  | done (a : α) (after : Storage World) (seen : List Event)
  -- the run is over
  | halted (result : Except RuntimeFault Value) (after : Storage World) (seen : List Event)
  -- the bound on turns of loops and on calls is reached
  | spent (seen : List Event)

namespace Outcome

variable {World α β γ : Type}

-- The same behind some events.
def behind (before : List Event) : Outcome World α → Outcome World α
  | done a after seen => done a after (before ++ seen)
  | halted result after seen => halted result after (before ++ seen)
  | spent seen => spent (before ++ seen)

def bind (x : Outcome World α) (f : α → Storage World → Outcome World β) : Outcome World β :=
  match x with
  | done a after seen => (f a after).behind seen
  | halted result after seen => halted result after seen
  | spent seen => spent seen

@[simp] theorem behind_nil (x : Outcome World α) : x.behind [] = x := by
  cases x <;> rfl

theorem behind_behind (x : Outcome World α) (a b : List Event) :
    (x.behind b).behind a = x.behind (a ++ b) := by
  cases x <;> simp [behind]

@[simp] theorem halted_bind (result : Except RuntimeFault Value) (m : Storage World)
    (seen : List Event) (f : α → Storage World → Outcome World β) :
    (halted result m seen).bind f = halted result m seen := rfl

theorem done_bind (a : α) (m : Storage World) (f : α → Storage World → Outcome World β) :
    (done a m []).bind f = f a m := behind_nil _

theorem bind_done (x : Outcome World α) : (x.bind fun a m => .done a m []) = x := by
  cases x <;> simp [bind, behind]

theorem bind_behind (x : Outcome World α) (f : α → Storage World → Outcome World β)
    (before : List Event) : (x.behind before).bind f = (x.bind f).behind before := by
  cases x with
  | done a after seen => exact (behind_behind _ _ _).symm
  | halted result after seen => rfl
  | spent seen => rfl

theorem bind_bind (x : Outcome World α) (f : α → Storage World → Outcome World β)
    (g : β → Storage World → Outcome World γ) :
    (x.bind f).bind g = x.bind fun a m => (f a m).bind g := by
  cases x with
  | done a after seen => exact bind_behind _ _ _
  | halted result after seen => rfl
  | spent seen => rfl

end Outcome

-- A computation on the storage.
def Evaluation (World α : Type) : Type := Storage World → Outcome World α

namespace Evaluation

variable {World α β : Type}

instance : Monad (Evaluation World) where
  pure a := fun m => .done a m []
  bind x f := fun m => (x m).bind fun a m => f a m

@[simp] theorem pure_apply (a : α) (m : Storage World) :
    (pure a : Evaluation World α) m = .done a m [] := rfl

theorem bind_apply (x : Evaluation World α) (f : α → Evaluation World β) (m : Storage World) :
    (x >>= f) m = (x m).bind fun a m => f a m := rfl

-- Ends the run.
def halt (result : Except RuntimeFault Value) : Evaluation World α := fun m => .halted result m []

def spent : Evaluation World α := fun _ => .spent []

def see (events : List Event) : Evaluation World Unit := fun m => .done ⟨⟩ m events

-- The run ends where an operation fails.
def raise : Except RuntimeFault α → Evaluation World α
  | .ok a => pure a
  | .error f => halt (.error f)

def lift (r : Except Fault α) : Evaluation World α := raise (Fault.lift r)

@[simp] theorem raise_ok (a : α) (m : Storage World) :
    (raise (.ok a) : Evaluation World α) m = .done a m [] := rfl

@[simp] theorem raise_error (f : RuntimeFault) (m : Storage World) :
    (raise (.error f) : Evaluation World α) m = .halted (.error f) m [] := rfl

@[simp] theorem halt_apply (result : Except RuntimeFault Value) (m : Storage World) :
    (halt result : Evaluation World α) m = .halted result m [] := rfl

@[simp] theorem see_apply (events : List Event) (m : Storage World) :
    see events m = .done ⟨⟩ m events := rfl

end Evaluation

def Core.storage {World : Type} (c : Core World) : Storage World := ⟨c.scopes, c.cells, c.world⟩

namespace Storage

variable {World : Type}

-- A core with nothing in its registers and on its stack.
def bare (m : Storage World) : Core World where
  scopes := m.scopes
  cells := m.cells
  world := m.world

def read (m : Storage World) (s : Symbol) : Except RuntimeFault Value := m.bare.resolve s.operand

def write (m : Storage World) (o : Operand) (v : Value) : Except RuntimeFault (Storage World) := do
  let p ← m.bare.locate o
  return (← m.bare.assign p v).storage

def allocate (m : Storage World) (type : Scalar) (o : Operand) :
    Except RuntimeFault (Storage World) := do
  return (← m.bare.allocate type o).storage

def pushFrame (m : Storage World) (depth size : Nat) : Except RuntimeFault (Storage World) := do
  return (← m.bare.pushScope depth size).storage

def popFrame (m : Storage World) (depth : Nat) : Except RuntimeFault (Storage World) := do
  return (← m.bare.popScope depth).storage

-- Makes room for frames of all depths below one.
def deepen (m : Storage World) (depths : Nat) : Storage World :=
  { m with scopes := m.scopes ++ Array.replicate (depths - m.scopes.size) [] }

end Storage

namespace Evaluation

variable {World : Type}

def ask {α : Type} (f : Storage World → Except RuntimeFault α) : Evaluation World α :=
  fun m => raise (f m) m

def change (f : Storage World → Except RuntimeFault (Storage World)) : Evaluation World Unit :=
  fun m => match f m with
    | .ok m => .done ⟨⟩ m []
    | .error fault => .halted (.error fault) m []

end Evaluation

namespace Core

variable {World : Type}

-- The core with another storage.
def onto (c : Core World) (m : Storage World) : Core World :=
  { c with scopes := m.scopes, cells := m.cells, world := m.world }

@[simp] theorem storage_onto (c : Core World) (m : Storage World) : (c.onto m).storage = m := rfl

@[simp] theorem storage_setRegister (c : Core World) (r : Register) (v : Value) :
    (c.setRegister r v).storage = c.storage := rfl

-- A variable is found in the storage alone.
theorem locate_operand (c : Core World) (s : Symbol) :
    c.locate s.operand = c.storage.bare.locate s.operand := rfl

theorem not_register_of_locate {c : Core World} {s : Slot} {p : Place}
    (found : c.locate (.slot s) = .ok p) :
    (∃ depth index, p = .slot depth index) ∨ ∃ index, p = .host index := by
  simp only [locate] at found
  cases slot : c.slotOf s with
  | error f =>
    rw [slot] at found
    cases found
  | ok place =>
    obtain ⟨depth, index, content⟩ := place
    rw [slot] at found
    cases content with
    | empty => cases found
    | held v => exact .inl ⟨depth, index, (Except.ok.inj found).symm⟩
    | shared => exact .inr ⟨index, (Except.ok.inj found).symm⟩

theorem resolve_operand (c : Core World) (s : Symbol) :
    c.resolve s.operand = c.storage.read s := by
  unfold Storage.read resolve
  rw [← c.locate_operand]
  cases found : c.locate s.operand with
  | error f => rfl
  | ok p =>
    rcases not_register_of_locate found with ⟨depth, index, rfl⟩ | ⟨index, rfl⟩ <;> rfl

theorem assign_slot (c : Core World) (s : Slot) (v : Value) :
    ((c.locate (.slot s)).bind fun p => c.assign p v) =
      (c.storage.write (.slot s) v).map c.onto := by
  have same : c.locate (.slot s) = c.storage.bare.locate (.slot s) := rfl
  unfold Storage.write
  rw [← same]
  cases found : c.locate (.slot s) with
  | error f => rfl
  | ok p =>
    rcases not_register_of_locate found with ⟨depth, index, rfl⟩ | ⟨index, rfl⟩
    · have held : c.storage.bare.read (.slot depth index) = c.read (.slot depth index) := rfl
      simp only [Except.bind, assign, bind, pure, Except.pure, held]
      cases Fault.lift ((c.read (.slot depth index)).store v) <;> rfl
    · have cell : c.storage.bare.cells = c.cells := rfl
      simp only [Except.bind, assign, bind, pure, Except.pure, cell]
      cases c.cells[index]?.join with
      | none => rfl
      | some cell =>
        simp only
        cases Fault.lift (cell.assign v) <;> rfl

theorem allocate_slot (c : Core World) (type : Scalar) (s : Slot) :
    c.allocate type (.slot s) = (c.storage.allocate type (.slot s)).map c.onto := by
  have same : c.storage.bare.slotOf s = c.slotOf s := rfl
  simp only [Storage.allocate, allocate, same, bind, Except.bind]
  cases c.slotOf s <;> rfl

theorem pushScope_natCast (c : Core World) (depth size : Nat) :
    c.pushScope depth size = (c.storage.pushFrame depth size).map c.onto := by
  have same : c.storage.bare.scopes = c.scopes := rfl
  simp only [Storage.pushFrame, pushScope, same, bind, Except.bind]
  split
  · rfl
  · split <;> rfl

theorem popScope_natCast (c : Core World) (depth : Nat) :
    c.popScope depth = (c.storage.popFrame depth).map c.onto := by
  have same : c.storage.bare.scopes = c.scopes := rfl
  have frame : c.storage.bare.frame? = c.frame? := rfl
  simp only [Storage.popFrame, popScope, same, frame, bind, Except.bind]
  split <;> rfl

end Core

end ScalarScript
