import ScalarScript.Proofs.Symbolic.Turn
/-!
Runs of any length. A machine is driven by its steps; what is kept by every step is kept by a run.
-/
namespace ScalarScript

open Stateful

variable {World Watch : Type}

-- The state that an action ends in, whether it worked or not.
def endState {α : Type} :
    EStateM.Result RuntimeError (RunState World Watch) α → RunState World Watch
  | .ok _ s | .error _ s => s

namespace Exec

variable {m : Machine World Watch} {i : Instruction}

-- Past the last instruction a run is over.
theorem step_of_past {s : RunState World Watch} (past : (m.code.size : Int) ≤ s.address) :
    step m s = .ok (some .null) s := by
  simp only [step, bind_apply, get_apply, if_pos past, pure_apply]

-- A step at an instruction looks at the context and executes it.
theorem step_of_fetched {s : RunState World Watch} (inside : 0 ≤ s.address)
    (fetched : m.code[s.address.toNat]? = some i) :
    step m s = (do checkContext m; execute m i) s := by
  obtain ⟨bound, _⟩ := Array.getElem?_eq_some_iff.mp fetched
  have past : ¬ (m.code.size : Int) ≤ s.address := by omega
  simp only [step, bind_apply, get_apply, if_neg past, if_neg (by omega : ¬ s.address < 0), fetched]

-- A step where no instruction can be fetched.
theorem step_of_negative {s : RunState World Watch} (outside : s.address < 0) :
    step m s = (do
      checkContext m
      fail (.internal s!"runtime error: index out of range [{s.address}]")) s := by
  have past : ¬ (m.code.size : Int) ≤ s.address := by omega
  simp only [step, bind_apply, get_apply, if_neg past, if_pos outside]
  cases checkContext m s <;> rfl

-- Where a step can be taken.
inductive Placed (m : Machine World Watch) (s : RunState World Watch) : Prop where
  | past (outside : (m.code.size : Int) ≤ s.address)
  | negative (outside : s.address < 0)
  | at (i : Instruction) (inside : 0 ≤ s.address) (found : m.code[s.address.toNat]? = some i)

theorem placed (m : Machine World Watch) (s : RunState World Watch) : Placed m s := by
  by_cases past : (m.code.size : Int) ≤ s.address
  · exact .past past
  · by_cases negative : s.address < 0
    · exact .negative negative
    · have bound : s.address.toNat < m.code.size := by omega
      exact .at m.code[s.address.toNat] (by omega) (Array.getElem?_eq_getElem bound)

-- As many steps as are left, fewer where the run ends before.
def drive (step : Exec World Watch (Option Value)) : Nat → Exec World Watch (Option Value)
  | 0 => return none
  | n + 1 => do
    match ← step with
    | some v => return some v
    | none => drive step n

theorem drive_apply (step : Exec World Watch (Option Value)) (n : Nat) (s : RunState World Watch) :
    drive step (n + 1) s = match step s with
      | .ok none t => drive step n t
      | result => result := by
  rw [drive, bind_apply]
  cases step s with
  | ok result t => cases result <;> rfl
  | error e t => rfl

section Drive

variable {step : Exec World Watch (Option Value)} {n : Nat} {s t : RunState World Watch}

theorem drive_zero : drive step 0 s = .ok none s := rfl

theorem drive_of_onward (stepped : step s = .ok none t) :
    drive step (n + 1) s = drive step n t := by
  rw [drive_apply, stepped]

theorem drive_of_exit {v : Value} (stepped : step s = .ok (some v) t) :
    drive step (n + 1) s = .ok (some v) t := by
  rw [drive_apply, stepped]

theorem drive_of_error {e : RuntimeError} (stepped : step s = .error e t) :
    drive step (n + 1) s = .error e t := by
  rw [drive_apply, stepped]

end Drive

-- A run of the machine is driven by its steps.
theorem runFrom_eq_drive (m : Machine World Watch) (fuel : Nat) (s : RunState World Watch) :
    m.runFrom fuel s = match drive (step m) fuel s with
      | .ok none _ => none
      | .ok (some v) t => some (.ok v, t)
      | .error e t => some (.error e, t) := by
  induction fuel generalizing s with
  | zero => rfl
  | succ fuel ih =>
    rw [drive_apply, Machine.runFrom]
    cases step m s with
    | ok result t =>
      cases result with
      | none => exact ih t
      | some v => rfl
    | error e t => rfl

end Exec

-- The instructions that a run executes, as far as it gets with so many steps.
def visits (step : Exec World Watch (Option Value))
    (fetch : RunState World Watch → Option Instruction) :
    Nat → RunState World Watch → List Instruction
  | 0, _ => []
  | n + 1, s =>
    (fetch s).toList ++ match step s with
      | .ok none t => visits step fetch n t
      | _ => []

namespace Exec

variable {α β : Type} {P : RunState World Watch → Prop} {E : RuntimeFault → Prop}

-- Results after which a property of the state holds, and whose errors come from certain faults.
def Kept (P : RunState World Watch → Prop) (E : RuntimeFault → Prop) :
    EStateM.Result RuntimeError (RunState World Watch) α → Prop
  | .ok _ s => P s
  | .error e s => P s ∧ ∃ (u : RunState World Watch) (f : RuntimeFault), e = u.error f ∧ E f

-- Actions that keep a property of the state and fail by certain faults only.
def Keeps (P : RunState World Watch → Prop) (E : RuntimeFault → Prop)
    (x : Exec World Watch α) : Prop :=
  ∀ s, P s → Kept P E (x s)

theorem Kept.endState {result : EStateM.Result RuntimeError (RunState World Watch) α}
    (kept : Kept P E result) : P (endState result) := by
  cases result with
  | ok a s => exact kept
  | error e s => exact kept.1

theorem Keeps.pure (a : α) : Keeps P E (pure a) := fun _ holds => holds

theorem Keeps.bind {x : Exec World Watch α} {f : α → Exec World Watch β} (first : Keeps P E x)
    (second : ∀ a, Keeps P E (f a)) : Keeps P E (x >>= f) := by
  intro s holds
  have after := first s holds
  rw [bind_apply]
  cases ran : x s with
  | ok a t =>
    rw [ran] at after
    exact second a t after
  | error e t =>
    rw [ran] at after
    exact after

-- An action that reads the state first.
theorem Keeps.read {f : RunState World Watch → Exec World Watch α}
    (next : ∀ s, P s → Keeps P E (f s)) : Keeps P E (do let s ← get; f s) :=
  fun s holds => next s holds s holds

theorem Keeps.set {s : RunState World Watch} (holds : P s) :
    Keeps P E (set s : Exec World Watch PUnit) := fun _ _ => holds

theorem Keeps.modify {f : RunState World Watch → RunState World Watch}
    (holds : ∀ s, P s → P (f s)) : Keeps P E (modify f : Exec World Watch PUnit) :=
  fun s before => holds s before

theorem Keeps.fail {f : RuntimeFault} (cause : E f) : Keeps P E (fail f : Exec World Watch α) :=
  fun s holds => ⟨holds, s, f, rfl, cause⟩

-- Nothing comes after a failure.
theorem Keeps.stop {f : RuntimeFault} (cause : E f) (next : α → Exec World Watch β) :
    Keeps P E (do let a ← Exec.fail f; next a) := fun s holds => ⟨holds, s, f, rfl, cause⟩

theorem Keeps.raise {r : Except RuntimeFault α} (cause : ∀ f, r = .error f → E f) :
    Keeps P E (raise r : Exec World Watch α) := by
  cases r with
  | ok a => exact .pure a
  | error f => exact .fail (cause f rfl)

theorem Keeps.drive {step : Exec World Watch (Option Value)} (keeps : Keeps P E step) (n : Nat) :
    Keeps P E (drive step n) := by
  induction n with
  | zero => exact .pure none
  | succ n ih =>
    refine Keeps.bind keeps ?_
    intro result
    cases result with
    | none => exact ih
    | some v => exact .pure _

end Exec

end ScalarScript
