import Mathlib.Logic.Basic
/-!
Stateful actions that may fail, applied to a state. The compiler and the machine are both written
with them; these equations take an action apart into its steps.
-/
namespace ScalarScript.Stateful

variable {ε σ α β : Type}

@[simp] theorem pure_apply (a : α) (s : σ) : (pure a : EStateM ε σ α) s = .ok a s := rfl

@[simp] theorem get_apply (s : σ) : (get : EStateM ε σ σ) s = .ok s s := rfl

@[simp] theorem set_apply (s t : σ) : (set t : EStateM ε σ PUnit) s = .ok ⟨⟩ t := rfl

@[simp] theorem modify_apply (f : σ → σ) (s : σ) :
    (modify f : EStateM ε σ PUnit) s = .ok ⟨⟩ (f s) := rfl

@[simp] theorem modifyGet_apply (f : σ → α × σ) (s : σ) :
    (modifyGet f : EStateM ε σ α) s = .ok (f s).1 (f s).2 := rfl

@[simp] theorem throw_apply (e : ε) (s : σ) : (throw e : EStateM ε σ α) s = .error e s := rfl

theorem bind_apply (x : EStateM ε σ α) (f : α → EStateM ε σ β) (s : σ) :
    (x >>= f) s = match x s with
      | .ok a t => f a t
      | .error e t => .error e t := by
  show EStateM.bind x f s = _
  unfold EStateM.bind
  cases x s <;> rfl

theorem bind_of_ok {x : EStateM ε σ α} {f : α → EStateM ε σ β} {s t : σ} {a : α}
    (ran : x s = .ok a t) : (x >>= f) s = f a t := by
  rw [bind_apply, ran]

theorem bind_of_error {x : EStateM ε σ α} {f : α → EStateM ε σ β} {s t : σ} {e : ε}
    (failed : x s = .error e t) : (x >>= f) s = .error e t := by
  rw [bind_apply, failed]

@[simp] theorem map_apply (g : α → β) (x : EStateM ε σ α) (s : σ) :
    (g <$> x) s = match x s with
      | .ok a t => .ok (g a) t
      | .error e t => .error e t := by
  show EStateM.map g x s = _
  unfold EStateM.map
  cases x s <;> rfl

-- An action of two steps succeeds when both do.
theorem bind_eq_ok_iff {x : EStateM ε σ α} {f : α → EStateM ε σ β} {s t : σ} {b : β} :
    (x >>= f) s = .ok b t ↔ ∃ a u, x s = .ok a u ∧ f a u = .ok b t := by
  rw [bind_apply]
  constructor
  · intro ran
    cases first : x s with
    | ok a u => exact ⟨a, u, rfl, by simpa only [first] using ran⟩
    | error e u => simp [first] at ran
  · rintro ⟨a, u, first, second⟩
    rw [first]
    exact second

-- It fails when the first step does, or the second one after it.
theorem bind_eq_error_iff {x : EStateM ε σ α} {f : α → EStateM ε σ β} {s t : σ} {e : ε} :
    (x >>= f) s = .error e t ↔
      x s = .error e t ∨ ∃ a u, x s = .ok a u ∧ f a u = .error e t := by
  rw [bind_apply]
  cases first : x s with
  | ok a u =>
    constructor
    · intro failed
      exact .inr ⟨a, u, rfl, failed⟩
    · rintro (failed | ⟨_, _, ran, failed⟩)
      · cases failed
      · cases ran
        exact failed
  | error e u => simp

end ScalarScript.Stateful
