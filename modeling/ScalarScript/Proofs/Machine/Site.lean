import ScalarScript.Proofs.Machine.Bracketed
/-!
Where an error is raised. Its address and its line are those at which the step began that failed,
whatever the host and the observer did in it.
-/
namespace ScalarScript

variable {World Watch : Type}

-- A run stands at an address, with a line.
def RunState.Sited (address line : Int) (s : RunState World Watch) : Prop :=
  s.address = address ∧ s.line = line

namespace Exec

open RunState

section

variable {m : Machine World Watch} {i : Instruction} {address line : Int}

-- Actions that keep to the site, also where they fail.
abbrev Abides {α : Type} (address line : Int) (x : Exec World Watch α) : Prop :=
  Leads (Sited address line) (Sited address line) (Sited address line) x

theorem abides_notify (look : RunState World Watch → Watch × Verdict) :
    Abides address line (do
      let s ← get
      let (watch, verdict) := look s
      set { s with watch }
      obey verdict) := leads_notify (fun _ => id) fun _ => id

theorem abides_stepDue (config : ObserverConfig) :
    Abides address line (stepDue config : Exec World Watch Bool) := by
  refine .read fun s here => ?_
  cases config.mode with
  | onLine =>
    dsimp only
    split
    · exact (Leads.pure _).start here
    · exact .bind (.set here) fun _ => .pure _
  | _ => exact (Leads.pure _).start here

theorem abides_observeStep (m : Machine World Watch) (i : Instruction) :
    Abides address line (observeStep m i) := by
  unfold observeStep
  cases m.observer with
  | none => exact .pure _
  | some o =>
    refine .bind (abides_stepDue _) fun due => ?_
    cases due with
    | false => exact .pure _
    | true => exact abides_notify _

theorem abides_observeCall (m : Machine World Watch) (name : String) (external : Bool) :
    Abides address line (observeCall m name external) := by
  unfold observeCall
  cases m.observer with
  | none => exact .pure _
  | some o =>
    dsimp only
    split
    · exact abides_notify _
    · exact .pure _

theorem abides_observeReturn (m : Machine World Watch) (name : String) :
    Abides address line (observeReturn m name) := by
  unfold observeReturn
  cases m.observer with
  | none => exact .pure _
  | some o =>
    dsimp only
    split
    · exact abides_notify _
    · exact .pure _

theorem abides_checkContext (m : Machine World Watch) : Abides address line (checkContext m) := by
  refine .read fun s here => ?_
  split
  · split
    · refine .bind (Q := Sited address line) (.set here) fun _ => ?_
      split
      · exact .fail fun _ => id
      · exact .pure ()
    · exact .set here
  · exact (Leads.pure _).start here

theorem abides_countInstruction (m : Machine World Watch) :
    Abides address line (countInstruction m) := by
  refine .read fun s here => .bind (Q := Sited address line) (.modify ?_) fun _ => ?_
  · rintro _ rfl
    exact here
  · split
    · exact .fail fun _ => id
    · exact .pure ()

theorem abides_callHost (m : Machine World Watch) (slot : Int) :
    Abides address line (callHost m slot) := by
  unfold callHost
  split
  · exact .fail fun _ => id
  · refine .read fun s here => ?_
    split
    · refine .stop ?_ _
      rintro _ rfl
      exact here
    refine .bind ((abides_observeCall m _ true).start here) fun _ => ?_
    refine .bind (Q := Sited address line) (fun t there => there) fun reply => ?_
    refine .bind (Q := Sited address line) (.read fun t there => ?_) fun _ => ?_
    · dsimp only
      split
      · refine .stop ?_ _
        rintro _ rfl
        exact there
      · exact .set there
    refine .bind (.raise fun _ => id) fun v => .bind (abides_observeReturn m _) fun _ => ?_
    exact .bind (.raise fun _ => id) fun w => .modify fun _ => id

theorem abides_perform (m : Machine World Watch) (i : Instruction) :
    Abides address line (perform m i) := by
  by_cases host : i.opcode = .hostCall
  · unfold perform
    rw [host]
    exact abides_callHost m i.target
  · rw [perform_of_plain host]
    refine .read fun s here => .bind (.raise ?_) fun core => .set here
    rintro _ rfl
    exact here

-- Only a return that succeeds changes the line, and then nothing fails any more.
theorem leads_transfer_site (m : Machine World Watch) (i : Instruction) :
    Leads (Sited address line) (fun _ => True) (Sited address line) (transfer m i) := by
  refine .read fun s here => ?_
  have stays {α : Type} (a : α) : Leads (· = s) (fun _ => True) (Sited address line)
      (pure a : Exec World Watch α) := fun _ _ => trivial
  cases i.opcode with
  | exit =>
    refine .read fun t last => ?_
    subst last
    refine .bind (.raise ?_) fun v => stays _
    rintro _ rfl
    exact here
  | jumpIf condition => exact .read fun t last => last ▸ stays _
  | call =>
    refine .bind (Q := fun _ => True) (.read fun t last => ?_) fun _ => .pure _
    subst last
    dsimp only
    split
    · refine .stop ?_ _
      rintro _ rfl
      exact here
    · exact .bind (Q := Sited address line) (.set here) fun _ =>
        (abides_observeCall m _ false).mono (fun _ => id) fun _ _ => trivial
  | ret =>
    refine .bind (Q := fun _ => True) (.read fun t last => ?_) fun _ => .pure _
    subst last
    cases t.calls with
    | nil =>
      refine .fail ?_
      rintro _ rfl
      exact here
    | cons a rest =>
      refine .bind (Q := Sited address line) (.modify ?_) fun _ => ?_
      · rintro _ rfl
        exact here
      · exact .bind (abides_observeReturn m _) fun _ =>
          .bind (.modify fun _ _ => trivial) fun _ => .pure _
  | _ => exact stays _

theorem leads_step_site (m : Machine World Watch) :
    Leads (Sited address line) (fun _ => True) (Sited address line) (step m) := by
  intro s here
  have checks : Abides address line (checkContext m) := abides_checkContext m
  cases placed m s with
  | past outside =>
    rw [step_of_past outside]
    trivial
  | negative outside =>
    rw [step_of_negative outside]
    exact checks.bind (fun _ => .fail fun _ => id) s here
  | «at» i inside found =>
    rw [step_of_fetched inside found]
    refine checks.bind (fun _ => ?_) s here
    cases active : i.opcode.isMark with
    | true =>
      intro t there
      obtain ⟨later, ran⟩ := execute_of_mark (s := t) active
      rw [ran]
      trivial
    | false =>
      rw [execute_of_active active]
      refine .bind (abides_countInstruction m) fun _ => .bind (abides_observeStep m i) fun _ => ?_
      refine .bind (abides_perform m i) fun _ => .bind (leads_transfer_site m i) fun way => ?_
      cases way with
      | inr v => exact .pure _
      | inl next => exact .bind (.modify fun _ => id) fun _ => .pure _

end

theorem step_error_site {m : Machine World Watch} {s t : RunState World Watch} {e : RuntimeError}
    (failed : step m s = .error e t) : e.address = s.address ∧ e.line = s.line := by
  have ends := leads_step_site m s ⟨rfl, rfl⟩
  rw [failed] at ends
  obtain ⟨⟨address, line⟩, f, rfl⟩ := ends
  exact ⟨address, line⟩

end Exec

end ScalarScript
