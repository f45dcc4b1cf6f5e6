import ScalarScript.Proofs.Machine.Drive
/-!
Where a step leads, whatever the host does: the opcode alone says whether the next address is the one
behind, the one named, or the one that a call waits at.
-/
namespace ScalarScript

open Stateful

variable {World Watch : Type}

namespace Exec

variable {α β : Type}

-- Actions that leave the address, the calls and the line as they are.
def Stays (x : Exec World Watch α) : Prop :=
  ∀ s a t, x s = .ok a t → t.address = s.address ∧ t.calls = s.calls ∧ t.line = s.line

theorem Passive.stays {m : Machine World Watch} {x : Exec World Watch α} (passive : Passive m x) :
    Stays x := by
  intro s a t ran
  have still := (passive s).1 a t ran
  exact ⟨still.address, still.calls, still.line⟩

theorem Stays.bind {x : Exec World Watch α} {f : α → Exec World Watch β} (first : Stays x)
    (second : ∀ a, Stays (f a)) : Stays (x >>= f) := by
  intro s b t ran
  obtain ⟨a, u, one, two⟩ := bind_eq_ok_iff.mp ran
  have before := first s a u one
  have after := second a u b t two
  exact ⟨after.1.trans before.1, after.2.1.trans before.2.1, after.2.2.trans before.2.2⟩

theorem stays_raise (r : Except RuntimeFault α) : Stays (raise r : Exec World Watch α) := by
  intro s a t ran
  cases r with
  | ok b =>
    cases ran
    exact ⟨rfl, rfl, rfl⟩
  | error f => cases ran

theorem stays_invoke (f : HostFunction World) (arity : Nat) :
    Stays (invoke f arity : Exec World Watch (HostReply World)) := by
  intro s a t ran
  cases ran
  exact ⟨rfl, rfl, rfl⟩

theorem stays_regain (count : Nat) : Stays (regain count : Exec World Watch Unit) := by
  intro s a t ran
  simp only [regain, bind_apply, get_apply] at ran
  split at ran
  · cases ran
  · cases ran
    exact ⟨rfl, rfl, rfl⟩

theorem stays_callHost (m : Machine World Watch) (slot : Int) : Stays (callHost m slot) := by
  intro s a t ran
  cases found : External.function? m.externals slot with
  | none =>
    simp only [callHost, found] at ran
    cases ran
  | some answerer =>
    obtain ⟨ext, f⟩ := answerer
    by_cases short : (s.stack.length : Int) < ext.arity
    · simp only [callHost, found, bind_apply, get_apply, if_pos short] at ran
      cases ran
    · rw [callHost_of_found found short] at ran
      refine Stays.bind (passive_observeCall m ext.name true).stays (fun _ => ?_) s a t ran
      refine (stays_invoke f _).bind fun reply => (stays_regain _).bind fun _ => ?_
      refine (stays_raise _).bind fun v => ?_
      refine (passive_observeReturn m ext.name).stays.bind fun _ => (stays_raise _).bind ?_
      intro w u b last done
      cases done
      exact ⟨rfl, rfl, rfl⟩

theorem stays_perform (m : Machine World Watch) (i : Instruction) : Stays (perform m i) := by
  by_cases host : i.opcode = .hostCall
  · unfold perform
    rw [host]
    exact stays_callHost m i.target
  · intro s a t ran
    cases effect : Core.effect i s.toCore with
    | ok core =>
      rw [perform_of_ok host effect] at ran
      cases ran
      exact ⟨rfl, rfl, rfl⟩
    | error f =>
      rw [perform_of_error host effect] at ran
      cases ran

-- Where control goes when an instruction is executed, and which line is current there.
inductive Goes (i : Instruction) (s t : RunState World Watch) : Prop where
  | next (falls : i.opcode ≠ .jump ∧ i.opcode ≠ .call ∧ i.opcode ≠ .ret ∧ i.opcode ≠ .exit)
      (address : t.address = s.address + 1) (calls : t.calls = s.calls)
      (line : t.line = if i.opcode = .debugLine then i.line else s.line)
  | jump (jumps : i.opcode = .jump ∨ ∃ condition, i.opcode = .jumpIf condition)
      (address : t.address = i.target) (calls : t.calls = s.calls) (line : t.line = s.line)
  | enter (opcode : i.opcode = .call) (address : t.address = i.target) {a : Activation}
      (calls : t.calls = a :: s.calls) (resume : a.resume = s.address + 1) (site : a.line = s.line)
      (line : t.line = s.line)
  | leave (opcode : i.opcode = .ret) {a : Activation} (calls : s.calls = a :: t.calls)
      (address : t.address = a.resume) (line : t.line = a.line)

variable {m : Machine World Watch} {i : Instruction}

theorem finish_goes {s t : RunState World Watch} (active : i.opcode.isMark = false)
    (ran : finish m i s = .ok none t) : Goes i s t := by
  obtain ⟨_, u, performed, ran⟩ := bind_eq_ok_iff.mp ran
  obtain ⟨address, calls, line⟩ := stays_perform m i s _ u performed
  obtain ⟨way, v, moved, ran⟩ := bind_eq_ok_iff.mp ran
  cases way with
  | inr w => cases ran
  | inl next =>
    cases ran
    cases opcode : i.opcode with
    | exit =>
      simp only [transfer, bind_apply, get_apply, opcode] at moved
      cases resolved : u.resolve i.first <;> rw [resolved] at moved <;> cases moved
    | jump =>
      simp only [transfer, bind_apply, get_apply, opcode] at moved
      cases moved
      exact .jump (.inl opcode) rfl calls line
    | jumpIf condition =>
      simp only [transfer, bind_apply, get_apply, opcode] at moved
      cases moved
      cases taken : condition.holds u.flags with
      | true => exact .jump (.inr ⟨condition, opcode⟩) (by simp) calls line
      | false => exact .next (by simp [opcode]) (by simp [address]) calls (by simp [opcode, line])
    | call =>
      simp only [transfer, bind_apply, get_apply, opcode, enterCall] at moved
      by_cases full : m.maxCallDepth ≤ (u.calls.length : Int)
      · simp only [if_pos full] at moved
        cases moved
      · simp only [if_neg full, bind_apply, set_apply] at moved
        generalize entered : (RunState.mk _ _ _ _ _ _ _ _ _ _ _ : RunState World Watch) = w
          at moved
        cases seen : observeCall m i.name false w with
        | error e x =>
          rw [seen] at moved
          cases moved
        | ok _ x =>
          rw [seen] at moved
          cases moved
          have after := (passive_observeCall m i.name false).stays _ _ _ seen
          subst entered
          refine .enter opcode rfl (a := ⟨i.name, u.address + 1, u.address, u.line⟩) ?_ ?_ line ?_
          · simp only [after.2.1, calls]
          · rw [address]
          · exact after.2.2.trans line
    | ret =>
      simp only [transfer, bind_apply, get_apply, opcode, leaveCall] at moved
      cases top : u.calls with
      | nil =>
        rw [top] at moved
        cases moved
      | cons a rest =>
        simp only [top, bind_apply, modify_apply] at moved
        generalize left : (RunState.mk _ _ _ _ _ _ _ _ _ _ _ : RunState World Watch) = w
          at moved
        cases seen : observeReturn m a.function w with
        | error e x =>
          rw [seen] at moved
          cases moved
        | ok _ x =>
          rw [seen] at moved
          cases moved
          have after := (passive_observeReturn m a.function).stays _ _ _ seen
          subst left
          refine .leave opcode (a := a) ?_ rfl rfl
          simp only [← calls, top, after.2.1]
    | _ =>
      simp only [transfer, bind_apply, get_apply, opcode] at moved
      cases moved
      refine .next (by simp [opcode]) (by simp [address]) calls ?_
      rw [if_neg (by rintro marker; simp [marker, Opcode.isMark] at active)]
      exact line

-- Only an exit ends a run with a value once an instruction is executed.
theorem finish_exits {s t : RunState World Watch} {w : Value}
    (ran : finish m i s = .ok (some w) t) : i.opcode = .exit := by
  obtain ⟨_, u, _, ran⟩ := bind_eq_ok_iff.mp ran
  obtain ⟨way, v, moved, ran⟩ := bind_eq_ok_iff.mp ran
  cases way with
  | inl next => cases ran
  | inr w =>
    cases opcode : i.opcode with
    | exit => rfl
    | call =>
      simp only [transfer, opcode] at moved
      obtain ⟨_, _, _, moved⟩ := bind_eq_ok_iff.mp moved
      obtain ⟨_, _, _, moved⟩ := bind_eq_ok_iff.mp moved
      cases moved
    | ret =>
      simp only [transfer, opcode] at moved
      obtain ⟨_, _, _, moved⟩ := bind_eq_ok_iff.mp moved
      obtain ⟨_, _, _, moved⟩ := bind_eq_ok_iff.mp moved
      cases moved
    | _ =>
      simp only [transfer, bind_apply, get_apply, opcode] at moved
      cases moved

theorem Goes.of_still {s t u : RunState World Watch} (address : t.address = s.address)
    (calls : t.calls = s.calls) (line : t.line = s.line) (goes : Goes i t u) : Goes i s u := by
  cases goes with
  | next falls next same here =>
    exact .next falls (by rw [next, address]) (same.trans calls) (by rw [here, line])
  | jump jumps next same here => exact .jump jumps next (same.trans calls) (here.trans line)
  | enter opcode next same resume site here =>
    exact .enter opcode next (calls ▸ same) (by rw [resume, address]) (site.trans line)
      (here.trans line)
  | leave opcode same next here => exact .leave opcode (calls ▸ same) next here

-- What a step does that is counted, observed and executed.
theorem execute_parts {s t : RunState World Watch} {result : Option Value}
    (active : i.opcode.isMark = false) (ran : execute m i s = .ok result t) :
    ∃ u : RunState World Watch, u.address = s.address ∧ u.calls = s.calls ∧ u.line = s.line ∧
      finish m i u = .ok result t := by
  rw [execute_of_active active] at ran
  obtain ⟨_, u, counted, ran⟩ := bind_eq_ok_iff.mp ran
  obtain ⟨_, v, observed, ran⟩ := bind_eq_ok_iff.mp ran
  have first := (passive_countInstruction m).stays _ _ _ counted
  have second := (passive_observeStep m i).stays _ _ _ observed
  exact ⟨v, second.1.trans first.1, second.2.1.trans first.2.1, second.2.2.trans first.2.2, ran⟩

-- What a step does after it has looked at the context.
theorem step_parts {s t : RunState World Watch} {result : Option Value}
    (ran : step m s = .ok result t) :
    ((m.code.size : Int) ≤ s.address ∧ result = some .null) ∨
      ∃ (i : Instruction) (u : RunState World Watch), 0 ≤ s.address ∧
        m.code[s.address.toNat]? = some i ∧ u.address = s.address ∧ u.calls = s.calls ∧
        u.line = s.line ∧ execute m i u = .ok result t := by
  cases placed m s with
  | past outside =>
    rw [step_of_past outside] at ran
    cases ran
    exact .inl ⟨outside, rfl⟩
  | negative outside =>
    rw [step_of_negative outside] at ran
    obtain ⟨_, u, _, failed⟩ := bind_eq_ok_iff.mp ran
    cases failed
  | «at» i inside found =>
    rw [step_of_fetched inside found] at ran
    obtain ⟨_, u, looked, ran⟩ := bind_eq_ok_iff.mp ran
    have same := (passive_checkContext m).stays _ _ _ looked
    exact .inr ⟨i, u, inside, found, same.1, same.2.1, same.2.2, ran⟩

theorem step_goes {s t : RunState World Watch} (ran : step m s = .ok none t) :
    ∃ i, 0 ≤ s.address ∧ m.code[s.address.toNat]? = some i ∧ Goes i s t := by
  rcases step_parts ran with ⟨_, none⟩ | ⟨i, u, inside, found, address, calls, line, ran⟩
  · cases none
  · refine ⟨i, inside, found, .of_still address calls line ?_⟩
    cases active : i.opcode.isMark with
    | false =>
      obtain ⟨v, same, kept, there, ran⟩ := execute_parts active ran
      exact .of_still same kept there (finish_goes active ran)
    | true =>
      have falls : i.opcode ≠ .jump ∧ i.opcode ≠ .call ∧ i.opcode ≠ .ret ∧ i.opcode ≠ .exit := by
        refine ⟨?_, ?_, ?_, ?_⟩ <;> intro opcode <;> simp [opcode, Opcode.isMark] at active
      cases opcode : i.opcode with
      | label =>
        simp only [execute, opcode] at ran
        cases ran
        exact .next falls rfl rfl (by simp [opcode])
      | debugLine =>
        simp only [execute, opcode] at ran
        cases ran
        exact .next falls rfl rfl (by simp [opcode])
      | _ => simp [opcode, Opcode.isMark] at active

-- A run ends with a value at an exit, or behind the last instruction.
theorem step_exits {s t : RunState World Watch} {w : Value} (ran : step m s = .ok (some w) t) :
    (m.code.size : Int) ≤ s.address ∨
      ∃ i, 0 ≤ s.address ∧ m.code[s.address.toNat]? = some i ∧ i.opcode = .exit := by
  rcases step_parts ran with ⟨past, _⟩ | ⟨i, u, inside, found, _, _, _, ran⟩
  · exact .inl past
  · refine .inr ⟨i, inside, found, ?_⟩
    cases active : i.opcode.isMark with
    | false =>
      obtain ⟨v, _, _, _, ran⟩ := execute_parts active ran
      exact finish_exits ran
    | true =>
      cases opcode : i.opcode with
      | label | debugLine =>
        simp only [execute, opcode] at ran
        cases ran
      | _ => simp [opcode, Opcode.isMark] at active

end Exec

end ScalarScript
