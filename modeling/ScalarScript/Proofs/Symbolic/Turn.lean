import ScalarScript.Proofs.Stateful
import ScalarScript.Proofs.Symbolic.Machine
/-!
One step of a machine, seen through what its instruction comes to. Counting, the context and the
observer can only end a run: they never touch the core, the address or the call stack.
-/
namespace ScalarScript

open Stateful

variable {World Watch : Type}

-- A fault that does not come from the program.
def RuntimeFault.Imposed : RuntimeFault → Prop
  | .instructionLimit _ | .cancelled | .halted | .internal _ => True
  | _ => False

def HostsNeverCancel (m : Machine World Watch) : Prop :=
  ∀ ext ∈ m.externals, ∀ f, ext.function = some f → ∀ world request,
    (f world request).cancels = false

-- Nothing but the program itself can end the run.
structure Undisturbed (m : Machine World Watch) (s : RunState World Watch) : Prop where
  observer : m.observer = none
  limit : m.instructionLimit ≤ 0
  context : s.cancellable = false ∨ s.cancelled = false ∧ HostsNeverCancel m

-- Host functions take a number of arguments that is not negative.
def Fair (m : Machine World Watch) : Prop := ∀ ext ∈ m.externals, 0 ≤ ext.arity

-- The same as far as the program can tell.
structure Still (s t : RunState World Watch) : Prop where
  core : t.toCore = s.toCore
  address : t.address = s.address
  line : t.line = s.line
  calls : t.calls = s.calls
  cancellable : t.cancellable = s.cancellable
  cancelled : t.cancelled = s.cancelled

theorem Still.refl (s : RunState World Watch) : Still s s := ⟨rfl, rfl, rfl, rfl, rfl, rfl⟩

theorem Still.trans {s t u : RunState World Watch} (first : Still s t) (second : Still t u) :
    Still s u :=
  ⟨second.core.trans first.core, second.address.trans first.address,
    second.line.trans first.line, second.calls.trans first.calls,
    second.cancellable.trans first.cancellable, second.cancelled.trans first.cancelled⟩

theorem Undisturbed.of_still {m : Machine World Watch} {s t : RunState World Watch}
    (quiet : Undisturbed m s) (still : Still s t) : Undisturbed m t :=
  ⟨quiet.observer, quiet.limit, by rw [still.cancellable, still.cancelled]; exact quiet.context⟩

namespace Exec

variable {α β : Type}

-- An action that leaves everything as it is and fails only where the run is disturbed.
def Passive (m : Machine World Watch) (x : Exec World Watch α) : Prop :=
  ∀ s, (∀ a t, x s = .ok a t → Still s t) ∧
    ∀ e t, x s = .error e t →
      Still s t ∧ ¬ Undisturbed m s ∧
        ∃ (u : RunState World Watch) (f : RuntimeFault), f.Imposed ∧ e = u.error f

theorem fail_apply (f : RuntimeFault) (s : RunState World Watch) :
    (fail f : Exec World Watch α) s = .error (s.error f) s := rfl

theorem passive_pure (m : Machine World Watch) (a : α) : Passive m (pure a) := by
  intro s
  refine ⟨?_, ?_⟩
  · intro b t ran
    cases ran
    exact .refl s
  · intro e t ran
    cases ran

theorem Passive.bind {m : Machine World Watch} {x : Exec World Watch α}
    {f : α → Exec World Watch β} (first : Passive m x) (second : ∀ a, Passive m (f a)) :
    Passive m (x >>= f) := by
  intro s
  refine ⟨?_, ?_⟩
  · intro b t ran
    obtain ⟨a, u, one, two⟩ := bind_eq_ok_iff.mp ran
    exact ((first s).1 a u one).trans ((second a u).1 b t two)
  · intro e t ran
    rcases bind_eq_error_iff.mp ran with one | ⟨a, u, one, two⟩
    · exact (first s).2 e t one
    · have still := (first s).1 a u one
      obtain ⟨later, disturbed, cause⟩ := (second a u).2 e t two
      exact ⟨still.trans later, fun quiet => disturbed (quiet.of_still still), cause⟩

theorem passive_obey {m : Machine World Watch} (v : Verdict)
    (watched : m.observer.isSome = true) : Passive m (obey v) := by
  intro s
  have disturbed : ¬ Undisturbed m s := by
    intro quiet
    rw [quiet.observer] at watched
    cases watched
  refine ⟨?_, ?_⟩
  · intro a t ran
    cases v <;> simp [obey, fail_apply] at ran
    exact ran ▸ .refl s
  · intro e t ran
    cases v <;> simp [obey, fail_apply] at ran
    · obtain ⟨rfl, rfl⟩ := ran
      exact ⟨.refl s, disturbed, s, .halted, trivial, rfl⟩
    · obtain ⟨rfl, rfl⟩ := ran
      exact ⟨.refl s, disturbed, s, .internal _, trivial, rfl⟩

-- What an observer says about an event, and what it remembers of it.
theorem passive_notify {m : Machine World Watch} (o : Observer Watch) (seen : m.observer = some o)
    (look : RunState World Watch → Watch × Verdict) :
    Passive m (do
      let s ← get
      let (watch, verdict) := look s
      set { s with watch }
      obey verdict) := by
  intro s
  have obeyed := passive_obey (m := m) (look s).2 (by simp [seen]) { s with watch := (look s).1 }
  have still : Still s { s with watch := (look s).1 } := ⟨rfl, rfl, rfl, rfl, rfl, rfl⟩
  refine ⟨?_, ?_⟩
  · intro a t ran
    exact still.trans (obeyed.1 a t ran)
  · intro e t ran
    obtain ⟨later, disturbed, cause⟩ := obeyed.2 e t ran
    exact ⟨still.trans later, fun quiet => disturbed (quiet.of_still still), cause⟩

theorem passive_stepDue (m : Machine World Watch) (config : ObserverConfig) :
    Passive m (stepDue config) := by
  intro s
  have ran : ∃ due t, stepDue config s = .ok due t ∧ Still s t := by
    cases mode : config.mode with
    | all => exact ⟨true, s, by simp [stepDue, bind_apply, mode], .refl s⟩
    | none => exact ⟨false, s, by simp [stepDue, bind_apply, mode], .refl s⟩
    | sampled => exact ⟨_, s, by simp [stepDue, bind_apply, mode]; rfl, .refl s⟩
    | onLine =>
      by_cases same : s.line = s.observedLine
      · exact ⟨false, s, by simp [stepDue, bind_apply, mode, same], .refl s⟩
      · exact ⟨true, { s with observedLine := s.line },
          by simp [stepDue, bind_apply, mode, same], ⟨rfl, rfl, rfl, rfl, rfl, rfl⟩⟩
  obtain ⟨due, u, ran, still⟩ := ran
  rw [ran]
  refine ⟨?_, ?_⟩
  · intro a t done
    cases done
    exact still
  · intro e t failed
    cases failed

theorem passive_observeStep (m : Machine World Watch) (i : Instruction) :
    Passive m (observeStep m i) := by
  unfold observeStep
  split
  · exact passive_pure m ()
  · rename_i o seen
    refine (passive_stepDue m _).bind ?_
    intro due
    cases due
    · exact passive_pure m ()
    · exact passive_notify o seen _

theorem passive_observeCall (m : Machine World Watch) (name : String) (external : Bool) :
    Passive m (observeCall m name external) := by
  unfold observeCall
  split
  · exact passive_pure m ()
  · rename_i o seen
    split
    · exact passive_notify o seen _
    · exact passive_pure m ()

theorem passive_observeReturn (m : Machine World Watch) (name : String) :
    Passive m (observeReturn m name) := by
  unfold observeReturn
  split
  · exact passive_pure m ()
  · rename_i o seen
    split
    · exact passive_notify o seen _
    · exact passive_pure m ()

theorem passive_countInstruction (m : Machine World Watch) : Passive m (countInstruction m) := by
  intro s
  have ran : countInstruction m s =
      if 0 < m.instructionLimit && m.instructionLimit < ((s.executed + 1 : Nat) : Int) then
        .error ({ s with executed := s.executed + 1 }.error (.instructionLimit m.instructionLimit))
          { s with executed := s.executed + 1 }
      else .ok () { s with executed := s.executed + 1 } := by
    simp only [countInstruction, bind_apply, get_apply, modify_apply]
    split <;> rfl
  rw [ran]
  refine ⟨?_, ?_⟩
  · intro a t done
    split at done
    · cases done
    · cases done
      exact ⟨rfl, rfl, rfl, rfl, rfl, rfl⟩
  · intro e t failed
    split at failed
    · rename_i excess
      cases failed
      refine ⟨⟨rfl, rfl, rfl, rfl, rfl, rfl⟩, ?_, _, .instructionLimit _, trivial, rfl⟩
      intro quiet
      have := quiet.limit
      simp only [Bool.and_eq_true, decide_eq_true_eq] at excess
      omega
    · cases failed

theorem passive_checkContext (m : Machine World Watch) : Passive m (checkContext m) := by
  intro s
  refine ⟨?_, ?_⟩
  · intro a t ran
    simp only [checkContext, bind_apply, get_apply] at ran
    split at ran
    · split at ran
      · simp only [bind_apply, set_apply] at ran
        split at ran
        · cases ran
        · cases ran
          exact ⟨rfl, rfl, rfl, rfl, rfl, rfl⟩
      · cases ran
        exact ⟨rfl, rfl, rfl, rfl, rfl, rfl⟩
    · cases ran
      exact .refl s
  · intro e t ran
    simp only [checkContext, bind_apply, get_apply] at ran
    split at ran
    · rename_i looked
      split at ran
      · simp only [bind_apply, set_apply] at ran
        split at ran
        · rename_i cancelled
          cases ran
          refine ⟨⟨rfl, rfl, rfl, rfl, rfl, rfl⟩, ?_, _, .cancelled, trivial, rfl⟩
          intro quiet
          simp only [Bool.and_eq_true] at looked
          rcases quiet.context with off | ⟨off, _⟩
          · simp [off] at looked
          · simp [off] at cancelled
        · cases ran
      · cases ran
    · cases ran

end Exec

-- A state that a run goes on from.
structure Onward (m : Machine World Watch) (s t : RunState World Watch) (core : Core World)
    (address : Int) (calls : List Activation) : Prop where
  core : t.toCore = core
  address : t.address = address
  calls : t.calls = calls
  quiet : Undisturbed m s → Undisturbed m t

-- What executing an instruction can result in.
inductive Turn (m : Machine World Watch) (i : Instruction) (s : RunState World Watch) :
    EStateM.Result RuntimeError (RunState World Watch) (Option Value) → Prop where
  | proceed {core : Core World} {made : List HostCall} {t : RunState World Watch}
      (done : deed m.externals i s.toCore = .proceed core made)
      (onward : Onward m s t core (s.address + 1) s.calls) : Turn m i s (.ok none t)
  | branch {t : RunState World Watch} (done : deed m.externals i s.toCore = .branch)
      (onward : Onward m s t s.toCore i.target s.calls) : Turn m i s (.ok none t)
  | enter {t : RunState World Watch} (done : deed m.externals i s.toCore = .enter)
      (room : (s.calls.length : Int) < m.maxCallDepth)
      (onward : Onward m s t s.toCore i.target
        (⟨i.name, s.address + 1, s.address, s.line⟩ :: s.calls)) : Turn m i s (.ok none t)
  | leave {a : Activation} {calls : List Activation} {t : RunState World Watch}
      (done : deed m.externals i s.toCore = .leave) (top : s.calls = a :: calls)
      (onward : Onward m s t s.toCore a.resume calls) : Turn m i s (.ok none t)
  | exit {v : Value} {core : Core World} {made : List HostCall} {t : RunState World Watch}
      (done : deed m.externals i s.toCore = .stop (.ok v) core made) (after : t.toCore = core) :
      Turn m i s (.ok (some v) t)
  | fault {f : RuntimeFault} {core : Core World} {made : List HostCall}
      {t u : RunState World Watch}
      (done : deed m.externals i s.toCore = .stop (.error f) core made) (after : t.toCore = core) :
      Turn m i s (.error (u.error f) t)
  | overflow {t u : RunState World Watch} (done : deed m.externals i s.toCore = .enter)
      (full : m.maxCallDepth ≤ (s.calls.length : Int)) (after : t.toCore = s.toCore) :
      Turn m i s (.error (u.error (.callOverflow s.calls.length)) t)
  | underflow {t u : RunState World Watch} (done : deed m.externals i s.toCore = .leave)
      (empty : s.calls = []) (after : t.toCore = s.toCore) :
      Turn m i s (.error (u.error .emptyCalls) t)
  | imposed {f : RuntimeFault} {t u : RunState World Watch} (disturbed : ¬ Undisturbed m s)
      (cause : f.Imposed) : Turn m i s (.error (u.error f) t)

namespace Exec

-- What an instruction does once it is counted and observed.
def finish (m : Machine World Watch) (i : Instruction) : Exec World Watch (Option Value) := do
  perform m i
  match ← transfer m i with
  | .inr v => return some v
  | .inl next =>
    modify fun s => { s with address := next }
    return none

theorem perform_of_plain {m : Machine World Watch} {i : Instruction}
    (plain : i.opcode ≠ .hostCall) :
    perform m i = (do
      let s ← get
      let core ← raise (Core.effect i s.toCore)
      set { s with toCore := core, room := s.roomAfter i.opcode }) := by
  unfold perform
  split
  · contradiction
  · rfl

theorem perform_of_ok {m : Machine World Watch} {i : Instruction} {s : RunState World Watch}
    {core : Core World} (plain : i.opcode ≠ .hostCall)
    (done : Core.effect i s.toCore = .ok core) :
    perform m i s = .ok ⟨⟩ { s with toCore := core, room := s.roomAfter i.opcode } := by
  simp only [perform_of_plain plain, bind_apply, get_apply, done, raise, pure_apply, set_apply]

theorem perform_of_error {m : Machine World Watch} {i : Instruction} {s : RunState World Watch}
    {f : RuntimeFault} (plain : i.opcode ≠ .hostCall)
    (failed : Core.effect i s.toCore = .error f) : perform m i s = .error (s.error f) s := by
  simp only [perform_of_plain plain, bind_apply, get_apply, failed, raise, fail_apply]

-- An instruction without a part in control: its effect, then the next address.
theorem finish_of_effect {m : Machine World Watch} {i : Instruction} {s : RunState World Watch}
    (plain : i.opcode ≠ .hostCall)
    (falls : ∀ t : RunState World Watch, transfer m i t = .ok (.inl (t.address + 1)) t)
    (done : deed m.externals i s.toCore = match Core.effect i s.toCore with
      | .ok core => .proceed core []
      | .error f => .stop (.error f) s.toCore []) : Turn m i s (finish m i s) := by
  cases effect : Core.effect i s.toCore with
  | ok core =>
    rw [effect] at done
    simp only [finish, bind_apply, perform_of_ok plain effect, falls]
    exact .proceed done ⟨rfl, rfl, rfl, fun quiet => ⟨quiet.observer, quiet.limit, quiet.context⟩⟩
  | error f =>
    rw [effect] at done
    simp only [finish, bind_apply, perform_of_error plain effect]
    exact .fault done rfl

theorem regain_zero (s : RunState World Watch) : regain 0 s = .ok ⟨⟩ s := by
  simp [regain, RunState.regain, bind_apply]

theorem function?_mem {externals : Array (External World)} {slot : Int} {ext : External World}
    {f : HostFunction World} (found : External.function? externals slot = some (ext, f)) :
    ext ∈ externals ∧ ext.function = some f := by
  unfold External.function? at found
  split at found
  · cases found
  · obtain ⟨x, present, rest⟩ := Option.bind_eq_some_iff.mp found
    obtain ⟨g, given, same⟩ := Option.map_eq_some_iff.mp rest
    cases same
    exact ⟨Array.mem_of_getElem? present, given⟩

-- The state in which a host function has acted and its arguments are gone.
def afterInvoke (s : RunState World Watch) (arity : Nat) (reply : HostReply World) :
    RunState World Watch :=
  { s with
    toCore := s.answered arity reply
    room := s.roomBelow arity
    cancelled := s.cancelled || (reply.cancels && s.cancellable) }

theorem undisturbed_afterInvoke {m : Machine World Watch} {s : RunState World Watch}
    {ext : External World} {f : HostFunction World} (request : HostRequest) (arity : Nat)
    (member : ext ∈ m.externals) (given : ext.function = some f) (quiet : Undisturbed m s) :
    Undisturbed m (afterInvoke s arity (f s.world request)) := by
  refine ⟨quiet.observer, quiet.limit, ?_⟩
  rcases quiet.context with off | ⟨off, never⟩
  · exact .inl off
  · have calm := never ext member f given s.world request
    exact .inr ⟨by simp [afterInvoke, off, calm], never⟩

-- A host call once its function is known and the observer was told.
def answerHost (m : Machine World Watch) (ext : External World) (f : HostFunction World) :
    Exec World Watch Unit := do
  let reply ← invoke f ext.arity.toNat
  regain (-ext.arity).toNat
  let v ← raise (ext.answer reply)
  observeReturn m ext.name
  let v ← raise (ext.checkResult v)
  modify fun s => { s with registers := s.registers.set .eax v }

-- What a host call can result in, the next address apart.
inductive Answered (m : Machine World Watch) (ext : External World) (f : HostFunction World)
    (s : RunState World Watch) : EStateM.Result RuntimeError (RunState World Watch) Unit → Prop where
  | value {v : Value} {t : RunState World Watch}
      (given : (ext.answer (f s.world (s.request ext.arity.toNat))).bind ext.checkResult = .ok v)
      (still : Still (afterInvoke s ext.arity.toNat (f s.world (s.request ext.arity.toNat))) t) :
      Answered m ext f s (.ok ⟨⟩ { t with registers := t.registers.set .eax v })
  | fault {fault : RuntimeFault} {t : RunState World Watch}
      (given : (ext.answer (f s.world (s.request ext.arity.toNat))).bind ext.checkResult =
        .error fault)
      (still : Still (afterInvoke s ext.arity.toNat (f s.world (s.request ext.arity.toNat))) t) :
      Answered m ext f s (.error (t.error fault) t)
  | imposed {fault : RuntimeFault} {t u : RunState World Watch} (disturbed : ¬ Undisturbed m s)
      (cause : fault.Imposed) : Answered m ext f s (.error (u.error fault) t)

theorem answerHost_answered {m : Machine World Watch} {ext : External World}
    {f : HostFunction World} {s : RunState World Watch} (member : ext ∈ m.externals)
    (given : ext.function = some f) (fair : 0 ≤ ext.arity) :
    Answered m ext f s (answerHost m ext f s) := by
  have none : (-ext.arity).toNat = 0 := by omega
  generalize replied : f s.world (s.request ext.arity.toNat) = reply
  have invoked : invoke f ext.arity.toNat s = .ok reply (afterInvoke s ext.arity.toNat reply) := by
    simp only [invoke, modifyGet_apply, replied, afterInvoke]
  simp only [answerHost, bind_apply, invoked, none, regain_zero]
  cases answer : ext.answer reply with
  | error fault => exact .fault (by rw [replied, answer]; rfl) (replied ▸ .refl _)
  | ok v =>
    simp only [raise, pure_apply]
    have passive := passive_observeReturn m ext.name (afterInvoke s ext.arity.toNat reply)
    cases seen : observeReturn m ext.name (afterInvoke s ext.arity.toNat reply) with
    | error e t =>
      obtain ⟨_, disturbed, u, fault, cause, rfl⟩ := passive.2 e t seen
      refine .imposed ?_ cause
      intro quiet
      exact disturbed (replied ▸ undisturbed_afterInvoke _ _ member given quiet)
    | ok _ t =>
      have still := passive.1 _ t seen
      simp only
      cases checked : ext.checkResult v with
      | ok w => exact .value (by rw [replied, answer]; exact checked) (replied ▸ still)
      | error fault => exact .fault (by rw [replied, answer]; exact checked) (replied ▸ still)

theorem callHost_of_found {m : Machine World Watch} {slot : Int} {ext : External World}
    {f : HostFunction World} {s : RunState World Watch}
    (found : External.function? m.externals slot = some (ext, f))
    (enough : ¬ (s.stack.length : Int) < ext.arity) :
    callHost m slot s = (do observeCall m ext.name true; answerHost m ext f) s := by
  simp only [callHost, found, bind_apply, get_apply, if_neg enough, answerHost]

-- After an effect that worked, the run goes on at the next address.
def movedOn : EStateM.Result RuntimeError (RunState World Watch) Unit →
    EStateM.Result RuntimeError (RunState World Watch) (Option Value)
  | .ok _ s => .ok none { s with address := s.address + 1 }
  | .error e s => .error e s

-- The answer is the same after the observer was told.
theorem finish_of_answered {m : Machine World Watch} {i : Instruction} {ext : External World}
    {f : HostFunction World} {s t : RunState World Watch} {c : HostCall}
    {result : EStateM.Result RuntimeError (RunState World Watch) Unit} (still : Still s t)
    (member : ext ∈ m.externals) (given : ext.function = some f)
    (answered : Answered m ext f t result)
    (done : deed m.externals i s.toCore =
      match (ext.answer (f s.world (s.request ext.arity.toNat))).bind ext.checkResult with
      | .ok v => .proceed ((s.answered ext.arity.toNat
          (f s.world (s.request ext.arity.toNat))).setRegister .eax v) [c]
      | .error fault => .stop (.error fault) (s.answered ext.arity.toNat
          (f s.world (s.request ext.arity.toNat))) [c]) :
    Turn m i s (movedOn result) := by
  have core := still.core
  have world : t.world = s.world := congrArg Core.world core
  cases answered with
  | value value after =>
    rw [world, core] at value after
    rw [value] at done
    have same := after.core
    refine .proceed done ⟨?_, ?_, after.calls.trans still.calls, ?_⟩
    · simp only [same, afterInvoke, Core.setRegister, core]
    · simp only [after.address, afterInvoke, still.address]
    · intro quiet
      have acted := undisturbed_afterInvoke (s.request ext.arity.toNat) ext.arity.toNat member
        given (quiet.of_still still)
      rw [world] at acted
      have later := acted.of_still after
      exact ⟨later.observer, later.limit, later.context⟩
  | fault fault after =>
    rw [world, core] at fault after
    rw [fault] at done
    refine .fault done ?_
    simp only [after.core, afterInvoke, core]
  | imposed disturbed cause =>
    exact .imposed (fun quiet => disturbed (quiet.of_still still)) cause

theorem finish_of_hostCall {m : Machine World Watch} {i : Instruction} {s : RunState World Watch}
    (fair : Fair m) (opcode : i.opcode = .hostCall) : Turn m i s (finish m i s) := by
  have falls (t : RunState World Watch) : transfer m i t = .ok (.inl (t.address + 1)) t := by
    simp [transfer, bind_apply, opcode]
  have performs : perform m i = callHost m i.target := by
    unfold perform
    rw [opcode]
  have done : deed m.externals i s.toCore = hostDeed m.externals i.target s.toCore := by
    unfold deed
    rw [opcode]
  unfold hostDeed at done
  simp only [finish, bind_apply, performs]
  cases found : External.function? m.externals i.target with
  | none =>
    rw [found] at done
    simp only [callHost, found, fail_apply]
    exact .fault done rfl
  | some pair =>
    obtain ⟨ext, f⟩ := pair
    obtain ⟨member, given⟩ := function?_mem found
    simp only [found] at done
    by_cases missing : (s.stack.length : Int) < ext.arity
    · simp only [if_pos missing] at done
      simp only [callHost, found, bind_apply, get_apply, if_pos missing, fail_apply]
      exact .fault done rfl
    · simp only [if_neg missing] at done
      rw [callHost_of_found found missing, bind_apply]
      have passive := passive_observeCall m ext.name true s
      cases seen : observeCall m ext.name true s with
      | error e t =>
        obtain ⟨_, disturbed, u, fault, cause, rfl⟩ := passive.2 e t seen
        exact .imposed disturbed cause
      | ok _ t =>
        have answered := answerHost_answered (m := m) (s := t) member given (fair ext member)
        have turn := finish_of_answered (passive.1 _ t seen) member given answered done
        cases answer : answerHost m ext f t with
        | ok _ u =>
          rw [answer] at turn
          simp only [answer, falls]
          exact turn
        | error e u =>
          rw [answer] at turn
          simp only [answer]
          exact turn

theorem finish_of_exit {m : Machine World Watch} {i : Instruction} {s : RunState World Watch}
    (opcode : i.opcode = .exit) : Turn m i s (finish m i s) := by
  have plain : i.opcode ≠ .hostCall := by simp [opcode]
  have performed := perform_of_ok (m := m) plain
    (show Core.effect i s.toCore = .ok s.toCore by simp only [Core.effect, opcode])
  have done : deed m.externals i s.toCore = .stop (s.resolve i.first) s.toCore [] := by
    simp only [deed, opcode]
  simp only [finish, bind_apply, performed, transfer, get_apply, opcode]
  cases resolved : s.resolve i.first with
  | ok v =>
    rw [resolved] at done
    simp only [raise, pure_apply]
    exact .exit done rfl
  | error f =>
    rw [resolved] at done
    simp only [raise, fail_apply]
    exact .fault done rfl

theorem finish_of_jump {m : Machine World Watch} {i : Instruction} {s : RunState World Watch}
    (opcode : i.opcode = .jump) : Turn m i s (finish m i s) := by
  have plain : i.opcode ≠ .hostCall := by simp [opcode]
  have performed := perform_of_ok (m := m) plain
    (show Core.effect i s.toCore = .ok s.toCore by simp only [Core.effect, opcode])
  have done : deed m.externals i s.toCore = .branch := by simp only [deed, opcode]
  simp only [finish, bind_apply, performed, transfer, get_apply, opcode, pure_apply, modify_apply]
  exact .branch done ⟨rfl, rfl, rfl, fun quiet => ⟨quiet.observer, quiet.limit, quiet.context⟩⟩

theorem finish_of_jumpIf {m : Machine World Watch} {i : Instruction} {s : RunState World Watch}
    {condition : Condition} (opcode : i.opcode = .jumpIf condition) :
    Turn m i s (finish m i s) := by
  have plain : i.opcode ≠ .hostCall := by simp [opcode]
  have performed := perform_of_ok (m := m) plain
    (show Core.effect i s.toCore = .ok s.toCore by simp only [Core.effect, opcode])
  simp only [finish, bind_apply, performed, transfer, get_apply, opcode, pure_apply, modify_apply]
  cases taken : condition.holds s.flags with
  | true =>
    have done : deed m.externals i s.toCore = .branch := by simp [deed, opcode, taken]
    exact .branch done ⟨rfl, rfl, rfl, fun quiet => ⟨quiet.observer, quiet.limit, quiet.context⟩⟩
  | false =>
    have done : deed m.externals i s.toCore = .proceed s.toCore [] := by
      simp [deed, opcode, taken]
    exact .proceed done ⟨rfl, rfl, rfl, fun quiet => ⟨quiet.observer, quiet.limit, quiet.context⟩⟩

theorem finish_of_call {m : Machine World Watch} {i : Instruction} {s : RunState World Watch}
    (opcode : i.opcode = .call) : Turn m i s (finish m i s) := by
  have plain : i.opcode ≠ .hostCall := by simp [opcode]
  have performed := perform_of_ok (m := m) plain
    (show Core.effect i s.toCore = .ok s.toCore by simp only [Core.effect, opcode])
  have done : deed m.externals i s.toCore = .enter := by simp only [deed, opcode]
  simp only [finish, bind_apply, performed, transfer, get_apply, opcode, enterCall]
  by_cases full : m.maxCallDepth ≤ (s.calls.length : Int)
  · simp only [if_pos full]
    exact .overflow done full rfl
  · simp only [if_neg full, bind_apply, set_apply]
    generalize entered : (RunState.mk _ _ _ _ _ _ _ _ _ _ _ : RunState World Watch) = u
    have passive := passive_observeCall m i.name false u
    cases seen : observeCall m i.name false u with
    | error e t =>
      obtain ⟨_, disturbed, v, fault, cause, rfl⟩ := passive.2 e t seen
      refine .imposed ?_ cause
      intro quiet
      subst entered
      exact disturbed ⟨quiet.observer, quiet.limit, quiet.context⟩
    | ok _ t =>
      have still := passive.1 _ t seen
      subst entered
      refine .enter done (by omega) ⟨still.core, rfl, still.calls, ?_⟩
      intro quiet
      exact ⟨quiet.observer, quiet.limit, by
        simpa only [still.cancellable, still.cancelled] using quiet.context⟩

theorem finish_of_ret {m : Machine World Watch} {i : Instruction} {s : RunState World Watch}
    (opcode : i.opcode = .ret) : Turn m i s (finish m i s) := by
  have plain : i.opcode ≠ .hostCall := by simp [opcode]
  have performed := perform_of_ok (m := m) plain
    (show Core.effect i s.toCore = .ok s.toCore by simp only [Core.effect, opcode])
  have done : deed m.externals i s.toCore = .leave := by simp only [deed, opcode]
  simp only [finish, bind_apply, performed, transfer, get_apply, opcode, leaveCall]
  cases top : s.calls with
  | nil =>
    simp only [fail_apply]
    exact .underflow done top rfl
  | cons a calls =>
    simp only [bind_apply, modify_apply]
    generalize left : (RunState.mk _ _ _ _ _ _ _ _ _ _ _ : RunState World Watch) = u
    have passive := passive_observeReturn m a.function u
    cases seen : observeReturn m a.function u with
    | error e t =>
      obtain ⟨_, disturbed, v, fault, cause, rfl⟩ := passive.2 e t seen
      refine .imposed ?_ cause
      intro quiet
      subst left
      exact disturbed ⟨quiet.observer, quiet.limit, quiet.context⟩
    | ok _ t =>
      have still := passive.1 _ t seen
      subst left
      refine .leave done top ⟨still.core, rfl, still.calls, ?_⟩
      intro quiet
      exact ⟨quiet.observer, quiet.limit, by
        simpa only [still.cancellable, still.cancelled] using quiet.context⟩

theorem finish_turn {m : Machine World Watch} {i : Instruction} {s : RunState World Watch}
    (fair : Fair m) (active : i.opcode.isMark = false) : Turn m i s (finish m i s) := by
  cases opcode : i.opcode with
  | label => simp [opcode, Opcode.isMark] at active
  | debugLine => simp [opcode, Opcode.isMark] at active
  | call => exact finish_of_call opcode
  | hostCall => exact finish_of_hostCall fair opcode
  | ret => exact finish_of_ret opcode
  | exit => exact finish_of_exit opcode
  | jump => exact finish_of_jump opcode
  | jumpIf condition => exact finish_of_jumpIf opcode
  | _ =>
    refine finish_of_effect (by simp [opcode]) ?_ ?_
    · intro t
      simp [transfer, bind_apply, opcode]
    · cases performed : Core.effect i s.toCore <;> simp only [deed, opcode, performed]

-- Being counted and observed changes nothing that a turn depends on.
theorem turn_of_still {m : Machine World Watch} {i : Instruction} {s t : RunState World Watch}
    {result : EStateM.Result RuntimeError (RunState World Watch) (Option Value)}
    (still : Still s t) (turn : Turn m i t result) : Turn m i s result := by
  have onward {u : RunState World Watch} {core : Core World} {address : Int}
      {calls : List Activation} (later : Onward m t u core address calls) :
      Onward m s u core address calls :=
    ⟨later.core, later.address, later.calls, fun quiet => later.quiet (quiet.of_still still)⟩
  cases turn with
  | proceed done later =>
    rw [still.core] at done
    rw [still.address, still.calls] at later
    exact .proceed done (onward later)
  | branch done later =>
    rw [still.core] at done later
    rw [still.calls] at later
    exact .branch done (onward later)
  | enter done room later =>
    rw [still.core] at done later
    rw [still.calls] at room
    rw [still.address, still.line, still.calls] at later
    exact .enter done room (onward later)
  | leave done top later =>
    rw [still.core] at done later
    rw [still.calls] at top
    exact .leave done top (onward later)
  | exit done after =>
    rw [still.core] at done
    exact .exit done after
  | fault done after =>
    rw [still.core] at done
    exact .fault done after
  | overflow done full after =>
    rw [still.core] at done after
    rw [still.calls] at full ⊢
    exact .overflow done full after
  | underflow done empty after =>
    rw [still.core] at done after
    rw [still.calls] at empty
    exact .underflow done empty after
  | imposed disturbed cause => exact .imposed (fun quiet => disturbed (quiet.of_still still)) cause

theorem execute_of_active {m : Machine World Watch} {i : Instruction}
    (active : i.opcode.isMark = false) :
    execute m i = (do countInstruction m; observeStep m i; finish m i) := by
  unfold execute finish
  cases opcode : i.opcode <;> first | rfl | simp [opcode, Opcode.isMark] at active

theorem execute_turn {m : Machine World Watch} {i : Instruction} {s : RunState World Watch}
    (fair : Fair m) : Turn m i s (execute m i s) := by
  cases active : i.opcode.isMark with
  | false =>
    rw [execute_of_active active]
    have counted := passive_countInstruction m s
    cases counting : countInstruction m s with
    | error e t =>
      obtain ⟨_, disturbed, u, fault, cause, rfl⟩ := counted.2 e t counting
      rw [bind_of_error counting]
      exact .imposed disturbed cause
    | ok _ t =>
      have still := counted.1 _ t counting
      have observed := passive_observeStep m i t
      rw [bind_of_ok counting]
      cases observing : observeStep m i t with
      | error e u =>
        obtain ⟨_, disturbed, v, fault, cause, rfl⟩ := observed.2 e u observing
        rw [bind_of_error observing]
        exact .imposed (fun quiet => disturbed (quiet.of_still still)) cause
      | ok _ u =>
        rw [bind_of_ok observing]
        exact turn_of_still (still.trans (observed.1 _ u observing)) (finish_turn fair active)
  | true =>
    cases opcode : i.opcode with
    | label =>
      have done : deed m.externals i s.toCore = .proceed s.toCore [] := by simp only [deed, opcode]
      simp only [execute, opcode, bind_apply, modify_apply, pure_apply]
      exact .proceed done
        ⟨rfl, rfl, rfl, fun quiet => ⟨quiet.observer, quiet.limit, quiet.context⟩⟩
    | debugLine =>
      have done : deed m.externals i s.toCore = .proceed s.toCore [] := by simp only [deed, opcode]
      simp only [execute, opcode, bind_apply, modify_apply, pure_apply]
      exact .proceed done
        ⟨rfl, rfl, rfl, fun quiet => ⟨quiet.observer, quiet.limit, quiet.context⟩⟩
    | _ => simp [opcode, Opcode.isMark] at active

-- One step: the end of the program, or the turn of the instruction at the address.
theorem step_turn {m : Machine World Watch} {s : RunState World Watch} (fair : Fair m)
    (inside : 0 ≤ s.address) :
    (m.code[s.address.toNat]? = none ∧ step m s = .ok (some .null) s) ∨
      ∃ i, m.code[s.address.toNat]? = some i ∧ Turn m i s (step m s) := by
  by_cases past : (m.code.size : Int) ≤ s.address
  · left
    refine ⟨Array.getElem?_eq_none (by omega), ?_⟩
    simp only [step, bind_apply, get_apply, if_pos past, pure_apply]
  · right
    have bound : s.address.toNat < m.code.size := by omega
    refine ⟨m.code[s.address.toNat], Array.getElem?_eq_getElem bound, ?_⟩
    simp only [step, bind_apply, get_apply, if_neg past, if_neg (by omega : ¬ s.address < 0),
      Array.getElem?_eq_getElem bound]
    have passive := passive_checkContext m s
    cases checked : checkContext m s with
    | error e t =>
      obtain ⟨_, disturbed, u, fault, cause, rfl⟩ := passive.2 e t checked
      exact .imposed disturbed cause
    | ok _ t => exact turn_of_still (passive.1 _ t checked) (execute_turn fair)

end Exec

end ScalarScript
