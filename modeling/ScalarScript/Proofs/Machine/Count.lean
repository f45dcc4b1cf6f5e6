import ScalarScript.Proofs.Machine.Drive
import ScalarScript.Proofs.Machine.Raised
/-!
Bookkeeping of a run: the instructions executed and the calls that have not returned. An instruction
is counted once, a call is entered only while there is room for it, and no other fault is an
overflow of the calls.
-/
namespace ScalarScript

open Stateful

variable {World Watch : Type}

section Counts

variable {m : Machine World Watch} {i : Instruction} {Q : Nat → List Activation → Prop}
  {E : RuntimeFault → Prop}

-- A property of how far a run has come: the instructions executed, and the calls not returned from.
def Counts (Q : Nat → List Activation → Prop) (s : RunState World Watch) : Prop :=
  Q s.executed s.calls

-- Faults other than an overflow of the calls are allowed.
def AllowsOthers (E : RuntimeFault → Prop) : Prop := ∀ f, f.code ≠ .callOverflow → E f

theorem AllowsOthers.raises {α : Type} (others : AllowsOthers E) {r : Except RuntimeFault α}
    (raises : Raises RuntimeFault.OfCore r) : Raises E r :=
  raises.imp fun f inner => others f inner.code_ne

theorem AllowsOthers.invalid (others : AllowsOthers E) {f : RuntimeFault}
    (is : f.code = .invalidOperation) : E f := others f (by rw [is]; decide)

theorem AllowsOthers.underflow (others : AllowsOthers E) {f : RuntimeFault}
    (is : f.code = .stackUnderflow) : E f := others f (by rw [is]; decide)

theorem AllowsOthers.cancelled (others : AllowsOthers E) {f : RuntimeFault}
    (is : f.code = .cancelled) : E f := others f (by rw [is]; decide)

namespace Exec

theorem keeps_obey (others : AllowsOthers E) (v : Verdict) :
    Keeps (Counts Q) E (obey v : Exec World Watch Unit) := by
  cases v with
  | proceed => exact .pure ()
  | halt => exact .fail (others.cancelled rfl)
  | crash message => exact .fail (others.invalid rfl)

theorem keeps_notify (others : AllowsOthers E) (look : RunState World Watch → Watch × Verdict) :
    Keeps (Counts Q) E (do
      let s ← get
      let (watch, verdict) := look s
      set { s with watch }
      obey verdict) :=
  .read fun _ holds => .bind (.set holds) fun _ => keeps_obey others _

theorem keeps_stepDue (config : ObserverConfig) :
    Keeps (Counts Q) E (stepDue config : Exec World Watch Bool) := by
  refine .read ?_
  intro s holds
  cases config.mode with
  | all => exact .pure true
  | none => exact .pure false
  | sampled => exact .pure _
  | onLine =>
    dsimp only
    split
    · exact .pure false
    · exact .bind (.set holds) fun _ => .pure true

theorem keeps_observeStep (others : AllowsOthers E) : Keeps (Counts Q) E (observeStep m i) := by
  unfold observeStep
  split
  · exact .pure ()
  · refine .bind (keeps_stepDue _) ?_
    intro due
    cases due with
    | false => exact .pure ()
    | true => exact keeps_notify others _

theorem keeps_observeCall (others : AllowsOthers E) (name : String) (external : Bool) :
    Keeps (Counts Q) E (observeCall m name external) := by
  unfold observeCall
  split
  · exact .pure ()
  · split
    · exact keeps_notify others _
    · exact .pure ()

theorem keeps_observeReturn (others : AllowsOthers E) (name : String) :
    Keeps (Counts Q) E (observeReturn m name) := by
  unfold observeReturn
  split
  · exact .pure ()
  · split
    · exact keeps_notify others _
    · exact .pure ()

theorem keeps_checkContext (others : AllowsOthers E) : Keeps (Counts Q) E (checkContext m) := by
  refine .read ?_
  intro s holds
  split
  · split
    · refine .bind (.set holds) fun _ => ?_
      split
      · exact .fail (others.cancelled rfl)
      · exact .pure ()
    · exact .set holds
  · exact .pure ()

theorem keeps_regain (others : AllowsOthers E) (count : Nat) :
    Keeps (Counts Q) E (regain count : Exec World Watch Unit) := by
  refine .read ?_
  intro s holds
  dsimp only
  split
  · exact .stop (others.invalid rfl) _
  · exact .set holds

theorem keeps_callHost (others : AllowsOthers E) (slot : Int) :
    Keeps (Counts Q) E (callHost m slot) := by
  unfold callHost
  split
  · exact .fail (others.invalid rfl)
  · rename_i ext f _
    refine .read ?_
    intro s _
    dsimp only
    split
    · exact .stop (others.underflow rfl) _
    refine .bind (keeps_observeCall others ext.name true) fun _ => ?_
    refine .bind (fun s holds => holds) fun reply => ?_
    refine .bind (keeps_regain others _) fun _ => ?_
    refine .bind (.raise ((raises_answer ext reply).imp others)) fun v => ?_
    refine .bind (keeps_observeReturn others ext.name) fun _ => ?_
    refine .bind (.raise (others.raises (raises_checkResult ext v))) fun w => ?_
    exact .modify fun s holds => holds

theorem keeps_perform (others : AllowsOthers E) : Keeps (Counts Q) E (perform m i) := by
  by_cases host : i.opcode = .hostCall
  · have performs : perform m i = callHost m i.target := by
      unfold perform
      rw [host]
    rw [performs]
    exact keeps_callHost others i.target
  · rw [perform_of_plain host]
    exact .read fun s holds =>
      .bind (.raise (others.raises (Core.raises_effect s.toCore i))) fun core => .set holds

end Exec

namespace Exec

theorem keeps_enterCall (others : AllowsOthers E)
    (enter : ∀ {n a calls}, Q n calls → (calls.length : Int) < m.maxCallDepth → Q n (a :: calls))
    (overflow : ∀ {n calls}, Q n calls → m.maxCallDepth ≤ (calls.length : Int) →
      E (.callOverflow calls.length)) : Keeps (Counts Q) E (enterCall m i) := by
  refine .read ?_
  intro s holds
  dsimp only
  split
  · rename_i full
    exact .stop (overflow holds full) _
  · rename_i room
    exact .bind (.set (enter holds (by omega))) fun _ => keeps_observeCall others i.name false

theorem keeps_leaveCall (others : AllowsOthers E)
    (leave : ∀ {n a calls}, Q n (a :: calls) → Q n calls) :
    Keeps (Counts Q) E (leaveCall m) := by
  intro s holds
  unfold leaveCall
  rw [bind_apply]
  cases top : s.calls with
  | nil =>
    simp only [get_apply, top]
    exact ⟨holds, s, .emptyCalls, rfl, others.underflow rfl⟩
  | cons a rest =>
    simp only [get_apply, top]
    have fewer : Counts Q { s with calls := rest } := by
      rw [Counts, top] at holds
      exact leave holds
    have later : Keeps (Counts Q) E (do
        observeReturn m a.function
        modify fun s => { s with line := a.line }
        return a.resume : Exec World Watch Int) :=
      .bind (keeps_observeReturn others a.function) fun _ =>
        .bind (.modify fun s holds => holds) fun _ => .pure a.resume
    exact later _ fewer

theorem keeps_transfer (others : AllowsOthers E)
    (entered : i.opcode = .call → Keeps (Counts Q) E (enterCall m i))
    (left : Keeps (Counts Q) E (leaveCall m)) : Keeps (Counts Q) E (transfer m i) := by
  refine .read ?_
  intro s holds
  cases opcode : i.opcode with
  | exit =>
    exact .read fun s _ =>
      .bind (.raise (others.raises (Core.raises_resolve s.toCore _))) fun v => .pure _
  | jump => exact .pure _
  | jumpIf condition => exact .read fun s _ => .pure _
  | call => exact .bind (entered opcode) fun _ => .pure _
  | ret => exact .bind left fun back => .pure _
  | _ => exact .pure _

theorem keeps_finish (others : AllowsOthers E)
    (entered : i.opcode = .call → Keeps (Counts Q) E (enterCall m i))
    (left : Keeps (Counts Q) E (leaveCall m)) : Keeps (Counts Q) E (finish m i) := by
  refine .bind (keeps_perform others) fun _ => .bind (keeps_transfer others entered left) fun way => ?_
  cases way with
  | inr v => exact .pure (some v)
  | inl next => exact .bind (.modify fun s holds => holds) fun _ => .pure none

theorem countInstruction_apply (m : Machine World Watch) (s : RunState World Watch) :
    countInstruction m s =
      if 0 < m.instructionLimit ∧ m.instructionLimit < ((s.executed + 1 : Nat) : Int) then
        .error ({ s with executed := s.executed + 1 }.error (.instructionLimit m.instructionLimit))
          { s with executed := s.executed + 1 }
      else .ok () { s with executed := s.executed + 1 } := by
  simp only [countInstruction, bind_apply, get_apply, modify_apply, Bool.and_eq_true,
    decide_eq_true_eq]
  split <;> rfl

theorem keeps_countInstruction (others : AllowsOthers E)
    (count : ∀ {n calls}, Q n calls → Q (n + 1) calls) :
    Keeps (Counts Q) E (countInstruction m) := by
  intro s holds
  rw [countInstruction_apply]
  split
  · exact ⟨count holds, _, _, rfl, others _ (by decide : Code.instructionLimit ≠ Code.callOverflow)⟩
  · exact count holds

-- Marks are not counted.
theorem execute_of_mark {s : RunState World Watch} (mark : i.opcode.isMark = true) :
    ∃ line, ∀ m : Machine World Watch,
      execute m i s = .ok none { s with line, address := s.address + 1 } := by
  cases opcode : i.opcode with
  | label => exact ⟨s.line, fun m => by simp only [execute, opcode]; rfl⟩
  | debugLine => exact ⟨i.line, fun m => by simp only [execute, opcode]; rfl⟩
  | _ => simp [opcode, Opcode.isMark] at mark

end Exec

-- Calls come and go one at a time, instructions are counted one by one, and where there is no room
-- for a call its fault is allowed.
structure Bookkeeping (m : Machine World Watch) (Q : Nat → List Activation → Prop)
    (E : RuntimeFault → Prop) : Prop where
  others : AllowsOthers E
  count : ∀ {n calls}, Q n calls → Q (n + 1) calls
  enter : ∀ {n a calls}, Q n calls → (calls.length : Int) < m.maxCallDepth → Q n (a :: calls)
  leave : ∀ {n a calls}, Q n (a :: calls) → Q n calls
  overflow : ∀ {n calls}, Q n calls → m.maxCallDepth ≤ (calls.length : Int) →
    E (.callOverflow calls.length)

namespace Exec

theorem keeps_execute (follow : Bookkeeping m Q E) : Keeps (Counts Q) E (execute m i) := by
  cases active : i.opcode.isMark with
  | true =>
    intro s holds
    obtain ⟨line, ran⟩ := execute_of_mark (s := s) active
    rw [ran m]
    exact holds
  | false =>
    rw [execute_of_active active]
    exact (keeps_countInstruction follow.others follow.count).bind fun _ =>
      (keeps_observeStep follow.others).bind fun _ =>
        keeps_finish follow.others
          (fun _ => keeps_enterCall follow.others follow.enter follow.overflow)
          (keeps_leaveCall follow.others follow.leave)

theorem keeps_step (follow : Bookkeeping m Q E) : Keeps (Counts Q) E (step m) := by
  intro s holds
  cases placed m s with
  | past outside =>
    rw [step_of_past outside]
    exact holds
  | negative outside =>
    rw [step_of_negative outside]
    exact (keeps_checkContext follow.others).bind (fun _ => .fail (follow.others.invalid rfl)) s holds
  | «at» i inside found =>
    rw [step_of_fetched inside found]
    exact (keeps_checkContext follow.others).bind (fun _ => keeps_execute follow) s holds

end Exec

end Counts

end ScalarScript
