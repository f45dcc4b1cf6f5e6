import ScalarScript.Proofs.Machine.Count
import Mathlib.Data.Nat.Init
/-!
Limits of a run. A limit on instructions cuts a run off and changes nothing before that; under one,
every run comes to an end. The bound on calls is kept, and overstepping it is the only overflow.
-/
namespace ScalarScript

open Stateful

variable {World Watch : Type} {m : Machine World Watch} {i : Instruction}

-- The machine without a limit on instructions.
def Machine.unlimited (m : Machine World Watch) : Machine World Watch :=
  { m with instructionLimit := 0 }

namespace Exec

-- Being observed and finishing do not count.
theorem keeps_executed (n : Nat) :
    Keeps (Counts fun executed _ => executed = n) (fun _ => True)
      (do observeStep m i; finish m i) := by
  have others : AllowsOthers fun _ => True := fun _ _ => trivial
  refine (keeps_observeStep others).bind fun _ => keeps_finish others (fun _ => ?_) ?_
  · exact keeps_enterCall others (fun same _ => same) fun _ _ => trivial
  · exact keeps_leaveCall others fun same => same

-- A look at the context changes nothing but its own counter.
theorem checkContext_ok {s t : RunState World Watch} (checked : checkContext m s = .ok () t) :
    t = { s with sinceCheck := t.sinceCheck } := by
  simp only [checkContext, bind_apply, get_apply] at checked
  split at checked
  · split at checked
    · simp only [bind_apply, set_apply] at checked
      split at checked
      · cases checked
      · cases checked
        rfl
    · cases checked
      rfl
  · cases checked
    rfl

-- Within the limit an instruction is executed as without one.
theorem execute_within {s : RunState World Watch}
    (within : ((s.executed + 1 : Nat) : Int) ≤ m.instructionLimit) :
    execute m i s = execute m.unlimited i s := by
  cases active : i.opcode.isMark with
  | true =>
    cases opcode : i.opcode with
    | label => simp only [execute, opcode]
    | debugLine => simp only [execute, opcode]
    | _ => simp [opcode, Opcode.isMark] at active
  | false =>
    rw [execute_of_active active, execute_of_active active, bind_apply, bind_apply,
      countInstruction_apply, countInstruction_apply, if_neg (by omega),
      if_neg (by simp [Machine.unlimited])]
    rfl

-- Beyond the limit no instruction is executed.
theorem execute_beyond {s : RunState World Watch} (positive : 0 < m.instructionLimit)
    (full : (s.executed : Int) = m.instructionLimit) (active : i.opcode.isMark = false) :
    execute m i s =
      .error ({ s with executed := s.executed + 1 }.error (.instructionLimit m.instructionLimit))
        { s with executed := s.executed + 1 } := by
  rw [execute_of_active active, bind_apply, countInstruction_apply, if_pos (by omega)]

-- Any other instruction is counted, and counted once.
theorem executed_of_active {s : RunState World Watch} (active : i.opcode.isMark = false) :
    (endState (execute m i s)).executed = s.executed + 1 := by
  rw [execute_of_active active, bind_apply, countInstruction_apply]
  by_cases beyond : 0 < m.instructionLimit ∧ m.instructionLimit < ((s.executed + 1 : Nat) : Int)
  · rw [if_pos beyond]
    rfl
  · rw [if_neg beyond]
    exact (keeps_executed (s.executed + 1) { s with executed := s.executed + 1 } rfl).endState

end Exec

namespace Exec

-- What a step of the machine is without the limit, and what the limit makes of it.
inductive Curbed (m : Machine World Watch) (s : RunState World Watch) : Prop where
  | same (step_eq : step m s = step m.unlimited s)
      (within : ((endState (step m.unlimited s)).executed : Int) ≤ m.instructionLimit)
  | cut (u : RunState World Watch) (step_eq : step m s =
        .error (u.error (.instructionLimit m.instructionLimit)) u)
      (left : u = { s with executed := s.executed + 1, sinceCheck := u.sinceCheck })
      (full : (s.executed : Int) = m.instructionLimit)
      (beyond : m.instructionLimit < ((endState (step m.unlimited s)).executed : Int))

theorem curbed (positive : 0 < m.instructionLimit) {s : RunState World Watch}
    (within : (s.executed : Int) ≤ m.instructionLimit) : Curbed m s := by
  have others : AllowsOthers fun _ => True := fun _ _ => trivial
  have look : ((endState (checkContext m s)).executed) = s.executed :=
    (keeps_checkContext (Q := fun n _ => n = s.executed) others s rfl).endState
  cases placed m s with
  | past outside =>
    refine .same ?_ ?_
    · rw [step_of_past outside, step_of_past (m := m.unlimited) outside]
    · rw [step_of_past (m := m.unlimited) outside]
      exact within
  | negative outside =>
    have same : step m s = step m.unlimited s := by
      rw [step_of_negative outside, step_of_negative (m := m.unlimited) outside]
      rfl
    refine .same same ?_
    rw [← same, step_of_negative outside, bind_apply]
    cases checked : checkContext m s with
    | ok _ t =>
      rw [checked] at look
      exact look ▸ within
    | error e t =>
      rw [checked] at look
      exact look ▸ within
  | «at» i inside fetched =>
    have free : step m.unlimited s = (do checkContext m; execute m.unlimited i) s :=
      step_of_fetched (m := m.unlimited) inside fetched
    have bound : step m s = (do checkContext m; execute m i) s := step_of_fetched inside fetched
    rw [bind_apply] at free bound
    cases checked : checkContext m s with
    | error e t =>
      rw [checked] at look bound free
      refine .same (by rw [bound, free]) ?_
      rw [free]
      exact look ▸ within
    | ok _ t =>
      rw [checked] at look bound free
      have counted : t.executed = s.executed := look
      have after := checkContext_ok checked
      cases active : i.opcode.isMark with
      | true =>
        obtain ⟨line, ran⟩ := execute_of_mark (s := t) active
        refine .same (by rw [bound, free]; exact (ran m).trans (ran m.unlimited).symm) ?_
        rw [free]
        simp only [ran, endState]
        omega
      | false =>
        have more := executed_of_active (m := m.unlimited) (s := t) active
        by_cases room : ((t.executed + 1 : Nat) : Int) ≤ m.instructionLimit
        · refine .same (by rw [bound, free]; exact execute_within room) ?_
          rw [free]
          exact more ▸ room
        · have full : (t.executed : Int) = m.instructionLimit := by omega
          refine .cut { t with executed := t.executed + 1 } ?_ ?_ (by omega) ?_
          · rw [bound]
            exact execute_beyond positive full active
          · rw [after]
          · rw [free]
            show m.instructionLimit < ((endState (execute m.unlimited i t)).executed : Int)
            omega

-- The instruction that a step finds.
def fetched (m : Machine World Watch) (s : RunState World Watch) : Option Instruction :=
  m.code[s.address.toNat]?

-- A step that the run goes on from has executed the instruction found.
theorem executed_of_onward {s t : RunState World Watch} (stepped : step m s = .ok none t) :
    t.executed = s.executed +
      ((fetched m s).toList.countP fun i => !i.opcode.isMark) := by
  cases placed m s with
  | past outside =>
    rw [step_of_past outside] at stepped
    cases stepped
  | negative outside =>
    rw [step_of_negative outside, bind_apply] at stepped
    cases checked : checkContext m s with
    | ok _ u =>
      rw [checked] at stepped
      cases stepped
    | error e u =>
      rw [checked] at stepped
      cases stepped
  | «at» i inside found =>
    rw [step_of_fetched inside found, bind_apply] at stepped
    have single : ((fetched m s).toList.countP fun i => !i.opcode.isMark) =
        if i.opcode.isMark then 0 else 1 := by
      simp only [fetched, found, Option.toList_some, List.countP_singleton]
      cases i.opcode.isMark <;> rfl
    rw [single]
    cases checked : checkContext m s with
    | error e u =>
      rw [checked] at stepped
      cases stepped
    | ok _ u =>
      rw [checked] at stepped
      have after := checkContext_ok checked
      have counted : u.executed = s.executed := by rw [after]
      cases active : i.opcode.isMark with
      | true =>
        obtain ⟨line, ran⟩ := execute_of_mark (s := u) active
        have same : (.ok none t : EStateM.Result RuntimeError (RunState World Watch) (Option Value)) =
            .ok none _ := stepped.symm.trans (ran m)
        cases same
        simp [counted]
      | false =>
        have more := executed_of_active (m := m) (s := u) active
        rw [show execute m i u = .ok none t from stepped] at more
        simp only [endState] at more
        simp [more, counted]

-- The counter of a run is the number of instructions that it visited, marks apart.
theorem executed_eq_visited {s t : RunState World Watch} {n : Nat}
    (ran : drive (step m) n s = .ok none t) :
    t.executed = s.executed +
      ((visits (step m) (fetched m) n s).countP fun i => !i.opcode.isMark) := by
  induction n generalizing s with
  | zero =>
    cases ran
    rfl
  | succ n ih =>
    cases stepped : step m s with
    | error e u =>
      rw [drive_of_error stepped] at ran
      cases ran
    | ok result u =>
      cases result with
      | some v =>
        rw [drive_of_exit stepped] at ran
        cases ran
      | none =>
        rw [drive_of_onward stepped] at ran
        have here := executed_of_onward stepped
        have later := ih ran
        simp only [visits, stepped, List.countP_append]
        omega

theorem executed_grows (n : Nat) (s : RunState World Watch) :
    s.executed ≤ (endState (drive (step m) n s)).executed := by
  have follow : Bookkeeping m (fun n _ => s.executed ≤ n) (fun _ => True) :=
    ⟨fun _ _ => trivial, fun before => Nat.le_succ_of_le before, fun before _ => before,
      fun before => before, fun _ _ => trivial⟩
  exact ((keeps_step follow).drive n s (Nat.le_refl _)).endState

end Exec

-- How a run under a limit compares with the one without, after so many steps.
inductive Truncates (m : Machine World Watch) (s : RunState World Watch) (n : Nat) : Prop where
  -- within the limit nothing differs
  | same (within : ((endState (Exec.drive (Exec.step m.unlimited) n s)).executed : Int) ≤
        m.instructionLimit)
      (result : Exec.drive (Exec.step m) n s = Exec.drive (Exec.step m.unlimited) n s)
  -- beyond it the run is cut off in front of the instruction that would be one too many
  | cut (beyond : m.instructionLimit <
        ((endState (Exec.drive (Exec.step m.unlimited) n s)).executed : Int))
      (k : Nat) (t u : RunState World Watch) (before : k < n)
      (reached : Exec.drive (Exec.step m.unlimited) k s = .ok none t)
      (full : (t.executed : Int) = m.instructionLimit)
      (left : u = { t with executed := t.executed + 1, sinceCheck := u.sinceCheck })
      (result : Exec.drive (Exec.step m) n s =
        .error (u.error (.instructionLimit m.instructionLimit)) u)

theorem Exec.truncates (positive : 0 < m.instructionLimit) (n : Nat) {s : RunState World Watch}
    (within : (s.executed : Int) ≤ m.instructionLimit) : Truncates m s n := by
  induction n generalizing s with
  | zero => exact .same within (drive_zero.trans drive_zero.symm)
  | succ n ih =>
    cases curbed positive within with
    | cut u stepped left full beyond =>
      refine .cut ?_ 0 s u (Nat.succ_pos n) rfl full left (drive_of_error stepped)
      cases ahead : step m.unlimited s with
      | error e t =>
        rw [drive_of_error ahead]
        rwa [ahead] at beyond
      | ok result t =>
        rw [ahead] at beyond
        cases result with
        | some v =>
          rw [drive_of_exit ahead]
          exact beyond
        | none =>
          rw [drive_of_onward ahead]
          have grows := executed_grows (m := m.unlimited) n t
          have above : m.instructionLimit < (t.executed : Int) := beyond
          omega
    | same stepped inside =>
      cases ahead : step m.unlimited s with
      | error e t =>
        rw [ahead] at inside stepped
        have free := drive_of_error (n := n) ahead
        exact .same (by rwa [free]) ((drive_of_error stepped).trans free.symm)
      | ok result t =>
        rw [ahead] at inside stepped
        cases result with
        | some v =>
          have free := drive_of_exit (n := n) ahead
          exact .same (by rwa [free]) ((drive_of_exit stepped).trans free.symm)
        | none =>
          have free := drive_of_onward (n := n) ahead
          have bound := drive_of_onward (n := n) stepped
          cases ih inside with
          | same within result =>
            exact .same (by rwa [free]) (bound.trans (result.trans free.symm))
          | cut beyond k u v before reached full left result =>
            exact .cut (by rwa [free]) (k + 1) u v (by omega)
              ((drive_of_onward ahead).trans reached) full left (bound.trans result)

namespace Exec

-- Calls never pile up beyond the bound.
theorem calls_bounded (n : Nat) {s : RunState World Watch}
    (before : (s.calls.length : Int) ≤ m.maxCallDepth) :
    ((endState (drive (step m) n s)).calls.length : Int) ≤ m.maxCallDepth := by
  have follow : Bookkeeping m (fun _ calls => (calls.length : Int) ≤ m.maxCallDepth)
      (fun _ => True) := by
    refine ⟨fun _ _ => trivial, fun holds => holds, ?_, ?_, fun _ _ => trivial⟩
    · intro n a calls _ room
      rw [List.length_cons]
      omega
    · intro n a calls holds
      rw [List.length_cons] at holds
      omega
  exact ((keeps_step follow).drive n s before).endState

-- What comes before an instruction is executed.
def allow (m : Machine World Watch) (i : Instruction) : Exec World Watch Unit := do
  checkContext m
  countInstruction m
  observeStep m i

theorem step_of_allowed {s : RunState World Watch} (inside : 0 ≤ s.address)
    (found : m.code[s.address.toNat]? = some i) (active : i.opcode.isMark = false) :
    step m s = (do allow m i; finish m i) s := by
  rw [step_of_fetched inside found, execute_of_active active]
  simp only [allow, bind_assoc]

-- Being allowed leaves the calls alone and is never an overflow of them.
theorem keeps_allow (calls : List Activation) :
    Keeps (Counts fun _ now => now = calls) (fun f => f.code ≠ .callOverflow) (allow m i) := by
  have others : AllowsOthers fun f => f.code ≠ .callOverflow := fun _ other => other
  exact (keeps_checkContext others).bind fun _ =>
    (keeps_countInstruction others fun same => same).bind fun _ => keeps_observeStep others

theorem finish_of_enter {s : RunState World Watch} (opcode : i.opcode = .call) :
    finish m i s = (do
      enterCall m i
      modify fun s => { s with address := i.target }
      return none : Exec World Watch (Option Value)) s := by
  have plain : i.opcode ≠ .hostCall := by simp [opcode]
  have performed := perform_of_ok (m := m) plain
    (show Core.effect i s.toCore = .ok s.toCore by simp only [Core.effect, opcode])
  simp only [finish, bind_apply, performed, transfer, get_apply, opcode, RunState.roomAfter]
  cases enterCall m i s <;> rfl

theorem enterCall_of_full {s : RunState World Watch}
    (full : m.maxCallDepth ≤ (s.calls.length : Int)) :
    enterCall m i s = .error (s.error (.callOverflow s.calls.length)) s := by
  simp only [enterCall, bind_apply, get_apply, if_pos full, fail_apply]

theorem enterCall_of_room {s : RunState World Watch}
    (room : ¬ m.maxCallDepth ≤ (s.calls.length : Int)) :
    Kept (fun _ => True) (fun f => f.code ≠ .callOverflow) (enterCall m i s) := by
  simp only [enterCall, bind_apply, get_apply, if_neg room, set_apply]
  exact keeps_observeCall (Q := fun _ _ => True) (fun _ other => other) i.name false _ trivial

-- Only a call for which there is no room is an overflow of the calls.
theorem overflow_of_finish {s t : RunState World Watch} {e : RuntimeError}
    (failed : finish m i s = .error e t) (overflow : e.code = .callOverflow) :
    i.opcode = .call ∧ m.maxCallDepth ≤ (s.calls.length : Int) := by
  have others : AllowsOthers fun f => f.code ≠ .callOverflow := fun _ other => other
  by_cases opcode : i.opcode = .call
  · refine ⟨opcode, ?_⟩
    by_contra room
    have kept := enterCall_of_room (m := m) (i := i) room
    rw [finish_of_enter opcode, bind_apply] at failed
    cases entered : enterCall m i s with
    | ok _ u =>
      rw [entered] at failed
      cases failed
    | error e' u =>
      rw [entered] at failed kept
      cases failed
      obtain ⟨_, v, f, rfl, other⟩ := kept
      exact other overflow
  · have kept := keeps_finish (m := m) (i := i) (Q := fun _ _ => True) others
      (fun is => absurd is opcode) (keeps_leaveCall others fun _ => trivial) s trivial
    rw [failed] at kept
    obtain ⟨_, u, f, rfl, other⟩ := kept
    exact absurd overflow other

-- The calls overflow exactly where a call is executed while they are as many as there may be.
theorem overflow_iff {s : RunState World Watch}
    (bounded : (s.calls.length : Int) ≤ m.maxCallDepth) :
    (∃ e t, step m s = .error e t ∧ e.code = .callOverflow) ↔
      ∃ i t, 0 ≤ s.address ∧ m.code[s.address.toNat]? = some i ∧ i.opcode = .call ∧
        allow m i s = .ok () t ∧ (s.calls.length : Int) = m.maxCallDepth := by
  have others : AllowsOthers fun f => f.code ≠ .callOverflow := fun _ other => other
  constructor
  · rintro ⟨e, t, failed, overflow⟩
    cases placed m s with
    | past outside =>
      rw [step_of_past outside] at failed
      cases failed
    | negative outside =>
      have kept : Kept (Counts fun _ _ => True) (fun f => f.code ≠ .callOverflow) (step m s) := by
        rw [step_of_negative outside]
        exact (keeps_checkContext others).bind (fun _ => .fail (others.invalid rfl)) s trivial
      rw [failed] at kept
      obtain ⟨_, u, f, rfl, other⟩ := kept
      exact absurd overflow other
    | «at» i inside found =>
      cases active : i.opcode.isMark with
      | true =>
        have kept : Kept (Counts fun _ _ => True) (fun f => f.code ≠ .callOverflow) (step m s) := by
          rw [step_of_fetched inside found]
          refine (keeps_checkContext others).bind (fun _ => ?_) s trivial
          intro u _
          obtain ⟨line, ran⟩ := execute_of_mark (s := u) active
          rw [ran m]
          trivial
        rw [failed] at kept
        obtain ⟨_, u, f, rfl, other⟩ := kept
        exact absurd overflow other
      | false =>
        rw [step_of_allowed inside found active, bind_apply] at failed
        have kept := keeps_allow (m := m) (i := i) s.calls s rfl
        cases allowed : allow m i s with
        | error e' u =>
          rw [allowed] at failed kept
          cases failed
          obtain ⟨_, v, f, rfl, other⟩ := kept
          exact absurd overflow other
        | ok _ u =>
          rw [allowed] at failed kept
          obtain ⟨opcode, full⟩ := overflow_of_finish failed overflow
          have same : u.calls = s.calls := kept
          rw [same] at full
          exact ⟨i, u, inside, found, opcode, allowed, by omega⟩
  · rintro ⟨i, t, inside, found, opcode, allowed, full⟩
    have kept := keeps_allow (m := m) (i := i) s.calls s rfl
    rw [allowed] at kept
    have same : t.calls = s.calls := kept
    refine ⟨t.error (.callOverflow t.calls.length), t, ?_, rfl⟩
    rw [step_of_allowed inside found (by rw [opcode]; rfl), bind_of_ok allowed,
      finish_of_enter opcode, bind_of_error (enterCall_of_full (by rw [same]; omega))]

-- Under a limit every step that does not end the run counts an instruction or passes a mark.
theorem progress (positive : 0 < m.instructionLimit) {s t : RunState World Watch}
    (within : (s.executed : Int) ≤ m.instructionLimit) (stepped : step m s = .ok none t) :
    (t.executed : Int) ≤ m.instructionLimit ∧
      (s.executed < t.executed ∨
        t.executed = s.executed ∧ s.address < m.code.size ∧ t.address = s.address + 1) := by
  have inside : (t.executed : Int) ≤ m.instructionLimit := by
    cases curbed positive within with
    | same same within =>
      rw [← same, stepped] at within
      exact within
    | cut u failed =>
      rw [stepped] at failed
      cases failed
  refine ⟨inside, ?_⟩
  have counted := executed_of_onward stepped
  cases placed m s with
  | past outside =>
    rw [step_of_past outside] at stepped
    cases stepped
  | negative outside =>
    rw [step_of_negative outside, bind_apply] at stepped
    cases checked : checkContext m s <;> rw [checked] at stepped <;> cases stepped
  | «at» i low found =>
    cases active : i.opcode.isMark with
    | false =>
      left
      simp [fetched, found, active] at counted
      omega
    | true =>
      right
      obtain ⟨bound, _⟩ := Array.getElem?_eq_some_iff.mp found
      rw [step_of_fetched low found, bind_apply] at stepped
      cases checked : checkContext m s with
      | error e u =>
        rw [checked] at stepped
        cases stepped
      | ok _ u =>
        rw [checked] at stepped
        obtain ⟨line, ran⟩ := execute_of_mark (s := u) active
        have same : (.ok none t : EStateM.Result RuntimeError (RunState World Watch) (Option Value)) =
            .ok none _ := stepped.symm.trans (ran m)
        cases same
        have after := checkContext_ok checked
        refine ⟨?_, by omega, ?_⟩
        · rw [after]
        · rw [after]

-- Under a limit every run ends: either an instruction is counted, or the address comes closer to
-- the end of the program.
theorem ends (positive : 0 < m.instructionLimit) {s : RunState World Watch}
    (within : (s.executed : Int) ≤ m.instructionLimit) :
    ∃ fuel, (m.runFrom fuel s).isSome = true := by
  generalize left : (m.instructionLimit - s.executed).toNat = allowance
  induction allowance using Nat.strong_induction_on generalizing s with
  | _ allowance byCount =>
    generalize ahead : (m.code.size - s.address).toNat = distance
    induction distance using Nat.strong_induction_on generalizing s with
    | _ distance byMark =>
      cases stepped : step m s with
      | error e t => exact ⟨1, by simp only [Machine.runFrom, stepped]; rfl⟩
      | ok result t =>
        cases result with
        | some v => exact ⟨1, by simp only [Machine.runFrom, stepped]; rfl⟩
        | none =>
          obtain ⟨inside, counted | ⟨same, low, next⟩⟩ := progress positive within stepped
          · obtain ⟨fuel, done⟩ := byCount _ (by omega) inside rfl
            exact ⟨fuel + 1, by simp only [Machine.runFrom, stepped, done]⟩
          · obtain ⟨fuel, done⟩ := byMark (m.code.size - t.address).toNat (by omega) inside
              (by omega) rfl
            exact ⟨fuel + 1, by simp only [Machine.runFrom, stepped, done]⟩

end Exec

-- What the limits of a machine do to its runs, whatever its program.
theorem Machine.limits_only_truncate (m : Machine World Watch) (depth : 0 ≤ m.maxCallDepth)
    (around : Surroundings World Watch) (context : Context) :
    (0 < m.instructionLimit →
      (∀ n, Truncates m (Machine.start around context) n) ∧
      ∃ fuel, (m.runFrom fuel (Machine.start around context)).isSome = true) ∧
    (∀ n t, Exec.drive (Exec.step m.unlimited) n (Machine.start around context) = .ok none t →
      t.executed = (visits (Exec.step m.unlimited) (Exec.fetched m.unlimited) n
        (Machine.start around context)).countP fun i => !i.opcode.isMark) ∧
    (∀ n, ((endState (Exec.drive (Exec.step m) n (Machine.start around context))).calls.length : Int) ≤
      m.maxCallDepth) ∧
    ∀ n s, Exec.drive (Exec.step m) n (Machine.start around context) = .ok none s →
      ((∃ e t, Exec.step m s = .error e t ∧ e.code = .callOverflow) ↔
        ∃ i t, 0 ≤ s.address ∧ m.code[s.address.toNat]? = some i ∧ i.opcode = .call ∧
          Exec.allow m i s = .ok () t ∧ (s.calls.length : Int) = m.maxCallDepth) := by
  have bounded (n : Nat) := Exec.calls_bounded (m := m) n (s := Machine.start around context) depth
  refine ⟨?_, ?_, bounded, ?_⟩
  · intro positive
    have within : ((Machine.start around context).executed : Int) ≤ m.instructionLimit :=
      Int.le_of_lt positive
    exact ⟨fun n => Exec.truncates positive n within, Exec.ends positive within⟩
  · intro n t ran
    have counted := Exec.executed_eq_visited ran
    rwa [show (Machine.start around context).executed = 0 from rfl, Nat.zero_add] at counted
  · intro n s ran
    have here := bounded n
    rw [ran] at here
    exact Exec.overflow_iff here

-- A program that goes round in a circle, under a limit. The mark does not count.
def Machine.spinning : Machine Unit Unit where
  code := #[.label 0, .branch .jump 0]
  instructionLimit := 3

theorem Machine.spinning_truncated :
    let first : RunState Unit Unit := Machine.start ⟨#[], (), (), []⟩ .background
    0 ≤ Machine.spinning.maxCallDepth ∧ 0 < Machine.spinning.instructionLimit ∧
      (∃ k t u, k < 8 ∧ Exec.drive (Exec.step Machine.spinning.unlimited) k first = .ok none t ∧
        t.executed = 3 ∧ Exec.drive (Exec.step Machine.spinning) 8 first =
          .error (u.error (.instructionLimit 3)) u) ∧
      ∃ fuel, (Machine.spinning.runFrom fuel first).isSome = true := by
  intro first
  have depth : 0 ≤ Machine.spinning.maxCallDepth := by decide
  have positive : 0 < Machine.spinning.instructionLimit := by decide
  obtain ⟨truncated, _⟩ :=
    Machine.limits_only_truncate Machine.spinning depth ⟨#[], (), (), []⟩ .background
  obtain ⟨cuts, stops⟩ := truncated positive
  refine ⟨depth, positive, ?_, stops⟩
  cases cuts 8 with
  | same within =>
    have four : (endState (Exec.drive (Exec.step Machine.spinning.unlimited) 8
        (Machine.start ⟨#[], (), (), []⟩ .background))).executed = 4 := by decide +kernel
    rw [four] at within
    exact absurd within (by decide)
  | cut _ k t u before reached full _ result =>
    exact ⟨k, t, u, before, reached, Int.ofNat.inj full, result⟩

end ScalarScript
