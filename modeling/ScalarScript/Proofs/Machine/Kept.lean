import ScalarScript.Proofs.Machine.Count
/-!
What a step keeps, put together from its parts: a property of states that survives the effect of
every instruction, every host function and every note of where the run is, survives the run.
-/
namespace ScalarScript

open Stateful

variable {World Watch : Type} {m : Machine World Watch} {i : Instruction}
  {P : RunState World Watch → Prop}

-- What holds of a result, if there is one.
def Promises {α : Type} (Q : α → Prop) (r : Except RuntimeFault α) : Prop := ∀ a, r = .ok a → Q a

namespace Promises

variable {α β : Type} {Q : α → Prop} {Q' : β → Prop}

theorem ok {a : α} (holds : Q a) : Promises Q (.ok a) := by
  rintro _ ⟨⟩
  exact holds

theorem error (f : RuntimeFault) : Promises Q (.error f) := nofun

theorem bind {r : Except RuntimeFault α} {f : α → Except RuntimeFault β}
    (second : ∀ a, r = .ok a → Promises Q' (f a)) : Promises Q' (r >>= f) := by
  cases r with
  | ok a => exact second a rfl
  | error g => exact .error g

end Promises

namespace Exec

variable {α β : Type}

-- Actions after which a property holds, if it did before.
abbrev Preserves (P : RunState World Watch → Prop) (x : Exec World Watch α) : Prop :=
  Keeps P (fun _ => True) x

theorem Kept.bind {E : RuntimeFault → Prop} {x : Exec World Watch α}
    {f : α → Exec World Watch β} {s : RunState World Watch} (first : Kept P E (x s))
    (second : ∀ a, Keeps P E (f a)) : Kept P E ((x >>= f) s) := by
  rw [bind_apply]
  cases ran : x s with
  | ok a t =>
    rw [ran] at first
    exact second a t first
  | error e t =>
    rw [ran] at first
    exact first

theorem Keeps.raising {r : Except RuntimeFault α} {f : α → Exec World Watch β}
    (next : ∀ a, r = .ok a → Preserves P (f a)) : Preserves P (do let a ← Exec.raise r; f a) := by
  cases r with
  | ok a => exact next a rfl
  | error fault => exact .stop trivial f

-- What a host function does, and what is done with its reply.
theorem Keeps.invoking {f : HostFunction World} {arity : Nat}
    {next : HostReply World → Exec World Watch β}
    (acts : ∀ s, P s → P (afterInvoke s arity (f s.world (s.request arity))))
    (goes : ∀ s, P s → Preserves P (next (f s.world (s.request arity)))) :
    Preserves P (do let reply ← invoke f arity; next reply) := by
  intro s holds
  have invoked : invoke f arity s =
      .ok (f s.world (s.request arity)) (afterInvoke s arity (f s.world (s.request arity))) := rfl
  rw [bind_of_ok invoked]
  exact goes s holds _ (acts s holds)

end Exec

-- A property that the parts of an instruction keep once it is counted and observed, its effect on
-- the core apart.
structure Survives (m : Machine World Watch) (P : RunState World Watch → Prop) : Prop where
  call : ∀ name external, Exec.Preserves P (Exec.observeCall m name external)
  back : ∀ name, Exec.Preserves P (Exec.observeReturn m name)
  invoke : ∀ s ext f, ext ∈ m.externals → ext.function = some f → P s →
    P (Exec.afterInvoke s ext.arity.toNat (f s.world (s.request ext.arity.toNat)))
  regain : ∀ s count, P s → P (s.regain count)
  -- the value is one that a host function gave where it was called
  result : ∀ s site ext f v, ext ∈ m.externals → ext.function = some f → P site →
    (ext.answer (f site.world (site.request ext.arity.toNat))).bind ext.checkResult = .ok v → P s →
    P { s with registers := s.registers.set .eax v }
  enter : ∀ s a, P s → P { s with calls := a :: s.calls }
  leave : ∀ s rest, P s → P { s with calls := rest }
  line : ∀ s line, P s → P { s with line }
  address : ∀ s address, P s → P { s with address }

-- A property that the effect of an instruction keeps.
def Withstands (i : Instruction) (P : RunState World Watch → Prop) : Prop :=
  ∀ s, P s →
    Promises (fun core => P { s with toCore := core, room := s.roomAfter i.opcode }) (s.effect i)

namespace Exec

theorem preserves_regain (survives : Survives m P) (count : Nat) :
    Preserves P (regain count : Exec World Watch Unit) := by
  refine .read fun s holds => ?_
  dsimp only
  split
  · exact .stop trivial _
  · exact .set (survives.regain s count holds)

theorem preserves_callHost (survives : Survives m P) (slot : Int) :
    Preserves P (callHost m slot) := by
  unfold callHost
  split
  · exact .fail trivial
  · rename_i ext f found
    obtain ⟨member, given⟩ := function?_mem found
    refine .read fun s _ => ?_
    dsimp only
    split
    · exact .stop trivial _
    refine .bind (survives.call ext.name true) fun _ => ?_
    refine .invoking (fun s holds => survives.invoke s ext f member given holds) ?_
    intro site there
    refine .bind (preserves_regain survives _) fun _ => .raising fun v answer => ?_
    refine .bind (survives.back ext.name) fun _ => .raising fun u checked => ?_
    refine .modify fun t holds => survives.result t site ext f u member given there ?_ holds
    rw [answer]
    exact checked

theorem preserves_perform (survives : Survives m P) (withstands : Withstands i P) :
    Preserves P (perform m i) := by
  by_cases host : i.opcode = .hostCall
  · unfold perform
    rw [host]
    exact preserves_callHost survives i.target
  · rw [perform_of_plain host]
    refine .read fun s holds => .raising fun core done => .set ?_
    exact withstands s holds core done

theorem preserves_enterCall (survives : Survives m P) : Preserves P (enterCall m i) := by
  refine .read fun s holds => ?_
  dsimp only
  split
  · exact .stop trivial _
  · exact .bind (.set (survives.enter s _ holds)) fun _ => survives.call i.name false

theorem preserves_leaveCall (survives : Survives m P) : Preserves P (leaveCall m) := by
  refine .read fun s _ => ?_
  split
  · exact .fail trivial
  · exact .bind (.modify fun s holds => survives.leave s _ holds) fun _ =>
      .bind (survives.back _) fun _ =>
        .bind (.modify fun s holds => survives.line s _ holds) fun _ => .pure _

theorem preserves_transfer (survives : Survives m P) : Preserves P (transfer m i) := by
  refine .read fun s _ => ?_
  cases i.opcode with
  | exit => exact .read fun s _ => .raising fun v _ => .pure _
  | jumpIf condition => exact .read fun s _ => .pure _
  | call => exact .bind (preserves_enterCall survives) fun _ => .pure _
  | ret => exact .bind (preserves_leaveCall survives) fun back => .pure _
  | _ => exact .pure _

-- What an instruction does once it is counted and observed.
theorem preserves_finish (survives : Survives m P) (withstands : Withstands i P) :
    Preserves P (finish m i) := by
  refine .bind (preserves_perform survives withstands) fun _ => ?_
  refine .bind (preserves_transfer survives) fun way => ?_
  cases way with
  | inr v => exact .pure _
  | inl next => exact .bind (.modify fun s holds => survives.address s _ holds) fun _ => .pure _

theorem preserves_mark (survives : Survives m P) (mark : i.opcode.isMark = true) :
    Preserves P (execute m i) := by
  intro s holds
  obtain ⟨line, ran⟩ := execute_of_mark (s := s) mark
  rw [ran]
  exact survives.address _ _ (survives.line s line holds)

-- A whole step, with what comes before the instruction is performed.
theorem preserves_step (survives : Survives m P) (effects : ∀ i ∈ m.code, Withstands i P)
    (checks : Preserves P (checkContext m)) (counts : Preserves P (countInstruction m))
    (observes : ∀ i, Preserves P (observeStep m i)) : Preserves P (step m) := by
  intro s holds
  cases placed m s with
  | past outside =>
    rw [step_of_past outside]
    exact holds
  | negative outside =>
    rw [step_of_negative outside]
    exact checks.bind (fun _ => .fail trivial) s holds
  | «at» i inside found =>
    rw [step_of_fetched inside found]
    refine checks.bind (fun _ => ?_) s holds
    cases active : i.opcode.isMark with
    | true => exact preserves_mark survives active
    | false =>
      rw [execute_of_active active]
      exact counts.bind fun _ => (observes i).bind fun _ =>
        preserves_finish survives (effects i (Array.mem_of_getElem? found))

theorem preserves_obey (v : Verdict) : Preserves P (obey v) := by
  cases v with
  | proceed => exact .pure ()
  | halt => exact .fail trivial
  | crash message => exact .fail trivial

end Exec

-- A property of the core and the room alone.
def Internal (P : RunState World Watch → Prop) : Prop :=
  ∀ s t, t.toCore = s.toCore → t.room = s.room → P s → P t

section Internal

open Exec

theorem Internal.notify (internal : Internal P)
    (look : RunState World Watch → Watch × Verdict) :
    Preserves P (do
      let s ← get
      let (watch, verdict) := look s
      set { s with watch }
      obey verdict) :=
  .read fun s holds => .bind (.set (internal s _ rfl rfl holds)) fun _ => preserves_obey _

theorem Internal.checkContext (internal : Internal P) : Preserves P (Exec.checkContext m) := by
  refine .read fun s holds => ?_
  split
  · split
    · refine .bind (.set (internal s _ rfl rfl holds)) fun _ => ?_
      split
      · exact .fail trivial
      · exact .pure ()
    · exact .set (internal s _ rfl rfl holds)
  · exact .pure ()

theorem Internal.countInstruction (internal : Internal P) :
    Preserves P (Exec.countInstruction m) := by
  refine .read fun s _ => .bind (.modify fun t holds => internal t _ rfl rfl holds) fun _ => ?_
  split
  · exact .fail trivial
  · exact .pure ()

theorem Internal.observeStep (internal : Internal P) (i : Instruction) :
    Preserves P (Exec.observeStep m i) := by
  unfold Exec.observeStep
  split
  · exact .pure ()
  · refine .bind (.read fun s holds => ?_) fun due => ?_
    · split
      · exact .pure true
      · exact .pure false
      · exact .pure _
      · split
        · exact .pure false
        · exact .bind (.set (internal s _ rfl rfl holds)) fun _ => .pure true
    · cases due with
      | false => exact .pure ()
      | true => exact internal.notify _

theorem Internal.observeCall (internal : Internal P) (name : String) (external : Bool) :
    Preserves P (Exec.observeCall m name external) := by
  unfold Exec.observeCall
  split
  · exact .pure ()
  · split
    · exact internal.notify _
    · exact .pure ()

theorem Internal.observeReturn (internal : Internal P) (name : String) :
    Preserves P (Exec.observeReturn m name) := by
  unfold Exec.observeReturn
  split
  · exact .pure ()
  · split
    · exact internal.notify _
    · exact .pure ()

theorem Internal.survives (internal : Internal P)
    (invoke : ∀ s ext f, ext ∈ m.externals → ext.function = some f → P s →
      P (Exec.afterInvoke s ext.arity.toNat (f s.world (s.request ext.arity.toNat))))
    (regain : ∀ s count, P s → P (s.regain count))
    (result : ∀ s site ext f v, ext ∈ m.externals → ext.function = some f → P site →
      (ext.answer (f site.world (site.request ext.arity.toNat))).bind ext.checkResult = .ok v → P s →
      P { s with registers := s.registers.set .eax v }) : Survives m P where
  call := internal.observeCall
  back := internal.observeReturn
  invoke := invoke
  regain := regain
  result := result
  enter s _ holds := internal s _ rfl rfl holds
  leave s _ holds := internal s _ rfl rfl holds
  line s _ holds := internal s _ rfl rfl holds
  address s _ holds := internal s _ rfl rfl holds

theorem Internal.step (internal : Internal P) (survives : Survives m P)
    (effects : ∀ i ∈ m.code, Withstands i P) : Preserves P (Exec.step m) :=
  preserves_step survives effects internal.checkContext internal.countInstruction
    internal.observeStep

end Internal

end ScalarScript
