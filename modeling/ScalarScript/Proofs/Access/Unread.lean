import ScalarScript.Proofs.Access.Agreement
import ScalarScript.Proofs.Machine.Abreast
/-!
The access table describes the machine. An instruction does the same whatever a register holds that
it does not read, and whatever the flags are where it does not ask for them. What it does not write
stays.
-/
namespace ScalarScript

open Stateful

variable {World Watch : Type}

-- States that differ in nothing but what a register holds.
def RunState.DifferAt (r : Register) (s t : RunState World Watch) : Prop :=
  ∃ v, t = { s with registers := s.registers.set r v }

-- States that differ in nothing but the flags.
def RunState.DifferInFlags (s t : RunState World Watch) : Prop :=
  ∃ flags, t = { s with flags }

-- The same answer or the same error, and related states behind it.
inductive Matched {α : Type} (Done Failed : RunState World Watch → RunState World Watch → Prop) :
    EStateM.Result RuntimeError (RunState World Watch) α →
      EStateM.Result RuntimeError (RunState World Watch) α → Prop where
  | ok {a : α} {s t : RunState World Watch} (state : Done s t) :
      Matched Done Failed (.ok a s) (.ok a t)
  | error {e : RuntimeError} {s t : RunState World Watch} (state : Failed s t) :
      Matched Done Failed (.error e s) (.error e t)

theorem Matched.mono {α : Type}
    {Done Failed Done' Failed' : RunState World Watch → RunState World Watch → Prop}
    {x y : EStateM.Result RuntimeError (RunState World Watch) α} (matched : Matched Done Failed x y)
    (done : ∀ s t, Done s t → Done' s t) (failed : ∀ s t, Failed s t → Failed' s t) :
    Matched Done' Failed' x y := by
  cases matched with
  | ok state => exact .ok (done _ _ state)
  | error state => exact .error (failed _ _ state)

theorem Matched.bind {α β : Type}
    {Done After Failed : RunState World Watch → RunState World Watch → Prop}
    {x : Exec World Watch α} {f : α → Exec World Watch β} {s t : RunState World Watch}
    (first : Matched Done Failed (x s) (x t))
    (second : ∀ a u v, Done u v → Matched After Failed (f a u) (f a v)) :
    Matched After Failed ((x >>= f) s) ((x >>= f) t) := by
  rw [bind_apply, bind_apply]
  generalize x s = one, x t = two at first
  cases first with
  | ok state => exact second _ _ _ state
  | error state => exact .error state

namespace RunState

variable {known : Register → Prop} {flags : Prop} {s t : RunState World Watch}

-- States whose cores agree, and that are the same in everything else.
def Agrees (known : Register → Prop) (flags : Prop) (s t : RunState World Watch) : Prop :=
  ∃ d, s.toCore.Agrees known flags d ∧ t = { s with toCore := d }

theorem registers_ext {rs ss : Registers} (same : ∀ r, ss.get? r = rs.get? r) : ss = rs := by
  obtain ⟨a, b, c⟩ := rs
  obtain ⟨x, y, z⟩ := ss
  cases same .eax
  cases same .ebx
  cases same .ecx
  rfl

theorem differAt_iff {r : Register} : s.DifferAt r t ↔ s.Agrees (· ≠ r) True t := by
  constructor
  · rintro ⟨v, rfl⟩
    refine ⟨s.toCore.setRegister r v, ⟨fun q other => ?_, fun _ => rfl, rfl, rfl, rfl, rfl⟩, rfl⟩
    exact Registers.get?_set_other other
  · rintro ⟨d, agrees, rfl⟩
    refine ⟨(d.registers.get? r).getD .null, ?_⟩
    have same : d.registers = s.registers.set r ((d.registers.get? r).getD .null) := by
      refine registers_ext fun q => ?_
      by_cases is : q = r
      · subst is
        obtain ⟨_ | _ | _ | n⟩ := q <;> rfl
      · rw [agrees.registers q is, Registers.get?_set_other is]
    rw [← same]
    conv_lhs => rw [agrees.eq_with, agrees.flags trivial]

theorem differInFlags_iff : s.DifferInFlags t ↔ s.Agrees (fun _ => True) False t := by
  constructor
  · rintro ⟨flags, rfl⟩
    exact ⟨{ s.toCore with flags }, ⟨fun _ _ => rfl, False.elim, rfl, rfl, rfl, rfl⟩, rfl⟩
  · rintro ⟨d, agrees, rfl⟩
    refine ⟨d.flags, ?_⟩
    conv_lhs => rw [agrees.eq_with, registers_ext fun r => agrees.registers r trivial]

-- States that agree in everything are equal.
theorem Agrees.eq (agrees : s.Agrees known flags t) (all : ∀ r, known r) (counts : flags) :
    t = s := by
  obtain ⟨d, core, rfl⟩ := agrees
  rw [core.eq_with, core.flags counts, registers_ext fun r => core.registers r (all r)]

theorem Agrees.mono {known' : Register → Prop} {flags' : Prop} (agrees : s.Agrees known flags t)
    (fewer : ∀ r, known' r → known r) (less : flags' → flags) : s.Agrees known' flags' t := by
  obtain ⟨d, core, rfl⟩ := agrees
  exact ⟨d, core.mono fewer less, rfl⟩

theorem Agrees.still {i : Instruction} (agrees : s.Agrees known flags t)
    (none : i.opcode.writes 0 = false) (plain : i.opcode.setsFlags = false) :
    s.Agrees (i.Learns known) (i.Settles flags) t := by
  obtain ⟨d, core, rfl⟩ := agrees
  exact ⟨d, core.still none plain, rfl⟩

theorem Agrees.error_eq (agrees : s.Agrees known flags t) (f : RuntimeFault) :
    t.error f = s.error f := by
  obtain ⟨d, core, rfl⟩ := agrees
  rfl

end RunState

theorem Matched.of_alike {α : Type} {known : Register → Prop} {flags : Prop}
    {x y : EStateM.Result RuntimeError (RunState World Watch) α}
    (alike : Alike (RunState.Agrees known flags) Eq x y) :
    Matched (RunState.Agrees known flags) (RunState.Agrees known flags) x y := by
  cases alike with
  | ok value state =>
    cases value
    exact .ok state
  | error place state =>
    rw [place.error_eq]
    exact .error state

namespace Exec

variable {known : Register → Prop} {flags : Prop} {m : Machine World Watch} {i : Instruction}

-- Reading the state first, which differs in its core alone.
theorem agreeing_look {α : Type} {Q : α → α → Prop} {f : RunState World Watch → Exec World Watch α}
    (next : ∀ (s : RunState World Watch) d, s.toCore.Agrees known flags d →
      Parallel (RunState.Agrees known flags) Q (f s) (f { s with toCore := d })) :
    Parallel (RunState.Agrees known flags) Q (do let s ← get; f s) (do let s ← get; f s) := by
  refine .read ?_
  rintro s _ ⟨d, agrees, rfl⟩
  exact next s d agrees

-- A change of anything else than the core.
theorem agreeing_modify {f : RunState World Watch → RunState World Watch}
    (apart : ∀ (s : RunState World Watch) d, s.toCore.Agrees known flags d →
      (f s).Agrees known flags (f { s with toCore := d })) :
    Parallel (RunState.Agrees known flags) Eq (modify f : Exec World Watch PUnit) (modify f) := by
  rintro s _ ⟨d, agrees, rfl⟩
  exact .ok rfl (apart s d agrees)

-- The observer is told of a core no more than how many operands there are.
theorem agreeing_notify {look : RunState World Watch → Watch × Verdict}
    (heard : ∀ (s : RunState World Watch) d, s.toCore.Agrees known flags d →
      look { s with toCore := d } = look s) :
    Parallel (RunState.Agrees known flags) Eq
      (do
        let s ← get
        let (watch, verdict) := look s
        set { s with watch }
        obey verdict)
      (do
        let s ← get
        let (watch, verdict) := look s
        set { s with watch }
        obey verdict) := by
  refine agreeing_look fun s d agrees => ?_
  rw [heard s d agrees]
  refine Parallel.bind (Q := fun _ _ => True) (.set ⟨d, agrees, rfl⟩) fun _ _ _ => ?_
  exact fun u v along => (Parallel.obey (R := RunState.Agrees known flags) _ u v along).mono
    (fun _ _ => id) fun _ _ _ => rfl

theorem agreeing_stepDue (config : ObserverConfig) :
    Parallel (RunState.Agrees known flags) Eq (stepDue config : Exec World Watch Bool)
      (stepDue config) := by
  refine agreeing_look fun s d agrees => ?_
  cases config.mode with
  | all => exact .pure rfl
  | none => exact .pure rfl
  | sampled => exact .pure rfl
  | onLine =>
    dsimp only
    split
    · exact .pure rfl
    · exact Parallel.bind (Q := fun _ _ => True) (.set ⟨d, agrees, rfl⟩) fun _ _ _ => .pure rfl

theorem agreeing_observeStep :
    Parallel (RunState.Agrees known flags) Eq (observeStep m i) (observeStep m i) := by
  unfold observeStep
  cases m.observer with
  | none => exact .pure rfl
  | some o =>
    refine Parallel.bind (agreeing_stepDue o.config.normalize) ?_
    rintro due _ rfl
    cases due with
    | false => exact .pure rfl
    | true =>
      refine agreeing_notify fun s d agrees => ?_
      simp only [agrees.stack]

theorem agreeing_observeCall (name : String) (external : Bool) :
    Parallel (RunState.Agrees known flags) Eq (observeCall m name external)
      (observeCall m name external) := by
  unfold observeCall
  cases m.observer with
  | none => exact .pure rfl
  | some o =>
    dsimp only
    split
    · exact agreeing_notify fun s d agrees => rfl
    · exact .pure rfl

theorem agreeing_observeReturn (name : String) :
    Parallel (RunState.Agrees known flags) Eq (observeReturn m name) (observeReturn m name) := by
  unfold observeReturn
  cases m.observer with
  | none => exact .pure rfl
  | some o =>
    dsimp only
    split
    · exact agreeing_notify fun s d agrees => rfl
    · exact .pure rfl

theorem agreeing_countInstruction :
    Parallel (RunState.Agrees known flags) Eq (countInstruction m) (countInstruction m) := by
  refine agreeing_look fun s d agrees => ?_
  refine Parallel.bind (agreeing_modify fun u e along => ⟨e, along, rfl⟩) fun _ _ _ => ?_
  dsimp only
  split
  · exact .fail (.instructionLimit _)
  · exact .pure rfl

theorem agreeing_invoke (f : HostFunction World) (arity : Nat) :
    Parallel (RunState.Agrees known flags) Eq
      (invoke f arity : Exec World Watch (HostReply World)) (invoke f arity) := by
  rintro s _ ⟨d, agrees, rfl⟩
  have asked : d.request arity = s.request arity := by simp only [Core.request, agrees.stack, agrees.cells]
  refine .ok ?_ ⟨d.answered arity (f s.world (s.request arity)), ?_, ?_⟩
  · show f s.world (s.request arity) = f d.world (d.request arity)
    rw [asked, agrees.world]
  · exact { agrees with
      stack := by simp only [Core.answered, agrees.stack]
      cells := by simp only [Core.answered, agrees.cells]
      world := rfl }
  · simp only [asked, agrees.world, RunState.roomBelow, agrees.stack]

theorem agreeing_regain (count : Nat) :
    Parallel (RunState.Agrees known flags) Eq (regain count : Exec World Watch Unit)
      (regain count) := by
  refine agreeing_look fun s d agrees => ?_
  dsimp only
  rw [agrees.stack]
  split
  · exact .stop (.noRoom _ _) _ _
  · rintro u v along
    refine .ok rfl ⟨{ d with stack := (s.room.take count).reverse ++ d.stack }, ?_, rfl⟩
    exact { agrees with stack := by simp only [RunState.regain, agrees.stack] }

theorem agreeing_callHost (slot : Int) :
    Parallel (RunState.Agrees known flags) Eq (callHost m slot) (callHost m slot) := by
  unfold callHost
  cases External.function? m.externals slot with
  | none => exact .fail (.notHostFunction slot)
  | some pair =>
    obtain ⟨ext, f⟩ := pair
    refine agreeing_look fun s d agrees => ?_
    dsimp only
    rw [agrees.stack]
    split
    · exact .stop (.missingArguments ext.name ext.arity) _ _
    refine Parallel.bind (agreeing_observeCall ext.name true) fun _ _ _ => ?_
    refine Parallel.bind (agreeing_invoke f ext.arity.toNat) ?_
    rintro reply _ rfl
    refine Parallel.bind (agreeing_regain _) fun _ _ _ => ?_
    refine Parallel.bind (Parallel.raise _) ?_
    rintro v _ rfl
    refine Parallel.bind (agreeing_observeReturn ext.name) fun _ _ _ => ?_
    refine Parallel.bind (Parallel.raise _) ?_
    rintro w _ rfl
    refine agreeing_modify fun u e along => ⟨e.setRegister .eax w, ?_, rfl⟩
    exact { along with registers := fun r is => Core.get?_set_congr fun _ => along.registers r is }

theorem agreeing_enterCall :
    Parallel (RunState.Agrees known flags) Eq (enterCall m i) (enterCall m i) := by
  refine agreeing_look fun s d agrees => ?_
  dsimp only
  split
  · exact .stop (.callOverflow _) _ _
  · exact Parallel.bind (Q := fun _ _ => True) (.set ⟨d, agrees, rfl⟩) fun _ _ _ =>
      agreeing_observeCall i.name false

theorem agreeing_leaveCall :
    Parallel (RunState.Agrees known flags) Eq (leaveCall m) (leaveCall m) := by
  refine agreeing_look fun s d agrees => ?_
  dsimp only
  split
  · exact .fail _
  · refine Parallel.bind (agreeing_modify fun u e along => ⟨e, along, rfl⟩) fun _ _ _ => ?_
    refine Parallel.bind (agreeing_observeReturn _) fun _ _ _ => ?_
    refine Parallel.bind (agreeing_modify fun u e along => ⟨e, along, rfl⟩) fun _ _ _ => ?_
    exact .pure rfl

-- Where control goes depends on what an exit reads, and on the flags at a conditional jump.
theorem agreeing_transfer (reads : i.opcode = .exit → ∀ r, i.first = .register r → known r)
    (asks : i.opcode.isConditionalJump = true → flags) :
    Parallel (RunState.Agrees known flags) Eq (transfer m i) (transfer m i) := by
  refine agreeing_look fun s d agrees => ?_
  cases opcode : i.opcode with
  | exit =>
    refine agreeing_look fun u e along => ?_
    dsimp only
    rw [along.resolve (reads opcode)]
    refine Parallel.bind (Parallel.raise _) ?_
    rintro v _ rfl
    exact .pure rfl
  | jumpIf condition =>
    refine agreeing_look fun u e along => ?_
    dsimp only
    rw [along.flags (asks (by rw [opcode]; rfl))]
    exact .pure rfl
  | call => exact Parallel.bind agreeing_enterCall fun _ _ _ => .pure rfl
  | ret =>
    refine Parallel.bind agreeing_leaveCall ?_
    rintro back _ rfl
    exact .pure rfl
  | _ => exact .pure rfl

variable {s t : RunState World Watch}

theorem perform_matched (agrees : s.Agrees known flags t)
    (reads : ∀ r, i.reads (.register r) = true → known r) (asks : flagEffect i = .read → flags) :
    Matched (RunState.Agrees (i.Learns known) (i.Settles flags)) (RunState.Agrees known flags)
      (perform m i s) (perform m i t) := by
  by_cases host : i.opcode = .hostCall
  · unfold perform
    rw [host]
    refine (Matched.of_alike (agreeing_callHost i.target s t agrees)).mono (fun u v along => ?_)
      fun _ _ => id
    exact along.still (by rw [host]; rfl) (by rw [host]; rfl)
  · obtain ⟨d, core, rfl⟩ := agrees
    have paired := core.effect (core.supplied reads) fun sets => asks (by
      cases opcode : i.opcode <;> simp [opcode, Opcode.isSet] at sets
      simp [flagEffect, opcode])
    have room : { s with toCore := d }.roomAfter i.opcode = s.roomAfter i.opcode := by
      simp only [RunState.roomAfter, core.stack]
    rw [perform_of_plain host]
    simp only [bind_apply, get_apply, room]
    generalize s.toCore.effect i = here, d.effect i = there at paired
    cases paired with
    | @ok e e' after => exact .ok ⟨e', after, rfl⟩
    | error f => exact .error ⟨d, core, rfl⟩

-- An instruction, between states that agree on what it reads.
theorem execute_matched (agrees : s.Agrees known flags t)
    (reads : ∀ r, i.reads (.register r) = true → known r) (asks : flagEffect i = .read → flags) :
    Matched (RunState.Agrees (i.Learns known) (i.Settles flags)) (RunState.Agrees known flags)
      (execute m i s) (execute m i t) := by
  have forget {u v : RunState World Watch} (along : u.Agrees (i.Learns known) (i.Settles flags) v) :
      u.Agrees known flags v := along.mono (fun _ => .inl) .inl
  cases active : i.opcode.isMark with
  | true =>
    have after := agrees.still (i := i)
      (by cases opcode : i.opcode <;> simp_all [Opcode.isMark, Opcode.writes])
      (by cases opcode : i.opcode <;> simp_all [Opcode.isMark, Opcode.setsFlags])
    obtain ⟨d, core, rfl⟩ := after
    unfold execute
    cases opcode : i.opcode with
    | label => exact .ok ⟨d, core, rfl⟩
    | debugLine => exact .ok ⟨d, core, rfl⟩
    | _ => simp [opcode, Opcode.isMark] at active
  | false =>
    rw [execute_of_active active]
    refine Matched.bind (.of_alike (agreeing_countInstruction s t agrees)) fun _ u v along => ?_
    refine Matched.bind (.of_alike (agreeing_observeStep u v along)) fun _ u v along => ?_
    refine Matched.bind (perform_matched along reads asks) fun _ u v along => ?_
    have moved := agreeing_transfer (m := m) (i := i) (fun exits r is => ?_) (fun jumps => ?_) u v
      along
    · refine Matched.bind ((Matched.of_alike moved).mono (fun _ _ => id) fun _ _ => forget)
        fun way u v along => ?_
      cases way with
      | inr w => exact .ok along
      | inl next =>
        obtain ⟨d, core, rfl⟩ := along
        exact .ok ⟨d, core, rfl⟩
    · exact .inl (reads r (Instruction.reads_of_first (by rw [exits]; rfl) is))
    · refine .inl (asks ?_)
      cases opcode : i.opcode <;> simp [opcode, Opcode.isConditionalJump] at jumps
      simp [flagEffect, opcode]

-- An instruction that is no host call does what it does without a host.
theorem execute_alone (plain : i.opcode ≠ .hostCall) :
    execute m i = execute { m with externals := #[] } i := by
  unfold execute
  simp only [perform_of_plain plain]
  rfl

theorem preserves_of_plain {P : RunState World Watch → Prop} (internal : Internal P)
    (regains : ∀ s count, P s → P (s.regain count)) (withstands : Withstands i P)
    (plain : i.opcode ≠ .hostCall) : Preserves P (execute m i) := by
  have survives : Survives { m with externals := #[] } P :=
    internal.survives (fun _ _ _ member => by simp at member) regains
      fun _ _ _ _ _ member => by simp at member
  rw [execute_alone plain]
  cases active : i.opcode.isMark with
  | true => exact preserves_mark survives active
  | false =>
    rw [execute_of_active active]
    exact internal.countInstruction.bind fun _ => (internal.observeStep i).bind fun _ =>
      preserves_finish survives withstands

-- It leaves a register alone that it does not write.
theorem execute_keeps {r : Register} (plain : i.opcode ≠ .hostCall)
    (unwritten : i.writes (.register r) = false) :
    (endState (execute m i s)).registers.get? r = s.registers.get? r := by
  have internal : Internal fun t : RunState World Watch =>
      t.registers.get? r = s.registers.get? r := by
    intro t u core _ holds
    rw [core]
    exact holds
  have kept := preserves_of_plain (m := m) (i := i) internal (fun _ _ holds => holds)
    (fun t holds d done => (Core.effect_keeps unwritten d done).trans holds) plain
  exact (kept s rfl).endState

-- The access table describes the machine. An instruction does the same in states that differ in a
-- register that it does not read: it gives the same value or the same error, it goes on at the same
-- address, and the states behind it differ in that register at most, where it was written in
-- nothing. A register that it does not write stays as it is. The same holds of the flags.
theorem execute_blind (m : Machine World Watch) (i : Instruction) :
    (∀ r s t, i.reads (.register r) = false → s.DifferAt r t →
      Matched (fun u v => u.DifferAt r v ∧ (i.writes (.register r) = true → v = u))
        (RunState.DifferAt r) (execute m i s) (execute m i t)) ∧
    (∀ r s, i.opcode ≠ .hostCall → i.writes (.register r) = false →
      (endState (execute m i s)).registers.get? r = s.registers.get? r) ∧
    ∀ s t, flagEffect i ≠ .read → s.DifferInFlags t →
      Matched (fun u v => u.DifferInFlags v ∧ (flagEffect i = .kill → i.opcode ≠ .call → v = u))
        RunState.DifferInFlags (execute m i s) (execute m i t) := by
  refine ⟨fun r s t unread differ => ?_, fun r s plain unwritten => execute_keeps plain unwritten,
    fun s t asked differ => ?_⟩
  · have matched := execute_matched (m := m) (i := i) (RunState.differAt_iff.mp differ)
      (fun q reads same => by rw [same, unread] at reads; cases reads) fun _ => trivial
    refine matched.mono (fun u v along => ⟨?_, fun writes => ?_⟩) fun u v =>
      RunState.differAt_iff.mpr
    · exact RunState.differAt_iff.mpr (along.mono (fun _ => .inl) .inl)
    · refine along.eq (fun q => ?_) (.inl trivial)
      by_cases is : q = r
      · exact .inr (is ▸ writes)
      · exact .inl is
  · have matched := execute_matched (m := m) (i := i) (RunState.differInFlags_iff.mp differ)
      (fun _ _ => trivial) fun reads => absurd reads asked
    refine matched.mono (fun u v along => ⟨?_, fun kills other => ?_⟩) fun u v =>
      RunState.differInFlags_iff.mpr
    · exact RunState.differInFlags_iff.mpr (along.mono (fun _ => .inl) .inl)
    · refine along.eq (fun _ => .inl trivial) (.inr ?_)
      cases opcode : i.opcode <;> simp_all [flagEffect, Opcode.setsFlags]

-- A copy writes a register that it does not read, and a comparison asks for no flags.
def blank : Machine Unit Unit := { code := #[] }

def outset : RunState Unit Unit := Machine.start { cells := #[], world := (), watch := () } .background

theorem execute_blind_copy :
    (let copy := Instruction.move (.register .ebx) (.register .eax)
     copy.reads (.register .ebx) = false ∧ copy.writes (.register .ebx) = true ∧
      outset.DifferAt .ebx { outset with registers := outset.registers.set .ebx (.truth true) } ∧
      Matched (fun u v => u.DifferAt .ebx v ∧ (copy.writes (.register .ebx) = true → v = u))
        (RunState.DifferAt .ebx) (execute blank copy outset)
        (execute blank copy
          { outset with registers := outset.registers.set .ebx (.truth true) }) ∧
      copy.writes (.register .ecx) = false ∧
      (endState (execute blank copy outset)).registers.get? .ecx = outset.registers.get? .ecx) ∧
    (let compare := Instruction.binary .compare (.register .eax) (.register .ebx)
     flagEffect compare ≠ .read ∧ outset.DifferInFlags { outset with flags := ⟨true, true, true⟩ } ∧
      Matched (fun u v => u.DifferInFlags v ∧
          (flagEffect compare = .kill → compare.opcode ≠ .call → v = u))
        RunState.DifferInFlags (execute blank compare outset)
        (execute blank compare { outset with flags := ⟨true, true, true⟩ })) := by
  have differs : outset.DifferAt .ebx
      { outset with registers := outset.registers.set .ebx (.truth true) } := ⟨_, rfl⟩
  have asks : flagEffect (.binary .compare (.register .eax) (.register .ebx)) ≠ .read := by
    decide
  have flagged : outset.DifferInFlags { outset with flags := ⟨true, true, true⟩ } := ⟨_, rfl⟩
  exact ⟨⟨rfl, rfl, differs, (execute_blind blank _).1 _ _ _ rfl differs, rfl,
    (execute_blind blank _).2.1 _ _ (by decide) rfl⟩,
    asks, flagged, (execute_blind blank _).2.2 _ _ asks flagged⟩

end Exec

end ScalarScript
