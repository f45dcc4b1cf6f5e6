import ScalarScript.Proofs.Machine.Limit
/-!
A run that is observed, beside the same run that is not. As long as the observer lets it go on, they
differ in nothing but what the observer knows; where it objects, the observed run ends.
-/
namespace ScalarScript

open Stateful

variable {World Watch Eye : Type}

-- The machine with that observer, or with none.
def Machine.observedBy (m : Machine World Watch) (observer : Option (Observer Eye)) :
    Machine World Eye where
  code := m.code
  externals := m.externals
  observer := observer
  instructionLimit := m.instructionLimit
  contextInterval := m.contextInterval
  maxCallDepth := m.maxCallDepth

-- States that differ in nothing but what the observer knows.
def Unseen (s t : RunState World Watch) : Prop :=
  ∃ watch observedLine, t = { s with watch, observedLine }

theorem Unseen.refl (s : RunState World Watch) : Unseen s s := ⟨s.watch, s.observedLine, rfl⟩

theorem Unseen.address {s t : RunState World Watch} (unseen : Unseen s t) :
    t.address = s.address := by
  obtain ⟨_, _, rfl⟩ := unseen
  rfl

-- What a run is ended with.
def Verdict.fault? : Verdict → Option RuntimeFault
  | .proceed => none
  | .halt => some .halted
  | .crash message => some (.internal message)

section Shadowed

variable (Good : Watch → Prop) (Bad : Watch → RuntimeFault → Prop)

-- An answer of the observer: what it knows is good as long as it lets the run go on, and bad once it
-- ends the run.
def Heeds (answer : Watch × Verdict) : Prop :=
  match answer.2.fault? with
  | none => Good answer.1
  | some f => Bad answer.1 f

structure Observer.Follows (o : Observer Watch) : Prop where
  step : ∀ w e, Good w → Heeds Good Bad (o.onStep w e)
  call : ∀ w e, Good w → Heeds Good Bad (o.onCall w e)
  back : ∀ w e, Good w → Heeds Good Bad (o.onReturn w e)

-- What becomes of an action that is observed, beside the same action unobserved.
inductive Shadowed {α : Type} : EStateM.Result RuntimeError (RunState World Watch) α →
    EStateM.Result RuntimeError (RunState World Watch) α → Prop where
  | same {a : α} {s t : RunState World Watch} (unseen : Unseen s t) (good : Good s.watch) :
      Shadowed (.ok a s) (.ok a t)
  | failed {e : RuntimeError} {s t : RunState World Watch} (unseen : Unseen s t)
      (good : Good s.watch) : Shadowed (.error e s) (.error e t)
  | stopped {f : RuntimeFault} {s : RunState World Watch}
      {result : EStateM.Result RuntimeError (RunState World Watch) α} (bad : Bad s.watch f) :
      Shadowed (.error (s.error f) s) result

namespace Exec

variable {α β : Type}

def Shadows (x y : Exec World Watch α) : Prop :=
  ∀ s t, Unseen s t → Good s.watch → Shadowed Good Bad (x s) (y t)

end Exec

end Shadowed

namespace Exec

variable {α β : Type} {Good : Watch → Prop} {Bad : Watch → RuntimeFault → Prop}

theorem Shadows.pure (a : α) : Shadows Good Bad (pure a : Exec World Watch α) (pure a) := by
  intro s t unseen good
  exact .same unseen good

theorem Shadows.bind {x y : Exec World Watch α} {f g : α → Exec World Watch β}
    (first : Shadows Good Bad x y) (second : ∀ a, Shadows Good Bad (f a) (g a)) :
    Shadows Good Bad (x >>= f) (y >>= g) := by
  intro s t unseen good
  rw [bind_apply, bind_apply]
  have ran := first s t unseen good
  generalize x s = one at ran
  generalize y t = two at ran
  cases ran with
  | same unseen good => exact second _ _ _ unseen good
  | failed unseen good => exact .failed unseen good
  | stopped bad => exact .stopped bad

-- An action that reads the state first, apart from what the observer knows.
theorem Shadows.read {f g : RunState World Watch → Exec World Watch α}
    (next : ∀ s watch observedLine, Good s.watch →
      Shadows Good Bad (f s) (g { s with watch, observedLine })) :
    Shadows Good Bad (do let s ← get; f s) (do let t ← get; g t) := by
  rintro s _ ⟨watch, line, rfl⟩ good
  exact next s watch line good s _ ⟨watch, line, rfl⟩ good

theorem Shadows.set {s t : RunState World Watch} (unseen : Unseen s t) (good : Good s.watch) :
    Shadows Good Bad (set s : Exec World Watch PUnit) (set t) := by
  intro _ _ _ _
  exact .same unseen good

theorem Shadows.modify {f : RunState World Watch → RunState World Watch}
    (same : ∀ s watch observedLine,
      f { s with watch, observedLine } = { f s with watch, observedLine })
    (keeps : ∀ s, (f s).watch = s.watch) :
    Shadows Good Bad (modify f : Exec World Watch PUnit) (modify f) := by
  rintro s _ ⟨watch, line, rfl⟩ good
  refine .same ⟨watch, line, same s watch line⟩ ?_
  rwa [keeps]

theorem Shadows.fail (f : RuntimeFault) :
    Shadows Good Bad (fail f : Exec World Watch α) (fail f) := by
  rintro s _ ⟨watch, line, rfl⟩ good
  exact .failed ⟨watch, line, rfl⟩ good

-- Nothing comes after a failure.
theorem Shadows.stop (f : RuntimeFault) (next next' : α → Exec World Watch β) :
    Shadows Good Bad (do let a ← Exec.fail f; next a) (do let a ← Exec.fail f; next' a) := by
  rintro s _ ⟨watch, line, rfl⟩ good
  exact .failed ⟨watch, line, rfl⟩ good

theorem Shadows.raise (r : Except RuntimeFault α) :
    Shadows Good Bad (raise r : Exec World Watch α) (raise r) := by
  cases r with
  | ok a => exact .pure a
  | error f => exact .fail f

theorem Shadows.branch {p q : Prop} [Decidable p] [Decidable q]
    {x x' y y' : Exec World Watch α} (same : p ↔ q) (yes : Shadows Good Bad x y)
    (no : Shadows Good Bad x' y') :
    Shadows Good Bad (if p then x else x') (if q then y else y') := by
  by_cases holds : p
  · rwa [if_pos holds, if_pos (same.mp holds)]
  · rwa [if_neg holds, if_neg fun other => holds (same.mpr other)]

theorem obey_eq (v : Verdict) :
    (obey v : Exec World Watch Unit) = match v.fault? with
      | none => pure ()
      | some f => fail f := by
  cases v <;> rfl

-- Asking the observer, beside doing nothing.
theorem shadows_notify {look : RunState World Watch → Watch × Verdict}
    (heeds : ∀ s, Good s.watch → Heeds Good Bad (look s)) :
    Shadows Good Bad (do
      let s ← get
      let (watch, verdict) := look s
      set { s with watch }
      obey verdict) (Pure.pure ()) := by
  rintro s _ ⟨watch, line, rfl⟩ good
  have heeded := heeds s good
  show Shadowed Good Bad (obey (look s).2 { s with watch := (look s).1 }) _
  rw [obey_eq]
  unfold Heeds at heeded
  cases fault : (look s).2.fault? with
  | none =>
    rw [fault] at heeded
    exact .same ⟨watch, line, rfl⟩ heeded
  | some f =>
    rw [fault] at heeded
    exact .stopped heeded

end Exec

-- Whether a step is shown to the observer: the number of the instruction in the run and its line
-- decide, and the line of the one before.
def ObserverConfig.fires (config : ObserverConfig) (number : Nat) (last line : Int) : Bool :=
  match config.mode with
  | .all => true
  | .none => false
  | .sampled => (number : Int) % max 1 config.interval == 0
  | .onLine => line != last

-- What an observer is shown of a step.
def RunState.event (s : RunState World Watch) (i : Instruction) : StepEvent where
  address := s.address
  code := i.opcode.code
  mnemonic := i.opcode.name
  instruction := i.render true
  line := s.line
  stackDepth := s.stack.length
  frameDepth := s.calls.length

namespace Exec

variable {m : Machine World Watch} {i : Instruction} {o : Observer Eye}
  {Good : Eye → Prop} {Bad : Eye → RuntimeFault → Prop}

theorem stepDue_apply (config : ObserverConfig) (s : RunState World Eye) :
    stepDue config.normalize s =
      .ok (config.fires s.executed s.observedLine s.line)
        { s with observedLine := if config.mode = .onLine then s.line else s.observedLine } := by
  obtain ⟨mode, interval, calls, returns⟩ := config
  cases mode with
  | all => rfl
  | none => rfl
  | sampled =>
    by_cases low : interval ≤ 0
    · have one : max 1 interval = 1 := by omega
      simp [stepDue, bind_apply, ObserverConfig.normalize, low, ObserverConfig.fires, one]
    · have same : max 1 interval = interval := by omega
      simp [stepDue, bind_apply, ObserverConfig.normalize, low, ObserverConfig.fires, same]
  | onLine =>
    by_cases same : s.line = s.observedLine
    · obtain ⟨core, address, line, executed, room, calls, watch, _, _, _, observedLine⟩ := s
      cases same
      simp [stepDue, bind_apply, ObserverConfig.normalize, ObserverConfig.fires]
    · simp [stepDue, bind_apply, ObserverConfig.normalize, ObserverConfig.fires, same]

-- The observer is shown a step, and obeyed.
def showStep (o : Observer Eye) (i : Instruction) : Exec World Eye Unit := do
  let s ← get
  let (watch, verdict) := o.onStep s.watch (s.event i)
  set { s with watch }
  obey verdict

theorem observeStep_apply (s : RunState World Eye) :
    observeStep (m.observedBy (some o)) i s =
      if o.config.fires s.executed s.observedLine s.line then
        showStep o i
          { s with observedLine := if o.config.mode = .onLine then s.line else s.observedLine }
      else .ok ()
        { s with observedLine := if o.config.mode = .onLine then s.line else s.observedLine } := by
  show (do
    if ← stepDue o.config.normalize then showStep o i : Exec World Eye Unit) s = _
  rw [bind_apply, stepDue_apply]
  cases o.config.fires s.executed s.observedLine s.line <;> rfl

theorem shadows_observeStep (follows : o.Follows Good Bad) :
    Shadows Good Bad (observeStep (m.observedBy (some o)) i)
      (observeStep (m.observedBy none) i) := by
  rintro s _ ⟨watch, line, rfl⟩ good
  rw [observeStep_apply]
  split
  · exact shadows_notify (fun s good => follows.step _ _ good) _ _ ⟨watch, line, rfl⟩ good
  · exact .same ⟨watch, line, rfl⟩ good

theorem shadows_observeCall (follows : o.Follows Good Bad) (name : String) (external : Bool) :
    Shadows Good Bad (observeCall (m.observedBy (some o)) name external)
      (observeCall (m.observedBy none) name external) := by
  show Shadows Good Bad (if o.config.calls then _ else _) (Pure.pure ())
  split
  · exact shadows_notify fun s good => follows.call _ _ good
  · exact .pure ()

theorem shadows_observeReturn (follows : o.Follows Good Bad) (name : String) :
    Shadows Good Bad (observeReturn (m.observedBy (some o)) name)
      (observeReturn (m.observedBy none) name) := by
  show Shadows Good Bad (if o.config.returns then _ else _) (Pure.pure ())
  split
  · exact shadows_notify fun s good => follows.back _ _ good
  · exact .pure ()

theorem shadows_checkContext :
    Shadows Good Bad (checkContext (m.observedBy (some o)))
      (checkContext (m.observedBy none)) := by
  refine .read fun s watch line good => ?_
  refine .branch Iff.rfl (.branch Iff.rfl ?_ ?_) (.pure ())
  · exact .bind (.set ⟨watch, line, rfl⟩ good) fun _ => .branch Iff.rfl (.fail .cancelled) (.pure ())
  · exact .set ⟨watch, line, rfl⟩ good

theorem shadows_countInstruction :
    Shadows Good Bad (countInstruction (m.observedBy (some o)))
      (countInstruction (m.observedBy none)) := by
  refine .read fun s watch line good => ?_
  refine .bind (.modify (fun _ _ _ => rfl) fun _ => rfl) fun _ => ?_
  exact .branch Iff.rfl (.fail _) (.pure ())

theorem shadows_invoke (f : HostFunction World) (arity : Nat) :
    Shadows Good Bad (invoke f arity) (invoke f arity) := by
  rintro s _ ⟨watch, line, rfl⟩ good
  exact .same ⟨watch, line, rfl⟩ good

theorem shadows_regain (count : Nat) :
    Shadows Good Bad (regain count : Exec World Eye Unit) (regain count) := by
  refine .read fun s watch line good => ?_
  exact .branch Iff.rfl (.stop _ _ _) (.set ⟨watch, line, rfl⟩ good)

theorem shadows_answerHost (follows : o.Follows Good Bad) (ext : External World)
    (f : HostFunction World) :
    Shadows Good Bad (answerHost (m.observedBy (some o)) ext f)
      (answerHost (m.observedBy none) ext f) := by
  refine .bind (shadows_invoke f _) fun reply => .bind (shadows_regain _) fun _ => ?_
  refine .bind (.raise _) fun v => .bind (shadows_observeReturn follows ext.name) fun _ => ?_
  exact .bind (.raise _) fun w => .modify (fun _ _ _ => rfl) fun _ => rfl

theorem shadows_callHost (follows : o.Follows Good Bad) (slot : Int) :
    Shadows Good Bad (callHost (m.observedBy (some o)) slot)
      (callHost (m.observedBy none) slot) := by
  have same (b : Option (Observer Eye)) : (m.observedBy b).externals = m.externals := rfl
  unfold callHost
  rw [same, same]
  cases External.function? m.externals slot with
  | none => exact .fail _
  | some pair =>
    obtain ⟨ext, f⟩ := pair
    refine .read fun s watch line good => ?_
    refine .branch Iff.rfl (.stop _ _ _) ?_
    exact .bind (shadows_observeCall follows ext.name true) fun _ =>
      shadows_answerHost follows ext f

theorem shadows_perform (follows : o.Follows Good Bad) :
    Shadows Good Bad (perform (m.observedBy (some o)) i)
      (perform (m.observedBy none) i) := by
  by_cases host : i.opcode = .hostCall
  · unfold perform
    rw [host]
    exact shadows_callHost follows i.target
  · rw [perform_of_plain host, perform_of_plain host]
    refine .read fun s watch line good => .bind (.raise _) fun core => ?_
    exact .set ⟨watch, line, rfl⟩ good

theorem shadows_enterCall (follows : o.Follows Good Bad) :
    Shadows Good Bad (enterCall (m.observedBy (some o)) i)
      (enterCall (m.observedBy none) i) := by
  refine .read fun s watch line good => ?_
  refine .branch Iff.rfl (.stop _ _ _) ?_
  exact .bind (.set ⟨watch, line, rfl⟩ good) fun _ => shadows_observeCall follows i.name false

theorem shadows_leaveCall (follows : o.Follows Good Bad) :
    Shadows Good Bad (leaveCall (m.observedBy (some o)))
      (leaveCall (m.observedBy none)) := by
  refine .read fun s watch line good => ?_
  dsimp only
  split
  · exact .fail _
  · refine .bind (.modify (fun _ _ _ => rfl) fun _ => rfl) fun _ => ?_
    refine .bind (shadows_observeReturn follows _) fun _ => ?_
    exact .bind (.modify (fun _ _ _ => rfl) fun _ => rfl) fun _ => .pure _

theorem shadows_transfer (follows : o.Follows Good Bad) :
    Shadows Good Bad (transfer (m.observedBy (some o)) i)
      (transfer (m.observedBy none) i) := by
  refine .read fun s watch line good => ?_
  cases i.opcode with
  | exit => exact .read fun _ _ _ _ => .bind (.raise _) fun v => .pure _
  | jumpIf condition => exact .read fun _ _ _ _ => .pure _
  | call => exact .bind (shadows_enterCall follows) fun _ => .pure _
  | ret => exact .bind (shadows_leaveCall follows) fun back => .pure _
  | _ => exact .pure _

theorem shadows_finish (follows : o.Follows Good Bad) :
    Shadows Good Bad (finish (m.observedBy (some o)) i)
      (finish (m.observedBy none) i) := by
  refine .bind (shadows_perform follows) fun _ => .bind (shadows_transfer follows) fun way => ?_
  cases way with
  | inr v => exact .pure _
  | inl next => exact .bind (.modify (fun _ _ _ => rfl) fun _ => rfl) fun _ => .pure _

theorem shadows_allow (follows : o.Follows Good Bad) :
    Shadows Good Bad (allow (m.observedBy (some o)) i)
      (allow (m.observedBy none) i) :=
  .bind shadows_checkContext fun _ => .bind shadows_countInstruction fun _ =>
    shadows_observeStep follows

-- One step of the observed run, beside the same step unobserved.
theorem shadows_step (follows : o.Follows Good Bad) :
    Shadows Good Bad (step (m.observedBy (some o)))
      (step (m.observedBy none)) := by
  intro s t unseen good
  have address : t.address = s.address := unseen.address
  cases placed (m.observedBy (some o)) s with
  | past outside =>
    rw [step_of_past outside, step_of_past (m := m.observedBy none) (by rwa [address])]
    exact .same unseen good
  | negative outside =>
    rw [step_of_negative outside, step_of_negative (m := m.observedBy none) (by rwa [address]),
      address]
    exact Shadows.bind shadows_checkContext (fun _ => .fail _) s t unseen good
  | «at» i inside found =>
    have inside' : 0 ≤ t.address := by rwa [address]
    have found' : (m.observedBy (none : Option (Observer Eye))).code[t.address.toNat]? = some i := by
      rw [address]
      exact found
    cases active : i.opcode.isMark with
    | true =>
      rw [step_of_fetched inside found, step_of_fetched inside' found']
      refine Shadows.bind shadows_checkContext (fun _ => ?_) s t unseen good
      unfold execute
      split
      · exact .bind (.modify (fun _ _ _ => rfl) fun _ => rfl) fun _ => .pure _
      · exact .bind (.modify (fun _ _ _ => rfl) fun _ => rfl) fun _ => .pure _
      · rename_i label mark
        cases opcode : i.opcode <;> simp_all [Opcode.isMark]
    | false =>
      rw [step_of_allowed inside found active, step_of_allowed inside' found' active]
      exact Shadows.bind (shadows_allow follows) (fun _ => shadows_finish follows) s t unseen good

-- Any number of steps.
theorem Shadows.drive {x y : Exec World Eye (Option Value)} (steps : Shadows Good Bad x y)
    (n : Nat) : Shadows Good Bad (drive x n) (drive y n) := by
  induction n with
  | zero => exact .pure none
  | succ n ih =>
    refine .bind steps fun result => ?_
    cases result with
    | none => exact ih
    | some v => exact .pure _

end Exec

end ScalarScript
