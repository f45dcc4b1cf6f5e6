import ScalarScript.Proofs.Machine.Kept
import ScalarScript.Proofs.Machine.Unseen
import ScalarScript.Proofs.Symbolic.Machine
/-!
What an observer gets to hear. It is shown the steps that its mode asks for, and a run that it
objects to ends there, after calls of host functions that the unobserved run makes as well.
-/
namespace ScalarScript

open Stateful

variable {World Watch Eye : Type}

-- What is found at the states that a run comes through, as far as it gets with so many steps.
def along {α : Type} (step : Exec World Watch (Option Value))
    (look : RunState World Watch → Option α) : Nat → RunState World Watch → List α
  | 0, _ => []
  | n + 1, s =>
    (look s).toList ++ match step s with
      | .ok none t => along step look n t
      | _ => []

namespace Exec

-- The instruction to execute, marks apart.
def due (m : Machine World Watch) (s : RunState World Watch) : Option Instruction :=
  if s.address < 0 then none
  else (m.code[s.address.toNat]?).filter fun i => !i.opcode.isMark

-- What comes before an instruction is shown to the observer.
def approve (m : Machine World Watch) : Exec World Watch Unit := do
  checkContext m
  countInstruction m

-- The instruction that the next step executes, as an observer may be shown it.
def executing (m : Machine World Watch) (s : RunState World Watch) : Option StepEvent :=
  (due m s).bind fun i =>
    match approve m s with
    | .ok _ t => some (t.event i)
    | .error _ _ => none

-- What comes before a host function acts; it yields the call as it is made.
def approach (m : Machine World Watch) (i : Instruction) : Exec World Watch HostCall := do
  allow m i
  match External.function? m.externals i.target with
  | none => fail (.notHostFunction i.target)
  | some (ext, _) =>
    if (← get).stack.length < ext.arity then fail (.missingArguments ext.name ext.arity)
    observeCall m ext.name true
    return ⟨ext.name, ((← get).request ext.arity.toNat).arguments⟩

-- The call of a host function that the next step makes.
def calling (m : Machine World Watch) (s : RunState World Watch) : Option HostCall :=
  ((due m s).filter fun i => i.opcode = .hostCall).bind fun i =>
    match approach m i s with
    | .ok call _ => some call
    | .error _ _ => none

end Exec

section Tracks

variable {α : Type} (Good : Watch → Prop) (Bad : Watch → RuntimeFault → Prop)

-- The observer has ended the run.
def Stopped {α : Type} :
    EStateM.Result RuntimeError (RunState World Watch) α → Prop
  | .ok _ _ => False
  | .error e s => ∃ f, e = s.error f ∧ Bad s.watch f

-- What is found at a state of the observed run is found at the same state of the other run, unless
-- the observer ends the run there.
def Tracks (step : Exec World Watch (Option Value)) (here there : RunState World Watch → Option α) :
    Prop :=
  ∀ s t, Unseen s t → Good s.watch → here s = there t ∨ here s = none ∧ Stopped Bad (step s)

variable {Good Bad}

theorem Tracks.along {x y : Exec World Watch (Option Value)}
    {here there : RunState World Watch → Option α} (shadows : Exec.Shadows Good Bad x y)
    (tracks : Tracks Good Bad x here there) (n : Nat) {s t : RunState World Watch}
    (unseen : Unseen s t) (good : Good s.watch) :
    along x here n s <+: along y there n t ∧
      (along x here n s = along y there n t ∨ Stopped Bad (Exec.drive x n s)) := by
  induction n generalizing s t with
  | zero => exact ⟨List.prefix_rfl, .inl rfl⟩
  | succ n ih =>
    simp only [ScalarScript.along, Exec.drive_apply]
    have found := tracks s t unseen good
    have ran := shadows s t unseen good
    generalize x s = one at found ran
    generalize y t = two at found ran
    cases ran with
    | @same result s t unseen good =>
      have same : here _ = there _ := found.resolve_right fun stopped => stopped.2
      rw [same]
      cases result with
      | none =>
        obtain ⟨before, after⟩ := ih unseen good
        exact ⟨(List.prefix_append_right_inj _).mpr before, after.imp_left (congrArg _)⟩
      | some v => exact ⟨List.prefix_rfl, .inl rfl⟩
    | failed unseen good =>
      rcases found with same | ⟨absent, stopped⟩
      · rw [same]
        exact ⟨List.prefix_rfl, .inl rfl⟩
      · rw [absent]
        exact ⟨List.nil_prefix, .inr stopped⟩
    | @stopped f s result bad =>
      refine ⟨?_, .inr ⟨f, rfl, bad⟩⟩
      rcases found with same | ⟨absent, _⟩
      · rw [same]
        simp
      · rw [absent]
        simp

end Tracks

section Steps

variable {m : Machine World Watch} {i : Instruction} {o : Observer Eye}
  {Good : Eye → Prop} {Bad : Eye → RuntimeFault → Prop}

namespace Exec

theorem due_eq_some_iff {s : RunState World Watch} :
    due m s = some i ↔
      0 ≤ s.address ∧ m.code[s.address.toNat]? = some i ∧ i.opcode.isMark = false := by
  unfold due
  by_cases outside : s.address < 0
  · rw [if_pos outside]
    constructor
    · nofun
    · rintro ⟨inside, _⟩
      omega
  · rw [if_neg outside, Option.filter_eq_some_iff, Bool.not_eq_true']
    exact ⟨fun found => ⟨by omega, found⟩, And.right⟩

theorem due_of_unseen {s t : RunState World Eye} (unseen : Unseen s t) :
    due (m.observedBy (some o)) s = due (m.observedBy none) t := by
  unfold due
  rw [unseen.address]
  rfl

theorem shadows_approve :
    Shadows Good Bad (approve (m.observedBy (some o)))
      (approve (m.observedBy none)) :=
  .bind shadows_checkContext fun _ => shadows_countInstruction

theorem shadows_approach (follows : o.Follows Good Bad) :
    Shadows Good Bad (approach (m.observedBy (some o)) i)
      (approach (m.observedBy none) i) := by
  refine .bind (shadows_allow follows) fun _ => ?_
  show Shadows Good Bad (match External.function? m.externals i.target with
      | none => _
      | some (ext, f) => _)
    (match External.function? m.externals i.target with
      | none => _
      | some (ext, f) => _)
  cases External.function? m.externals i.target with
  | none => exact .fail _
  | some pair =>
    obtain ⟨ext, f⟩ := pair
    refine .read fun s watch line good => .branch Iff.rfl (.stop _ _ _) ?_
    refine .bind (shadows_observeCall follows ext.name true) fun _ => ?_
    exact .read fun s watch line good => .pure _

-- Both runs execute the same instructions, as long as both go on.
theorem tracks_executing :
    Tracks Good Bad (step (m.observedBy (some o)))
      (executing (m.observedBy (some o))) (executing (m.observedBy none)) := by
  intro s t unseen good
  refine .inl ?_
  unfold executing
  rw [due_of_unseen (o := o) unseen]
  cases due (m.observedBy none) t with
  | none => rfl
  | some i =>
    have ran : Shadowed (fun _ => True) (fun _ _ => False)
        (approve (m.observedBy (some o)) s) (approve (m.observedBy none) t) :=
      shadows_approve s t unseen trivial
    simp only [Option.bind_some]
    generalize approve (m.observedBy (some o)) s = one at ran
    generalize approve (m.observedBy none) t = two at ran
    cases ran with
    | same unseen good =>
      obtain ⟨watch, line, rfl⟩ := unseen
      rfl
    | failed unseen good => rfl
    | stopped bad => exact bad.elim

-- What fails before the host function acts is the failure of the step.
theorem step_of_approach_error {s t : RunState World Watch} {e : RuntimeError}
    (inside : 0 ≤ s.address) (found : m.code[s.address.toNat]? = some i)
    (host : i.opcode = .hostCall) (failed : approach m i s = .error e t) :
    step m s = .error e t := by
  rw [step_of_allowed inside found (by rw [host]; rfl)]
  rcases bind_eq_error_iff.mp failed with refused | ⟨_, u, allowed, failed⟩
  · exact bind_of_error refused
  rw [bind_of_ok allowed]
  refine bind_of_error ?_
  unfold perform
  rw [host]
  show callHost m i.target u = _
  unfold callHost
  cases found : External.function? m.externals i.target with
  | none =>
    rw [found] at failed
    cases failed
    rfl
  | some pair =>
    obtain ⟨ext, f⟩ := pair
    rw [found] at failed
    by_cases short : (u.stack.length : Int) < ext.arity
    · simp only [bind_apply, get_apply, if_pos short] at failed ⊢
      cases failed
      rfl
    · simp only [bind_apply, get_apply, if_neg short] at failed ⊢
      cases seen : observeCall m ext.name true u with
      | error e' v =>
        rw [seen] at failed
        cases failed
        rfl
      | ok _ v =>
        rw [seen] at failed
        cases failed

-- Both runs make the same calls of host functions, as long as both go on.
theorem tracks_calling (follows : o.Follows Good Bad) :
    Tracks Good Bad (step (m.observedBy (some o)))
      (calling (m.observedBy (some o))) (calling (m.observedBy none)) := by
  intro s t unseen good
  unfold calling
  rw [← due_of_unseen (o := o) unseen]
  cases found : due (m.observedBy (some o)) s with
  | none => exact .inl rfl
  | some i =>
    by_cases host : i.opcode = .hostCall
    · have ran := shadows_approach (m := m) (i := i) follows s t unseen good
      have fails (e : RuntimeError) (u : RunState World Eye) :=
        step_of_approach_error (m := m.observedBy (some o)) (s := s) (t := u) (e := e)
          (due_eq_some_iff.mp found).1 (due_eq_some_iff.mp found).2.1 host
      simp only [Option.filter_some, host, decide_true, if_true, Option.bind_some]
      generalize approach (m.observedBy (some o)) i s = one at ran fails
      generalize approach (m.observedBy none) i t = two at ran
      cases ran with
      | same unseen good => exact .inl rfl
      | failed unseen good => exact .inl rfl
      | @stopped f u result bad =>
        rw [fails _ u rfl]
        exact .inr ⟨rfl, f, rfl, bad⟩
    · simp only [Option.filter_some, host, decide_false]
      exact .inl rfl

end Exec

end Steps

-- One call of an observer, with its answer.
inductive Notice where
  | step (event : StepEvent) (verdict : Verdict)
  | call (event : CallEvent) (verdict : Verdict)
  | back (event : ReturnEvent) (verdict : Verdict)

namespace Notice

def verdict : Notice → Verdict
  | .step _ v | .call _ v | .back _ v => v

def shown? : Notice → Option StepEvent
  | .step e _ => some e
  | .call _ _ | .back _ _ => none

end Notice

namespace Observer

-- The observer with a list of all that it is told and what it answers.
def noting (o : Observer Eye) : Observer (Eye × List Notice) where
  config := o.config
  onStep w e :=
    let (eye, v) := o.onStep w.1 e
    ((eye, w.2 ++ [.step e v]), v)
  onCall w e :=
    let (eye, v) := o.onCall w.1 e
    ((eye, w.2 ++ [.call e v]), v)
  onReturn w e :=
    let (eye, v) := o.onReturn w.1 e
    ((eye, w.2 ++ [.back e v]), v)

-- Every answer so far let the run go on.
def Agreed (w : Eye × List Notice) : Prop := ∀ note ∈ w.2, note.verdict = .proceed

-- Only the last answer did not.
def Objected (w : Eye × List Notice) (f : RuntimeFault) : Prop :=
  ∃ (before : List Notice) (note : Notice), w.2 = before ++ [note] ∧
    (∀ other ∈ before, other.verdict = .proceed) ∧ note.verdict.fault? = some f

theorem heeds_noted {w : Eye × List Notice} {eye : Eye} (note : Notice) (agreed : Agreed w) :
    Heeds Agreed Objected ((eye, w.2 ++ [note]), note.verdict) := by
  unfold Heeds
  cases fault : note.verdict.fault? with
  | none =>
    intro other member
    rcases List.mem_append.mp member with old | new
    · exact agreed other old
    · rw [List.mem_singleton.mp new]
      cases verdict : note.verdict with
      | proceed => rfl
      | halt => simp [verdict, Verdict.fault?] at fault
      | crash message => simp [verdict, Verdict.fault?] at fault
  | some f => exact ⟨w.2, note, rfl, agreed, fault⟩

theorem noting_follows (o : Observer Eye) : o.noting.Follows Agreed Objected where
  step w e agreed := heeds_noted (.step e (o.onStep w.1 e).2) agreed
  call w e agreed := heeds_noted (.call e (o.onCall w.1 e).2) agreed
  back w e agreed := heeds_noted (.back e (o.onReturn w.1 e).2) agreed

-- An observer that never objects.
structure Approves (o : Observer Eye) : Prop where
  step : ∀ w e, (o.onStep w e).2 = .proceed
  call : ∀ w e, (o.onCall w e).2 = .proceed
  back : ∀ w e, (o.onReturn w e).2 = .proceed

theorem Approves.follows {o : Observer Eye} (approves : o.Approves) :
    o.Follows (fun _ => True) (fun _ _ => False) := by
  refine ⟨fun w e _ => ?_, fun w e _ => ?_, fun w e _ => ?_⟩
  · simp [Heeds, approves.step, Verdict.fault?]
  · simp [Heeds, approves.call, Verdict.fault?]
  · simp [Heeds, approves.back, Verdict.fault?]

end Observer

-- The steps that an observer is shown of those executed. The number is that of the first one, the
-- line that of the one before it.
def ObserverConfig.selects (config : ObserverConfig) :
    Nat → Int → List StepEvent → List StepEvent
  | _, _, [] => []
  | number, last, e :: rest =>
    let later := config.selects (number + 1) e.line rest
    if config.fires number last e.line then e :: later else later

-- Only in one mode the line before counts.
theorem ObserverConfig.fires_congr {config : ObserverConfig} {last last' : Int} (number : Nat)
    (line : Int) (same : config.mode = .onLine → last = last') :
    config.fires number last line = config.fires number last' line := by
  unfold fires
  cases mode : config.mode with
  | onLine => rw [same mode]
  | _ => rfl

theorem ObserverConfig.selects_append (config : ObserverConfig) (number : Nat) (last : Int)
    (found : Option StepEvent) (later : List StepEvent) :
    config.selects number last (found.toList ++ later) =
      found.toList.filter (fun e => config.fires number last e.line) ++
        config.selects (number + found.toList.length) (found.elim last StepEvent.line) later := by
  cases found with
  | none => rfl
  | some e =>
    show config.selects number last (e :: later) = _
    rw [selects]
    cases fires : config.fires number last e.line <;> simp [fires]

section Shown

variable {m : Machine World Watch} {i : Instruction} {o : Observer Eye}

-- The steps among what an observer was told.
def shown (s : RunState World (Eye × List Notice)) : List StepEvent :=
  s.watch.2.filterMap Notice.shown?

-- What was shown of a run, and what decides what will be.
def Sees (steps : List StepEvent) (executed : Nat) (line : Int)
    (s : RunState World (Eye × List Notice)) : Prop :=
  shown s = steps ∧ s.executed = executed ∧ s.observedLine = line

namespace Exec

variable {steps : List StepEvent} {executed : Nat} {line : Int}

-- Past the observation of its step an instruction adds no step, and is not counted again.
theorem survives_sees :
    Survives (m.observedBy (some o.noting)) (@Sees World Eye steps executed line) where
  call name external := by
    show Preserves _ (if o.config.calls then _ else _)
    split
    · refine .read fun s holds => .bind (.set ?_) fun _ => preserves_obey _
      obtain ⟨same, rest⟩ := holds
      exact ⟨by simpa [shown, Observer.noting, Notice.shown?, List.filterMap_cons] using same, rest⟩
    · exact .pure _
  back name := by
    show Preserves _ (if o.config.returns then _ else _)
    split
    · refine .read fun s holds => .bind (.set ?_) fun _ => preserves_obey _
      obtain ⟨same, rest⟩ := holds
      exact ⟨by simpa [shown, Observer.noting, Notice.shown?, List.filterMap_cons] using same, rest⟩
    · exact .pure _
  invoke _ _ _ _ _ holds := holds
  regain _ _ holds := holds
  result _ _ _ _ _ _ _ _ _ holds := holds
  enter _ _ holds := holds
  leave _ _ holds := holds
  line _ _ holds := holds
  address _ _ holds := holds

theorem withstands_sees : Withstands i (@Sees World Eye steps executed line) :=
  fun _ holds _ _ => holds

theorem checkContext_sees (n : Machine World (Eye × List Notice)) :
    Preserves (Sees steps executed line) (checkContext n) := by
  refine .read fun s holds => ?_
  split
  · split
    · refine .bind (.set holds) fun _ => ?_
      split
      · exact .fail trivial
      · exact .pure _
    · exact .set holds
  · exact .pure _

-- What the observation of a step adds.
theorem observeStep_sees (s : RunState World (Eye × List Notice)) :
    Kept (Sees (shown s ++
        [s.event i].filter (fun e => o.config.fires s.executed s.observedLine e.line))
      s.executed (if o.config.mode = .onLine then s.line else s.observedLine)) (fun _ => True)
      (observeStep (m.observedBy (some o.noting)) i s) := by
  rw [List.filter_singleton, show (s.event i).line = s.line from rfl]
  rw [observeStep_apply]
  show Kept _ _ (if o.config.fires s.executed s.observedLine s.line then _ else _)
  cases o.config.fires s.executed s.observedLine s.line with
  | false => exact ⟨(List.append_nil _).symm, rfl, rfl⟩
  | true =>
    simp only [if_true, showStep, bind_apply, get_apply, set_apply]
    refine preserves_obey _ _ ?_
    refine ⟨?_, rfl, rfl⟩
    simp [shown, Observer.noting, Notice.shown?, RunState.event]

-- What is shown once that step is executed, if there is one, and what decides what is shown next.
def Advances (o : Observer Eye) (s : RunState World (Eye × List Notice)) (found : Option StepEvent)
    (result : EStateM.Result RuntimeError (RunState World (Eye × List Notice)) (Option Value)) :
    Prop :=
  shown (endState result) = shown s ++
      found.toList.filter (fun e => o.config.fires (s.executed + 1) s.observedLine e.line) ∧
    ∀ t, result = .ok none t →
      t.executed = s.executed + found.toList.length ∧
        t.observedLine = found.elim s.observedLine fun e =>
          if o.config.mode = .onLine then e.line else s.observedLine

-- Where no instruction is executed nothing is added.
theorem Advances.of_still {s : RunState World (Eye × List Notice)}
    {result : EStateM.Result RuntimeError (RunState World (Eye × List Notice)) (Option Value)}
    (still : Kept (Sees (shown s) s.executed s.observedLine) (fun _ => True) result) :
    Advances o s none result := by
  refine ⟨by simpa using still.endState.1, fun t ran => ?_⟩
  rw [ran] at still
  exact still.2

theorem executing_of_due {s : RunState World Watch} (found : due m s = some i) :
    executing m s = match approve m s with
      | .ok _ t => some (t.event i)
      | .error _ _ => none := by
  rw [executing, found]
  rfl

theorem step_of_due {s : RunState World Watch} (found : due m s = some i) :
    step m s = (do approve m; observeStep m i; finish m i) s := by
  obtain ⟨inside, fetched, active⟩ := due_eq_some_iff.mp found
  rw [step_of_allowed inside fetched active]
  simp only [allow, approve, bind_assoc]

theorem approve_ok {s t : RunState World Watch} (approved : approve m s = .ok () t) :
    t = { s with executed := s.executed + 1, sinceCheck := t.sinceCheck } := by
  obtain ⟨_, u, checked, counted⟩ := bind_eq_ok_iff.mp approved
  have after := checkContext_ok checked
  rw [countInstruction_apply] at counted
  split at counted
  · cases counted
  · cases counted
    rw [after]

-- Where the run ends before, the observer was told nothing.
theorem approve_error {s t : RunState World Watch} {e : RuntimeError}
    (refused : approve m s = .error e t) : t.watch = s.watch := by
  have kept : Preserves (fun t => t.watch = s.watch) (approve m) := by
    refine .bind (.read fun s holds => ?_) fun _ => .read fun s holds => ?_
    · split
      · split
        · refine .bind (.set holds) fun _ => ?_
          split
          · exact .fail trivial
          · exact .pure _
        · exact .set holds
      · exact .pure _
    · refine .bind (.modify fun s holds => holds) fun _ => ?_
      split
      · exact .fail trivial
      · exact .pure _
  have after := kept s rfl
  rw [refused] at after
  exact after.1

theorem step_advances (s : RunState World (Eye × List Notice)) :
    Advances o s (executing (m.observedBy (some o.noting)) s)
      (step (m.observedBy (some o.noting)) s) := by
  have checks : Preserves (Sees (shown s) s.executed s.observedLine)
      (checkContext (m.observedBy (some o.noting))) :=
    checkContext_sees _
  have here : Sees (shown s) s.executed s.observedLine s := ⟨rfl, rfl, rfl⟩
  cases found : due (m.observedBy (some o.noting)) s with
  | none =>
    rw [show executing (m.observedBy (some o.noting)) s = none by rw [executing, found]; rfl]
    refine .of_still ?_
    cases placed (m.observedBy (some o.noting)) s with
    | past outside =>
      rw [step_of_past outside]
      exact here
    | negative outside =>
      rw [step_of_negative outside]
      exact checks.bind (fun _ => .fail trivial) s here
    | «at» i inside fetched =>
      have mark : i.opcode.isMark = true := by
        by_contra active
        rw [due_eq_some_iff.mpr ⟨inside, fetched, by simpa using active⟩] at found
        cases found
      rw [step_of_fetched inside fetched]
      exact checks.bind (fun _ => preserves_mark survives_sees mark) s here
  | some i =>
    rw [executing_of_due found, step_of_due found, bind_apply]
    cases approved : approve (m.observedBy (some o.noting)) s with
    | error e t =>
      refine ⟨?_, by rintro _ ⟨⟩⟩
      simp [endState, shown, approve_error approved]
    | ok _ t =>
      have after := approve_ok approved
      have seen := observeStep_sees (m := m) (o := o) (i := i) t
      have kept := seen.bind fun _ => preserves_finish
        (m := m.observedBy (some o.noting)) (i := i) survives_sees withstands_sees
      have executed : t.executed = s.executed + 1 := by rw [after]
      have before : shown t = shown s := by rw [after]; rfl
      have last : t.observedLine = s.observedLine := by rw [after]
      rw [executed, before, last] at kept
      refine ⟨?_, fun u ran => ?_⟩
      · exact kept.endState.1
      · dsimp only at ran
        rw [ran] at kept
        exact ⟨kept.2.1, kept.2.2⟩

end Exec

-- The observer was shown what its mode selects of the steps that were executed.
theorem shown_drive (n : Nat) {s : RunState World (Eye × List Notice)} {last : Int}
    (since : o.config.mode = .onLine → s.observedLine = last) :
    shown (endState (Exec.drive (Exec.step (m.observedBy (some o.noting))) n s)) =
      shown s ++ o.config.selects (s.executed + 1) last
        (along (Exec.step (m.observedBy (some o.noting)))
          (Exec.executing (m.observedBy (some o.noting))) n s) := by
  induction n generalizing s last with
  | zero => exact (List.append_nil _).symm
  | succ n ih =>
    obtain ⟨now, next⟩ := Exec.step_advances (m := m) (o := o) s
    have selected (e : StepEvent) := o.config.fires_congr (s.executed + 1) e.line since
    simp only [selected] at now
    rw [Exec.drive_apply, along, ObserverConfig.selects_append, ← List.append_assoc, ← now]
    cases ran : Exec.step (m.observedBy (some o.noting)) s with
    | error e t => exact (List.append_nil _).symm
    | ok result t =>
      cases result with
      | some v => exact (List.append_nil _).symm
      | none =>
        obtain ⟨executed, line⟩ := next t ran
        have onward : o.config.mode = .onLine → t.observedLine =
            (Exec.executing (m.observedBy (some o.noting)) s).elim last StepEvent.line := by
          intro mode
          rw [line]
          cases Exec.executing (m.observedBy (some o.noting)) s with
          | none => exact since mode
          | some e => exact if_pos mode
        dsimp only
        rw [ih onward, executed, Nat.add_right_comm]
        rfl

end Shown

-- Results that differ in nothing but what the observer knows.
inductive EndsAlike : EStateM.Result RuntimeError (RunState World Watch) (Option Value) →
    EStateM.Result RuntimeError (RunState World Watch) (Option Value) → Prop where
  | ok {result : Option Value} {s t : RunState World Watch} (unseen : Unseen s t) :
      EndsAlike (.ok result s) (.ok result t)
  | error {e : RuntimeError} {s t : RunState World Watch} (unseen : Unseen s t) :
      EndsAlike (.error e s) (.error e t)

-- Observed without an objection, a run is as it is unobserved. In any case the host functions that
-- it calls are called by the unobserved run, the steps shown are those that the mode selects of the
-- steps taken, and the first objection ends the run.
theorem Machine.observed_alike (m : Machine World Watch) (o : Observer Eye)
    (around : Surroundings World Eye) (context : Context) (n : Nat) :
    (o.Approves →
      let seen := m.observedBy (some o)
      let blind := m.observedBy none
      let s := Machine.start around context
      EndsAlike (Exec.drive (Exec.step seen) n s) (Exec.drive (Exec.step blind) n s) ∧
        along (Exec.step seen) (Exec.calling seen) n s =
          along (Exec.step blind) (Exec.calling blind) n s ∧
        along (Exec.step seen) (Exec.executing seen) n s =
          along (Exec.step blind) (Exec.executing blind) n s) ∧
    let seen := m.observedBy (some o.noting)
    let blind := m.observedBy none
    let s := Machine.start ⟨around.cells, around.world, (around.watch, []), around.room⟩ context
    let last := endState (Exec.drive (Exec.step seen) n s)
    along (Exec.step seen) (Exec.calling seen) n s <+:
        along (Exec.step blind) (Exec.calling blind) n s ∧
      shown last =
        o.config.selects 1 (-1) (along (Exec.step seen) (Exec.executing seen) n s) ∧
      ∀ note ∈ last.watch.2, note.verdict = .halt →
        ∃ before e, last.watch.2 = before ++ [note] ∧
          (∀ other ∈ before, other.verdict = .proceed) ∧
          Exec.drive (Exec.step seen) n s = .error e last ∧
          e = last.error .halted ∧ e.code = .cancelled := by
  constructor
  · intro approves seen blind s
    have follows := approves.follows
    have steps : Exec.Shadows _ _ (Exec.step seen) (Exec.step blind) :=
      Exec.shadows_step follows
    have calls := (Exec.tracks_calling follows).along steps n (.refl s) trivial
    have executed := Exec.tracks_executing.along steps n (.refl s) trivial
    have ran := steps.drive n s s (.refl s) trivial
    generalize Exec.drive (Exec.step seen) n s = one at ran calls executed ⊢
    generalize Exec.drive (Exec.step blind) n s = two at ran ⊢
    have never : ¬ Stopped (fun _ _ => False) one := by
      cases one with
      | ok => exact id
      | error => exact fun ⟨_, _, bad⟩ => bad
    refine ⟨?_, calls.2.resolve_right never, executed.2.resolve_right never⟩
    cases ran with
    | same unseen => exact .ok unseen
    | failed unseen => exact .error unseen
    | stopped bad => exact bad.elim
  · intro seen blind s last
    have follows := o.noting_follows
    have agreed : Observer.Agreed s.watch := fun note member => absurd member List.not_mem_nil
    have steps : Exec.Shadows _ _ (Exec.step seen) (Exec.step blind) :=
      Exec.shadows_step follows
    have calls := (Exec.tracks_calling follows).along steps n (.refl s) agreed
    refine ⟨calls.1, ?_, ?_⟩
    · exact shown_drive n (s := s) fun _ => rfl
    · intro note member halts
      have ran := steps.drive n s s (.refl s) agreed
      have given : last = endState (Exec.drive (Exec.step seen) n s) := rfl
      generalize last = last at given member ⊢
      generalize Exec.drive (Exec.step seen) n s = one at ran given ⊢
      generalize Exec.drive (Exec.step blind) n s = two at ran
      have objects {w : Eye × List Notice} (agreed : Observer.Agreed w) (member : note ∈ w.2) :
          False := by
        rw [agreed note member] at halts
        cases halts
      cases ran with
      | same unseen good =>
        rw [given] at member
        exact (objects good member).elim
      | failed unseen good =>
        rw [given] at member
        exact (objects good member).elim
      | @stopped f t result bad =>
        obtain rfl : last = t := given
        obtain ⟨before, final, notes, agreed, fault⟩ := bad
        rw [notes] at member
        rcases List.mem_append.mp member with old | new
        · rw [agreed note old] at halts
          cases halts
        · obtain rfl := List.mem_singleton.mp new
          rw [halts] at fault
          cases fault
          exact ⟨before, _, notes, agreed, rfl, rfl, rfl⟩

-- One observer that lets everything go on, and one that objects to every step.
def Observer.mild : Observer Unit where
  config := {}
  onStep w _ := (w, .proceed)
  onCall w _ := (w, .proceed)
  onReturn w _ := (w, .proceed)

def Observer.strict : Observer Unit := { Observer.mild with onStep := fun w _ => (w, .halt) }

theorem Machine.spinning_observed :
    Observer.mild.Approves ∧
      EndsAlike (Exec.drive (Exec.step (Machine.spinning.observedBy (some Observer.mild))) 2
          (Machine.start ⟨#[], (), (), []⟩ .background))
        (Exec.drive (Exec.step (Machine.spinning.observedBy none)) 2
          (Machine.start ⟨#[], (), (), []⟩ .background)) ∧
      ∃ e t, Exec.drive (Exec.step (Machine.spinning.observedBy (some Observer.strict.noting))) 2
        (Machine.start ⟨#[], (), ((), []), []⟩ .background) = .error e t ∧ e.code = .cancelled := by
  have approves : Observer.mild.Approves := ⟨fun _ _ => rfl, fun _ _ => rfl, fun _ _ => rfl⟩
  have unharmed := (Machine.spinning.observed_alike Observer.mild ⟨#[], (), (), []⟩ .background 2).1
    approves
  obtain ⟨_, _, objection⟩ :=
    (Machine.spinning.observed_alike Observer.strict ⟨#[], (), (), []⟩ .background 2).2
  have noted : ∃ event, (endState (Exec.drive
      (Exec.step (Machine.spinning.observedBy (some Observer.strict.noting))) 2
      (Machine.start ⟨#[], (), ((), []), []⟩ .background))).watch.2 = [.step event .halt] :=
    ⟨_, rfl⟩
  obtain ⟨event, noted⟩ := noted
  obtain ⟨_, e, _, _, failed, _, code⟩ := objection (.step event .halt)
    (noted ▸ List.mem_singleton_self _) rfl
  exact ⟨approves, unharmed.1, e, _, failed, code⟩

end ScalarScript
