import Mathlib.Data.List.Forall2
import ScalarScript.Proofs.Machine.Observing
/-!
The calls and returns that an observer is told of. They are bracketed like the calls of the run
themselves: a return belongs to the latest open call, a host function returns before anything else is
called, and the trace of an error lists the calls that are open.
-/
namespace ScalarScript

open Stateful

variable {World Watch Eye : Type}

-- A call or a return.
inductive FrameEvent where
  | call (event : CallEvent)
  | back (event : ReturnEvent)
  deriving DecidableEq

def Notice.frameEvent? : Notice → Option FrameEvent
  | .step _ _ => none
  | .call e _ => some (.call e)
  | .back e _ => some (.back e)

-- The calls and returns among what an observer was told.
def frameEvents (s : RunState World (Eye × List Notice)) : List FrameEvent :=
  s.watch.2.filterMap Notice.frameEvent?

-- Words of calls and returns, with the calls of script functions that are open behind them, innermost
-- first. A host function has returned at once.
inductive Opens : List FrameEvent → List CallEvent → Prop where
  | start : Opens [] []
  | enter {word : List FrameEvent} {waiting : List CallEvent} {e : CallEvent}
      (before : Opens word waiting) (script : e.external = false)
      (depth : e.frameDepth = waiting.length + 1) : Opens (word ++ [FrameEvent.call e]) (e :: waiting)
  | leave {word : List FrameEvent} {waiting : List CallEvent} {e : CallEvent} {r : ReturnEvent}
      (before : Opens word (e :: waiting)) (name : r.function = e.function)
      (depth : r.frameDepth + 1 = e.frameDepth) : Opens (word ++ [FrameEvent.back r]) waiting
  | host {word : List FrameEvent} {waiting : List CallEvent} {e : CallEvent} {r : ReturnEvent}
      (before : Opens word waiting) (external : e.external = true) (name : r.function = e.function)
      (depth : r.frameDepth = e.frameDepth) : Opens (word ++ [FrameEvent.call e, .back r]) waiting

namespace Opens

variable {word : List FrameEvent} {waiting : List CallEvent}

-- The depth of an open call counts the calls it was made from, and itself.
theorem depth_eq (opens : Opens word waiting) {inner outer : List CallEvent} {e : CallEvent}
    (split : waiting = inner ++ e :: outer) : e.frameDepth = outer.length + 1 := by
  induction opens generalizing inner with
  | start => simp at split
  | enter before script depth ih =>
    cases inner with
    | nil =>
      cases split
      exact depth
    | cons _ inner => exact ih (List.cons.inj split).2
  | @leave _ _ last _ before name depth ih =>
    have above : last :: _ = (last :: inner) ++ e :: outer := congrArg (last :: ·) split
    exact ih above
  | host before external name depth ih => exact ih split

-- The open calls can return, one after another.
theorem closes (opens : Opens word waiting) : ∃ rest, Opens (word ++ rest) [] := by
  induction waiting generalizing word with
  | nil => exact ⟨[], by simpa using opens⟩
  | cons e outer ih =>
    have depth := opens.depth_eq (List.nil_append _).symm
    obtain ⟨rest, closed⟩ := ih (opens.leave (r := ⟨e.function, 0, outer.length⟩) rfl depth.symm)
    exact ⟨.back ⟨e.function, 0, outer.length⟩ :: rest, by simpa using closed⟩

-- The call of a host function is not left open.
theorem script_of_last {before : List FrameEvent} {e : CallEvent} (opens : Opens word waiting)
    (last : word = before ++ [FrameEvent.call e]) : e.external = false := by
  have ends : word.getLast? = some (.call e) := by rw [last, List.getLast?_concat]
  cases opens with
  | start => cases ends
  | enter _ script _ =>
    rw [List.getLast?_concat] at ends
    cases ends
    exact script
  | leave =>
    rw [List.getLast?_concat] at ends
    cases ends
  | host =>
    rw [List.getLast?_append] at ends
    cases ends

end Opens

-- A frame of a trace names an open call, at an instruction that makes it.
structure Traces (code : Array Instruction) (frame : Frame) (e : CallEvent) : Prop where
  function : frame.function = e.function
  line : frame.line = e.line
  inside : 0 ≤ frame.address
  site : ∃ i, code[frame.address.toNat]? = some i ∧ i.opcode = .call ∧ i.name = e.function

-- Where a run is, which calls and returns there were, and which calls have not returned.
structure Scene (address line : Int) (word : List FrameEvent) (calls : List Activation)
    (s : RunState World (Eye × List Notice)) : Prop where
  address : s.address = address
  line : s.line = line
  word : frameEvents s = word
  calls : s.calls = calls

-- What a step that goes on or ends adds to the calls and returns.
inductive Brackets (code : Array Instruction) (address : Int) (word : List FrameEvent)
    (calls : List Activation) : List FrameEvent → List Activation → Prop where
  | still : Brackets code address word calls word calls
  | host {e : CallEvent} {r : ReturnEvent} (external : e.external = true)
      (name : r.function = e.function) (depth : r.frameDepth = e.frameDepth) :
      Brackets code address word calls (word ++ [FrameEvent.call e, .back r]) calls
  | enter {i : Instruction} {a : Activation} (inside : 0 ≤ address)
      (found : code[address.toNat]? = some i) (opcode : i.opcode = .call)
      (name : a.function = i.name) (site : a.site = address) :
      Brackets code address word calls
        (word ++ [FrameEvent.call ⟨a.function, false, a.line, calls.length + 1⟩]) (a :: calls)
  | leave {a : Activation} {rest : List Activation} {line : Int} (top : calls = a :: rest) :
      Brackets code address word calls (word ++ [FrameEvent.back ⟨a.function, line, rest.length⟩]) rest

-- A step that fails may do so in the middle of a call of a host function.
inductive Breaks (code : Array Instruction) (address : Int) (word : List FrameEvent)
    (calls : List Activation) : List FrameEvent → List Activation → Prop where
  | whole {later : List FrameEvent} {open' : List Activation}
      (crosses : Brackets code address word calls later open') :
      Breaks code address word calls later open'
  | host {e : CallEvent} (external : e.external = true) :
      Breaks code address word calls (word ++ [FrameEvent.call e]) calls

namespace Exec

variable {α β : Type} {P Q R F : RunState World Watch → Prop}

-- After success one property holds, after a failure another, and the error tells of the state that it
-- leaves.
def Ends (Q F : RunState World Watch → Prop) :
    EStateM.Result RuntimeError (RunState World Watch) α → Prop
  | .ok _ s => Q s
  | .error e s => F s ∧ ∃ f, e = s.error f

def Leads (P Q F : RunState World Watch → Prop) (x : Exec World Watch α) : Prop :=
  ∀ s, P s → Ends Q F (x s)

namespace Leads

theorem bind {x : Exec World Watch α} {f : α → Exec World Watch β} (first : Leads P Q F x)
    (second : ∀ a, Leads Q R F (f a)) : Leads P R F (x >>= f) := by
  intro s holds
  have after := first s holds
  rw [bind_apply]
  cases ran : x s with
  | ok a t =>
    rw [ran] at after
    exact second a t after
  | error e t =>
    rw [ran] at after
    exact after

theorem pure (a : α) : Leads P P F (Pure.pure a : Exec World Watch α) := fun _ holds => holds

theorem read {f : RunState World Watch → Exec World Watch α}
    (next : ∀ s, P s → Leads (· = s) Q F (f s)) : Leads P Q F (do let s ← get; f s) :=
  fun s holds => next s holds s rfl

theorem set {s : RunState World Watch} (holds : Q s) :
    Leads P Q F (set s : Exec World Watch PUnit) := fun _ _ => holds

theorem modify {f : RunState World Watch → RunState World Watch} (holds : ∀ s, P s → Q (f s)) :
    Leads P Q F (modify f : Exec World Watch PUnit) := fun s before => holds s before

theorem fail {f : RuntimeFault} (fails : ∀ s, P s → F s) :
    Leads P Q F (fail f : Exec World Watch α) := fun s holds => ⟨fails s holds, f, rfl⟩

-- Nothing comes after a failure.
theorem stop {f : RuntimeFault} (fails : ∀ s, P s → F s) (next : α → Exec World Watch β) :
    Leads P Q F (do let a ← Exec.fail f; next a) := fun s holds => ⟨fails s holds, f, rfl⟩

theorem raise {r : Except RuntimeFault α} (fails : ∀ s, P s → F s) :
    Leads P P F (raise r : Exec World Watch α) := by
  cases r with
  | ok a => exact .pure a
  | error f => exact .fail fails

theorem mono {x : Exec World Watch α} (leads : Leads P Q F x) (before : ∀ s, R s → P s)
    {S : RunState World Watch → Prop} (after : ∀ s, Q s → S s) : Leads R S F x := by
  intro s holds
  have ends := leads s (before s holds)
  cases ran : x s with
  | ok a t =>
    rw [ran] at ends
    exact after t ends
  | error e t =>
    rw [ran] at ends
    exact ends

-- From one state.
theorem start {x : Exec World Watch α} {s : RunState World Watch} (leads : Leads P Q F x)
    (holds : P s) : Leads (· = s) Q F x :=
  leads.mono (R := (· = s)) (by rintro _ rfl; exact holds) fun _ => id

end Leads

-- Asking the observer.
theorem leads_notify {look : RunState World Watch → Watch × Verdict}
    (told : ∀ s, P s → Q { s with watch := (look s).1 }) (fails : ∀ s, Q s → F s) :
    Leads P Q F (do
      let s ← get
      let (watch, verdict) := look s
      set { s with watch }
      obey verdict) := by
  refine .read fun s holds => .bind (.set (told s holds)) fun _ => ?_
  rw [obey_eq]
  cases (look s).2.fault? with
  | none => exact .pure ()
  | some f => exact .fail fails

section Noting

variable {m : Machine World Watch} {i : Instruction} {o : Observer Eye} {line address : Int}
  {word : List FrameEvent} {calls : List Activation}
  {F : RunState World (Eye × List Notice) → Prop}

theorem leads_checkContext {n : Machine World (Eye × List Notice)}
    (fails : ∀ s, Scene address line word calls s → F s) :
    Leads (Scene address line word calls) (Scene address line word calls) F (checkContext n) := by
  refine .read fun s here => ?_
  split
  · split
    · refine .bind (Q := Scene address line word calls) (.set ?_) fun _ => ?_
      · exact ⟨here.address, here.line, here.word, here.calls⟩
      split
      · exact .fail fails
      · exact .pure ()
    · exact .set ⟨here.address, here.line, here.word, here.calls⟩
  · rintro _ rfl
    exact here

theorem leads_countInstruction {n : Machine World (Eye × List Notice)}
    (fails : ∀ s, Scene address line word calls s → F s) :
    Leads (Scene address line word calls) (Scene address line word calls) F (countInstruction n) := by
  intro s here
  rw [countInstruction_apply]
  split
  · exact ⟨fails _ ⟨here.address, here.line, here.word, here.calls⟩, _, rfl⟩
  · exact ⟨here.address, here.line, here.word, here.calls⟩

-- To be shown a step is neither a call nor a return.
theorem leads_observeStep (fails : ∀ s, Scene address line word calls s → F s) :
    Leads (Scene address line word calls) (Scene address line word calls) F
      (observeStep (m.observedBy (some o.noting)) i) := by
  intro s here
  rw [observeStep_apply]
  split
  · refine leads_notify (P := Scene address line word calls)
      (fun t there => ⟨there.address, there.line, ?_, there.calls⟩)
      fails _ ⟨here.address, here.line, here.word, here.calls⟩
    simpa [frameEvents, Observer.noting, Notice.frameEvent?, List.filterMap_cons] using there.word
  · exact ⟨here.address, here.line, here.word, here.calls⟩

theorem leads_observeCall (observed : o.config.calls = true) (name : String) (external : Bool)
    (fails : ∀ s,
      Scene address line (word ++ [FrameEvent.call ⟨name, external, line, calls.length⟩]) calls s →
        F s) :
    Leads (Scene address line word calls)
      (Scene address line (word ++ [FrameEvent.call ⟨name, external, line, calls.length⟩]) calls) F
      (observeCall (m.observedBy (some o.noting)) name external) := by
  show Leads _ _ _ (if o.config.calls then _ else _)
  rw [if_pos observed]
  refine leads_notify ?_ fails
  rintro s ⟨rfl, rfl, rfl, rfl⟩
  exact ⟨rfl, rfl, by simp [frameEvents, Observer.noting, Notice.frameEvent?], rfl⟩

theorem leads_observeReturn (observed : o.config.returns = true) (name : String)
    (fails : ∀ s,
      Scene address line (word ++ [FrameEvent.back ⟨name, line, calls.length⟩]) calls s → F s) :
    Leads (Scene address line word calls)
      (Scene address line (word ++ [FrameEvent.back ⟨name, line, calls.length⟩]) calls) F
      (observeReturn (m.observedBy (some o.noting)) name) := by
  show Leads _ _ _ (if o.config.returns then _ else _)
  rw [if_pos observed]
  refine leads_notify ?_ fails
  rintro s ⟨rfl, rfl, rfl, rfl⟩
  exact ⟨rfl, rfl, by simp [frameEvents, Observer.noting, Notice.frameEvent?], rfl⟩

-- States after a step from where that word and those calls were.
abbrev Crossed (code : Array Instruction) (address : Int) (word : List FrameEvent)
    (calls : List Activation) (s : RunState World (Eye × List Notice)) : Prop :=
  Brackets code address word calls (frameEvents s) s.calls

abbrev Broken (code : Array Instruction) (address : Int) (word : List FrameEvent)
    (calls : List Activation) (s : RunState World (Eye × List Notice)) : Prop :=
  Breaks code address word calls (frameEvents s) s.calls

theorem crossed_of_at {code : Array Instruction} {s : RunState World (Eye × List Notice)}
    {later : List FrameEvent} {waiting : List Activation} (here : Scene address line later waiting s)
    (crosses : Brackets code address word calls later waiting) :
    Crossed code address word calls s := by
  rw [Crossed, here.word, here.calls]
  exact crosses

theorem broken_of_at {code : Array Instruction} {s : RunState World (Eye × List Notice)}
    {later : List FrameEvent} {waiting : List Activation} (here : Scene address line later waiting s)
    (breaks : Breaks code address word calls later waiting) :
    Broken code address word calls s := by
  rw [Broken, here.word, here.calls]
  exact breaks

theorem broken_of_same {code : Array Instruction} {s : RunState World (Eye × List Notice)}
    (here : Scene address line word calls s) : Broken code address word calls s :=
  broken_of_at here (.whole .still)

theorem leads_callHost (observed : o.config.calls = true) (returns : o.config.returns = true)
    (slot : Int) :
    Leads (Scene address line word calls) (Crossed m.code address word calls)
      (Broken m.code address word calls) (callHost (m.observedBy (some o.noting)) slot) := by
  unfold callHost
  split
  · exact .fail fun s => broken_of_same
  · rename_i ext f found
    refine .read fun s here => ?_
    split
    · refine .stop ?_ _
      rintro _ rfl
      exact broken_of_same here
    have calling (t : RunState World (Eye × List Notice))
        (there : Scene address line
          (word ++ [FrameEvent.call ⟨ext.name, true, line, calls.length⟩]) calls t) :
        Broken m.code address word calls t := broken_of_at there (.host rfl)
    have returned (t : RunState World (Eye × List Notice))
        (there : Scene address line (word ++ [FrameEvent.call ⟨ext.name, true, line, calls.length⟩] ++
          [FrameEvent.back ⟨ext.name, line, calls.length⟩]) calls t) :
        Crossed m.code address word calls t := by
      rw [List.append_assoc] at there
      exact crossed_of_at there (.host rfl rfl rfl)
    have back (t : RunState World (Eye × List Notice)) there :
        Broken m.code address word calls t := .whole (returned t there)
    refine .bind ((leads_observeCall observed ext.name true calling).start here) fun _ => ?_
    let told : RunState World (Eye × List Notice) → Prop :=
      Scene address line (word ++ [FrameEvent.call ⟨ext.name, true, line, calls.length⟩]) calls
    refine .bind (Q := told)
      (fun t there => ⟨there.address, there.line, there.word, there.calls⟩) fun reply => ?_
    refine .bind (Q := told) (.read fun t there => ?_) fun _ => ?_
    · dsimp only
      split
      · refine .stop ?_ _
        rintro _ rfl
        exact calling _ there
      · exact .set ⟨there.address, there.line, there.word, there.calls⟩
    refine .bind (.raise calling) fun v => ?_
    refine .bind (leads_observeReturn returns ext.name back) fun _ => ?_
    refine .bind (.raise back) fun w => ?_
    exact .modify fun t there => returned _ ⟨there.address, there.line, there.word, there.calls⟩

theorem leads_enterCall (observed : o.config.calls = true) (inside : 0 ≤ address)
    (found : m.code[address.toNat]? = some i) (opcode : i.opcode = .call) :
    Leads (Scene address line word calls)
      (Crossed m.code address word calls) (Broken m.code address word calls)
      (enterCall (m.observedBy (some o.noting)) i) := by
  refine .read fun s here => ?_
  dsimp only
  split
  · refine .stop ?_ _
    rintro _ rfl
    exact broken_of_same here
  · have crossed (t : RunState World (Eye × List Notice))
        (there : Scene address line (word ++ [FrameEvent.call ⟨i.name, false, line, calls.length + 1⟩])
          (⟨i.name, s.address + 1, s.address, s.line⟩ :: calls) t) :
        Crossed m.code address word calls t := by
      refine crossed_of_at there ?_
      rw [← here.line]
      exact .enter (a := ⟨i.name, s.address + 1, s.address, s.line⟩) inside found opcode rfl
        here.address
    refine .bind (.set
      (Q := Scene address line word (⟨i.name, s.address + 1, s.address, s.line⟩ :: calls))
      ⟨here.address, here.line, here.word, by rw [← here.calls]⟩) fun _ => ?_
    exact (leads_observeCall observed i.name false fun t there => .whole (crossed t there)).mono
      (fun _ => id) crossed

theorem leads_leaveCall (returns : o.config.returns = true) :
    Leads (Scene address line word calls) (Crossed m.code address word calls)
      (Broken m.code address word calls) (leaveCall (m.observedBy (some o.noting))) := by
  refine .read fun s here => ?_
  rw [here.calls]
  cases calls with
  | nil =>
    refine .fail ?_
    rintro _ rfl
    exact broken_of_same here
  | cons a rest =>
    have crossed (t : RunState World (Eye × List Notice)) (later : Int)
        (there : Scene address later
          (word ++ [FrameEvent.back ⟨a.function, line, rest.length⟩]) rest t) :
        Crossed m.code address word (a :: rest) t := crossed_of_at there (.leave rfl)
    refine .bind (.modify (Q := Scene address line word rest) ?_) fun _ => ?_
    · rintro _ rfl
      exact ⟨here.address, here.line, here.word, rfl⟩
    refine .bind (leads_observeReturn returns a.function fun t there => .whole (crossed t _ there))
      fun _ => ?_
    refine .bind (.modify fun t there => ?_) fun _ => .pure _
    exact crossed _ a.line ⟨there.address, rfl, there.word, there.calls⟩

-- Away from calls and returns nothing of the kind happens.
theorem leads_perform {n : Machine World (Eye × List Notice)} (plain : i.opcode ≠ .hostCall)
    (fails : ∀ s, Scene address line word calls s → F s) :
    Leads (Scene address line word calls)
      (Scene address line word calls) F (perform n i) := by
  rw [perform_of_plain plain]
  refine .read fun s here => .bind (.raise ?_) fun core => .set ?_
  · rintro _ rfl
    exact fails _ here
  · exact ⟨here.address, here.line, here.word, here.calls⟩

theorem leads_transfer (observed : o.config.calls = true) (returns : o.config.returns = true)
    (inside : 0 ≤ address) (found : m.code[address.toNat]? = some i) :
    Leads (Scene address line word calls)
      (Crossed m.code address word calls) (Broken m.code address word calls)
      (transfer (m.observedBy (some o.noting)) i) := by
  have same (s : RunState World (Eye × List Notice)) (here : Scene address line word calls s) :
      Crossed m.code address word calls s := crossed_of_at here .still
  refine .read fun s here => ?_
  have stays {α : Type} (a : α) : Leads (· = s) (Crossed m.code address word calls)
      (Broken m.code address word calls) (pure a : Exec World (Eye × List Notice) α) :=
    (Leads.pure a).start (same s here)
  cases opcode : i.opcode with
  | exit =>
    refine .read fun t last => ?_
    subst last
    refine .bind (.raise ?_) fun v => stays _
    rintro _ rfl
    exact .whole (same _ here)
  | jumpIf condition =>
    refine .read fun t last => ?_
    subst last
    exact stays _
  | call =>
    exact .bind ((leads_enterCall observed inside found opcode).start here) fun _ => .pure _
  | ret => exact .bind ((leads_leaveCall returns).start here) fun back => .pure _
  | _ => exact stays _

-- An instruction adds at most one call and one return.
theorem leads_finish (observed : o.config.calls = true) (returns : o.config.returns = true)
    (inside : 0 ≤ address) (found : m.code[address.toNat]? = some i) :
    Leads (Scene address line word calls) (Crossed m.code address word calls)
      (Broken m.code address word calls) (finish (m.observedBy (some o.noting)) i) := by
  by_cases host : i.opcode = .hostCall
  · unfold finish perform transfer
    rw [host]
    refine .bind (leads_callHost observed returns i.target) fun _ => ?_
    refine .bind (.read fun s crossed => (Leads.pure _).start crossed) fun way => ?_
    cases way with
    | inr v => exact .pure _
    | inl next => exact .bind (.modify fun s crossed => crossed) fun _ => .pure _
  · refine .bind (leads_perform host fun s => broken_of_same) fun _ => ?_
    refine .bind (leads_transfer observed returns inside found) fun way => ?_
    cases way with
    | inr v => exact .pure _
    | inl next => exact .bind (.modify fun s crossed => crossed) fun _ => .pure _

-- What a step adds to the calls and returns, and where it may break off.
theorem leads_step (observed : o.config.calls = true) (returns : o.config.returns = true) :
    Leads (Scene address line word calls) (Crossed m.code address word calls)
      (Broken m.code address word calls) (step (m.observedBy (some o.noting))) := by
  intro s here
  have checks : Leads (Scene address line word calls) (Scene address line word calls)
      (Broken m.code address word calls) (checkContext (m.observedBy (some o.noting))) :=
    leads_checkContext fun t => broken_of_same
  cases placed (m.observedBy (some o.noting)) s with
  | past outside =>
    rw [step_of_past outside]
    exact crossed_of_at here .still
  | negative outside =>
    rw [step_of_negative outside]
    exact checks.bind (fun _ => .fail fun t => broken_of_same) s here
  | «at» i inside found =>
    rw [step_of_fetched inside found]
    refine checks.bind (fun _ => ?_) s here
    rw [here.address] at inside found
    cases active : i.opcode.isMark with
    | true =>
      intro t there
      obtain ⟨later, ran⟩ := execute_of_mark (s := t) active
      rw [ran]
      show Crossed m.code address word calls t
      exact crossed_of_at there .still
    | false =>
      rw [execute_of_active active]
      refine .bind (leads_countInstruction fun t => broken_of_same) fun _ => ?_
      refine .bind (leads_observeStep fun t => broken_of_same) fun _ => ?_
      exact leads_finish observed returns inside found

end Noting

end Exec

-- Any number of steps.
theorem Exec.Leads.drive {step : Exec World Watch (Option Value)} {P F : RunState World Watch → Prop}
    (leads : Leads P P F step) (n : Nat) : Leads P P F (drive step n) := by
  induction n with
  | zero => exact .pure none
  | succ n ih =>
    refine .bind leads fun result => ?_
    cases result with
    | none => exact ih
    | some v => exact .pure _

-- The open calls are the calls that have not returned.
def Nested (code : Array Instruction) (word : List FrameEvent) (trace : List Frame) : Prop :=
  ∃ waiting, Opens word waiting ∧ List.Forall₂ (Traces code) trace waiting

-- The same in the middle of a call of a host function.
def Severed (code : Array Instruction) (word : List FrameEvent) (trace : List Frame) : Prop :=
  ∃ (before : List FrameEvent) (e : CallEvent),
    word = before ++ [FrameEvent.call e] ∧ e.external = true ∧ Nested code before trace

section Nested

variable {m : Machine World Watch} {o : Observer Eye} {code : Array Instruction} {address : Int}
  {word later : List FrameEvent} {calls remaining : List Activation}

def Activation.frame (a : Activation) : Frame := ⟨a.function, a.site, a.line⟩

-- What a step adds keeps the open calls those of the trace.
theorem Brackets.nested (crosses : Brackets code address word calls later remaining)
    (nested : Nested code word (calls.map Activation.frame)) :
    Nested code later (remaining.map Activation.frame) := by
  obtain ⟨waiting, opens, traces⟩ := nested
  have lengths : calls.length = waiting.length := by simpa using traces.length_eq
  cases crosses with
  | still => exact ⟨waiting, opens, traces⟩
  | host external name depth => exact ⟨waiting, opens.host external name depth, traces⟩
  | @enter i a inside found opcode name site =>
    refine ⟨_, opens.enter rfl (by rw [lengths]), .cons ⟨rfl, rfl, ?_, i, ?_, opcode, ?_⟩ traces⟩
    · simpa [Activation.frame, site] using inside
    · simpa [Activation.frame, site] using found
    · exact name.symm
  | @leave a _ line top =>
    subst top
    cases traces with
    | @cons _ e _ outer first rest =>
      refine ⟨outer, opens.leave first.function ?_, rest⟩
      have depth := opens.depth_eq (List.nil_append _).symm
      rw [depth]
      simpa using lengths

theorem Breaks.nested (breaks : Breaks code address word calls later remaining)
    (nested : Nested code word (calls.map Activation.frame)) :
    Nested code later (remaining.map Activation.frame) ∨
      Severed code later (remaining.map Activation.frame) := by
  cases breaks with
  | whole crosses => exact .inl (crosses.nested nested)
  | host external => exact .inr ⟨word, _, rfl, external, nested⟩

-- Of a run that goes on, every call of a host function has returned.
theorem nested_step (observed : o.config.calls = true) (returns : o.config.returns = true) :
    Exec.Leads (fun s => Nested m.code (frameEvents s) s.trace)
      (fun s => Nested m.code (frameEvents s) s.trace)
      (fun s => Nested m.code (frameEvents s) s.trace ∨ Severed m.code (frameEvents s) s.trace)
      (Exec.step (m.observedBy (some o.noting))) := by
  intro s nested
  have ends := Exec.leads_step (m := m) (o := o) observed returns s ⟨rfl, rfl, rfl, rfl⟩
  cases ran : Exec.step (m.observedBy (some o.noting)) s with
  | ok result t =>
    rw [ran] at ends
    exact Brackets.nested ends nested
  | error e t =>
    rw [ran] at ends
    exact ⟨Breaks.nested ends.1 nested, ends.2⟩

-- Where a run stands after so many steps.
theorem nested_of_ends
    {result : EStateM.Result RuntimeError (RunState World (Eye × List Notice)) (Option Value)}
    (ends : Exec.Ends (fun s => Nested code (frameEvents s) s.trace)
      (fun s => Nested code (frameEvents s) s.trace ∨ Severed code (frameEvents s) s.trace) result) :
    (Nested code (frameEvents (endState result)) (endState result).trace ∨
      (∃ e, result = .error e (endState result)) ∧
        Severed code (frameEvents (endState result)) (endState result).trace) ∧
      ∀ e, result = .error e (endState result) → e.stack = (endState result).trace := by
  cases result with
  | ok v t => exact ⟨.inl ends, nofun⟩
  | error e t =>
    obtain ⟨broken, f, rfl⟩ := ends
    refine ⟨broken.imp id fun severed => ⟨⟨_, rfl⟩, severed⟩, ?_⟩
    rintro _ ⟨⟩
    rfl

-- The calls and returns of a run are the beginning of a bracketed word, a call of a host function
-- comes right before its return unless the run ends between them, and at any time, in the trace of
-- an error too, the frames are those of the calls that are open.
theorem Machine.calls_bracketed (m : Machine World Watch) (o : Observer Eye)
    (observed : o.config.calls = true) (returns : o.config.returns = true)
    (around : Surroundings World Eye) (context : Context) (n : Nat) :
    let result := Exec.drive (Exec.step (m.observedBy (some o.noting))) n
      (Machine.start ⟨around.cells, around.world, (around.watch, []), around.room⟩ context)
    let last := endState result
    let word := frameEvents last
    (∃ rest, Opens (word ++ rest) []) ∧
      (Nested m.code word last.trace ∨
        (∃ e, result = .error e last) ∧ Severed m.code word last.trace) ∧
      ∀ e, result = .error e last → e.stack = last.trace := by
  intro result last word
  let watched : Surroundings World (Eye × List Notice) :=
    ⟨around.cells, around.world, (around.watch, []), around.room⟩
  have here : Nested m.code (frameEvents (Machine.start watched context)) [] := ⟨[], .start, .nil⟩
  have whole := nested_of_ends ((nested_step observed returns).drive n _ here)
  refine ⟨?_, whole⟩
  rcases whole.1 with ⟨waiting, opens, _⟩ | ⟨_, before, e, same, external, waiting, opens, _⟩
  · exact opens.closes
  · have returned := opens.host (r := ⟨e.function, 0, e.frameDepth⟩) external rfl rfl
    obtain ⟨rest, closed⟩ := returned.closes
    refine ⟨.back ⟨e.function, 0, e.frameDepth⟩ :: rest, ?_⟩
    show Opens (frameEvents (endState result) ++ _) []
    rw [same]
    simpa using closed

end Nested

-- An observer of calls and returns alone, and a script function that calls one of the host twice; the
-- second time it fails.
def Observer.attentive : Observer Unit := { Observer.mild with config := { mode := .none } }

def Machine.fickle : Machine Bool Unit where
  code := #[.call 2 "outer", .unary .exit .null, .hostCall 0 "host", .hostCall 0 "host", .plain .ret]
  externals := #[{ name := "host", function := some fun failing _ =>
    { world := true, popped := 0, result := if failing then .failed "no" else .value none } }]

theorem Machine.fickle_bracketed :
    Observer.attentive.config.calls = true ∧ Observer.attentive.config.returns = true ∧
      let result := Exec.drive (Exec.step (Machine.fickle.observedBy (some Observer.attentive.noting)))
        5 (Machine.start ⟨#[], false, ((), []), []⟩ .background)
      let last := endState result
      frameEvents last =
          [FrameEvent.call ⟨"outer", false, 0, 1⟩, .call ⟨"host", true, 0, 1⟩, .back ⟨"host", 0, 1⟩,
            .call ⟨"host", true, 0, 1⟩] ∧
        Severed Machine.fickle.code (frameEvents last) last.trace ∧
        ∃ e, result = .error e last ∧ e.stack = [⟨"outer", 0, 0⟩] := by
  have calls : Observer.attentive.config.calls = true := rfl
  have returns : Observer.attentive.config.returns = true := rfl
  obtain ⟨_, nested, traced⟩ := Machine.fickle.calls_bracketed Observer.attentive calls returns
    ⟨#[], false, (), []⟩ .background 5
  have word : frameEvents (endState (Exec.drive
      (Exec.step (Machine.fickle.observedBy (some Observer.attentive.noting))) 5
      (Machine.start ⟨#[], false, ((), []), []⟩ .background))) =
        [FrameEvent.call ⟨"outer", false, 0, 1⟩, .call ⟨"host", true, 0, 1⟩, .back ⟨"host", 0, 1⟩,
          .call ⟨"host", true, 0, 1⟩] := by decide +kernel
  have trace : (endState (Exec.drive
      (Exec.step (Machine.fickle.observedBy (some Observer.attentive.noting))) 5
      (Machine.start ⟨#[], false, ((), []), []⟩ .background))).trace = [⟨"outer", 0, 0⟩] := by
    decide +kernel
  have split : frameEvents (endState (Exec.drive
      (Exec.step (Machine.fickle.observedBy (some Observer.attentive.noting))) 5
      (Machine.start ⟨#[], false, ((), []), []⟩ .background))) =
        [FrameEvent.call ⟨"outer", false, 0, 1⟩, .call ⟨"host", true, 0, 1⟩, .back ⟨"host", 0, 1⟩] ++
          [FrameEvent.call ⟨"host", true, 0, 1⟩] := word
  have severed := nested.resolve_left fun ⟨_, opens, _⟩ =>
    absurd (opens.script_of_last split) (by decide)
  obtain ⟨⟨e, failed⟩, severed⟩ := severed
  exact ⟨calls, returns, word, severed, e, failed, (traced e failed).trans trace⟩

end ScalarScript
