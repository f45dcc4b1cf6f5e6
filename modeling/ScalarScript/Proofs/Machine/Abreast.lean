import ScalarScript.Proofs.Machine.Drive
import Mathlib.Data.List.Forall2
/-!
Two machines side by side. They agree in all but where their instructions stand, and in the room of
the operand stack where that does not count; then every step of the one is a step of the other.
-/
namespace ScalarScript

open Stateful

variable {World Watch : Type}

-- An observer that is told of steps in other words.
def Observer.told (o : Observer Watch) (words : StepEvent → StepEvent) : Observer Watch :=
  { o with onStep := fun watch event => o.onStep watch (words event) }

-- Machines with the same host and limits. What the first one's observer hears is what the second
-- one's is told, put in other words.
structure Twins (m n : Machine World Watch) (words : StepEvent → StepEvent) : Prop where
  externals : n.externals = m.externals
  limit : n.instructionLimit = m.instructionLimit
  interval : n.contextInterval = m.contextInterval
  depth : n.maxCallDepth = m.maxCallDepth
  observer : n.observer = m.observer.map (·.told words)

-- Instructions that differ in nothing but the place that a branch names.
structure Counterpart (i j : Instruction) : Prop where
  same : j = { i with target := j.target }
  target : i.opcode.isBranch = false → j.target = i.target

theorem Counterpart.refl (i : Instruction) : Counterpart i i := ⟨rfl, fun _ => rfl⟩

-- What the first observer hears of a step is what the second one's is in other words.
def Heard (words : StepEvent → StepEvent) (here there : Int) (i j : Instruction) : Prop :=
  ∀ e : StepEvent, e.address = there → e.instruction = j.render true →
    words e = { e with address := here, instruction := i.render true }

section Counterpart

variable {i j : Instruction}

theorem Counterpart.opcode (pair : Counterpart i j) : j.opcode = i.opcode := by rw [pair.same]

theorem Counterpart.first (pair : Counterpart i j) : j.first = i.first := by rw [pair.same]

theorem Counterpart.name (pair : Counterpart i j) : j.name = i.name := by rw [pair.same]

theorem Counterpart.line (pair : Counterpart i j) : j.line = i.line := by rw [pair.same]

theorem Counterpart.effect (pair : Counterpart i j) (c : Core World) : c.effect j = c.effect i := by
  rw [pair.same]
  rfl

end Counterpart

section Abreast

-- Which addresses of the two machines correspond, and whether the room counts.
variable (Site : Int → Int → Prop) (roomCounts : Prop)

structure SameCall (a b : Activation) : Prop where
  function : b.function = a.function
  line : b.line = a.line
  site : Site a.site b.site
  resume : Site a.resume b.resume

-- States of the two machines that stand at the given addresses.
structure Abreast (here there : Int) (s t : RunState World Watch) : Prop where
  core : t.toCore = s.toCore
  line : t.line = s.line
  executed : t.executed = s.executed
  watch : t.watch = s.watch
  cancellable : t.cancellable = s.cancellable
  cancelled : t.cancelled = s.cancelled
  sinceCheck : t.sinceCheck = s.sinceCheck
  observedLine : t.observedLine = s.observedLine
  room : roomCounts → t.room = s.room
  calls : List.Forall₂ (SameCall Site) s.calls t.calls
  here : s.address = here
  there : t.address = there

end Abreast

-- Results that a relation of states keeps abreast. Errors are the same fault, each told at the
-- place where its own machine was.
inductive Alike {α β : Type} (R : RunState World Watch → RunState World Watch → Prop)
    (Q : α → β → Prop) : EStateM.Result RuntimeError (RunState World Watch) α →
      EStateM.Result RuntimeError (RunState World Watch) β → Prop where
  | ok {a : α} {b : β} {s t : RunState World Watch} (value : Q a b) (state : R s t) :
      Alike R Q (.ok a s) (.ok b t)
  | error {f : RuntimeFault} {s t u v : RunState World Watch} (place : R u v) (state : R s t) :
      Alike R Q (.error (u.error f) s) (.error (v.error f) t)

theorem Alike.mono {α β : Type} {R R' : RunState World Watch → RunState World Watch → Prop}
    {Q Q' : α → β → Prop} {x : EStateM.Result RuntimeError (RunState World Watch) α}
    {y : EStateM.Result RuntimeError (RunState World Watch) β} (alike : Alike R Q x y)
    (state : ∀ s t, R s t → R' s t) (value : ∀ a b, Q a b → Q' a b) : Alike R' Q' x y := by
  cases alike with
  | ok same along => exact .ok (value _ _ same) (state _ _ along)
  | error place along => exact .error (state _ _ place) (state _ _ along)

namespace Exec

variable {α β γ δ : Type} {R : RunState World Watch → RunState World Watch → Prop}

-- Actions that keep states abreast.
def Parallel (R : RunState World Watch → RunState World Watch → Prop) (Q : α → β → Prop)
    (x : Exec World Watch α) (y : Exec World Watch β) : Prop :=
  ∀ s t, R s t → Alike R Q (x s) (y t)

theorem Parallel.pure {Q : α → β → Prop} {a : α} {b : β} (same : Q a b) :
    Parallel R Q (pure a) (pure b) := by
  intro s t along
  exact .ok same along

theorem Parallel.bind {Q : α → β → Prop} {Q' : γ → δ → Prop} {x : Exec World Watch α}
    {y : Exec World Watch β} {f : α → Exec World Watch γ} {g : β → Exec World Watch δ}
    (first : Parallel R Q x y) (second : ∀ a b, Q a b → Parallel R Q' (f a) (g b)) :
    Parallel R Q' (x >>= f) (y >>= g) := by
  intro s t along
  rw [bind_apply, bind_apply]
  have ran := first s t along
  generalize x s = one at ran
  generalize y t = two at ran
  cases ran with
  | ok same along => exact second _ _ same _ _ along
  | error place along => exact .error place along

-- An action that reads the state first.
theorem Parallel.read {Q : α → β → Prop} {f : RunState World Watch → Exec World Watch α}
    {g : RunState World Watch → Exec World Watch β}
    (next : ∀ s t, R s t → Parallel R Q (f s) (g t)) :
    Parallel R Q (do let s ← get; f s) (do let t ← get; g t) := by
  intro s t along
  exact next s t along s t along

theorem Parallel.set {s t : RunState World Watch} (along : R s t) :
    Parallel R (fun _ _ => True) (set s : Exec World Watch PUnit) (set t) := by
  intro _ _ _
  exact .ok trivial along

theorem Parallel.modify {f g : RunState World Watch → RunState World Watch}
    (along : ∀ s t, R s t → R (f s) (g t)) :
    Parallel R (fun _ _ => True) (modify f : Exec World Watch PUnit) (modify g) := by
  intro s t states
  exact .ok trivial (along s t states)

theorem Parallel.fail {Q : α → β → Prop} (f : RuntimeFault) :
    Parallel R Q (fail f : Exec World Watch α) (fail f) := by
  intro s t along
  exact .error along along

-- Nothing comes after a failure.
theorem Parallel.stop {Q : β → δ → Prop} (f : RuntimeFault) (next : α → Exec World Watch β)
    (next' : γ → Exec World Watch δ) :
    Parallel R Q (do let a ← Exec.fail f; next a) (do let b ← Exec.fail f; next' b) :=
  .bind (Q := fun _ _ => False) (.fail f) fun _ _ never => never.elim

theorem Parallel.raise (r : Except RuntimeFault α) :
    Parallel R Eq (raise r : Exec World Watch α) (raise r) := by
  cases r with
  | ok a => exact .pure rfl
  | error f => exact .fail f

theorem Parallel.obey (v : Verdict) :
    Parallel R (fun _ _ => True) (obey v : Exec World Watch Unit) (obey v) := by
  cases v with
  | proceed => exact .pure trivial
  | halt => exact .fail .halted
  | crash message => exact .fail (.internal message)

end Exec

section Actions

variable {Site : Int → Int → Prop} {roomCounts : Prop} {here there : Int}
  {m n : Machine World Watch} {words : StepEvent → StepEvent} {i j : Instruction}

theorem Abreast.answers {s t : RunState World Watch}
    (along : Abreast Site roomCounts here there s t) (external : External World)
    (f : HostFunction World) :
    f t.world (t.request external.arity.toNat) = f s.world (s.request external.arity.toNat) := by
  rw [along.core]

theorem Abreast.depth {s t : RunState World Watch}
    (along : Abreast Site roomCounts here there s t) : t.calls.length = s.calls.length :=
  along.calls.length_eq.symm

namespace Exec

theorem parallel_stepDue (config : ObserverConfig) :
    Parallel (Abreast Site roomCounts here there) Eq
      (stepDue config : Exec World Watch Bool) (stepDue config) := by
  refine .read ?_
  intro s t along
  cases config.mode with
  | all => exact .pure rfl
  | none => exact .pure rfl
  | sampled =>
    rw [along.executed]
    exact .pure rfl
  | onLine =>
    simp only [along.line, along.observedLine]
    split
    · exact .pure rfl
    · refine Parallel.bind (Q := fun _ _ => True) (.set ?_) fun _ _ _ => .pure rfl
      exact { along with line := rfl, observedLine := rfl }

-- An observer that hears the same says the same.
theorem parallel_notify {look : RunState World Watch → Watch × Verdict}
    {look' : RunState World Watch → Watch × Verdict}
    (heard : ∀ s t, Abreast Site roomCounts here there s t → look' t = look s) :
    Parallel (Abreast Site roomCounts here there) (fun _ _ => True)
      (do
        let s ← get
        let (watch, verdict) := look s
        set { s with watch }
        obey verdict)
      (do
        let s ← get
        let (watch, verdict) := look' s
        set { s with watch }
        obey verdict) := by
  refine .read ?_
  intro s t along
  rw [heard s t along]
  refine Parallel.bind (Q := fun _ _ => True) (.set ?_) fun _ _ _ => .obey _
  exact { along with watch := rfl }

theorem parallel_observeStep (twins : Twins m n words) (pair : Counterpart i j)
    (heard : Heard words here there i j) :
    Parallel (Abreast Site roomCounts here there) (fun _ _ => True) (observeStep m i)
      (observeStep n j) := by
  unfold observeStep
  rw [twins.observer]
  cases m.observer with
  | none => exact .pure trivial
  | some o =>
    refine Parallel.bind (parallel_stepDue o.config.normalize) ?_
    rintro due _ rfl
    cases due with
    | false => exact .pure trivial
    | true =>
      refine parallel_notify ?_
      intro s t along
      show o.onStep t.watch (words _) = _
      rw [heard _ along.there rfl, along.watch, pair.opcode, along.line, along.core, along.depth,
        along.here]

theorem parallel_observeCall (twins : Twins m n words) (name : String) (external : Bool) :
    Parallel (Abreast Site roomCounts here there) (fun _ _ => True) (observeCall m name external)
      (observeCall n name external) := by
  unfold observeCall
  rw [twins.observer]
  cases m.observer with
  | none => exact .pure trivial
  | some o =>
    show Parallel _ _ (if o.config.calls then _ else _) (if o.config.calls then _ else _)
    split
    · refine parallel_notify ?_
      intro s t along
      show o.onCall t.watch _ = _
      rw [along.watch, along.line, along.depth]
    · exact .pure trivial

theorem parallel_observeReturn (twins : Twins m n words) (name : String) :
    Parallel (Abreast Site roomCounts here there) (fun _ _ => True) (observeReturn m name)
      (observeReturn n name) := by
  unfold observeReturn
  rw [twins.observer]
  cases m.observer with
  | none => exact .pure trivial
  | some o =>
    show Parallel _ _ (if o.config.returns then _ else _) (if o.config.returns then _ else _)
    split
    · refine parallel_notify ?_
      intro s t along
      show o.onReturn t.watch _ = _
      rw [along.watch, along.line, along.depth]
    · exact .pure trivial

theorem parallel_checkContext (twins : Twins m n words) :
    Parallel (Abreast Site roomCounts here there) (fun _ _ => True) (checkContext m)
      (checkContext n) := by
  refine .read ?_
  intro s t along
  rw [twins.interval, along.cancellable, along.sinceCheck, along.cancelled]
  split
  · split
    · refine Parallel.bind (Q := fun _ _ => True) (.set ?_) fun _ _ _ => ?_
      · exact { along with cancellable := rfl, cancelled := rfl, sinceCheck := rfl }
      · split
        · exact .fail .cancelled
        · exact .pure trivial
    · exact .set { along with cancellable := rfl, cancelled := rfl, sinceCheck := rfl }
  · exact .pure trivial

theorem parallel_countInstruction (twins : Twins m n words) :
    Parallel (Abreast Site roomCounts here there) (fun _ _ => True) (countInstruction m)
      (countInstruction n) := by
  refine .read ?_
  intro s t along
  rw [twins.limit, along.executed]
  refine Parallel.bind (Q := fun _ _ => True) (.modify ?_) fun _ _ _ => ?_
  · intro u v states
    exact { states with executed := rfl }
  · split
    · exact .fail (.instructionLimit _)
    · exact .pure trivial

theorem parallel_invoke (f : HostFunction World) (arity : Nat) :
    Parallel (Abreast Site roomCounts here there) Eq
      (invoke f arity : Exec World Watch (HostReply World)) (invoke f arity) := by
  intro s t along
  refine .ok ?_ ?_
  · show f s.world (s.request arity) = f t.world (t.request arity)
    rw [along.core]
  · refine
      { core := ?_, line := along.line, executed := along.executed, watch := along.watch
        cancellable := along.cancellable, cancelled := ?_, sinceCheck := along.sinceCheck
        observedLine := along.observedLine, room := ?_, calls := along.calls, here := along.here
        there := along.there }
    · simp only [along.core]
    · simp only [along.core, along.cancelled, along.cancellable]
    · intro counts
      simp only [RunState.roomBelow, along.core, along.room counts]

-- Places are taken back alike where there are the same, or none are taken.
theorem parallel_regain (count : Nat) (alike : roomCounts ∨ count = 0) :
    Parallel (Abreast Site roomCounts here there) (fun _ _ => True)
      (regain count : Exec World Watch Unit) (regain count) := by
  rcases alike with counts | rfl
  · refine .read ?_
    intro s t along
    rw [along.room counts, along.core]
    dsimp only
    split
    · exact .stop (.noRoom _ _) _ _
    · refine .set { along with core := ?_, room := fun _ => ?_ }
      · simp only [RunState.regain, along.core, along.room counts]
      · simp only [RunState.regain, along.room counts]
  · intro s t along
    rw [regain_zero, regain_zero]
    exact .ok trivial along

theorem parallel_callHost (twins : Twins m n words) (slot : Int) (alike : roomCounts ∨ Fair m) :
    Parallel (Abreast Site roomCounts here there) (fun _ _ => True) (callHost m slot)
      (callHost n slot) := by
  unfold callHost
  rw [twins.externals]
  cases found : External.function? m.externals slot with
  | none => exact .fail (.notHostFunction slot)
  | some pair =>
    obtain ⟨ext, f⟩ := pair
    have none : roomCounts ∨ (-ext.arity).toNat = 0 := by
      rcases alike with counts | fair
      · exact .inl counts
      · have := fair ext (function?_mem found).1
        exact .inr (by omega)
    refine .read ?_
    intro s t along
    rw [along.core]
    dsimp only
    split
    · exact .stop (.missingArguments ext.name ext.arity) _ _
    refine Parallel.bind (parallel_observeCall twins ext.name true) fun _ _ _ => ?_
    refine Parallel.bind (parallel_invoke f ext.arity.toNat) ?_
    rintro reply _ rfl
    refine Parallel.bind (parallel_regain _ none) fun _ _ _ => ?_
    refine Parallel.bind (Parallel.raise _) ?_
    rintro v _ rfl
    refine Parallel.bind (parallel_observeReturn twins ext.name) fun _ _ _ => ?_
    refine Parallel.bind (Parallel.raise _) ?_
    rintro w _ rfl
    refine .modify ?_
    intro u v states
    refine { states with core := ?_ }
    simp only [states.core]

theorem parallel_perform (twins : Twins m n words) (pair : Counterpart i j)
    (alike : roomCounts ∨ Fair m) :
    Parallel (Abreast Site roomCounts here there) (fun _ _ => True) (perform m i)
      (perform n j) := by
  by_cases host : i.opcode = .hostCall
  · have performs (k : Machine World Watch) {l : Instruction} (is : l.opcode = .hostCall) :
        perform k l = callHost k l.target := by
      unfold perform
      rw [is]
    rw [performs m host, performs n (pair.opcode.trans host),
      pair.target (by rw [host]; rfl)]
    exact parallel_callHost twins i.target alike
  · have plain : j.opcode ≠ .hostCall := by rwa [pair.opcode]
    rw [perform_of_plain host, perform_of_plain plain]
    refine .read ?_
    intro s t along
    rw [along.core, pair.effect]
    refine Parallel.bind (Parallel.raise _) ?_
    rintro core _ rfl
    refine .set { along with core := rfl, room := fun counts => ?_ }
    simp only [RunState.roomAfter, pair.opcode, along.core, along.room counts]

-- Where control goes from corresponding places, if a branch goes to corresponding ones.
structure Crossing (Site : Int → Int → Prop) (here there : Int) (i j : Instruction) : Prop where
  site : Site here there
  next : Site (here + 1) (there + 1)
  branch : i.opcode.isBranch = true → Site i.target j.target

theorem parallel_enterCall (twins : Twins m n words) (pair : Counterpart i j)
    (crossing : Crossing Site here there i j) :
    Parallel (Abreast Site roomCounts here there) (fun _ _ => True) (enterCall m i)
      (enterCall n j) := by
  refine .read ?_
  intro s t along
  rw [twins.depth, along.depth, pair.name]
  dsimp only
  split
  · exact .stop (.callOverflow _) _ _
  refine Parallel.bind (Q := fun _ _ => True) (.set ?_) fun _ _ _ =>
    parallel_observeCall twins i.name false
  refine { along with calls := .cons ⟨rfl, along.line, ?_, ?_⟩ along.calls }
  · simpa only [along.here, along.there] using crossing.site
  · simpa only [along.here, along.there] using crossing.next

theorem parallel_leaveCall (twins : Twins m n words) :
    Parallel (Abreast Site roomCounts here there) Site (leaveCall m) (leaveCall n) := by
  refine .read ?_
  intro s t along
  have calls := along.calls
  generalize s.calls = first at calls
  generalize t.calls = second at calls
  cases calls with
  | nil => exact .fail .emptyCalls
  | @cons a b rest rest' same later =>
    refine Parallel.bind (Q := fun _ _ => True) (.modify ?_) fun _ _ _ => ?_
    · intro u v states
      exact { states with calls := later }
    refine Parallel.bind (Q := fun _ _ => True) ?_ fun _ _ _ => ?_
    · rw [same.function]
      exact parallel_observeReturn twins a.function
    refine Parallel.bind (Q := fun _ _ => True) (.modify ?_) fun _ _ _ => .pure same.resume
    intro u v states
    exact { states with line := same.line }

-- Corresponding next addresses, or the same exit value.
inductive SameWay (Site : Int → Int → Prop) : Int ⊕ Value → Int ⊕ Value → Prop where
  | goto {a b : Int} (site : Site a b) : SameWay Site (.inl a) (.inl b)
  | exit {v : Value} : SameWay Site (.inr v) (.inr v)

theorem parallel_transfer (twins : Twins m n words) (pair : Counterpart i j)
    (crossing : Crossing Site here there i j) :
    Parallel (Abreast Site roomCounts here there) (SameWay Site) (transfer m i)
      (transfer n j) := by
  refine .read ?_
  intro s t along
  have next : Site (s.address + 1) (t.address + 1) := by
    rw [along.here, along.there]
    exact crossing.next
  rw [pair.opcode]
  cases opcode : i.opcode with
  | exit =>
    refine .read ?_
    intro u v states
    rw [states.core, pair.first]
    refine Parallel.bind (Parallel.raise _) ?_
    rintro w _ rfl
    exact .pure .exit
  | jump => exact .pure (.goto (crossing.branch (by rw [opcode]; rfl)))
  | jumpIf condition =>
    refine .read ?_
    intro u v states
    rw [states.core]
    refine .pure (.goto ?_)
    split
    · exact crossing.branch (by rw [opcode]; rfl)
    · exact next
  | call =>
    refine Parallel.bind (parallel_enterCall twins pair crossing) fun _ _ _ => ?_
    exact .pure (.goto (crossing.branch (by rw [opcode]; rfl)))
  | ret =>
    refine Parallel.bind (parallel_leaveCall twins) fun a b site => ?_
    exact .pure (.goto site)
  | _ => exact .pure (.goto next)

end Exec

-- States abreast at corresponding addresses.
def Along (Site : Int → Int → Prop) (roomCounts : Prop) (s t : RunState World Watch) : Prop :=
  Abreast Site roomCounts s.address t.address s t ∧ Site s.address t.address

theorem Abreast.along {s t : RunState World Watch}
    (states : Abreast Site roomCounts here there s t) (site : Site here there) :
    Along Site roomCounts s t := by
  obtain ⟨rfl, rfl⟩ := And.intro states.here states.there
  exact ⟨states, site⟩

namespace Exec

-- What an instruction does before control moves.
def beforeMove (m : Machine World Watch) (i : Instruction) : Exec World Watch (Int ⊕ Value) := do
  countInstruction m
  observeStep m i
  perform m i
  transfer m i

-- Moves control.
def moveTo : Int ⊕ Value → Exec World Watch (Option Value)
  | .inr v => return some v
  | .inl next => do
    modify fun s => { s with address := next }
    return none

theorem execute_eq_moveTo {m : Machine World Watch} {i : Instruction}
    (active : i.opcode.isMark = false) :
    execute m i = (do let way ← beforeMove m i; moveTo way) := by
  rw [execute_of_active active]
  simp only [finish, beforeMove, bind_assoc]
  refine bind_congr fun _ => bind_congr fun _ => bind_congr fun _ => bind_congr fun way => ?_
  cases way <;> rfl

theorem parallel_beforeMove (twins : Twins m n words) (pair : Counterpart i j)
    (crossing : Crossing Site here there i j) (heard : Heard words here there i j)
    (alike : roomCounts ∨ Fair m) :
    Parallel (Abreast Site roomCounts here there) (SameWay Site) (beforeMove m i)
      (beforeMove n j) :=
  (parallel_countInstruction twins).bind fun _ _ _ =>
    (parallel_observeStep twins pair heard).bind fun _ _ _ =>
      (parallel_perform twins pair alike).bind fun _ _ _ => parallel_transfer twins pair crossing

-- Counterparts at corresponding places are executed alike.
theorem execute_alike (twins : Twins m n words) (pair : Counterpart i j)
    (crossing : Crossing Site here there i j) (heard : Heard words here there i j)
    (alike : roomCounts ∨ Fair m) {s t : RunState World Watch}
    (states : Abreast Site roomCounts here there s t) :
    Alike (Along Site roomCounts) Eq (execute m i s) (execute n j t) := by
  cases active : i.opcode.isMark with
  | true =>
    have moved {u v : RunState World Watch}
        (onward : Abreast Site roomCounts (here + 1) (there + 1) u v) :
        Alike (Along Site roomCounts) Eq
          (.ok none u : EStateM.Result RuntimeError (RunState World Watch) (Option Value))
          (.ok none v) := .ok rfl (onward.along crossing.next)
    cases opcode : i.opcode with
    | label =>
      simp only [execute, opcode, pair.opcode, bind_apply, modify_apply, pure_apply]
      exact moved { states with here := by simp only [states.here]
                                there := by simp only [states.there] }
    | debugLine =>
      simp only [execute, opcode, pair.opcode, bind_apply, modify_apply, pure_apply]
      exact moved { states with line := pair.line
                                here := by simp only [states.here]
                                there := by simp only [states.there] }
    | _ => simp [opcode, Opcode.isMark] at active
  | false =>
    rw [execute_eq_moveTo active, execute_eq_moveTo (by rwa [pair.opcode]), bind_apply, bind_apply]
    have ran := parallel_beforeMove twins pair crossing heard alike s t states
    generalize beforeMove m i s = one at ran
    generalize beforeMove n j t = two at ran
    cases ran with
    | error place state =>
      exact .error (place.along crossing.site) (state.along crossing.site)
    | @ok _ _ u v way state =>
      cases way with
      | @goto a b site =>
        have onward : Abreast Site roomCounts a b { u with address := a } { v with address := b } :=
          { state with here := rfl, there := rfl }
        exact .ok rfl (onward.along site)
      | exit => exact .ok rfl (state.along crossing.site)

-- Steps at counterparts are alike.
theorem step_alike (twins : Twins m n words) (pair : Counterpart i j)
    (crossing : Crossing Site here there i j) (heard : Heard words here there i j)
    (alike : roomCounts ∨ Fair m) {s t : RunState World Watch}
    (states : Abreast Site roomCounts here there s t) (insideHere : 0 ≤ here)
    (insideThere : 0 ≤ there) (fetchedHere : m.code[here.toNat]? = some i)
    (fetchedThere : n.code[there.toNat]? = some j) :
    Alike (Along Site roomCounts) Eq (step m s) (step n t) := by
  rw [← states.here] at insideHere fetchedHere
  rw [← states.there] at insideThere fetchedThere
  rw [step_of_fetched insideHere fetchedHere, step_of_fetched insideThere fetchedThere,
    bind_apply, bind_apply]
  have checked := parallel_checkContext twins s t states
  generalize checkContext m s = one at checked
  generalize checkContext n t = two at checked
  cases checked with
  | ok _ states => exact execute_alike twins pair crossing heard alike states
  | error place states => exact .error (place.along crossing.site) (states.along crossing.site)

end Exec

end Actions

namespace Exec

-- Steps that keep states abreast do so as often as they are taken.
theorem Parallel.drive {R : RunState World Watch → RunState World Watch → Prop}
    {x y : Exec World Watch (Option Value)} (steps : Parallel R Eq x y) (n : Nat) :
    Parallel R Eq (drive x n) (drive y n) := by
  induction n with
  | zero => exact .pure rfl
  | succ n ih =>
    refine Parallel.bind steps ?_
    rintro result _ rfl
    cases result with
    | none => exact ih
    | some v => exact .pure rfl

end Exec

end ScalarScript
