import ScalarScript.Proofs.Machine.Abreast
import ScalarScript.Proofs.Machine.Arguments
/-!
Machines that are run again and again, and host functions that try to run the machine that called
them. Of all that a run leaves in the machine, a reset keeps the room of the operand stack, which no
run can tell unless a host function takes a negative number of arguments.
-/
namespace ScalarScript

open Stateful

variable {World Watch : Type}

-- What becomes of a machine. In between its runs, and in them, the host does what it likes with
-- the things that are the host's.
inductive Device.History (m : Machine World Watch) : Device World Watch → Prop where
  | new (cells : Array (Option Cell)) (world : World) (watch : Watch) :
      History m (.new { cells, world, watch })
  | host {d : Device World Watch} (before : History m d) (cells : Array (Option Cell))
      (world : World) (watch : Watch) :
      History m { d with state := { d.state with cells, world, watch } }
  | run {d e : Device World Watch} {fuel : Nat} {context : Context}
      {result : Except String (RunReport World Watch)} (before : History m d)
      (ran : m.use fuel context d = some (result, e)) : History m e

-- The machine made anew, with everything of the host's as it is.
def Device.renewed (d : Device World Watch) : Device World Watch :=
  .new { cells := d.state.cells, world := d.state.world, watch := d.state.watch }

-- Runs that cannot be told apart: the same outcome and records, and the same final state, with the
-- counter, the observer and all that is the host's.
structure RunReport.Same (r r' : RunReport World Watch) : Prop where
  outcome : r'.outcome = r.outcome
  log : r'.log = r.log
  final : r'.final = { r.final with room := r'.final.room }

-- Results of using two machines.
inductive SameUse : Option (Except String (RunReport World Watch) × Device World Watch) →
    Option (Except String (RunReport World Watch) × Device World Watch) → Prop where
  | unfinished : SameUse none none
  | report {r r' : RunReport World Watch} {d e : Device World Watch} (same : r.Same r') :
      SameUse (some (.ok r, d)) (some (.ok r', e))

theorem Device.begin_of_idle {d : Device World Watch} (idle : d.running = false) :
    d.begin = .ok { d with running := true } := by simp [begin, idle]

-- A machine is free after every run.
theorem Device.History.idle {m : Machine World Watch} {d : Device World Watch}
    (history : History m d) : d.running = false := by
  induction history with
  | new => rfl
  | host _ _ _ _ ih => exact ih
  | @run d e fuel context result before ran ih =>
    simp only [Machine.use, begin_of_idle ih] at ran
    cases ended : m.runFrom fuel (d.state.reset.under context) with
    | none =>
      rw [ended] at ran
      cases ran
    | some pair =>
      rw [ended] at ran
      cases ran
      rfl

theorem eq_of_along {s t : RunState World Watch} (along : Along Eq False s t) :
    t = { s with room := t.room } := by
  obtain ⟨states, address⟩ := along
  have calls : t.calls = s.calls := by
    have same := states.calls
    generalize s.calls = first at same
    generalize t.calls = second at same
    induction same with
    | nil => rfl
    | @cons a b _ _ one _ ih =>
      obtain ⟨function, line, site, resume⟩ := one
      cases a
      cases b
      simp_all
  have core := states.core
  cases s
  cases t
  cases core
  obtain ⟨_, line, executed, watch, cancellable, cancelled, sinceCheck, observedLine, _, _, _, _⟩ :=
    states
  simp_all

-- Without room of its own a run goes on as with any.
theorem step_roomless {m : Machine World Watch} (fair : Fair m) :
    Exec.Parallel (Along Eq False) Eq (Exec.step m) (Exec.step m) := by
  intro s t along
  have twins : Twins m m id := by
    refine ⟨rfl, rfl, rfl, rfl, ?_⟩
    cases m.observer <;> rfl
  obtain ⟨states, same⟩ := along
  cases Exec.placed m s with
  | past outside =>
    rw [Exec.step_of_past outside, Exec.step_of_past (same ▸ outside)]
    exact .ok rfl ⟨states, same⟩
  | negative outside =>
    rw [Exec.step_of_negative outside, Exec.step_of_negative (same ▸ outside), ← same]
    have failing : Exec.Parallel (Abreast Eq False s.address t.address)
        (Eq : Option Value → Option Value → Prop)
        (do
          Exec.checkContext m
          Exec.fail (.internal s!"runtime error: index out of range [{s.address}]"))
        (do
          Exec.checkContext m
          Exec.fail (.internal s!"runtime error: index out of range [{s.address}]")) :=
      (Exec.parallel_checkContext twins).bind fun _ _ _ => .fail _
    exact (failing s t states).mono (fun u v later => later.along same) fun _ _ => id
  | «at» i inside found =>
    have heard : Heard id s.address t.address i i := by
      intro e address instruction
      rw [same, ← address, ← instruction]
      rfl
    exact Exec.step_alike twins (.refl i) ⟨same, congrArg (· + 1) same, fun _ => rfl⟩ heard
      (.inr fair) states inside (same ▸ inside) found (same ▸ found)

theorem start_roomless (around : Surroundings World Watch) (context : Context) :
    Along Eq False (Machine.start around context)
      (Machine.start { around with room := [] } context) :=
  ⟨⟨rfl, rfl, rfl, rfl, rfl, rfl, rfl, rfl, nofun, .nil, rfl, rfl⟩, rfl⟩

-- The next run of a machine cannot be told from the first one of a machine made anew. Once they are
-- reset, they differ in their room alone.
theorem use_renewed {m : Machine World Watch} (fair : Fair m) (fuel : Nat) (context : Context)
    {d : Device World Watch} (idle : d.running = false) :
    SameUse (m.use fuel context d) (m.use fuel context d.renewed) := by
  have ran := (step_roomless fair).drive fuel _ _ (start_roomless d.state.surroundings context)
  simp only [Machine.use, Device.begin_of_idle idle,
    Device.begin_of_idle (d := d.renewed) rfl, Exec.runFrom_eq_drive]
  simp only [Device.renewed, Device.new, Machine.reset_under, Machine.surroundings_unused]
  simp only [RunState.surroundings] at ran ⊢
  generalize Exec.drive (Exec.step m) fuel (Machine.start ⟨d.state.cells, d.state.world,
    d.state.watch, d.state.roomBelow d.state.stack.length⟩ context) = one at ran ⊢
  generalize Exec.drive (Exec.step m) fuel (Machine.start ⟨d.state.cells, d.state.world,
    d.state.watch, []⟩ context) = two at ran ⊢
  cases ran with
  | @ok result _ s t same along =>
    cases same
    cases result with
    | none => exact .unfinished
    | some v =>
      have final := eq_of_along along
      refine .report ⟨rfl, ?_, final⟩
      rw [final]
      rfl
  | @error f s t u v place along =>
    have final := eq_of_along along
    have error : v.error f = u.error f := by
      rw [eq_of_along place]
      rfl
    refine .report ⟨congrArg Except.error error, ?_, final⟩
    rw [final, error]
    rfl

-- With that many places taken off the operand stack.
def Device.popped (d : Device World Watch) (count : Nat) : Device World Watch :=
  { d with state := { d.state with
      stack := d.state.stack.drop count
      room := d.state.roomBelow count } }

theorem Device.popped_popped (d : Device World Watch) (count more : Nat) :
    (d.popped count).popped more = d.popped (count + more) := by
  simp [popped, RunState.roomBelow, List.take_add, List.drop_drop]

-- An attempt to run a machine that is running is turned down, and nothing else happens.
theorem use_running (m : Machine World Watch) (fuel : Nat) (context : Context)
    {d : Device World Watch} (running : d.running = true) :
    m.use fuel context d = some (.error Core.alreadyRunning, d) := by
  simp [Machine.use, Device.begin, running]

namespace HostProgram

-- A host function at work on the machine that called it, as it finds it at that moment.
def act (m : Machine World Watch) (fuel base : Nat) :
    HostProgram World → Device World Watch → Option (HostEnding World × Device World Watch)
  | finish ending, d => some (ending, d)
  | pop next, d =>
    if d.state.stack.length ≤ base then (next .null).act m fuel base d
    else (next (d.state.stack.head?.join.getD .null)).act m fuel base (d.popped 1)
  | attempt context next, d =>
    match m.use fuel context d with
    | none => none
    | some (result, d) => (next (result.map RunReport.outcome)).act m fuel base d

-- The same without its attempts to run the machine: it is told what would come of them.
def spared : HostProgram World → HostProgram World
  | finish ending => finish ending
  | pop next => pop fun v => (next v).spared
  | attempt _ next => (next (.error Core.alreadyRunning)).spared

theorem serve_spared (p : HostProgram World) (arguments : List Value) :
    p.spared.serve Core.alreadyRunning arguments = p.serve Core.alreadyRunning arguments := by
  induction p generalizing arguments with
  | finish ending => rfl
  | pop next ih => simp only [spared, serve, ih]
  | attempt context next ih => exact ih _ arguments

-- On the machine that runs it a host function does what the pops from the operand stack tell, and
-- the machine loses the places that it popped and nothing else.
theorem act_running (m : Machine World Watch) (fuel base : Nat) (p : HostProgram World)
    {d : Device World Watch} (running : d.running = true) :
    ∃ taken, (p.popFrom base d.state.stack).stack = d.state.stack.drop taken ∧
      p.act m fuel base d = some ((p.popFrom base d.state.stack).ending, d.popped taken) := by
  induction p generalizing d with
  | finish ending => exact ⟨0, rfl, rfl⟩
  | attempt context next ih =>
    simp only [act, use_running m fuel context running, popFrom]
    exact ih _ running
  | pop next ih =>
    simp only [act, popFrom]
    split
    · exact ih _ running
    · obtain ⟨taken, lost, acts⟩ := ih (d.state.stack.head?.join.getD .null) (d := d.popped 1) running
      have rest : (d.popped 1).state.stack = d.state.stack.tail := List.drop_one
      rw [Device.popped_popped, rest] at acts
      rw [rest] at lost
      exact ⟨1 + taken, lost.trans (by rw [← List.drop_one, List.drop_drop]), acts⟩

-- The attempts to run the machine might as well not have been made.
theorem act_spared (m : Machine World Watch) (fuel base : Nat) (p : HostProgram World)
    {d : Device World Watch} (running : d.running = true) :
    p.spared.act m fuel base d = p.act m fuel base d := by
  induction p generalizing d with
  | finish ending => rfl
  | attempt context next ih =>
    simp only [spared, act, use_running m fuel context running]
    exact ih _ running
  | pop next ih =>
    simp only [spared, act, ih _ running]
    rw [ih _ (d := d.popped 1) running]

end HostProgram

section

variable {p q : Nat → World → Array (Option Cell) → HostProgram World}

-- The same machine with those programs for its host functions.
def Machine.hosting (m : Machine World Watch)
    (p : Nat → World → Array (Option Cell) → HostProgram World) : Machine World Watch :=
  { m with externals := m.externals.mapIdx fun i ext =>
      { ext with function := ext.function.map fun _ => HostProgram.function (p i) } }

-- Programs that a machine cannot tell apart, as it turns down all attempts to run it.
def Indistinct (p q : Nat → World → Array (Option Cell) → HostProgram World) : Prop :=
  ∀ (slot : Nat) (c : Core World) (arity : Nat),
    HostProgram.function (p slot) c.world (c.request arity) =
      HostProgram.function (q slot) c.world (c.request arity)

theorem indistinct_spared (p : Nat → World → Array (Option Cell) → HostProgram World) :
    Indistinct p fun slot world cells => (p slot world cells).spared := by
  intro slot c arity
  simp only [HostProgram.function, Core.request, HostRequest.rerun, HostRequest.cells,
    HostProgram.serve_spared]

theorem function?_hosting (m : Machine World Watch) (slot : Int) :
    External.function? (m.hosting p).externals slot =
      (External.function? m.externals slot).map fun found =>
        ({ found.1 with function := some (HostProgram.function (p slot.toNat)) },
          HostProgram.function (p slot.toNat)) := by
  unfold External.function? Machine.hosting
  split
  · rfl
  · rw [Array.getElem?_mapIdx]
    cases m.externals[slot.toNat]? with
    | none => rfl
    | some ext =>
      cases called : ext.function with
      | none => simp [called]
      | some f => simp [called]

theorem callHost_hosting (same : Indistinct p q) (m : Machine World Watch) (slot : Int) :
    Exec.callHost (m.hosting p) slot = Exec.callHost (m.hosting q) slot := by
  have invoked (arity : Nat) :
      (Exec.invoke (HostProgram.function (p slot.toNat)) arity : Exec World Watch _) =
        Exec.invoke (HostProgram.function (q slot.toNat)) arity := by
    have told (s : RunState World Watch) := same slot.toNat s.toCore arity
    simp only [Exec.invoke, told]
  simp only [Exec.callHost, function?_hosting]
  cases External.function? m.externals slot with
  | none => rfl
  | some found =>
    simp only [Option.map_some, invoked]
    rfl

theorem step_hosting (same : Indistinct p q) (m : Machine World Watch) :
    Exec.step (m.hosting p) = Exec.step (m.hosting q) := by
  have performs (i : Instruction) :
      Exec.perform (m.hosting p) i = Exec.perform (m.hosting q) i := by
    unfold Exec.perform
    split
    · exact callHost_hosting same m i.target
    · rfl
  have executes (i : Instruction) :
      Exec.execute (m.hosting p) i = Exec.execute (m.hosting q) i := by
    unfold Exec.execute
    rw [performs]
    rfl
  unfold Exec.step
  simp only [executes]
  rfl

theorem use_hosting (same : Indistinct p q) (m : Machine World Watch) (fuel : Nat)
    (context : Context) (d : Device World Watch) :
    (m.hosting p).use fuel context d = (m.hosting q).use fuel context d := by
  have size : (m.hosting p).externals.size = (m.hosting q).externals.size := by
    simp [Machine.hosting]
  simp only [Machine.use, Exec.runFrom_eq_drive, step_hosting same, Machine.startedRecord, size]
  rfl

end

-- A host function that takes minus one arguments, which is to say that a place is given back to the
-- operand stack, and a program that fills that place in its first run.
def Machine.greedy : Machine Unit Unit where
  code :=
    let seen : Operand := .slot ⟨.bool, 0, 0, "seen"⟩
    #[.unary .test seen, .branch (.jumpIf .notEqual) 6, .move seen (.literal (.truth true)),
      .push (.literal (.truth true)), .pop (.register .ebx), .unary .exit .null,
      .hostCall 1 "regain", .pop (.register .eax), .unary .exit (.register .eax)]
  externals := #[{ name := "seen", returnType := .bool },
    { name := "regain", function := some fun _ _ => { world := (), popped := 0, result := .value none }
      arity := -1 }]

-- It has not been run yet.
def Machine.greedyNew : Device Unit Unit :=
  .new { cells := #[some { content := .truth false }], world := (), watch := () }

def Machine.greedyUsed : Device Unit Unit :=
  ((Machine.greedy.use 9 .background Machine.greedyNew).map (·.2)).getD Machine.greedyNew

-- Whether there was a run and it ended with an exit value.
def succeeded : Option (Except String (RunReport World Watch) × Device World Watch) → Bool
  | some (.ok r, _) => r.outcome.isOk
  | _ => false

theorem SameUse.succeeded_eq
    {x y : Option (Except String (RunReport World Watch) × Device World Watch)}
    (same : SameUse x y) : succeeded x = succeeded y := by
  cases same with
  | unfinished => rfl
  | report same => exact congrArg Except.isOk same.outcome.symm

-- Its second run finds the place that its first run filled; made anew it has no such place.
theorem Machine.greedy_not_reusable :
    ∃ d, Device.History Machine.greedy d ∧
      ¬ SameUse (Machine.greedy.use 9 .background d)
        (Machine.greedy.use 9 .background d.renewed) := by
  refine ⟨Machine.greedyUsed, ?_, ?_⟩
  · cases ran : Machine.greedy.use 9 .background Machine.greedyNew with
    | none =>
      have done : (Machine.greedy.use 9 .background Machine.greedyNew).isSome = true := by
        decide +kernel
      rw [ran] at done
      cases done
    | some pair =>
      rw [Machine.greedyUsed, ran]
      exact .run (.new _ _ _) ran
  · intro same
    have used : succeeded (Machine.greedy.use 9 .background Machine.greedyUsed) = true := by
      decide +kernel
    have renewed :
        succeeded (Machine.greedy.use 9 .background Machine.greedyUsed.renewed) = false := by
      decide +kernel
    rw [same.succeeded_eq, renewed] at used
    cases used

-- Machines can be used again after anything, if host functions take no fewer than no arguments. A
-- host function that tries to run the machine that called it is turned down, finds the machine as it
-- was, and no run or later use can tell that it tried.
theorem Machine.reusable (m : Machine World Watch) (fair : Fair m) :
    (∀ d, Device.History m d → ∀ fuel context,
      SameUse (m.use fuel context d) (m.use fuel context d.renewed)) ∧
    (∀ (s : RunState World Watch) (arity fuel : Nat) (context : Context),
      m.use fuel context s.device = some (.error (s.request arity).rerun, s.device)) ∧
    (∀ (p : HostProgram World) (fuel base : Nat) (s : RunState World Watch),
      p.act m fuel base s.device = p.spared.act m fuel base s.device ∧
        ∃ taken, (p.popFrom base s.stack).stack = s.stack.drop taken ∧
          p.act m fuel base s.device =
            some ((p.popFrom base s.stack).ending, s.device.popped taken)) ∧
    ∀ (p : Nat → World → Array (Option Cell) → HostProgram World) fuel context d,
      (m.hosting p).use fuel context d =
        (m.hosting fun slot world cells => (p slot world cells).spared).use fuel context d := by
  refine ⟨?_, ?_, ?_, ?_⟩
  · intro d history fuel context
    exact use_renewed fair fuel context history.idle
  · intro s arity fuel context
    exact use_running m fuel context rfl
  · intro p fuel base s
    exact ⟨(p.act_spared m fuel base rfl).symm, p.act_running m fuel base (d := s.device) rfl⟩
  · intro p fuel context d
    exact use_hosting (indistinct_spared p) m fuel context d

-- A host function that first tries to run the machine, and then gives back its one argument.
def HostProgram.curious : HostProgram Unit :=
  .attempt .live fun answer => .pop fun v =>
    .finish { world := (), result := .value (if answer.isOk then none else some v) }

def Machine.modest : Machine Unit Unit where
  code := #[.push (.literal (.truth true)), .hostCall 0 "take", .unary .exit (.register .eax)]
  externals := #[{ name := "take", function := some (HostProgram.function fun _ _ => .curious)
                   arity := 1, returnType := .bool }]

theorem Machine.modest_reusable :
    Fair Machine.modest ∧
      (∀ d, Device.History Machine.modest d → ∀ fuel context,
        SameUse (Machine.modest.use fuel context d)
          (Machine.modest.use fuel context d.renewed)) ∧
      HostProgram.curious.act Machine.modest 9 2 RunState.pending.device =
        some ({ world := (), result := .value (some (.truth true)) },
          RunState.pending.device.popped 1) := by
  have fair : Fair Machine.modest := by
    intro ext member
    simp only [Machine.modest, List.mem_toArray, List.mem_singleton] at member
    rw [member]
    decide
  obtain ⟨reuse, _, acts, _⟩ := Machine.reusable Machine.modest fair
  obtain ⟨_, taken, left, done⟩ := acts .curious 9 2 .pending
  have ending : (HostProgram.curious.popFrom 2 RunState.pending.stack).ending =
      { world := (), result := .value (some (.truth true)) } := rfl
  have once : taken = 1 := by
    have length := congrArg List.length left
    rw [List.length_drop] at length
    have : (HostProgram.curious.popFrom 2 RunState.pending.stack).stack.length = 2 := rfl
    have : RunState.pending.stack.length = 3 := rfl
    omega
  exact ⟨fair, reuse, by rw [done, ending, once]⟩

end ScalarScript
