import ScalarScript.Proofs.Machine.Drive
/-!
Host functions and their arguments. A host function asks for one argument after the other, and what
it gets decides what it does next. It may even try to run the machine that called it. Its arguments
come from the live operand stack; it gets to see nothing below them, and whatever it does, they are
gone afterwards and nothing else is.
-/
namespace ScalarScript

open Stateful

variable {World Watch : Type}

-- What a host function does once it asks for no more.
structure HostEnding (World : Type) where
  world : World
  cancels : Bool := false
  stores : List (Nat × Value) := []
  result : HostResult

-- A host function at work.
inductive HostProgram (World : Type) where
  | pop (next : Value → HostProgram World)
  -- an attempt to run the machine
  | attempt (context : Context)
      (next : Except String (Except RuntimeError Value) → HostProgram World)
  | finish (ending : HostEnding World)

def HostResult.Fails : HostResult → Prop
  | .value _ => False
  | .failed _ | .crashed _ => True

-- What came of pops from an operand stack.
structure Popped (World : Type) where
  ending : HostEnding World
  -- first to last
  yielded : List Value
  stack : List (Option Value)
  -- whether a pop found the stack down to its base
  short : Bool

namespace HostProgram

-- Pops from the live stack, down to the base. Below it there is only the null value, and the stack
-- stays as it is. Attempts to run the machine are turned down.
def popFrom (base : Nat) : HostProgram World → List (Option Value) → Popped World
  | finish ending, stack => ⟨ending, [], stack, false⟩
  | pop next, stack =>
    if stack.length ≤ base then
      let after := (next .null).popFrom base stack
      { after with yielded := .null :: after.yielded, short := true }
    else
      let v := stack.head?.join.getD .null
      let after := (next v).popFrom base stack.tail
      { after with yielded := v :: after.yielded }
  | attempt _ next, stack => (next (.error Core.alreadyRunning)).popFrom base stack

-- The same with the arguments at hand, the last one first, and the answer to attempts: how many
-- arguments were asked for, and the end.
def serve (rerun : String) : HostProgram World → List Value → Nat × HostEnding World
  | finish ending, _ => (0, ending)
  | pop next, arguments =>
    let (asked, ending) := (next (arguments.headD .null)).serve rerun arguments.tail
    (asked + 1, ending)
  | attempt _ next, arguments => (next (.error rerun)).serve rerun arguments

-- What it does may depend on the variables that it finds.
def function (p : World → Array (Option Cell) → HostProgram World) : HostFunction World :=
  fun world request =>
    let (asked, ending) := (p world request.cells).serve request.rerun request.arguments
    { world := ending.world, popped := asked, cancels := ending.cancels, stores := ending.stores
      result := ending.result }

-- The arguments are handed out in order, then nulls; the stack loses as many of them as were asked
-- for, and nothing below them.
theorem popFrom_arguments (p : HostProgram World) (arguments : List Value)
    (rest : List (Option Value)) :
    let served := p.serve Core.alreadyRunning arguments
    p.popFrom rest.length (arguments.map some ++ rest) =
      { ending := served.2
        yielded := (List.range served.1).map fun k => arguments[k]?.getD .null
        stack := (arguments.drop served.1).map some ++ rest
        short := decide (arguments.length < served.1) } := by
  dsimp only
  induction p generalizing arguments with
  | finish ending => simp [popFrom, serve]
  | attempt context next ih => exact ih _ arguments
  | pop next ih =>
    rw [popFrom, serve]
    cases arguments with
    | nil =>
      rw [if_pos (by simp)]
      have again := ih .null []
      rw [List.map_nil, List.nil_append] at again
      simp only [List.map_nil, List.nil_append, again, List.headD_nil, List.tail_nil]
      rw [List.range_succ_eq_map]
      simp [Function.comp_def]
    | cons v others =>
      have above : ¬ ((v :: others).map some ++ rest).length ≤ rest.length := by
        simp only [List.length_append, List.length_map, List.length_cons]
        omega
      rw [if_neg above]
      have top : ((v :: others).map some ++ rest).head?.join.getD .null = v := rfl
      have below : ((v :: others).map some ++ rest).tail = others.map some ++ rest := rfl
      simp only [top, below, ih v others, List.headD_cons, List.tail_cons]
      rw [List.range_succ_eq_map]
      simp [Function.comp_def]

end HostProgram

-- The same apart from the operand stack, the registers and what belongs to the host.
structure Contained (stack : List (Option Value)) (world : World) (s t : RunState World Watch) :
    Prop where
  stack : t.stack = stack
  world : t.world = world
  flags : t.flags = s.flags
  scopes : t.scopes = s.scopes
  calls : t.calls = s.calls
  address : t.address = s.address
  line : t.line = s.line

theorem Contained.withRegisters {stack : List (Option Value)} {world : World}
    {s t : RunState World Watch} (contained : Contained stack world s t) (rs : Registers) :
    Contained stack world s { t with registers := rs } :=
  ⟨contained.stack, contained.world, contained.flags, contained.scopes, contained.calls,
    contained.address, contained.line⟩

-- A value that is not of the type declared for it.
def External.Misfits (ext : External World) : HostResult → Prop
  | .value (some v) => v.isNull = false ∧ ext.returnType.isScalar = true ∧ v.type ≠ ext.returnType
  | _ => False

theorem External.checkResult_of_misfits {ext : External World} {given : Option Value}
    (misfits : ext.Misfits (.value given)) :
    ext.checkResult (given.getD .null) =
      .error (.wrongReturn ext.name (given.getD .null).type ext.returnType) := by
  obtain _ | v := given
  · exact misfits.elim
  obtain ⟨there, scalar, other⟩ := misfits
  simp [checkResult, there, scalar, other]

theorem External.checkResult_of_fits {ext : External World} {given : Option Value}
    (fits : ¬ ext.Misfits (.value given)) :
    ext.checkResult (given.getD .null) = .ok (given.getD .null) := by
  obtain _ | v := given
  · rfl
  refine if_neg fun bad => fits ?_
  simpa [Misfits, and_assoc] using bad

namespace Exec

-- The code of the error that an action fails with.
def FailsWith {α : Type} (x : Exec World Watch α) (s : RunState World Watch) (code : Code) : Prop :=
  ∃ e t, x s = .error e t ∧ e.code = code

-- How a call of a host function with those arguments ends.
inductive HostEnded (ext : External World) (asked : Nat) (ending : HostEnding World)
    (rest : List (Option Value)) (s : RunState World Watch) :
    EStateM.Result RuntimeError (RunState World Watch) Unit → Prop where
  | value {given : Option Value} {t : RunState World Watch} (result : ending.result = .value given)
      (enough : ¬ ext.arity.toNat < asked) (fits : ¬ ext.Misfits ending.result)
      (contained : Contained rest ending.world s t)
      (eax : t.registers = s.registers.set .eax (given.getD .null)) :
      HostEnded ext asked ending rest s (.ok ⟨⟩ t)
  | failed {e : RuntimeError} {t : RunState World Watch} (fails : ending.result.Fails)
      (code : e.code = .hostFailure) (contained : Contained rest ending.world s t)
      (registers : t.registers = s.registers) : HostEnded ext asked ending rest s (.error e t)
  | overPopped {e : RuntimeError} {t : RunState World Watch} (works : ¬ ending.result.Fails)
      (exceeds : ext.arity.toNat < asked) (code : e.code = .stackUnderflow)
      (contained : Contained rest ending.world s t) (registers : t.registers = s.registers) :
      HostEnded ext asked ending rest s (.error e t)
  | misfit {e : RuntimeError} {t : RunState World Watch} (works : ¬ ending.result.Fails)
      (enough : ¬ ext.arity.toNat < asked) (misfits : ext.Misfits ending.result)
      (code : e.code = .typeError) (contained : Contained rest ending.world s t)
      (registers : t.registers = s.registers) : HostEnded ext asked ending rest s (.error e t)

-- Without an observer a return is not reported to anyone.
theorem observeReturn_of_unobserved {m : Machine World Watch} (unobserved : m.observer = none)
    (name : String) (s : RunState World Watch) : observeReturn m name s = .ok ⟨⟩ s := by
  simp only [observeReturn, unobserved, pure_apply]

theorem observeCall_of_unobserved {m : Machine World Watch} (unobserved : m.observer = none)
    (name : String) (external : Bool) (s : RunState World Watch) :
    observeCall m name external s = .ok ⟨⟩ s := by
  simp only [observeCall, unobserved, pure_apply]

-- The arguments on the operand stack are the ones that a host function is given.
theorem request_arguments {c : Core World} {arguments : List Value} {rest : List (Option Value)}
    (stack : c.stack = arguments.map some ++ rest) :
    (c.request arguments.length).arguments = arguments := by
  simp [Core.request, stack, Function.comp_def]

-- The answer to a host function that asked for so many arguments and ended so.
theorem answerHost_ended {m : Machine World Watch} {ext : External World}
    {p : World → Array (Option Cell) → HostProgram World} {s : RunState World Watch} {arguments : List Value}
    {rest : List (Option Value)} (unobserved : m.observer = none)
    (arity : ext.arity = arguments.length) (stack : s.stack = arguments.map some ++ rest) :
    let served := (p s.world s.cells).serve Core.alreadyRunning arguments
    HostEnded ext served.1 served.2 rest s (answerHost m ext (HostProgram.function p) s) := by
  dsimp only
  have count : ext.arity.toNat = arguments.length := by omega
  have none : (-ext.arity).toNat = 0 := by omega
  have invoked : invoke (HostProgram.function p) ext.arity.toNat s =
      .ok (HostProgram.function p s.world (s.request arguments.length))
        (afterInvoke s arguments.length
          (HostProgram.function p s.world (s.request arguments.length))) := by
    simp only [invoke, modifyGet_apply, count, afterInvoke]
  simp only [answerHost, bind_apply, invoked, none, regain_zero, HostProgram.function,
    request_arguments stack]
  have found : (s.request arguments.length).cells = s.cells := rfl
  have told : (s.request arguments.length).rerun = Core.alreadyRunning := rfl
  simp only [found, told]
  generalize (p s.world s.cells).serve Core.alreadyRunning arguments = served
  obtain ⟨asked, ending⟩ := served
  have contained (reply : HostReply World) (world : reply.world = ending.world) :
      Contained rest ending.world s (afterInvoke s arguments.length reply) :=
    ⟨by simp [afterInvoke, Core.answered, stack], world, rfl, rfl, rfl, rfl, rfl⟩
  cases result : ending.result with
  | failed message =>
    simp only [External.answer, raise, fail_apply]
    exact .failed (result ▸ trivial) rfl (contained _ rfl) rfl
  | crashed message =>
    simp only [External.answer, raise, fail_apply]
    exact .failed (result ▸ trivial) rfl (contained _ rfl) rfl
  | value given =>
    have works : ¬ ending.result.Fails := by rw [result]; exact id
    by_cases exceeds : ext.arity.toNat < asked
    · simp only [External.answer, if_pos exceeds, raise, fail_apply]
      exact .overPopped works exceeds rfl (contained _ rfl) rfl
    · simp only [External.answer, if_neg exceeds, raise, pure_apply,
        observeReturn_of_unobserved unobserved]
      by_cases misfits : ext.Misfits (.value given)
      · simp only [External.checkResult_of_misfits misfits, fail_apply]
        exact .misfit works exceeds (result ▸ misfits) rfl (contained _ rfl) rfl
      · simp only [External.checkResult_of_fits misfits, modify_apply]
        exact .value result exceeds (result ▸ misfits) ((contained _ rfl).withRegisters _) rfl

-- Whatever a host function does with its arguments: it gets them last first, and nothing below them;
-- afterwards they are gone, and nothing else of the caller's is. A failure of the host function goes
-- before too many pops, and these before a result of the wrong type.
theorem host_confined {m : Machine World Watch} {i : Instruction} {ext : External World}
    {p : World → Array (Option Cell) → HostProgram World} {s : RunState World Watch} {arguments : List Value}
    {rest : List (Option Value)} (opcode : i.opcode = .hostCall)
    (found : External.function? m.externals i.target = some (ext, HostProgram.function p))
    (unobserved : m.observer = none) (arity : ext.arity = arguments.length)
    (stack : s.stack = arguments.map some ++ rest) :
    ∃ asked ending,
      (p s.world s.cells).popFrom rest.length s.stack =
        { ending
          yielded := (List.range asked).map fun k => arguments[k]?.getD .null
          stack := (arguments.drop asked).map some ++ rest
          short := decide (arguments.length < asked) } ∧
      (∀ t, perform m i s = .ok ⟨⟩ t → Contained rest ending.world s t ∧
        ∃ given, ending.result = .value given ∧
          t.registers = s.registers.set .eax (given.getD .null)) ∧
      (∀ e t, perform m i s = .error e t →
        Contained rest ending.world s t ∧ t.registers = s.registers) ∧
      (FailsWith (perform m i) s .hostFailure ↔ ending.result.Fails) ∧
      (FailsWith (perform m i) s .stackUnderflow ↔
        ¬ ending.result.Fails ∧ arguments.length < asked) ∧
      (FailsWith (perform m i) s .typeError ↔
        ¬ ending.result.Fails ∧ ¬ arguments.length < asked ∧ ext.Misfits ending.result) ∧
      ((∃ t, perform m i s = .ok ⟨⟩ t) ↔
        ¬ ending.result.Fails ∧ ¬ arguments.length < asked ∧ ¬ ext.Misfits ending.result) := by
  have performs : perform m i s = answerHost m ext (HostProgram.function p) s := by
    have enough : ¬ (s.stack.length : Int) < ext.arity := by
      rw [stack, arity, List.length_append, List.length_map]
      omega
    unfold perform
    rw [opcode]
    exact (callHost_of_found found enough).trans
      (bind_of_ok (observeCall_of_unobserved unobserved ext.name true s))
  have count : ext.arity.toNat = arguments.length := by omega
  have ended := answerHost_ended unobserved arity stack (p := p)
  rw [← performs] at ended
  have pops := (p s.world s.cells).popFrom_arguments arguments rest
  rw [← stack] at pops
  dsimp only at ended pops
  generalize (p s.world s.cells).serve Core.alreadyRunning arguments = served at ended pops
  obtain ⟨asked, ending⟩ := served
  refine ⟨asked, ending, pops, ?_⟩
  -- the three codes are told apart
  have failed {e : RuntimeError} {t : RunState World Watch} (code other : Code)
      (same : e.code = code) :
      (∃ e' t', (EStateM.Result.error e t : EStateM.Result _ _ Unit) = .error e' t' ∧
        e'.code = other) ↔ code = other := by
    rw [← same]
    exact ⟨by rintro ⟨_, _, ⟨⟩, given⟩; exact given, fun given => ⟨e, t, rfl, given⟩⟩
  unfold FailsWith
  generalize perform m i s = result at ended
  rw [← count]
  cases ended with
  | @value given t result enough fits contained eax =>
    have works : ¬ ending.result.Fails := by rw [result]; exact id
    refine ⟨?_, by rintro _ _ ⟨⟩, ?_⟩
    · rintro _ ⟨⟩
      exact ⟨contained, given, result, eax⟩
    · simp [works, enough, fits]
  | failed fails code contained registers =>
    refine ⟨by rintro _ ⟨⟩, ?_, ?_⟩
    · rintro _ _ ⟨⟩
      exact ⟨contained, registers⟩
    · simp only [failed _ _ code, fails]
      simp [Code.hostFailure, Code.stackUnderflow, Code.typeError]
  | overPopped works exceeds code contained registers =>
    refine ⟨by rintro _ ⟨⟩, ?_, ?_⟩
    · rintro _ _ ⟨⟩
      exact ⟨contained, registers⟩
    · simp only [failed _ _ code, works, exceeds]
      simp [Code.hostFailure, Code.stackUnderflow, Code.typeError]
  | misfit works enough misfits code contained registers =>
    refine ⟨by rintro _ ⟨⟩, ?_, ?_⟩
    · rintro _ _ ⟨⟩
      exact ⟨contained, registers⟩
    · simp only [failed _ _ code, works, enough, misfits]
      simp [Code.hostFailure, Code.stackUnderflow, Code.typeError]

end Exec

-- A host function of two arguments that asks for three and gives back the first.
def HostProgram.grasping : HostProgram Unit :=
  .pop fun first => .pop fun _ => .pop fun _ => .finish { world := (), result := .value (some first) }

def Machine.grasping : Machine Unit Unit where
  code := #[.hostCall 0 "grasp"]
  externals := #[{ name := "grasp", function := some (HostProgram.function fun _ _ => .grasping)
                   arity := 2, returnType := .bool }]

-- Below the arguments there is an operand of the caller's.
def RunState.pending : RunState Unit Unit where
  stack := [some (.truth true), some (.text "x"), some (.truth false)]
  scopes := #[]
  cells := #[]
  world := ()
  watch := ()

theorem Exec.grasping_confined :
    HostProgram.grasping.popFrom 1 RunState.pending.stack =
        { ending := { world := (), result := .value (some (.truth true)) }
          yielded := [.truth true, .text "x", .null], stack := [some (.truth false)]
          short := true } ∧
      FailsWith (perform Machine.grasping (.hostCall 0 "grasp")) RunState.pending
        .stackUnderflow := by
  have pops : HostProgram.grasping.popFrom 1 RunState.pending.stack =
      { ending := { world := (), result := .value (some (.truth true)) }
        yielded := [.truth true, .text "x", .null], stack := [some (.truth false)]
        short := true } := rfl
  refine ⟨pops, ?_⟩
  have stack : RunState.pending.stack =
      [Value.truth true, .text "x"].map some ++ [some (.truth false)] := rfl
  obtain ⟨asked, ending, same, _, _, _, overPops, _⟩ :=
    host_confined (m := Machine.grasping) (i := .hostCall 0 "grasp") (s := RunState.pending)
      rfl rfl rfl rfl stack
  have again := pops.symm.trans same
  simp only [Popped.mk.injEq] at again
  obtain ⟨ended, _, _, short⟩ := again
  refine overPops.mpr ⟨?_, of_decide_eq_true short.symm⟩
  rw [← ended]
  exact id

end ScalarScript
