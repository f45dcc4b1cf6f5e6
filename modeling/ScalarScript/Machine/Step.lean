import ScalarScript.Machine.State
/-!
What one instruction does.
-/
namespace ScalarScript.Exec

variable {World Watch : Type}

def fail {α : Type} (f : RuntimeFault) : Exec World Watch α := do throw ((← get).error f)

-- Passes a failure on.
def raise {α : Type} (r : Except RuntimeFault α) : Exec World Watch α :=
  match r with
  | .ok a => pure a
  | .error f => fail f

-- Obeys what an observer said.
def obey (v : Verdict) : Exec World Watch Unit :=
  match v with
  | .proceed => pure ()
  | .halt => fail .halted
  | .crash message => fail (.internal message)

-- Whether a step of this moment is to be observed. Lines are remembered once they are.
def stepDue (config : ObserverConfig) : Exec World Watch Bool := do
  let s ← get
  match config.mode with
  | .all => return true
  | .none => return false
  | .sampled => return (s.executed : Int) % config.interval == 0
  | .onLine =>
    if s.line = s.observedLine then return false
    set { s with observedLine := s.line }
    return true

def observeStep (m : Machine World Watch) (i : Instruction) : Exec World Watch Unit := do
  match m.observer with
  | none => pure ()
  | some o =>
    if ← stepDue o.config.normalize then
      let s ← get
      let (watch, verdict) := o.onStep s.watch
        { address := s.address, code := i.opcode.code, mnemonic := i.opcode.name
          instruction := i.render true, line := s.line
          stackDepth := s.stack.length, frameDepth := s.calls.length }
      set { s with watch }
      obey verdict

def observeCall (m : Machine World Watch) (name : String) (external : Bool) :
    Exec World Watch Unit := do
  match m.observer with
  | none => pure ()
  | some o =>
    if o.config.calls then
      let s ← get
      let (watch, verdict) := o.onCall s.watch ⟨name, external, s.line, s.calls.length⟩
      set { s with watch }
      obey verdict

def observeReturn (m : Machine World Watch) (name : String) : Exec World Watch Unit := do
  match m.observer with
  | none => pure ()
  | some o =>
    if o.config.returns then
      let s ← get
      let (watch, verdict) := o.onReturn s.watch ⟨name, s.line, s.calls.length⟩
      set { s with watch }
      obey verdict

-- Lets a host function act.
def invoke (f : HostFunction World) (arity : Nat) : Exec World Watch (HostReply World) :=
  modifyGet fun s =>
    let reply := f s.world (s.request arity)
    (reply,
      { s with
        toCore := s.answered arity reply
        room := s.roomBelow arity
        cancelled := s.cancelled || (reply.cancels && s.cancellable) })

-- A negative number of arguments takes places back instead.
def regain (count : Nat) : Exec World Watch Unit := do
  let s ← get
  if s.room.length < count then
    fail (.noRoom (s.stack.length + count) (s.stack.length + s.room.length))
  set (s.regain count)

def callHost (m : Machine World Watch) (slot : Int) : Exec World Watch Unit := do
  match External.function? m.externals slot with
  | none => fail (.notHostFunction slot)
  | some (ext, f) =>
    if (← get).stack.length < ext.arity then fail (.missingArguments ext.name ext.arity)
    observeCall m ext.name true
    let reply ← invoke f ext.arity.toNat
    regain (-ext.arity).toNat
    let v ← raise (ext.answer reply)
    observeReturn m ext.name
    let v ← raise (ext.checkResult v)
    modify fun s => { s with registers := s.registers.set .eax v }

-- The effect of an instruction, apart from where control goes next.
def perform (m : Machine World Watch) (i : Instruction) : Exec World Watch Unit :=
  match i.opcode with
  | .hostCall => callHost m i.target
  | o => do
    let s ← get
    let core ← raise (s.effect i)
    set { s with toCore := core, room := s.roomAfter o }

def enterCall (m : Machine World Watch) (i : Instruction) : Exec World Watch Unit := do
  let s ← get
  if m.maxCallDepth ≤ s.calls.length then fail (.callOverflow s.calls.length)
  set { s with calls := ⟨i.name, s.address + 1, s.address, s.line⟩ :: s.calls }
  observeCall m i.name false

def leaveCall (m : Machine World Watch) : Exec World Watch Int := do
  match (← get).calls with
  | [] => fail .emptyCalls
  | c :: rest =>
    modify fun s => { s with calls := rest }
    observeReturn m c.function
    modify fun s => { s with line := c.line }
    return c.resume

-- The next address, or the exit value that ends the run.
def transfer (m : Machine World Watch) (i : Instruction) : Exec World Watch (Int ⊕ Value) := do
  let next := (← get).address + 1
  match i.opcode with
  | .exit => return .inr (← raise ((← get).resolve i.first))
  | .jump => return .inl i.target
  | .jumpIf c => return .inl (if c.holds (← get).flags then i.target else next)
  | .call =>
    enterCall m i
    return .inl i.target
  | .ret => return .inl (← leaveCall m)
  | _ => return .inl next

-- Every so often the context may end the run.
def checkContext (m : Machine World Watch) : Exec World Watch Unit := do
  let s ← get
  if 0 < m.contextInterval && s.cancellable then
    if m.contextInterval ≤ s.sinceCheck + 1 then
      set { s with sinceCheck := 0 }
      if s.cancelled then fail .cancelled
    else set { s with sinceCheck := s.sinceCheck + 1 }

def countInstruction (m : Machine World Watch) : Exec World Watch Unit := do
  let executed := (← get).executed + 1
  modify fun s => { s with executed }
  if 0 < m.instructionLimit && m.instructionLimit < executed then
    fail (.instructionLimit m.instructionLimit)

-- One instruction. Marks only move on.
def execute (m : Machine World Watch) (i : Instruction) : Exec World Watch (Option Value) := do
  match i.opcode with
  | .debugLine =>
    modify fun s => { s with line := i.line, address := s.address + 1 }
    return none
  | .label =>
    modify fun s => { s with address := s.address + 1 }
    return none
  | _ =>
    countInstruction m
    observeStep m i
    perform m i
    match ← transfer m i with
    | .inr v => return some v
    | .inl next =>
      modify fun s => { s with address := next }
      return none

-- Goes one step; yields the exit value once the run is over. Past the last instruction it is over
-- with the null value.
def step (m : Machine World Watch) : Exec World Watch (Option Value) := do
  let address := (← get).address
  if m.code.size ≤ address then return some .null
  checkContext m
  if address < 0 then fail (.internal s!"runtime error: index out of range [{address}]")
  match m.code[address.toNat]? with
  | none => return some .null
  | some i => execute m i

end ScalarScript.Exec
