import ScalarScript.Proofs.Reference.Outcome
import ScalarScript.Proofs.Source.Tree
/-!
What the trees of a program mean, without code: expressions are evaluated from left to right,
statements are executed in their order, and functions are called by their definitions.

Steps of the program are its declarations, assignments, expressions computed for what they do,
conditions, and the values of `return` and `exit`. Each is told by the place of its code.
-/
namespace ScalarScript

open Evaluation

variable {World : Type}

-- The left operand that settles the outcome.
def Connective.settled : Connective → Bool
  | .and => false
  | .or => true

-- What a literal stands for. A null of a scalar type, which no literal is, would be the value that
-- it is empty of, and every number is finite.
def Value.literal : Value → Value
  | .bool v => .truth (v.getD false)
  | .double v => .number (v.getD 0)
  | .string v => .text (v.getD "")
  | .null => .null

def Value.isTrue (v : Value) : Evaluation World Bool := lift v.condition

section

-- What a call of a function does with its arguments.
variable (call : Symbol → List Value → Evaluation World Value)

mutual

def Expr.eval : Expr → Evaluation World Value
  | .constant v => return v.literal
  | .var s => ask (·.read s)
  | .call s args => do call s (← args.eval)
  | .unary op e => do lift (op.apply (← e.eval))
  | .binary op a b => do
    let x ← a.eval
    let y ← b.eval
    lift (op.apply x y)
  | .compare c a b => do
    let x ← a.eval
    let y ← b.eval
    return .truth (c.holds (Core.compared x y))
  | .logical c a b _ => do
    let x ← a.eval
    if (← x.isTrue) = c.settled then return x
    else
      let y ← b.eval
      lift (c.rule.op.apply x y)
  | .choose c a b _ _ => do
    let x ← c.eval
    if ← x.isTrue then a.eval else b.eval

-- The values of the arguments, the first one first.
def Args.eval : Args → Evaluation World (List Value)
  | .nil => return []
  | .cons e rest => do
    let v ← e.eval
    return v :: (← rest.eval)

end

theorem Expr.eval_call (s : Symbol) (args : Args) :
    (Expr.call s args).eval call = (do call s (← args.eval call)) := by
  rw [Expr.eval]

end

-- How a statement ends.
inductive Ending where
  | next
  -- out of the loop around it
  | leave
  -- out of the function around it
  | give (v : Value)

-- The value of a function whose body ended so.
def Ending.value : Ending → Value
  | give v => v
  | _ => .null

-- Turns of a loop, each of which may tell how the loop ends.
def turns (turn : Evaluation World (Option Ending)) : Nat → Evaluation World Ending
  | 0 => spent
  | n + 1 => do
    match ← turn with
    | none => turns turn n
    | some flow => return flow

-- A turn whose body has ended so; what follows the body is left out where it does not end normally.
def Ending.turn (behind : Evaluation World (Option Ending)) :
  Ending → Evaluation World (Option Ending)
  | next => behind
  | leave => return some .next
  | give v => return some (.give v)

-- One statement, and others behind it.
def Ending.andThen (behind : Evaluation World Ending) : Ending → Evaluation World Ending
  | next => behind
  | flow => return flow

-- The events of arriving at a place, if steps that stand there are of interest.
def named (marks : Nat → Bool) (place : Nat) : List Event :=
  if marks place then [.step place] else []

section

variable (call : Symbol → List Value → Evaluation World Value) (marks : Nat → Bool)

def arrive (place : Nat) : Evaluation World Unit := see (named marks place)

theorem arrive_bind {α : Type} (place : Nat) (f : Unit → Evaluation World α) (m : Storage World) :
    (arrive marks place >>= f) m = (f ⟨⟩ m).behind (named marks place) := rfl

-- A step that tells whether a condition holds.
def Expr.test (e : Expr) (place : Nat) : Evaluation World Bool := do
  arrive marks place
  let v ← e.eval call
  v.isTrue

-- A condition that is left out holds.
def Expr.guard : Option Expr → Nat → Evaluation World Bool
  | none, _ => return true
  | some e, place => e.test call marks place

-- Executes a statement whose code stands at the place, with that many turns of every loop at most.
def Stmt.exec (bound : Nat) : Stmt → Nat → Evaluation World Ending
  | .skip, _ => return .next
  | .seq a b, place => do
    let flow ← a.exec bound place
    flow.andThen (b.exec bound (place + a.code.length))
  | .block a, place => a.exec bound place
  | .expr e, place => do
    arrive marks place
    let _ ← e.eval call
    return .next
  | .assign s e, place => do
    arrive marks place
    let v ← e.eval call
    change (·.write s.operand v)
    return .next
  | .declare type s none, place => do
    arrive marks place
    change (·.allocate type s.operand)
    return .next
  | .declare type s (some e), place => do
    arrive marks place
    change (·.allocate type s.operand)
    let v ← e.eval call
    change (·.write s.operand v)
    return .next
  | .function _ _, _ => return .next
  | .ifThen e a _, place => do
    if ← e.test call marks place then a.exec bound (place + (guard (some e) 0).length)
    else return .next
  | .ifElse e a b _ _, place => do
    if ← e.test call marks place then a.exec bound (place + (guard (some e) 0).length)
    else b.exec bound (place + (guard (some e) 0).length + a.code.length + 2)
  | .whileLoop e a _ _, place =>
    turns (do
      if ← e.test call marks (place + 1) then
        let flow ← a.exec bound (place + 1 + (guard (some e) 0).length)
        flow.turn (return none)
      else return some .next) bound
  | .forLoop init e a step _ _, place => do
    let first ← init.exec bound place
    first.andThen (turns (do
      if ← Expr.guard call marks e (place + init.code.length + 1) then
        let flow ← a.exec bound (place + init.code.length + 1 + (guard e 0).length)
        flow.turn (do
          let last ← step.exec bound
            (place + init.code.length + 1 + (guard e 0).length + a.code.length)
          last.turn (return none))
      else return some .next) bound)
  | .loopWhile a e _ _, place =>
    turns (do
      let flow ← a.exec bound (place + 1)
      flow.turn (do
        if ← e.test call marks (place + 1 + a.code.length) then return none
        else return some .next)) bound
  | .leave _, _ => return .leave
  | .yield none _, place => do
    arrive marks place
    return .give .null
  | .yield (some e) _, place => do
    arrive marks place
    let v ← e.eval call
    return .give v
  | .exit none, place => do
    arrive marks place
    halt (.ok .null)
  | .exit (some e), place => do
    arrive marks place
    let v ← e.eval call
    halt (.ok v)

theorem Stmt.exec_seq (bound : Nat) (a b : Stmt) (place : Nat) :
    (Stmt.seq a b).exec call marks bound place = (do
      let flow ← a.exec call marks bound place
      flow.andThen (b.exec call marks bound (place + a.code.length))) := by
  rw [Stmt.exec]

end

-- Code whose first instruction starts a step.
def stepOf : Nat → List Bool
  | 0 => []
  | n + 1 => true :: List.replicate n false

-- Which instructions of the code of a statement start steps.
def Stmt.begins : Stmt → List Bool
  | .seq a b => a.begins ++ b.begins
  | .block a => a.begins
  | .function r body =>
    List.replicate (3 + r.receive.length) false ++ body.begins ++ List.replicate 5 false
  | .ifThen e a _ => stepOf (guard (some e) 0).length ++ a.begins ++ [false]
  | .ifElse e a b _ _ =>
    stepOf (guard (some e) 0).length ++ a.begins ++ [false, false] ++ b.begins ++ [false]
  | .whileLoop e a _ _ =>
    false :: stepOf (guard (some e) 0).length ++ a.begins ++ [false, false]
  | .forLoop init e a step _ _ =>
    init.begins ++ false :: stepOf (guard e 0).length ++ a.begins ++ step.begins ++ [false, false]
  | .loopWhile a e _ _ => false :: a.begins ++ stepOf (guard (some e) 0).length ++ [false]
  | .leave _ => [false]
  | t => stepOf t.code.length

-- A function of the program, and the place of its code.
structure Definition where
  routine : Routine
  body : Stmt
  place : Nat

-- The place of the code of its body.
def Definition.inner (d : Definition) : Nat := d.place + 3 + d.routine.receive.length

-- The functions defined in a statement whose code stands at the place. The first statement and the
-- step of a loop define none.
def Stmt.definitions : Stmt → Nat → List Definition
  | .seq a b, place => a.definitions place ++ b.definitions (place + a.code.length)
  | .block a, place => a.definitions place
  | .function r body, place =>
    ⟨r, body, place⟩ :: body.definitions (place + 3 + r.receive.length)
  | .ifThen e a _, place => a.definitions (place + (guard (some e) 0).length)
  | .ifElse e a b _ _, place =>
    a.definitions (place + (guard (some e) 0).length) ++
      b.definitions (place + (guard (some e) 0).length + a.code.length + 2)
  | .whileLoop e a _ _, place => a.definitions (place + 1 + (guard (some e) 0).length)
  | .forLoop init e a _ _ _, place =>
    a.definitions (place + init.code.length + 1 + (guard e 0).length)
  | .loopWhile a _ _ _, place => a.definitions (place + 1)
  | _, _ => []

-- A call of a host function.
def callHost (externals : Array (External World)) (slot : Int) (values : List Value) :
    Evaluation World Value :=
  match External.function? externals slot with
  | none => halt (.error (.notHostFunction slot))
  | some (ext, f) => fun m =>
    let reply := f m.world ⟨values.reverse, ⟨Core.alreadyRunning, m.cells⟩⟩
    let after : Storage World :=
      { m with
        cells := reply.stores.foldl (fun cells (index, v) => Core.store cells index v) m.cells
        world := reply.world }
    let seen := [Event.call ⟨ext.name, values.reverse⟩]
    match (ext.answer reply).bind ext.checkResult with
    | .ok v => .done v after seen
    | .error fault => .halted (.error fault) after seen

-- A function gets a frame of its own, and its parameters in it, the last one first.
def Definition.enter (d : Definition) (values : List Value) : Evaluation World Unit := do
  change (·.pushFrame d.routine.depth (d.routine.params.length + d.body.count))
  d.routine.params.zipIdx.forM fun (p, i) => change (·.allocate p.type (d.routine.slot i p))
  (d.routine.params.zipIdx.zip values).reverse.forM fun ((p, i), v) =>
    change (·.write (d.routine.slot i p) v)

-- What a body comes to for the caller.
def Definition.run (d : Definition) (call : Symbol → List Value → Evaluation World Value)
    (marks : Nat → Bool) (bound : Nat) (values : List Value) : Evaluation World Value := do
  d.enter values
  let flow ← d.body.exec call marks bound d.inner
  change (·.popFrame d.routine.depth)
  return flow.value

-- A call with that many calls around it. Definitions are run as told.
def dispatch (env : Environment World) (functions : Int → Option Definition) (depth : Nat)
    (s : Symbol) (values : List Value) (run : Definition → Evaluation World Value) :
    Evaluation World Value :=
  if s.isExternal then callHost env.externals s.index values
  else if env.maxCallDepth ≤ depth then halt (.error (.callOverflow depth))
  else match functions s.label with
    | none => halt (.error (.internal "no such label"))
    | some d => run d

-- The bound is one on the turns of loops and on calls inside calls.
def invoke (env : Environment World) (functions : Int → Option Definition) (marks : Nat → Bool) :
    Nat → Nat → Symbol → List Value → Evaluation World Value
  | 0, depth, s, values => dispatch env functions depth s values fun _ => spent
  | bound + 1, depth, s, values => dispatch env functions depth s values fun d =>
    d.run (invoke env functions marks bound (depth + 1)) marks bound values

-- The functions of a statement by their labels.
def Stmt.functionAt (t : Stmt) (place : Nat) (label : Int) : Option Definition :=
  (t.definitions place).find? (·.routine.entry = label)

-- The place of the top level in the code of a program.
def Stmt.opening (t : Stmt) : Nat := if t.count = 0 then 1 else 2

-- Which instructions of a program start steps.
def Stmt.outset (t : Stmt) : List Bool := List.replicate t.opening false ++ t.begins ++ [false]

-- Whether a step starts at the place.
def Stmt.steps (t : Stmt) (place : Nat) : Bool := (t.outset[place]?).getD false

-- The frame of the top level, if it has variables.
def Stmt.openFrame (t : Stmt) : Evaluation World Unit :=
  if t.count = 0 then return ⟨⟩ else change (·.pushFrame 1 t.count)

-- A run of the whole program.
def Stmt.run (t : Stmt) (depths : Nat) (env : Environment World) (marks : Nat → Bool)
    (bound : Nat) : Evaluation World Unit := do
  change fun m => .ok (m.deepen depths)
  t.openFrame
  let _ ← t.exec (invoke env (t.functionAt t.opening) marks bound 0) marks bound t.opening
  halt (.ok .null)

end ScalarScript
