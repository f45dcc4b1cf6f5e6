import ScalarScript.Proofs.Reference.Expression
import ScalarScript.Proofs.Source.Scoping
/-!
The code of a statement does what the statement does. Control ends up behind it, or where the loop
or the function around it ends.
-/
namespace ScalarScript

open Symbolic Compile Evaluation

variable {World : Type}

-- Instructions that start no step are not of interest.
def Spared (marks : Nat → Bool) (place : Nat) (begins : List Bool) : Prop :=
  ∀ i : Nat, begins[i]? = some false → marks (place + i) = false

namespace Spared

variable {marks : Nat → Bool} {place n : Nat} {a b : List Bool}

theorem left (spared : Spared marks place (a ++ b)) : Spared marks place a := by
  intro i here
  have inside : i < a.length := (List.getElem?_eq_some_iff.mp here).1
  exact spared i (by rwa [List.getElem?_append_left inside])

theorem right (spared : Spared marks place (a ++ b)) : Spared marks (place + a.length) b := by
  intro i here
  have found := spared (a.length + i)
  rw [List.getElem?_append_right (Nat.le_add_right _ _), Nat.add_sub_cancel_left] at found
  rw [Nat.add_assoc]
  exact found here

theorem cons {x : Bool} (spared : Spared marks place (x :: b)) : Spared marks (place + 1) b :=
  spared.right (a := [x])

theorem quiet (spared : Spared marks place (List.replicate n false)) :
    Quiet marks place (place + n) := by
  intro p low high
  have here := spared (p - place)
  rw [List.getElem?_replicate_of_lt (by omega), Nat.add_sub_cancel' low] at here
  exact here rfl

-- Nothing starts inside a step.
theorem inside (spared : Spared marks place (stepOf n)) : Quiet marks (place + 1) (place + n) := by
  cases n with
  | zero =>
    intro p low high
    omega
  | succ n =>
    have rest := spared.cons.quiet
    rwa [Nat.add_assoc, Nat.add_comm 1] at rest

end Spared

namespace Stmt

theorem length_guard (e : Option Expr) (label : Int) :
    (guard e label).length = (guard e 0).length := by
  cases e <;> simp [guard]

@[simp] theorem length_stepOf (n : Nat) : (stepOf n).length = n := by
  cases n <;> simp [stepOf]

theorem length_begins (t : Stmt) : t.begins.length = t.code.length := by
  induction t with
  | skip => rfl
  | seq a b aLength bLength => simp [begins, code, aLength, bLength]
  | block a length => exact length
  | function r body length => simp [begins, code, conclude, length]; omega
  | ifThen e a otherwise length => simp [begins, code, guard, length]; omega
  | ifElse e a b otherwise done aLength bLength =>
    simp [begins, code, guard, aLength, bLength]; omega
  | whileLoop e a top done length => simp [begins, code, guard, length]; omega
  | forLoop init e a step top done initLength aLength stepLength =>
    simp [begins, code, length_guard, initLength, aLength, stepLength]
  | loopWhile a e top done length => simp [begins, code, guard, length]
  | leave done => rfl
  | expr e | assign s e | declare type s e | yield e result | exit e => exact length_stepOf _

end Stmt

theorem LiesAt.guard {whole code rest : List Instruction} {place : Nat} {e : Option Expr}
    {otherwise : Int} (lies : LiesAt whole place code)
    (split : code = Stmt.guard e otherwise ++ rest) :
    LiesAt whole (place + (Stmt.guard e 0).length) rest := by
  rw [← Stmt.length_guard e otherwise]
  exact lies.behind split

-- A state at some code.
structure Standing (returns : List (List Instruction)) (stack : List (Option Value))
    (rest : List Instruction) (after : Storage World) (l : Config World) : Prop where
  rest : l.rest = rest
  returns : l.returns = returns
  storage : l.core.storage = after
  stack : l.core.stack = stack

-- Where control is once a statement ended so, inside these functions and loops.
def Ending.Leads (whole : List Instruction) (chain : Chain) (loops : List Int)
    (rest : List Instruction) (l : Config World) : Ending → Prop
  | .next => l.rest = rest
  | .leave => ∃ done ∈ loops.head?, seek done whole = some l.rest
  | .give v => l.core.registers.eax = v ∧ ∃ f ∈ chain.head?.bind (·.enclosing),
      seek f.returnLabel whole = some l.rest

-- A state behind the code of a statement.
structure Arrives (whole : List Instruction) (chain : Chain) (loops : List Int)
    (returns : List (List Instruction)) (stack : List (Option Value)) (rest : List Instruction)
    (flow : Ending) (after : Storage World) (l : Config World) : Prop where
  leads : flow.Leads whole chain loops rest l
  returns : l.returns = returns
  storage : l.core.storage = after
  stack : l.core.stack = stack

-- A turn of a loop ends with a jump back to its start, or with the loop.
def Again (env : Environment World) (whole : List Instruction) (marks : Nat → Bool) (floor : Nat)
    (start : Storage World → Config World → Prop)
    (there : Ending → Storage World → Config World → Prop) :
    Option Ending → Storage World → Config World → Prop
  | none, m, l => ∃ k, (floor ≤ l.returns.length → Path env whole marks floor 1 l [] k) ∧ start m k
  | some flow, m, l => there flow m l

namespace Simulates

variable {α : Type} {env : Environment World} {whole rest : List Instruction} {marks : Nat → Bool}
  {floor bound place : Nat} {k : Config World}

-- A loop is its turns.
theorem turns (start : Storage World → Config World → Prop)
    {turn : Evaluation World (Option Ending)} {there : Ending → Storage World → Config World → Prop}
    (once : ∀ m k, start m k →
      Simulates env whole marks floor bound k (Again env whole marks floor start there) (turn m))
    {n : Nat} (fewer : n ≤ bound) {m : Storage World} {k : Config World} (here : start m k) :
    Simulates env whole marks floor n k there (ScalarScript.turns turn n m) := by
  induction n generalizing m k with
  | zero => exact fun _ => .spent .refl (Nat.le_refl 0)
  | succ n ih =>
    rw [ScalarScript.turns, bind_apply]
    refine ((once m k here).mono fewer).bind fun ending m' l reached => ?_
    cases ending with
    | none =>
      obtain ⟨again, path, back⟩ := reached
      have run : Simulates env whole marks floor (n + 1) l there _ :=
        (ih (by omega) back).after path
      rwa [Outcome.behind_nil] at run
    | some flow => exact .here reached

-- An instruction that works on the storage.
theorem changed {i : Instruction} {core : Core World}
    {f : Storage World → Except RuntimeFault (Storage World)} (first : k.rest = i :: rest)
    (active : i.opcode ≠ .label) (lies : LiesAt whole place k.rest)
    (does : deed env.externals i k.core = match k.core.effect i with
      | .ok after => .proceed after []
      | .error fault => .stop (.error fault) k.core [])
    (effect : k.core.effect i = (f k.core.storage).map core.onto) :
    Simulates env whole marks floor bound k
      (fun (_ : Unit) m l => l = ⟨rest, k.returns, core.onto m⟩)
      ((change f k.core.storage).behind (named marks place)) := by
  rw [effect] at does
  unfold change
  cases done : f k.core.storage with
  | ok m =>
    rw [done] at does
    have moved : Symbolic.move env whole k = .next ⟨rest, k.returns, core.onto m⟩ [] := by
      simp only [Symbolic.move, first, does, Except.map]
    have reached : Simulates env whole marks floor (bound - 1) ⟨rest, k.returns, core.onto m⟩
        (fun (_ : Unit) m l => l = ⟨rest, k.returns, core.onto m⟩) (.done ⟨⟩ m []) :=
      .here rfl
    simpa [Outcome.behind] using reached.move first active lies moved id
  | error fault =>
    rw [done] at does
    have ended : Simulates env whole marks floor bound k
        (fun (_ : Unit) m l => l = ⟨rest, k.returns, core.onto m⟩) _ := stop first lies does
    simpa [Outcome.behind] using ended

-- A variable gets the value in `eax`.
theorem stored {s : Symbol} (first : k.rest = .move s.operand eax :: rest)
    (lies : LiesAt whole place k.rest) (quiet : marks place = false) :
    Simulates env whole marks floor bound k
      (fun (_ : Unit) m l => l = ⟨rest, k.returns, k.core.onto m⟩)
      (change (·.write s.operand k.core.registers.eax) k.core.storage) := by
  have effect := (k.core.effect_store s.operand).trans (k.core.assign_slot _ _)
  have run : Simulates env whole marks floor bound k _ _ :=
    changed (f := (·.write s.operand _)) first (by rintro ⟨⟩)
    lies rfl effect
  rwa [named_of_quiet quiet, Outcome.behind_nil] at run

end Simulates

section

variable (env : Environment World) (whole : List Instruction) (marks : Nat → Bool)
  (floor bound : Nat)
  (returns : List (List Instruction)) (call : Symbol → List Value → Evaluation World Value)

def Stmt.Simulated (chain : Chain) (loops : List Int) (t : Stmt) : Prop :=
  ∀ ⦃place : Nat⦄ ⦃k : Config World⦄ ⦃rest : List Instruction⦄, k.rest = t.code ++ rest →
    LiesAt whole place k.rest → Spared marks place t.begins → k.returns = returns →
    Simulates env whole marks floor bound k (Arrives whole chain loops returns k.core.stack rest)
      (t.exec call marks bound place k.core.storage)

end

section

variable {env : Environment World} {whole : List Instruction} {marks : Nat → Bool}
  {floor bound : Nat}
  {returns : List (List Instruction)} {call : Symbol → List Value → Evaluation World Value}
  {chain : Chain} {loops : List Int}

theorem Expr.test_apply (e : Expr) (place : Nat) (m : Storage World) :
    e.test call marks place m =
      ((e.eval call m).behind (named marks place)).bind fun v m => v.isTrue m := by
  rw [Outcome.bind_behind]
  rfl

theorem Expr.Simulated.test {e : Expr}
    (evaluated : e.Simulated env whole marks floor bound returns call)
    {place : Nat} {k : Config World} {rest target : List Instruction} {otherwise : Int}
    (first : k.rest = Stmt.guard (some e) otherwise ++ rest) (lies : LiesAt whole place k.rest)
    (quiet : Quiet marks (place + 1) (place + (Stmt.guard (some e) 0).length))
    (inside : k.returns = returns) (found : seek otherwise whole = some target) :
    Simulates env whole marks floor bound k
      (fun b => Standing returns k.core.stack (if b then rest else target))
      (e.test call marks place k.core.storage) := by
  simp only [Stmt.guard, List.append_assoc, List.length_append, List.length_cons,
    List.length_nil] at first quiet
  have positive := e.code_length_pos
  have tested := lies.behind first
  rw [e.test_apply]
  refine (evaluated first lies (quiet.mono le_rfl (by omega)) inside).bind fun v m l there => ?_
  rw [← there.value, ← there.storage, ← there.stack, ← Outcome.bind_done (Value.isTrue _ _)]
  refine Simulates.branched there.rest (there.rest ▸ tested)
    ⟨quiet _ (by omega) (by omega), quiet _ (by omega) (by omega)⟩ found fun b l' onward => ?_
  obtain ⟨next, returns', value, storage, stack⟩ := onward
  rw [← storage]
  refine .here ⟨?_, returns'.trans there.returns, rfl, stack⟩
  rw [next]
  cases b <;> rfl

-- A condition that is left out has no code.
theorem guard_simulated {e : Option Expr}
    (evaluated : ∀ test ∈ e, test.Simulated env whole marks floor bound returns call)
    {place : Nat} {k : Config World} {rest target : List Instruction} {otherwise : Int}
    (first : k.rest = Stmt.guard e otherwise ++ rest) (lies : LiesAt whole place k.rest)
    (quiet : Quiet marks (place + 1) (place + (Stmt.guard e 0).length))
    (inside : k.returns = returns) (found : seek otherwise whole = some target) :
    Simulates env whole marks floor bound k
      (fun b => Standing returns k.core.stack (if b then rest else target))
      (Expr.guard call marks e place k.core.storage) := by
  cases e with
  | none => exact .here ⟨first, inside, rfl, rfl⟩
  | some e => exact Expr.Simulated.test (evaluated e rfl) first lies quiet inside found

namespace Arrives

variable {stack : List (Option Value)} {rest : List Instruction} {k : Config World}
  {x : Outcome World Ending}

-- A label behind the code is passed.
theorem label {id : Int}
    (run : Simulates env whole marks floor bound k
      (Arrives whole chain loops returns stack (.label id :: rest)) x) :
    Simulates env whole marks floor bound k (Arrives whole chain loops returns stack rest) x := by
  refine run.extend fun flow m l there => ?_
  obtain ⟨leads, returns', storage, stack'⟩ := there
  cases flow with
  | next => exact .label leads (.here ⟨rfl, returns', storage, stack'⟩)
  | leave => exact .here ⟨leads, returns', storage, stack'⟩
  | give v => exact .here ⟨leads, returns', storage, stack'⟩

-- So is a jump.
theorem jump {place : Nat} {id : Int} {later : List Instruction}
    (run : Simulates env whole marks floor bound k
      (Arrives whole chain loops returns stack (.branch .jump id :: later)) x)
    (lies : LiesAt whole place (.branch .jump id :: later)) (quiet : marks place = false)
    (found : seek id whole = some rest) :
    Simulates env whole marks floor bound k (Arrives whole chain loops returns stack rest) x := by
  refine run.extend fun flow m l there => ?_
  obtain ⟨leads, returns', storage, stack'⟩ := there
  cases flow with
  | next =>
    exact .jumped leads (leads.symm ▸ lies) quiet found
      (.here ⟨rfl, returns', storage, stack'⟩)
  | leave => exact .here ⟨leads, returns', storage, stack'⟩
  | give v => exact .here ⟨leads, returns', storage, stack'⟩

-- Outside of loops no statement leaves one.
theorem widen {flow : Ending} {m : Storage World}
    (there : Arrives whole chain [] returns stack rest flow m k) :
    Arrives whole chain loops returns stack rest flow m k := by
  obtain ⟨leads, returns', storage, stack'⟩ := there
  refine ⟨?_, returns', storage, stack'⟩
  cases flow with
  | next => exact leads
  | leave =>
    obtain ⟨done, around, _⟩ := leads
    cases around
  | give v => exact leads

-- What follows a body, or a step, in a turn of a loop.
theorem turn {start : Storage World → Config World → Prop} {next : List Instruction} {done : Int}
    {behind : Evaluation World (Option Ending)} {flow : Ending} {m : Storage World}
    (there : Arrives whole chain (done :: loops) returns stack next flow m k)
    (found : seek done whole = some rest)
    (onward : Standing returns stack next m k → Simulates env whole marks floor bound k
      (Again env whole marks floor start (Arrives whole chain loops returns stack rest))
        (behind m)) :
    Simulates env whole marks floor bound k
      (Again env whole marks floor start (Arrives whole chain loops returns stack rest))
      ((flow.turn behind : Evaluation World (Option Ending)) m) := by
  obtain ⟨leads, returns', storage, stack'⟩ := there
  cases flow with
  | next => exact onward ⟨leads, returns', storage, stack'⟩
  | leave =>
    obtain ⟨_, ⟨⟩, here⟩ := leads
    exact .here ⟨Option.some_inj.mp (here.symm.trans found), returns', storage, stack'⟩
  | give v => exact .here ⟨leads, returns', storage, stack'⟩

end Arrives

namespace Stmt.Simulated

theorem skip : Stmt.skip.Simulated env whole marks floor bound returns call chain loops := by
  intro place k rest first lies spared inside
  exact .here ⟨first, inside, rfl, rfl⟩

theorem seq {a b : Stmt} (left : a.Simulated env whole marks floor bound returns call chain loops)
    (right : b.Simulated env whole marks floor bound returns call chain loops) :
    (Stmt.seq a b).Simulated env whole marks floor bound returns call chain loops := by
  intro place k rest first lies spared inside
  rw [Stmt.code_seq, List.append_assoc] at first
  rw [Stmt.exec_seq, bind_apply]
  refine (left first lies spared.left inside).bind fun flow m l there => ?_
  obtain ⟨leads, returns', storage, stack⟩ := there
  rw [← storage, ← stack]
  cases flow with
  | next =>
    have behind : LiesAt whole (place + a.code.length) l.rest := by
      rw [leads]
      exact lies.behind first
    exact right leads behind (a.length_begins ▸ spared.right) returns'
  | leave => exact .here ⟨leads, returns', rfl, rfl⟩
  | give v => exact .here ⟨leads, returns', rfl, rfl⟩

theorem block {a : Stmt}
    (inner : a.Simulated env whole marks floor bound returns call chain loops) :
    (Stmt.block a).Simulated env whole marks floor bound returns call chain loops := inner

theorem expr {e : Expr} (evaluated : e.Simulated env whole marks floor bound returns call) :
    (Stmt.expr e).Simulated env whole marks floor bound returns call chain loops := by
  intro place k rest first lies spared inside
  rw [Stmt.exec, arrive_bind, bind_apply, ← Outcome.bind_behind]
  refine (evaluated first lies spared.inside inside).bind fun v m l there => .here ?_
  exact ⟨there.rest, there.returns, there.storage, there.stack⟩

-- The value in `eax` is stored, and nothing else is left to do.
theorem storing {s : Symbol} {v : Value} {m : Storage World} {l : Config World} {place : Nat}
    {stack : List (Option Value)} {rest : List Instruction}
    (there : Yields returns stack (.move s.operand eax :: rest) v m l)
    (lies : LiesAt whole place (.move s.operand eax :: rest)) (quiet : marks place = false) :
    Simulates env whole marks floor bound l (Arrives whole chain loops returns stack rest)
      ((do change (·.write s.operand v); return Ending.next : Evaluation World Ending) m) := by
  rw [bind_apply, ← there.value, ← there.storage]
  refine (Simulates.stored there.rest (there.rest ▸ lies) quiet).bind fun _ m' l' last => ?_
  subst last
  exact .here ⟨rfl, there.returns, rfl, there.stack⟩

theorem assign {s : Symbol} {e : Expr}
    (evaluated : e.Simulated env whole marks floor bound returns call) :
    (Stmt.assign s e).Simulated env whole marks floor bound returns call chain loops := by
  intro place k rest first lies spared inside
  have quiet := spared.inside
  simp only [Stmt.code, List.append_assoc, List.length_append, List.length_cons] at first quiet
  have positive := e.code_length_pos
  rw [Stmt.exec, arrive_bind, bind_apply, ← Outcome.bind_behind]
  refine (evaluated first lies (quiet.mono le_rfl (by omega)) inside).bind fun v m l there => ?_
  exact storing there (lies.behind first) (quiet _ (by omega) (by simp))

theorem declare {type : Scalar} {s : Symbol} {init : Option Expr}
    (evaluated : ∀ e ∈ init, e.Simulated env whole marks floor bound returns call) :
    (Stmt.declare type s init).Simulated env whole marks floor bound returns call chain loops := by
  intro place k rest first lies spared inside
  have quiet := spared.inside
  have effect := (k.core.effect_allocate type s.operand).trans (k.core.allocate_slot type _)
  cases init with
  | none =>
    rw [Stmt.exec, arrive_bind, bind_apply, ← Outcome.bind_behind]
    refine (Simulates.changed (f := (·.allocate type s.operand)) first (by rintro ⟨⟩) lies rfl
      effect).bind fun _ m l there => ?_
    subst there
    exact .here ⟨rfl, inside, rfl, rfl⟩
  | some e =>
    simp only [Stmt.code, List.cons_append, List.append_assoc, List.length_append,
      List.length_cons] at first quiet
    rw [Stmt.exec, arrive_bind, bind_apply, ← Outcome.bind_behind]
    refine (Simulates.changed (f := (·.allocate type s.operand)) first (by rintro ⟨⟩) lies rfl
      effect).bind fun _ m l there => ?_
    subst there
    have behind : LiesAt whole (place + 1) (e.code ++ _) := lies.behind (a := [_]) first
    have run := @evaluated e rfl (place + 1) ⟨_, k.returns, k.core.onto m⟩ _ rfl behind
      (quiet.mono (by omega) (by omega)) inside
    have positive := e.code_length_pos
    rw [named_of_quiet (quiet _ (by omega) (by omega)), Outcome.behind_nil] at run
    refine run.bind fun v m' l' there => ?_
    exact storing there (behind.behind rfl) (quiet _ (by omega) (by simp; omega))

theorem ifThen {e : Expr} {a : Stmt} {otherwise : Int} (unique : (labelsOf whole).Nodup)
    (evaluated : e.Simulated env whole marks floor bound returns call)
    (inner : a.Simulated env whole marks floor bound returns call chain loops) :
    (Stmt.ifThen e a otherwise).Simulated env whole marks floor bound returns call chain loops := by
  intro place k rest first lies spared inside
  have split :
      k.rest = Stmt.guard (some e) otherwise ++ (a.code ++ (.label otherwise :: rest)) := by
    simp [first, Stmt.code]
  have body := lies.guard split
  rw [Stmt.exec, bind_apply]
  refine (evaluated.test split lies spared.left.left.inside inside
    ((body.behind rfl).seek unique)).bind fun b m l there => ?_
  obtain ⟨next, returns', storage, stack⟩ := there
  rw [← storage, ← stack]
  cases b with
  | true =>
    have marked := spared.left.right
    rw [Stmt.length_stepOf] at marked
    exact Arrives.label (inner next (next ▸ body) marked returns')
  | false => exact .here ⟨next, returns', rfl, rfl⟩

theorem ifElse {e : Expr} {a b : Stmt} {otherwise done : Int} (unique : (labelsOf whole).Nodup)
    (evaluated : e.Simulated env whole marks floor bound returns call)
    (left : a.Simulated env whole marks floor bound returns call chain loops)
    (right : b.Simulated env whole marks floor bound returns call chain loops) :
    (Stmt.ifElse e a b otherwise done).Simulated env whole marks floor bound returns call chain
      loops := by
  intro place k rest first lies spared inside
  have split : k.rest = Stmt.guard (some e) otherwise ++ (a.code ++ (.branch .jump done ::
      .label otherwise :: (b.code ++ (.label done :: rest)))) := by
    simp [first, Stmt.code]
  have body := lies.guard split
  have past := body.behind rfl
  have other : LiesAt whole (place + (Stmt.guard (some e) 0).length + a.code.length + 2)
      (b.code ++ _) := past.behind (a := [_, _]) rfl
  have marked := spared.left
  simp only [List.append_assoc] at marked
  rw [Stmt.exec, bind_apply]
  refine (evaluated.test split lies marked.left.inside inside
    ((past.behind (a := [_]) rfl).seek unique)).bind fun c m l there => ?_
  obtain ⟨next, returns', storage, stack⟩ := there
  rw [← storage, ← stack]
  have inner := marked.right
  rw [Stmt.length_stepOf] at inner
  have outer := a.length_begins ▸ inner.right
  cases c with
  | true =>
    have run := left next (next ▸ body) inner.left returns'
    exact Arrives.jump run past
      (outer.left (a := [false, false]).quiet (n := 2) _ (by omega) (by omega))
      ((other.behind rfl).seek unique)
  | false =>
    exact Arrives.label
      (right next (next ▸ other) (outer.right (a := [false, false])) returns')

theorem forLoop {init : Stmt} {e : Option Expr} {a step : Stmt} {top done : Int}
    (unique : (labelsOf whole).Nodup)
    (opens : init.Simulated env whole marks floor bound returns call chain [])
    (evaluated : ∀ test ∈ e, test.Simulated env whole marks floor bound returns call)
    (body : a.Simulated env whole marks floor bound returns call chain (done :: loops))
    (steps : step.Simulated env whole marks floor bound returns call chain []) :
    (Stmt.forLoop init e a step top done).Simulated env whole marks floor bound returns call chain
      loops := by
  intro place k rest first lies spared inside
  have split : k.rest = init.code ++ (.label top :: (Stmt.guard e done ++ (a.code ++ (step.code ++
      (.branch .jump top :: .label done :: rest))))) := by
    simp [first, Stmt.code]
  have head := lies.behind split
  have turn := head.behind (a := [_]) rfl
  have inner := turn.guard rfl
  have behind := inner.behind rfl
  have last := behind.behind rfl
  have found : seek done whole = some rest := (last.behind (a := [_]) rfl).seek unique
  simp only [Stmt.begins, List.append_assoc, List.cons_append] at spared
  have markedTurn := (init.length_begins ▸ spared.right).cons
  have markedBody := markedTurn.right
  rw [Stmt.length_stepOf] at markedBody
  have markedStep := a.length_begins ▸ markedBody.right
  have quiet := (step.length_begins ▸ markedStep.right).quiet (n := 2) _ (Nat.le_refl _) (by omega)
  rw [Stmt.exec, bind_apply]
  refine (opens split lies spared.left inside).bind fun flow m l there => ?_
  have around : Arrives whole chain loops returns k.core.stack _ flow m l := there.widen
  obtain ⟨leads, returns', storage, stack⟩ := around
  cases flow with
  | leave => exact .here ⟨leads, returns', storage, stack⟩
  | give v => exact .here ⟨leads, returns', storage, stack⟩
  | next =>
    refine Simulates.label leads (Simulates.turns (Standing returns k.core.stack
      (Stmt.guard e done ++ _)) (fun m k here => ?_) (Nat.le_refl bound)
      ⟨rfl, returns', storage, stack⟩)
    obtain ⟨next, returns', storage, stack⟩ := here
    rw [bind_apply, ← storage, ← stack]
    refine (guard_simulated evaluated next (next ▸ turn) markedTurn.left.inside returns'
      found).bind fun b m l there => ?_
    obtain ⟨next, returns', storage, stack⟩ := there
    cases b with
    | false => exact .here ⟨next, returns', storage, stack⟩
    | true =>
      rw [if_pos rfl, bind_apply, ← storage, ← stack]
      refine (body next (next ▸ inner) markedBody.left returns').bind fun flow m l there =>
        there.turn found fun here => ?_
      rw [bind_apply, ← here.storage, ← here.stack]
      refine (steps here.rest (here.rest ▸ behind) markedStep.left here.returns).bind
        fun flow m l there => there.widen.turn found fun here => .here ?_
      exact ⟨_, .branch here.rest (by rintro ⟨⟩) (here.rest ▸ last) quiet rfl (head.seek unique),
        rfl, here.returns, here.storage, here.stack⟩

-- A loop without a first statement and a step.
theorem whileLoop {e : Expr} {a : Stmt} {top done : Int} (unique : (labelsOf whole).Nodup)
    (evaluated : e.Simulated env whole marks floor bound returns call)
    (body : a.Simulated env whole marks floor bound returns call chain (done :: loops)) :
    (Stmt.whileLoop e a top done).Simulated env whole marks floor bound returns call chain
      loops := by
  have looped : (Stmt.forLoop .skip (some e) a .skip top done).Simulated env whole marks floor bound
      returns call chain loops := forLoop unique skip (by rintro _ ⟨⟩; exact evaluated) body skip
  intro place k rest first lies spared inside
  have begins : (Stmt.forLoop .skip (some e) a .skip top done).begins =
      (Stmt.whileLoop e a top done).begins := by
    simp [Stmt.begins, Stmt.code, stepOf]
  have run := looped (by simpa [Stmt.code] using first) lies (begins ▸ spared) inside
  have same : Stmt.exec call marks bound (.whileLoop e a top done) place =
      Stmt.exec call marks bound (.forLoop .skip (some e) a .skip top done) place := by
    funext m
    simp only [Stmt.exec]
    rw [bind_apply, pure_apply, Outcome.done_bind]
    rfl
  rwa [← same] at run

theorem loopWhile {e : Expr} {a : Stmt} {top done : Int} (unique : (labelsOf whole).Nodup)
    (body : a.Simulated env whole marks floor bound returns call chain (done :: loops))
    (evaluated : e.Simulated env whole marks floor bound returns call) :
    (Stmt.loopWhile a e top done).Simulated env whole marks floor bound returns call chain
      loops := by
  intro place k rest first lies spared inside
  have split : k.rest = .label top :: (a.code ++ (e.code ++ (.unary .test eax ::
      .branch (.jumpIf .notEqual) top :: .label done :: rest))) := by
    simp [first, Stmt.code]
  have head := split ▸ lies
  have turn : LiesAt whole (place + 1) (a.code ++ _) := lies.behind (a := [_]) split
  have behind := turn.behind rfl
  have last := behind.behind rfl
  have found : seek done whole = some rest := (last.behind (a := [_, _]) rfl).seek unique
  simp only [Stmt.begins, List.append_assoc, List.cons_append] at spared
  have marked := a.length_begins ▸ spared.cons.right
  have quiet := marked.left.inside
  simp only [Stmt.guard, List.length_append, List.length_cons, List.length_nil] at quiet
  have positive := e.code_length_pos
  rw [Stmt.exec]
  refine Simulates.label split (Simulates.turns (Standing returns k.core.stack (a.code ++ _))
    (fun m k here => ?_) (Nat.le_refl bound) ⟨rfl, inside, rfl, rfl⟩)
  obtain ⟨next, returns', storage, stack⟩ := here
  rw [bind_apply, ← storage, ← stack]
  refine (body next (next ▸ turn) spared.cons.left returns').bind fun flow m l there =>
    there.turn found fun here => ?_
  rw [bind_apply, e.test_apply, Outcome.bind_bind, ← here.storage, ← here.stack]
  refine (evaluated here.rest (here.rest ▸ behind) (quiet.mono le_rfl (by omega))
    here.returns).bind fun v m l there => ?_
  rw [← there.value, ← there.storage, ← there.stack]
  refine Simulates.tested there.rest (there.rest ▸ last) (quiet _ (by omega) (by omega)) fun b => ?_
  have jumps := last.behind (a := [_]) rfl
  have plain := quiet (place + 1 + a.code.length + e.code.length + 1) (by omega) (by omega)
  cases b with
  | true =>
    refine .here ⟨_, .branch rfl (by rintro ⟨⟩) jumps plain rfl (head.seek unique), ?_⟩
    exact ⟨rfl, there.returns, rfl, rfl⟩
  | false =>
    refine Simulates.work rfl (by rintro ⟨⟩) jumps plain rfl (Simulates.label rfl ?_)
    exact .here ⟨rfl, there.returns, rfl, rfl⟩

-- Control passes a definition over.
theorem function {r : Routine} {body : Stmt} (unique : (labelsOf whole).Nodup) :
    (Stmt.function r body).Simulated env whole marks floor bound returns call chain loops := by
  intro place k rest first lies spared inside
  have found : seek r.skip whole = some rest :=
    (lies.behind (a := [Instruction.branch .jump r.skip, .label r.entry,
      .pushScope r.depth (r.params.length + body.count)] ++ r.receive ++ body.code ++
      [Instruction.move eax .null, .label r.result, .popScope r.depth, .plain .ret]) (by
        simp [first, Stmt.code, Stmt.conclude])).seek unique
  refine Simulates.jumped first lies ?_ found (.here ⟨rfl, inside, rfl, rfl⟩)
  have quiet := spared.left.left.quiet
  exact quiet _ (by omega) (by omega)

theorem leave {done : Int} (around : loops.head? = some done) (defined : BranchesDefined whole) :
    (Stmt.leave done).Simulated env whole marks floor bound returns call chain loops := by
  intro place k rest first lies spared inside
  obtain ⟨target, found⟩ := lies.target first rfl defined
  have quiet : marks place = false := spared 0 rfl
  refine Simulates.jumped first lies quiet found (.here ⟨⟨done, around, found⟩, inside, rfl, rfl⟩)

-- The value in `eax` is what the function comes to.
theorem giving {f : Enclosing} (around : f ∈ chain.head?.bind (·.enclosing))
    (defined : BranchesDefined whole) {v : Value} {m : Storage World} {l : Config World}
    {place : Nat} {stack : List (Option Value)} {rest : List Instruction}
    (there : Yields returns stack (.branch .jump f.returnLabel :: rest) v m l)
    (lies : LiesAt whole place (.branch .jump f.returnLabel :: rest))
    (quiet : marks place = false) :
    Simulates env whole marks floor bound l (Arrives whole chain loops returns stack rest)
      (.done (.give v) m []) := by
  obtain ⟨target, found⟩ := lies.target rfl rfl defined
  refine Simulates.jumped there.rest (there.rest ▸ lies) quiet found ?_
  exact .here ⟨⟨there.value, f, around, found⟩, there.returns, there.storage, there.stack⟩

theorem yield {e : Option Expr} {f : Enclosing} (around : f ∈ chain.head?.bind (·.enclosing))
    (defined : BranchesDefined whole)
    (evaluated : ∀ value ∈ e, value.Simulated env whole marks floor bound returns call) :
    (Stmt.yield e f.returnLabel).Simulated env whole marks floor bound returns call chain
      loops := by
  intro place k rest first lies spared inside
  have quiet := spared.inside
  subst inside
  cases e with
  | none =>
    have loaded : Simulates env whole marks floor bound k (Yields k.returns k.core.stack _) _ :=
      Simulates.load (r := .ok .null) first (by rintro ⟨⟩) lies rfl rfl
    have run : Simulates env whole marks floor bound k (Arrives whole chain loops _ _ rest) _ :=
      loaded.bind fun v m l there => giving around defined there
        (lies.behind (a := [_]) first) (quiet _ (by simp) (by simp [Stmt.code]))
    rwa [Outcome.bind_behind] at run
  | some e =>
    simp only [Stmt.code, List.append_assoc, List.length_append, List.length_cons] at first quiet
    have positive := e.code_length_pos
    have run : Simulates env whole marks floor bound k (Arrives whole chain loops _ _ rest) _ :=
      (evaluated e rfl first lies (quiet.mono le_rfl (by omega)) rfl).bind
        fun v m l there => giving around defined there (lies.behind first)
          (quiet _ (by omega) (by simp))
    rwa [Outcome.bind_behind] at run

theorem exit {e : Option Expr}
    (evaluated : ∀ value ∈ e, value.Simulated env whole marks floor bound returns call) :
    (Stmt.exit e).Simulated env whole marks floor bound returns call chain loops := by
  intro place k rest first lies spared inside
  have quiet := spared.inside
  cases e with
  | none =>
    have does : deed env.externals (.unary .exit .null) k.core = .stop (.ok .null) k.core [] := rfl
    have run : Simulates env whole marks floor bound k
        (Arrives whole chain loops returns k.core.stack rest) _ :=
      Simulates.stop first lies does
    rw [Stmt.exec, arrive_bind]
    simpa [Outcome.behind] using run
  | some e =>
    simp only [Stmt.code, List.append_assoc, List.length_append, List.length_cons] at first quiet
    have positive := e.code_length_pos
    rw [Stmt.exec, arrive_bind, bind_apply, ← Outcome.bind_behind]
    refine (@evaluated e rfl _ _ _ first lies (quiet.mono le_rfl (by omega)) inside).bind
      fun v m l there => ?_
    have does : deed env.externals (.unary .exit eax) l.core = .stop (.ok v) l.core [] := by
      rw [← there.value]
      rfl
    have run : Simulates env whole marks floor bound l
        (Arrives whole chain loops returns k.core.stack rest) _ :=
      Simulates.stop there.rest (there.rest ▸ lies.behind first) does
    rw [named_of_quiet (quiet _ (by omega) (by simp)), there.storage] at run
    exact run

end Stmt.Simulated

theorem Expr.Ok.simulated {o : Outline} {ready : Ready} {e : Expr} (unique : (labelsOf whole).Nodup)
    (served : ∀ chain ready s, s.Fits o chain ready → s.isFunction = true →
      Answers env whole marks floor bound returns call s)
    (ok : e.Ok o chain ready) : e.Simulated env whole marks floor bound returns call :=
  e.simulated unique ok.1 (ok.2.imp fun s fits => served chain ready s fits)

theorem Stmt.simulated {o : Outline} {ready : Ready} (unique : (labelsOf whole).Nodup)
    (defined : BranchesDefined whole)
    (served : ∀ chain ready s, s.Fits o chain ready → s.isFunction = true →
      Answers env whole marks floor bound returns call s) (t : Stmt)
    (ok : t.Ok o chain ready loops) :
    t.Simulated env whole marks floor bound returns call chain loops := by
  induction t generalizing ready loops with
  | skip => exact Simulated.skip
  | seq a b left right => exact Simulated.seq (left ok.1) (right ok.2)
  | block a inner => exact Simulated.block (inner ok)
  | expr e => exact Simulated.expr (ok.simulated unique served)
  | assign s e => exact Simulated.assign (ok.1.simulated unique served)
  | declare type s init =>
    exact Simulated.declare fun e given => (ok.2.2.2.2 e given).1.simulated unique served
  | function r body _ => exact Simulated.function unique
  | ifThen e a otherwise inner =>
    exact Simulated.ifThen unique (ok.1.simulated unique served) (inner ok.2.2)
  | ifElse e a b otherwise done left right =>
    exact Simulated.ifElse unique (ok.1.simulated unique served) (left ok.2.2.1) (right ok.2.2.2)
  | whileLoop e a top done inner =>
    exact Simulated.whileLoop unique (ok.1.simulated unique served) (inner ok.2.2)
  | forLoop init e a step top done opens body steps =>
    obtain ⟨first, tests, inner, last⟩ := ok
    exact Simulated.forLoop unique (opens first)
      (fun e given => (tests e given).1.simulated unique served)
      (body inner) (steps last)
  | loopWhile a e top done body =>
    exact Simulated.loopWhile unique (body ok.1) (ok.2.2.1.simulated unique served)
  | leave done => exact Simulated.leave ok defined
  | yield e result =>
    obtain ⟨around, f, inner, enclosing, rfl, values⟩ := ok
    have here : f ∈ chain.head?.bind (·.enclosing) := by simp [inner, enclosing]
    exact Simulated.yield here defined fun value given =>
      (values value given).1.simulated unique served
  | exit e => exact Simulated.exit fun value given => (ok value given).1.simulated unique served

end

end ScalarScript
