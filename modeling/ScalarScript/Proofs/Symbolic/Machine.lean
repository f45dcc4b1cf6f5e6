import ScalarScript.Machine.Run
import Mathlib.Data.List.Basic
/-!
Programs that still have their labels, run symbolically: control is the code that remains, and a
branch continues behind the label that it names. What an instruction does to the core, and what it
asks of control, is the same here and in the machine of linked programs.
-/
namespace ScalarScript

-- A call of a host function: its name and the arguments it saw, last first.
structure HostCall where
  name : String
  arguments : List Value

-- What an instruction comes to.
inductive Deed (World : Type) where
  | proceed (core : Core World) (made : List HostCall)
  | branch
  | enter
  | leave
  | stop (outcome : Except RuntimeFault Value) (core : Core World) (made : List HostCall)

section Deed

variable {World : Type}

def hostDeed (externals : Array (External World)) (slot : Int) (c : Core World) : Deed World :=
  match External.function? externals slot with
  | none => .stop (.error (.notHostFunction slot)) c []
  | some (ext, f) =>
    if c.stack.length < ext.arity then
      .stop (.error (.missingArguments ext.name ext.arity)) c []
    else
      let request := c.request ext.arity.toNat
      let reply := f c.world request
      let after := c.answered ext.arity.toNat reply
      match (ext.answer reply).bind ext.checkResult with
      | .ok v => .proceed (after.setRegister .eax v) [⟨ext.name, request.arguments⟩]
      | .error fault => .stop (.error fault) after [⟨ext.name, request.arguments⟩]

def deed (externals : Array (External World)) (i : Instruction) (c : Core World) : Deed World :=
  match i.opcode with
  | .label | .debugLine => .proceed c []
  | .exit => .stop (c.resolve i.first) c []
  | .jump => .branch
  | .jumpIf condition => if condition.holds c.flags then .branch else .proceed c []
  | .call => .enter
  | .ret => .leave
  | .hostCall => hostDeed externals i.target c
  | _ =>
    match c.effect i with
    | .ok after => .proceed after []
    | .error fault => .stop (.error fault) c []

theorem hostDeed_ne {externals : Array (External World)} {slot : Int} {c : Core World} :
    hostDeed externals slot c ≠ .branch ∧ hostDeed externals slot c ≠ .enter ∧
      hostDeed externals slot c ≠ .leave := by
  unfold hostDeed
  split
  · simp
  · split
    · simp
    · simp only
      split <;> simp

-- Only branches ask for a branch, only calls enter and only returns leave.
theorem deed_eq_branch {externals : Array (External World)} {i : Instruction} {c : Core World}
    (done : deed externals i c = .branch) :
    i.opcode = .jump ∨ ∃ condition, i.opcode = .jumpIf condition ∧ condition.holds c.flags = true := by
  unfold deed at done
  split at done
  all_goals first | cases done | skip
  · exact .inl ‹_›
  · rename_i condition opcode
    split at done
    · exact .inr ⟨condition, opcode, ‹_›⟩
    · cases done
  · exact absurd done hostDeed_ne.1
  · split at done <;> cases done

theorem deed_eq_enter {externals : Array (External World)} {i : Instruction} {c : Core World}
    (done : deed externals i c = .enter) : i.opcode = .call := by
  unfold deed at done
  split at done
  all_goals first | cases done | skip
  · split at done <;> cases done
  · assumption
  · exact absurd done hostDeed_ne.2.1
  · split at done <;> cases done

theorem deed_eq_leave {externals : Array (External World)} {i : Instruction} {c : Core World}
    (done : deed externals i c = .leave) : i.opcode = .ret := by
  unfold deed at done
  split at done
  all_goals first | cases done | skip
  · split at done <;> cases done
  · assumption
  · exact absurd done hostDeed_ne.2.2
  · split at done <;> cases done

end Deed

-- The code behind a label.
def seek (label : Int) : List Instruction → Option (List Instruction)
  | [] => none
  | i :: rest => if i.opcode = .label ∧ i.target = label then some rest else seek label rest

-- What surrounds a run of a program.
structure Environment (World : Type) where
  externals : Array (External World)
  maxCallDepth : Int

def Machine.environment {World Watch : Type} (m : Machine World Watch) : Environment World :=
  ⟨m.externals, m.maxCallDepth⟩

-- The faults of jumps, calls and returns themselves.
def RuntimeFault.OfControl : RuntimeFault → Prop
  | .internal _ | .callOverflow _ | .emptyCalls => True
  | _ => False

namespace Symbolic

variable {World : Type}

-- The code that remains, the code to go on with after each call, and the core.
structure Config (World : Type) where
  rest : List Instruction
  returns : List (List Instruction)
  core : Core World

inductive Move (World : Type) where
  | next (config : Config World) (made : List HostCall)
  | stop (outcome : Except RuntimeFault Value) (core : Core World) (made : List HostCall)

def Config.goto (k : Config World) (code : List Instruction) (label : Int) : Move World :=
  match seek label code with
  | some rest => .next { k with rest } []
  | none => .stop (.error (.internal "no such label")) k.core []

def move (env : Environment World) (code : List Instruction) (k : Config World) : Move World :=
  match k.rest with
  | [] => .stop (.ok .null) k.core []
  | i :: rest =>
    match deed env.externals i k.core with
    | .proceed core made => .next { k with rest, core } made
    | .stop outcome core made => .stop outcome core made
    | .branch => k.goto code i.target
    | .enter =>
      if env.maxCallDepth ≤ k.returns.length then
        .stop (.error (.callOverflow k.returns.length)) k.core []
      else { k with returns := rest :: k.returns }.goto code i.target
    | .leave =>
      match k.returns with
      | [] => .stop (.error .emptyCalls) k.core []
      | back :: returns => .next { k with rest := back, returns } []

-- Where an instruction leads, by what it comes to.
inductive Leads (env : Environment World) (code : List Instruction) (k : Config World)
    (i : Instruction) (rest : List Instruction) : Config World → List HostCall → Prop where
  | proceed {core : Core World} {made : List HostCall}
      (done : deed env.externals i k.core = .proceed core made) :
      Leads env code k i rest { k with rest, core } made
  | branch {target : List Instruction} (done : deed env.externals i k.core = .branch)
      (found : seek i.target code = some target) :
      Leads env code k i rest { k with rest := target } []
  | enter {target : List Instruction} (done : deed env.externals i k.core = .enter)
      (room : ¬ env.maxCallDepth ≤ k.returns.length) (found : seek i.target code = some target) :
      Leads env code k i rest { k with rest := target, returns := rest :: k.returns } []
  | leave {back : List Instruction} {returns : List (List Instruction)}
      (done : deed env.externals i k.core = .leave) (top : k.returns = back :: returns) :
      Leads env code k i rest { k with rest := back, returns } []

theorem leads_of_move {env : Environment World} {code rest : List Instruction} {k l : Config World}
    {i : Instruction} {made : List HostCall} (first : k.rest = i :: rest)
    (moved : move env code k = .next l made) : Leads env code k i rest l made := by
  unfold move at moved
  rw [first] at moved
  cases done : deed env.externals i k.core with
  | proceed core calls =>
    simp only [done] at moved
    cases moved
    exact .proceed done
  | stop outcome core calls => simp [done] at moved
  | branch =>
    simp only [done, Config.goto] at moved
    split at moved
    · cases moved
      exact .branch done ‹_›
    · cases moved
  | enter =>
    simp only [done] at moved
    split at moved
    · cases moved
    · simp only [Config.goto] at moved
      split at moved
      · cases moved
        exact .enter done ‹_› ‹_›
      · cases moved
  | leave =>
    simp only [done] at moved
    split at moved
    · cases moved
    · cases moved
      exact .leave done ‹_›

-- Any other fault is that of the instruction.
theorem deed_of_move {env : Environment World} {code : List Instruction} {k : Config World}
    {f : RuntimeFault} {core : Core World} {made : List HostCall} (other : ¬ f.OfControl)
    (stopped : move env code k = .stop (.error f) core made) :
    ∃ i rest, k.rest = i :: rest ∧ deed env.externals i k.core = .stop (.error f) core made := by
  unfold move at stopped
  cases remains : k.rest with
  | nil => simp [remains] at stopped
  | cons i rest =>
    refine ⟨i, rest, rfl, ?_⟩
    simp only [remains] at stopped
    cases done : deed env.externals i k.core with
    | proceed core calls => simp [done] at stopped
    | branch =>
      simp only [done, Config.goto] at stopped
      split at stopped
      · cases stopped
      · cases stopped
        exact absurd trivial other
    | enter =>
      simp only [done, Config.goto] at stopped
      split at stopped
      · cases stopped
        exact absurd trivial other
      · split at stopped
        · cases stopped
        · cases stopped
          exact absurd trivial other
    | leave =>
      simp only [done] at stopped
      split at stopped
      · cases stopped
        exact absurd trivial other
      · cases stopped
    | stop outcome after calls =>
      simp only [done, Move.stop.injEq] at stopped
      obtain ⟨rfl, rfl, rfl⟩ := stopped
      rfl

-- Any number of moves, with the host calls made on the way.
inductive Steps (env : Environment World) (code : List Instruction) :
    Config World → List HostCall → Config World → Prop where
  | refl {k : Config World} : Steps env code k [] k
  | head {k l n : Config World} {made more : List HostCall} :
      move env code k = .next l made → Steps env code l more n → Steps env code k (made ++ more) n

-- A run that ends after that many moves.
inductive Ends (env : Environment World) (code : List Instruction) :
    Nat → Config World → List HostCall → Except RuntimeFault Value → Core World → Prop where
  | stop {k : Config World} {made : List HostCall} {outcome : Except RuntimeFault Value}
      {core : Core World} :
      move env code k = .stop outcome core made → Ends env code 1 k made outcome core
  | next {n : Nat} {k l : Config World} {made more : List HostCall}
      {outcome : Except RuntimeFault Value} {core : Core World} :
      move env code k = .next l made → Ends env code n l more outcome core →
      Ends env code (n + 1) k (made ++ more) outcome core

variable {env : Environment World} {code : List Instruction}

theorem Steps.single {k l : Config World} {made : List HostCall}
    (moved : move env code k = .next l made) : Steps env code k made l := by
  have path := Steps.head moved .refl
  rwa [List.append_nil] at path

theorem Steps.trans {k l n : Config World} {made more : List HostCall}
    (first : Steps env code k made l) (second : Steps env code l more n) :
    Steps env code k (made ++ more) n := by
  induction first with
  | refl => exact second
  | head moved _ ih =>
    rw [List.append_assoc]
    exact .head moved (ih second)

-- A run that goes on after some moves ends as it does from there.
theorem Steps.ends {k l : Config World} {made more : List HostCall} {n : Nat}
    {outcome : Except RuntimeFault Value} {core : Core World}
    (path : Steps env code k made l) (ends : Ends env code n l more outcome core) :
    ∃ n, Ends env code n k (made ++ more) outcome core := by
  induction path generalizing n more with
  | refl => exact ⟨n, ends⟩
  | head moved _ ih =>
    obtain ⟨n, later⟩ := ih ends
    rw [List.append_assoc]
    exact ⟨n + 1, .next moved later⟩

-- Runs are determined: a move of a run that ends is its first.
theorem Ends.of_next {k l : Config World} {made calls : List HostCall} {n : Nat}
    {outcome : Except RuntimeFault Value} {core : Core World}
    (ends : Ends env code n k calls outcome core) (moved : move env code k = .next l made) :
    ∃ n' more, n = n' + 1 ∧ calls = made ++ more ∧ Ends env code n' l more outcome core := by
  cases ends with
  | stop stopped =>
    rw [moved] at stopped
    cases stopped
  | next moved' later =>
    rw [moved] at moved'
    cases moved'
    exact ⟨_, _, rfl, rfl, later⟩

theorem Ends.of_stop {k : Config World} {made calls : List HostCall} {n : Nat}
    {outcome outcome' : Except RuntimeFault Value} {core core' : Core World}
    (ends : Ends env code n k calls outcome core)
    (stopped : move env code k = .stop outcome' core' made) :
    calls = made ∧ outcome = outcome' ∧ core = core' := by
  cases ends with
  | stop stopped' =>
    rw [stopped] at stopped'
    cases stopped'
    exact ⟨rfl, rfl, rfl⟩
  | next moved _ =>
    rw [stopped] at moved
    cases moved

theorem Ends.of_steps {k l : Config World} {made calls : List HostCall} {n : Nat}
    {outcome : Except RuntimeFault Value} {core : Core World}
    (path : Steps env code k made l) (ends : Ends env code n k calls outcome core) :
    ∃ n' more, n' ≤ n ∧ calls = made ++ more ∧ Ends env code n' l more outcome core := by
  induction path generalizing n calls with
  | refl => exact ⟨n, calls, Nat.le_refl _, rfl, ends⟩
  | head moved _ ih =>
    obtain ⟨n', more, rfl, rfl, later⟩ := ends.of_next moved
    obtain ⟨n'', rest, bound, rfl, last⟩ := ih later
    exact ⟨n'', rest, by omega, by rw [List.append_assoc], last⟩

theorem Ends.of_silent {k l : Config World} {calls : List HostCall} {n : Nat}
    {outcome : Except RuntimeFault Value} {core : Core World} (path : Steps env code k [] l)
    (ends : Ends env code n k calls outcome core) :
    ∃ n', n' ≤ n ∧ Ends env code n' l calls outcome core := by
  obtain ⟨n', more, bound, same, last⟩ := ends.of_steps path
  exact ⟨n', bound, by rwa [same, List.nil_append]⟩

end Symbolic

end ScalarScript
