import ScalarScript.Proofs.Machine.Observing
import ScalarScript.Proofs.Symbolic.Effect
/-!
Numbers of a run are finite. Operations see to that where they compute one, and every other value
was there before: in the program, with the host or in the room of the operand stack.
-/
namespace ScalarScript

open Stateful

variable {World Watch : Type}

namespace Value

-- A value whose number, if it has one, is finite.
def Proper : Value → Prop
  | double (some x) => Number.isFinite x = true
  | _ => True

theorem proper_number (x : Float) : (number x).Proper := by
  unfold number
  split
  · assumption
  · trivial

theorem proper_nullOf (t : Ty) : (nullOf t).Proper := by cases t <;> trivial

-- What is stored is what was given, or a null.
theorem Proper.store {old new v : Value} (given : new.Proper) (stored : old.store new = .ok v) :
    v.Proper := by
  unfold Value.store at stored
  split at stored
  · cases stored
  · cases stored
    trivial
  · cases stored
    exact given
  · cases stored
    trivial
  · split at stored
    · cases stored
      exact proper_nullOf _
    · cases stored

end Value

theorem proper_finiteOrNull (x : Float) : (finiteOrNull x).Proper := by
  unfold finiteOrNull
  split
  · exact Value.proper_number x
  · trivial

theorem BinaryOp.proper_onNumbers (op : BinaryOp) (x y : Float) : (op.onNumbers x y).Proper := by
  unfold onNumbers
  split
  all_goals first | exact proper_finiteOrNull _ | skip
  · split
    · trivial
    · exact proper_finiteOrNull _
  · split
    · trivial
    · exact proper_finiteOrNull _
  · trivial

theorem BinaryOp.proper_apply {op : BinaryOp} {a b v : Value} (done : op.apply a b = .ok v) :
    v.Proper := by
  unfold apply at done
  split at done
  · cases done
  · split at done
    · cases done
      exact op.proper_onNumbers _ _
    · cases done
      trivial
    · cases done
      trivial
    · cases done

theorem UnaryOp.proper_apply {op : UnaryOp} {a v : Value} (done : op.apply a = .ok v) :
    v.Proper := by
  cases op with
  | negate =>
    simp only [apply, Value.negate] at done
    split at done
    · cases done
    · split at done
      · cases done
        exact Value.proper_number _
      · cases done
  | not =>
    simp only [apply, Value.invert] at done
    split at done
    · cases done
    · split at done
      · cases done
        trivial
      · cases done

theorem Cell.proper_assign {c d : Cell} {v : Value} (given : v.Proper)
    (done : c.assign v = .ok d) : d.content.Proper := by
  unfold assign at done
  split at done
  · cases done
    exact given
  · cases done
  · cases stored : c.content.store v with
    | error f =>
      rw [stored] at done
      cases done
    | ok w =>
      rw [stored] at done
      cases done
      exact given.store stored

def Operand.Proper : Operand → Prop
  | .literal v => v.Proper
  | _ => True

structure Instruction.Proper (i : Instruction) : Prop where
  first : i.first.Proper
  second : i.second.Proper

def FrameSlot.Proper : FrameSlot → Prop
  | .held v => v.Proper
  | _ => True

-- Cells of the host that hold proper values.
def CellsProper (cells : Array (Option Cell)) : Prop :=
  ∀ cell, some cell ∈ cells → cell.content.Proper

-- Places of an operand stack that hold proper values, if any.
def PlacesProper (places : List (Option Value)) : Prop := ∀ v, some v ∈ places → v.Proper

namespace Core

-- Every value of a core is proper.
structure Proper (c : Core World) : Prop where
  registers : ∀ r v, c.registers.get? r = some v → v.Proper
  stack : PlacesProper c.stack
  scopes : ∀ frames ∈ c.scopes, ∀ frame ∈ frames, ∀ slot ∈ frame, slot.Proper
  cells : CellsProper c.cells

variable {c : Core World}

theorem Proper.read (proper : c.Proper) {p : Place} (constant : ∀ v, p = .constant v → v.Proper) :
    (c.read p).Proper := by
  cases p with
  | register r =>
    show ((c.registers.get? r).getD .null).Proper
    cases found : c.registers.get? r with
    | none => trivial
    | some v => exact proper.registers r v found
  | slot depth index =>
    unfold Core.read
    dsimp only
    split
    · rename_i v found
      obtain ⟨frame, top, slot⟩ := Option.bind_eq_some_iff.mp found
      obtain ⟨frames, at_, head⟩ := Option.bind_eq_some_iff.mp top
      exact proper.scopes frames (Array.mem_of_getElem? at_) frame (List.mem_of_head? head) _
        (Array.mem_of_getElem? slot)
    · trivial
  | host index =>
    show (((c.cells[index]?.join).map Cell.content).getD .null).Proper
    cases found : c.cells[index]?.join with
    | none => trivial
    | some cell =>
      have present := Option.join_eq_some_iff.mp found
      exact proper.cells cell (Array.mem_of_getElem? present)
  | constant v => exact constant v rfl

theorem mem_modify {α : Type} {xs : Array α} {i : Nat} {f : α → α} {y : α}
    (member : y ∈ xs.modify i f) : y ∈ xs ∨ ∃ x, x ∈ xs ∧ f x = y := by
  obtain ⟨j, found⟩ := Array.mem_iff_getElem?.mp member
  rw [Array.getElem?_modify] at found
  split at found
  · obtain ⟨x, present, same⟩ := Option.map_eq_some_iff.mp found
    exact .inr ⟨x, Array.mem_of_getElem? present, same⟩
  · exact .inl (Array.mem_of_getElem? found)

theorem locate_constant {o : Operand} {v : Value} (proper : o.Proper)
    (located : c.locate o = .ok (.constant v)) : v.Proper := by
  cases o with
  | literal w =>
    cases located
    exact proper
  | null =>
    cases located
    trivial
  | absent => cases located
  | register r =>
    simp only [locate] at located
    split at located <;> cases located
  | slot s =>
    simp only [locate, bind, Except.bind, pure, Except.pure] at located
    split at located
    · cases located
    · split at located <;> cases located

theorem Proper.resolve (proper : c.Proper) {o : Operand} (operand : o.Proper) :
    Promises Value.Proper (c.resolve o) := by
  intro v resolved
  unfold Core.resolve at resolved
  cases located : c.locate o with
  | error f =>
    rw [located] at resolved
    cases resolved
  | ok p =>
    rw [located] at resolved
    cases resolved
    exact proper.read fun w is => locate_constant operand (is ▸ located)

theorem Proper.setRegister (proper : c.Proper) (r : Register) {v : Value} (given : v.Proper) :
    (c.setRegister r v).Proper := by
  refine { proper with registers := fun s w found => ?_ }
  by_cases same : s = r
  · subst same
    by_cases known : s.index < 3
    · have now : (c.setRegister s v).registers.get? s = some v := Registers.get?_set_same known
      rw [now] at found
      cases found
      exact given
    · obtain ⟨_ | _ | _ | n⟩ := s <;> simp at known
      cases found
  · exact proper.registers s w ((Registers.get?_set_other same).symm.trans found)

theorem Proper.putSlot (proper : c.Proper) (depth index : Nat) {slot : FrameSlot}
    (given : slot.Proper) : (c.putSlot depth index slot).Proper := by
  refine { proper with scopes := fun frames member frame within held inside => ?_ }
  simp only [Core.putSlot] at member
  rcases mem_modify member with old | ⟨before, old, rfl⟩
  · exact proper.scopes frames old frame within held inside
  · cases before with
    | nil => cases within
    | cons top rest =>
      have kept := proper.scopes _ old
      rcases List.mem_cons.mp within with rfl | lower
      · rcases Array.mem_or_eq_of_mem_setIfInBounds inside with there | rfl
        · exact kept top List.mem_cons_self held there
        · exact given
      · exact kept frame (List.mem_cons_of_mem _ lower) held inside

theorem Proper.assign (proper : c.Proper) (p : Place) {v : Value} (given : v.Proper) :
    Promises Core.Proper (c.assign p v) := by
  cases p with
  | register r => exact .ok (proper.setRegister r given)
  | slot depth index =>
    refine .bind fun w stored => .ok (proper.putSlot depth index ?_)
    exact given.store (lift_eq_ok_iff.mp stored)
  | host index =>
    unfold Core.assign
    dsimp only
    split
    · refine .bind fun cell stored => .ok { proper with cells := fun d member => ?_ }
      rcases Array.mem_or_eq_of_mem_setIfInBounds member with old | new
      · exact proper.cells d old
      · cases new
        exact Cell.proper_assign given (lift_eq_ok_iff.mp stored)
    · exact .ok proper
  | constant w => exact .error _

theorem Proper.pop (proper : c.Proper) (o : Operand) : Promises Core.Proper (c.pop o) := by
  refine .bind fun target _ => ?_
  cases top : c.stack with
  | nil => exact .error _
  | cons place rest =>
    have places := proper.stack
    rw [top] at places
    cases place with
    | none => exact .error _
    | some v =>
      have below : ({ c with stack := rest } : Core World).Proper :=
        { proper with stack := fun w member => places w (List.mem_cons_of_mem _ member) }
      exact below.assign target (places v List.mem_cons_self)

theorem Proper.allocate (proper : c.Proper) (type : Scalar) (o : Operand) :
    Promises Core.Proper (c.allocate type o) := by
  cases o with
  | slot s =>
    exact .bind fun (depth, index, _) _ =>
      .ok (proper.putSlot depth index (Value.proper_nullOf type.ty))
  | _ => exact .error _

theorem Proper.pushScope (proper : c.Proper) (depth size : Int) :
    Promises Core.Proper (c.pushScope depth size) := by
  unfold Core.pushScope
  split
  · exact .error _
  · split
    · exact .error _
    · refine .ok { proper with scopes := fun frames member frame within held inside => ?_ }
      rcases mem_modify member with old | ⟨before, old, rfl⟩
      · exact proper.scopes frames old frame within held inside
      · rcases List.mem_cons.mp within with rfl | lower
        · rw [(Array.mem_replicate.mp inside).2]
          trivial
        · exact proper.scopes before old frame lower held inside

theorem Proper.popScope (proper : c.Proper) (depth : Int) :
    Promises Core.Proper (c.popScope depth) := by
  unfold Core.popScope
  split
  · exact .error _
  · refine .ok { proper with scopes := fun frames member frame within held inside => ?_ }
    rcases mem_modify member with old | ⟨before, old, rfl⟩
    · exact proper.scopes frames old frame within held inside
    · exact proper.scopes before old frame (List.mem_of_mem_tail within) held inside

-- One case for each opcode.
theorem Proper.effect (proper : c.Proper) {i : Instruction} (operands : i.Proper) :
    Promises Core.Proper (c.effect i) := by
  unfold Core.effect
  cases i.opcode with
  | exit | jump | jumpIf _ | call | ret | hostCall => exact .ok proper
  | compare => exact .bind fun x _ => .bind fun y _ => .ok { proper with }
  | test => exact .bind fun x _ => .bind fun truth _ => .ok { proper with }
  | setIf condition => exact .bind fun target _ => proper.assign target trivial
  | move =>
    exact .bind fun target _ => .bind fun v given =>
      proper.assign target (proper.resolve operands.second v given)
  | push =>
    refine .bind fun v given => .ok { proper with stack := fun w member => ?_ }
    rcases List.mem_cons.mp member with new | old
    · cases new
      exact proper.resolve operands.first _ given
    · exact proper.stack w old
  | pop => exact proper.pop _
  | binary op =>
    exact .bind fun target _ => .bind fun source _ => .bind fun v done =>
      proper.assign target (BinaryOp.proper_apply (lift_eq_ok_iff.mp done))
  | unary op =>
    exact .bind fun target _ => .bind fun v done =>
      proper.assign target (UnaryOp.proper_apply (lift_eq_ok_iff.mp done))
  | scopeDepth =>
    refine .ok { proper with scopes := fun frames member frame within held inside => ?_ }
    rcases Array.mem_append.mp member with old | new
    · exact proper.scopes frames old frame within held inside
    · rw [(Array.mem_replicate.mp new).2] at within
      cases within
  | pushScope => exact proper.pushScope _ _
  | popScope => exact proper.popScope _
  | allocate type => exact proper.allocate _ _
  | label | debugLine | unknown _ => exact .error _

theorem proper_request (proper : c.Proper) (arity : Nat) :
    ∀ v ∈ (c.request arity).arguments, v.Proper := by
  intro v member
  obtain ⟨place, taken, same⟩ := List.mem_map.mp member
  cases place with
  | none =>
    cases same
    trivial
  | some w =>
    cases same
    exact proper.stack w (List.mem_of_mem_take taken)

end Core

def HostResult.Proper : HostResult → Prop
  | .value (some v) => v.Proper
  | _ => True

-- Whatever the host makes of proper values is proper.
def HostsProper (externals : Array (External World)) : Prop :=
  ∀ ext ∈ externals, ∀ f, ext.function = some f →
    ∀ w r, (∀ v ∈ r.arguments, Value.Proper v) → CellsProper r.cells →
      (f w r).result.Proper ∧ ∀ entry ∈ (f w r).stores, Value.Proper entry.2

theorem proper_answer {ext : External World} {reply : HostReply World} {v : Value}
    (proper : reply.result.Proper) (given : (ext.answer reply).bind ext.checkResult = .ok v) :
    v.Proper := by
  cases answer : ext.answer reply with
  | error f =>
    rw [answer] at given
    cases given
  | ok w =>
    rw [answer] at given
    have same : w = v := by
      simp only [Except.bind, External.checkResult] at given
      split at given
      · cases given
      · cases given
        rfl
    subst same
    unfold External.answer at answer
    split at answer
    · cases answer
    · cases answer
    · rename_i result
      split at answer
      · cases answer
      · cases answer
        rw [result] at proper
        cases ‹Option Value› with
        | none => trivial
        | some v => exact proper

theorem CellsProper.store {cells : Array (Option Cell)} (proper : CellsProper cells) (index : Nat)
    {v : Value} (given : v.Proper) : CellsProper (Core.store cells index v) := by
  intro cell member
  rcases Core.mem_modify member with old | ⟨before, old, same⟩
  · exact proper cell old
  · obtain ⟨d, rfl, stored⟩ := Option.map_eq_some_iff.mp same
    cases done : d.assign v with
    | error f =>
      rw [done] at stored
      exact stored ▸ proper d old
    | ok e =>
      rw [done] at stored
      exact stored ▸ Cell.proper_assign given done

theorem CellsProper.stores {stores : List (Nat × Value)}
    (given : ∀ entry ∈ stores, Value.Proper entry.2) {cells : Array (Option Cell)}
    (proper : CellsProper cells) :
    CellsProper (stores.foldl (fun cells (index, v) => Core.store cells index v) cells) := by
  induction stores generalizing cells with
  | nil => exact proper
  | cons entry rest ih =>
    exact ih (fun other member => given other (List.mem_cons_of_mem _ member))
      (proper.store entry.1 (given entry List.mem_cons_self))

-- Every value of a run is proper, those above the top of the operand stack as well.
structure RunState.Proper (s : RunState World Watch) : Prop where
  core : s.toCore.Proper
  room : PlacesProper s.room

-- The values that a machine starts with.
structure Machine.Proper (m : Machine World Watch) : Prop where
  code : ∀ i ∈ m.code, i.Proper
  hosts : HostsProper m.externals

namespace Exec

variable {m : Machine World Watch}

theorem internal_proper : Internal (@RunState.Proper World Watch) := by
  intro s t core room proper
  exact ⟨core ▸ proper.core, room ▸ proper.room⟩

theorem survives_proper (hosts : HostsProper m.externals) :
    Survives m (@RunState.Proper World Watch) := by
  have below (s : RunState World Watch) (count : Nat) (proper : s.Proper) :
      PlacesProper (s.roomBelow count) := by
    intro v member
    rcases List.mem_append.mp member with given | old
    · exact proper.core.stack v (List.mem_of_mem_take (List.mem_reverse.mp given))
    · exact proper.room v old
  refine internal_proper.survives ?_ ?_ ?_
  · intro s ext f member given proper
    obtain ⟨_, stores⟩ := hosts ext member f given s.world (s.request ext.arity.toNat)
      (Core.proper_request proper.core _) proper.core.cells
    refine ⟨{ proper.core with stack := ?_, cells := ?_ }, below s _ proper⟩
    · exact fun v there => proper.core.stack v (List.mem_of_mem_drop there)
    · exact proper.core.cells.stores stores
  · intro s count proper
    refine ⟨{ proper.core with stack := fun v member => ?_ }, fun v member => ?_⟩
    · rcases List.mem_append.mp member with back | old
      · exact proper.room v (List.mem_of_mem_take (List.mem_reverse.mp back))
      · exact proper.core.stack v old
    · exact proper.room v (List.mem_of_mem_drop member)
  · intro s site ext f v member given there answer proper
    have reply := (hosts ext member f given site.world (site.request ext.arity.toNat)
      (Core.proper_request there.core _) there.core.cells).1
    exact ⟨proper.core.setRegister .eax (proper_answer reply answer), proper.room⟩

theorem withstands_proper {i : Instruction} (operands : i.Proper) :
    Withstands i (@RunState.Proper World Watch) := by
  intro s proper core done
  refine ⟨proper.core.effect operands core done, fun v there => ?_⟩
  simp only [RunState.roomAfter] at there
  split at there
  · split at there
    · rename_i room
      exact proper.room v (by rw [room]; exact List.mem_cons_of_mem _ there)
    · cases (List.mem_replicate.mp there).2
  · rcases List.mem_append.mp there with top | old
    · exact proper.core.stack v (List.mem_of_mem_take top)
    · exact proper.room v old
  · exact proper.room v there

-- Every step keeps the values of a run proper.
theorem preserves_proper (proper : m.Proper) :
    Preserves (@RunState.Proper World Watch) (step m) :=
  internal_proper.step (survives_proper proper.hosts) fun i member =>
    withstands_proper (proper.code i member)

-- What is there while an instruction is counted and observed is there afterwards.
theorem allow_keeps {P : RunState World Watch → Prop} (internal : Internal P) (i : Instruction) :
    Preserves P (allow m i) :=
  internal.checkContext.bind fun _ => internal.countInstruction.bind fun _ =>
    internal.observeStep i

theorem transfer_eq_exit {i : Instruction} {s t : RunState World Watch} {v : Value}
    (moved : transfer m i s = .ok (.inr v) t) : s.resolve i.first = .ok v := by
  simp only [transfer, bind_apply, get_apply] at moved
  cases opcode : i.opcode <;> simp only [opcode] at moved
  case exit =>
    simp only [bind_apply, get_apply] at moved
    cases resolved : s.resolve i.first with
    | error f =>
      rw [resolved] at moved
      cases moved
    | ok w =>
      rw [resolved] at moved
      cases moved
      rfl
  case call =>
    rw [bind_apply] at moved
    cases entered : enterCall m i s <;> rw [entered] at moved <;> cases moved
  case ret =>
    rw [bind_apply] at moved
    cases left : leaveCall m s <;> rw [left] at moved <;> cases moved
  all_goals cases moved

-- The exit value is proper.
theorem step_exit_proper (proper : m.Proper) {s t : RunState World Watch} {v : Value}
    (holds : s.Proper) (stepped : step m s = .ok (some v) t) : v.Proper := by
  cases placed m s with
  | past outside =>
    rw [step_of_past outside] at stepped
    cases stepped
    trivial
  | negative outside =>
    rw [step_of_negative outside, bind_apply] at stepped
    cases checked : checkContext m s <;> rw [checked] at stepped <;> cases stepped
  | «at» i inside found =>
    have operands := proper.code i (Array.mem_of_getElem? found)
    cases active : i.opcode.isMark with
    | true =>
      rw [step_of_fetched inside found, bind_apply] at stepped
      cases checked : checkContext m s with
      | error e u =>
        rw [checked] at stepped
        cases stepped
      | ok _ u =>
        rw [checked] at stepped
        obtain ⟨line, ran⟩ := execute_of_mark (s := u) active
        cases stepped.symm.trans (ran m)
    | false =>
      rw [step_of_allowed inside found active] at stepped
      obtain ⟨_, u, allowed, finished⟩ := bind_eq_ok_iff.mp stepped
      obtain ⟨_, w, performed, finished⟩ := bind_eq_ok_iff.mp finished
      obtain ⟨way, x, moved, finished⟩ := bind_eq_ok_iff.mp finished
      have first := allow_keeps (m := m) internal_proper i s holds
      rw [allowed] at first
      have second := preserves_perform (survives_proper proper.hosts)
        (withstands_proper operands) u first
      rw [performed] at second
      cases way with
      | inl next => cases finished
      | inr result =>
        cases finished
        exact second.core.resolve operands.first _ (transfer_eq_exit moved)

-- What a host function is called with is proper.
theorem calling_proper {s : RunState World Watch} {call : HostCall} (holds : s.Proper)
    (made : calling m s = some call) : ∀ v ∈ call.arguments, v.Proper := by
  obtain ⟨i, _, made⟩ := Option.bind_eq_some_iff.mp made
  cases ran : approach m i s with
  | error e t =>
    rw [ran] at made
    cases made
  | ok given t =>
    rw [ran] at made
    cases made
    obtain ⟨_, u, allowed, ran⟩ := bind_eq_ok_iff.mp ran
    have first := allow_keeps (m := m) internal_proper i s holds
    rw [allowed] at first
    cases found : External.function? m.externals i.target with
    | none =>
      rw [found] at ran
      cases ran
    | some pair =>
      obtain ⟨ext, f⟩ := pair
      rw [found] at ran
      by_cases short : (u.stack.length : Int) < ext.arity
      · simp only [bind_apply, get_apply, if_pos short] at ran
        cases ran
      · simp only [bind_apply, get_apply, if_neg short] at ran
        have second := internal_proper.observeCall (m := m) ext.name true u first
        cases seen : observeCall m ext.name true u with
        | error e w =>
          rw [seen] at ran
          cases ran
        | ok _ w =>
          rw [seen] at ran second
          cases ran
          exact Core.proper_request second.core _

theorem drive_proper (proper : m.Proper) (n : Nat) {s : RunState World Watch} (holds : s.Proper) :
    (∀ call ∈ along (step m) (calling m) n s, ∀ v ∈ call.arguments, v.Proper) ∧
      ∀ v t, drive (step m) n s = .ok (some v) t → v.Proper := by
  induction n generalizing s with
  | zero =>
    refine ⟨fun call made => absurd made List.not_mem_nil, fun v t ended => ?_⟩
    rw [drive_zero] at ended
    cases ended
  | succ n ih =>
    have now : ∀ call ∈ (calling m s).toList, ∀ v ∈ call.arguments, v.Proper :=
      fun call made => calling_proper holds (Option.mem_toList.mp made)
    have kept := preserves_proper proper s holds
    simp only [along, drive_apply]
    cases ran : step m s with
    | error e t =>
      dsimp only
      rw [List.append_nil]
      refine ⟨now, fun v t ended => ?_⟩
      cases ended
    | ok result t =>
      cases result with
      | some v =>
        dsimp only
        rw [List.append_nil]
        refine ⟨now, fun w u ended => ?_⟩
        cases ended
        exact step_exit_proper proper holds ran
      | none =>
        rw [ran] at kept
        obtain ⟨later, ends⟩ := ih (s := t) kept
        refine ⟨fun call made => ?_, ends⟩
        rcases List.mem_append.mp made with here | there
        · exact now call here
        · exact later call there

end Exec

-- Nothing but the host's values is there at first.
theorem Core.proper_start {cells : Array (Option Cell)} (proper : CellsProper cells)
    (scopes : Array (List ScopeFrame)) (world : World)
    (empty : ∀ frames ∈ scopes, ∀ frame ∈ frames, ∀ slot ∈ frame, slot.Proper) :
    Core.Proper { scopes, cells, world } where
  registers r v found := by
    obtain ⟨_ | _ | _ | n⟩ := r <;> cases found <;> trivial
  stack v member := absurd member List.not_mem_nil
  scopes := empty
  cells := proper

theorem Machine.start_proper {around : Surroundings World Watch} (cells : CellsProper around.cells)
    (room : PlacesProper around.room) (context : Context) :
    (Machine.start around context).Proper := by
  refine ⟨Core.proper_start cells _ around.world ?_, room⟩
  intro frames member frame within slot inside
  rw [Array.mem_singleton.mp member] at within
  rw [List.mem_singleton.mp within] at inside
  obtain ⟨cell, _, rfl⟩ := Array.mem_map.mp inside
  cases cell <;> trivial

end ScalarScript
