import ScalarScript.Proofs.Machine.Proper
import ScalarScript.Proofs.Machine.Raised
import ScalarScript.Proofs.Number.Finite
import ScalarScript.Proofs.Peephole.Demand
/-!
What a rule puts in the place of a window does what the window did. From the same core on, both fail
with the same fault, or come to cores that differ in a register that nobody asks for; where the window
stumbles over an operand that leads nowhere, nothing is said.
-/
namespace ScalarScript

variable {World : Type}

-- The faults that code of a compiled program does not meet, and optimization need not keep.
def RuntimeFault.Invalid (f : RuntimeFault) : Prop := f.code = .invalidOperation

theorem RuntimeFault.Invalid.of_operand {f : RuntimeFault} (stray : f.OfOperand) : f.Invalid := by
  cases f <;> first | rfl | cases stray

open RuntimeFault (Invalid)

namespace Core

variable {c d e : Core World} {i j : Instruction} {known : Register → Prop} {flags : Prop}
  {r : Register} {p : Place} {v : Value}

theorem invalid_locate (c : Core World) (o : Operand) : Raises Invalid (c.locate o) :=
  (c.strays_locate o).imp fun _ => .of_operand

theorem invalid_resolve (c : Core World) (o : Operand) : Raises Invalid (c.resolve o) :=
  (c.strays_resolve o).imp fun _ => .of_operand

-- What a stretch of instructions does to the core. Where one of them fails, that leaves the core as
-- it was.
def through (c : Core World) : List Instruction → Except (RuntimeFault × Core World) (Core World)
  | [] => .ok c
  | i :: rest =>
    match c.effect i with
    | .ok d => d.through rest
    | .error f => .error (f, c)

theorem through_cons_of_ok (done : c.effect i = .ok d) (rest : List Instruction) :
    c.through (i :: rest) = d.through rest := by
  rw [through, done]

theorem through_cons_of_error {f : RuntimeFault} (failed : c.effect i = .error f)
    (rest : List Instruction) : c.through (i :: rest) = .error (f, c) := by
  rw [through, failed]

-- Two results that nobody can tell apart who asks for no more than these registers, and the flags
-- where they count. An invalid operation of the first excuses the second.
inductive Alike (known : Register → Prop) (flags : Prop) :
    Except (RuntimeFault × Core World) (Core World) →
    Except (RuntimeFault × Core World) (Core World) → Prop where
  | invalid {f : RuntimeFault} {d : Core World}
      {result : Except (RuntimeFault × Core World) (Core World)} (invalid : f.Invalid) :
      Alike known flags (.error (f, d)) result
  | ok {d e : Core World} (agrees : Agrees known flags d e) : Alike known flags (.ok d) (.ok e)
  | error {f : RuntimeFault} {d e : Core World} (cells : e.cells = d.cells)
      (world : e.world = d.world) : Alike known flags (.error (f, d)) (.error (f, e))

theorem Agrees.trans (first : Agrees known flags c d) (second : Agrees known flags d e) :
    Agrees known flags c e where
  registers r is := (second.registers r is).trans (first.registers r is)
  flags counts := (second.flags counts).trans (first.flags counts)
  stack := second.stack.trans first.stack
  scopes := second.scopes.trans first.scopes
  cells := second.cells.trans first.cells
  world := second.world.trans first.world

theorem Alike.trans {x y z : Except (RuntimeFault × Core World) (Core World)}
    (first : Alike known flags x y) (second : Alike known flags y z) : Alike known flags x z := by
  cases first with
  | invalid invalid => exact .invalid invalid
  | ok agrees =>
    cases second with
    | ok more => exact .ok (agrees.trans more)
  | error cells world =>
    cases second with
    | invalid invalid => exact .invalid invalid
    | error cells' world' => exact .error (cells'.trans cells) (world'.trans world)

-- A register that nobody asks for can be overwritten.
theorem Agrees.of_setRegister (unknown : ¬ known r) :
    Agrees known flags (c.setRegister r v) c where
  registers s is := by
    refine (Registers.get?_set_other fun same => ?_).symm
    rw [same] at is
    exact unknown is
  flags _ := rfl
  stack := rfl
  scopes := rfl
  cells := rfl
  world := rfl

-- What an instruction with valid operands does.
section Effects

theorem effect_of_move (moves : i.opcode = .move) :
    (∃ f, c.effect i = .error f ∧ f.Invalid) ∨ ∃ p v, c.locate i.first = .ok p ∧
      c.resolve i.second = .ok v ∧ c.effect i = c.assign p v := by
  have effect : c.effect i = (c.locate i.first).bind fun p =>
      (c.resolve i.second).bind fun v => c.assign p v := by
    rw [Core.effect, moves]
    rfl
  rw [effect]
  cases target : c.locate i.first with
  | error f => exact .inl ⟨f, rfl, c.invalid_locate _ f target⟩
  | ok p =>
    cases source : c.resolve i.second with
    | error f => exact .inl ⟨f, rfl, c.invalid_resolve _ f source⟩
    | ok v => exact .inr ⟨p, v, rfl, rfl, rfl⟩

theorem effect_of_push (pushes : i.opcode = .push) :
    (∃ f, c.effect i = .error f ∧ f.Invalid) ∨ ∃ v, c.resolve i.first = .ok v ∧
      c.effect i = .ok { c with stack := some v :: c.stack } := by
  have effect : c.effect i = (c.resolve i.first).bind fun v =>
      .ok { c with stack := some v :: c.stack } := by
    rw [Core.effect, pushes]
    rfl
  rw [effect]
  cases source : c.resolve i.first with
  | error f => exact .inl ⟨f, rfl, c.invalid_resolve _ f source⟩
  | ok v => exact .inr ⟨v, rfl, rfl⟩

theorem effect_pop_eq {rest : List (Option Value)} (pops : i.opcode = .pop)
    (top : c.stack = some v :: rest) :
    c.effect i = (c.locate i.first).bind fun p => assign { c with stack := rest } p v := by
  rw [Core.effect, pops]
  exact effect_receive c top

theorem effect_of_pop {rest : List (Option Value)} (pops : i.opcode = .pop)
    (top : c.stack = some v :: rest) :
    (∃ f, c.effect i = .error f ∧ f.Invalid) ∨ ∃ p, c.locate i.first = .ok p ∧
      c.effect i = assign { c with stack := rest } p v := by
  rw [effect_pop_eq pops top]
  cases target : c.locate i.first with
  | error f => exact .inl ⟨f, rfl, c.invalid_locate _ f target⟩
  | ok p => exact .inr ⟨p, rfl, rfl⟩

theorem effect_unary_eq {op : UnaryOp} (computes : i.opcode = .unary op) :
    c.effect i = (c.locate i.first).bind fun p =>
      (Fault.lift (op.apply (c.read p))).bind (c.assign p) := by
  rw [Core.effect, computes]
  rfl

theorem effect_binary_eq {op : BinaryOp} (computes : i.opcode = .binary op) :
    c.effect i = (c.locate i.first).bind fun p => (c.resolve i.second).bind fun v =>
      (Fault.lift (op.apply (c.read p) v)).bind (c.assign p) := by
  rw [Core.effect, computes]
  rfl

theorem effect_of_binary {op : BinaryOp} (computes : i.opcode = .binary op) :
    (∃ f, c.effect i = .error f ∧ f.Invalid) ∨ ∃ p v, c.locate i.first = .ok p ∧
      c.resolve i.second = .ok v ∧
      c.effect i = (Fault.lift (op.apply (c.read p) v)).bind (c.assign p) := by
  rw [effect_binary_eq computes]
  cases target : c.locate i.first with
  | error f => exact .inl ⟨f, rfl, c.invalid_locate _ f target⟩
  | ok p =>
    cases source : c.resolve i.second with
    | error f => exact .inl ⟨f, rfl, c.invalid_resolve _ f source⟩
    | ok v => exact .inr ⟨p, v, rfl, rfl, rfl⟩

end Effects

end Core

-- What slots of a script's own frames hold: nothing yet, or a value of some type.
def FrameSlot.Own : FrameSlot → Prop
  | .empty => True
  | .held v => v ≠ .null
  | .shared => False

def OwnFrames (frames : List ScopeFrame) : Prop := ∀ frame ∈ frames, ∀ slot ∈ frame, slot.Own

-- Every frame is the script's own but the outermost one, which is the host's.
def Scripted (scopes : Array (List ScopeFrame)) : Prop :=
  ∀ depth frames, 0 < depth → scopes[depth]? = some frames → OwnFrames frames

theorem Value.store_self {v : Value} (typed : v ≠ .null) : v.store v = .ok v := by
  cases v with
  | null => exact absurd rfl typed
  | _ => rfl

theorem Value.store_ne_null {old new v : Value} (stored : old.store new = .ok v) : v ≠ .null := by
  rintro rfl
  have same := Value.store_type stored
  cases old with
  | null => cases stored
  | _ => cases same

theorem OwnFrames.set {frame : ScopeFrame} {rest : List ScopeFrame} {slot : FrameSlot}
    (own : OwnFrames (frame :: rest)) (index : Nat) (given : slot.Own) :
    OwnFrames (frame.setIfInBounds index slot :: rest) := by
  intro other member
  rcases List.mem_cons.mp member with rfl | lower
  · intro held inside
    rcases Array.mem_or_eq_of_mem_setIfInBounds inside with old | rfl
    · exact own frame List.mem_cons_self held old
    · exact given
  · exact own other (List.mem_cons_of_mem _ lower)

theorem Scripted.modify {scopes : Array (List ScopeFrame)} {depth : Nat}
    {f : List ScopeFrame → List ScopeFrame} (scripted : Scripted scopes)
    (keeps : ∀ frames, OwnFrames frames → OwnFrames (f frames)) : Scripted (scopes.modify depth f) := by
  intro place frames inner found
  rw [Array.getElem?_modify] at found
  split at found
  · obtain ⟨old, there, rfl⟩ := Option.map_eq_some_iff.mp found
    exact keeps old (scripted place old inner there)
  · exact scripted place frames inner found

namespace Core

variable {c d : Core World} {i : Instruction} {p : Place} {v : Value}

theorem scripted_putSlot (scripted : Scripted c.scopes) (depth index : Nat) {slot : FrameSlot}
    (given : slot.Own) : Scripted (c.putSlot depth index slot).scopes := by
  refine scripted.modify fun frames own => ?_
  cases frames with
  | nil => exact own
  | cons frame rest => exact own.set index given

theorem scripted_assign (scripted : Scripted c.scopes) (p : Place) (v : Value) :
    Promises (fun d : Core World => Scripted d.scopes) (c.assign p v) := by
  cases p with
  | register r => exact .ok scripted
  | slot depth index =>
    refine .bind fun w stored => .ok ?_
    exact scripted_putSlot scripted depth index (Value.store_ne_null (lift_eq_ok_iff.mp stored))
  | host index =>
    simp only [assign]
    split
    · exact .bind fun cell _ => .ok scripted
    · exact .ok scripted
  | constant w => exact .error _

theorem scripted_rescoped {scopes : Array (List ScopeFrame)} (scripted : Scripted c.scopes)
    (scoping : i.opcode.isScoping = true) (done : c.effect i = .ok { c with scopes }) :
    Scripted scopes := by
  suffices keeps : Promises (fun d : Core World => Scripted d.scopes) (c.effect i) from
    keeps _ done
  intro d done
  unfold effect at done
  cases opcode : i.opcode with
  | scopeDepth =>
    rw [opcode] at done
    cases done
    intro depth frames inner found
    rw [Array.getElem?_append] at found
    split at found
    · exact scripted depth frames inner found
    · rw [Array.getElem?_replicate] at found
      split at found
      · cases found
        exact fun _ member => absurd member List.not_mem_nil
      · cases found
  | pushScope =>
    rw [opcode] at done
    obtain ⟨_, _, rfl⟩ := pushScope_eq_ok done
    refine scripted.modify fun frames own frame member => ?_
    rcases List.mem_cons.mp member with rfl | lower
    · intro slot inside
      rw [(Array.mem_replicate.mp inside).2]
      trivial
    · exact own frame lower
  | popScope =>
    rw [opcode] at done
    obtain ⟨_, _, rfl⟩ := popScope_eq_ok done
    exact scripted.modify fun frames own frame member => own frame (List.mem_of_mem_tail member)
  | allocate type =>
    rw [opcode] at done
    obtain ⟨s, depth, index, slot, _, _, rfl⟩ := allocate_eq_ok done
    exact scripted_putSlot scripted depth index (by cases type <;> exact Value.noConfusion)
  | _ => simp [opcode, Opcode.isScoping] at scoping

-- No instruction lets a frame of the script share the host's cells.
theorem scripted_effect (scripted : Scripted c.scopes) (i : Instruction) :
    Promises (fun d : Core World => Scripted d.scopes) (c.effect i) := by
  intro d done
  cases c.effected i d done with
  | nothing | flags | pushed => exact scripted
  | assigned _ _ _ assigned => exact scripted_assign scripted _ _ d assigned
  | @popped p v rest d _ _ _ assigned =>
    have below : Scripted ({ c with stack := rest } : Core World).scopes := scripted
    exact scripted_assign below p v d assigned
  | rescoped scoping done => exact scripted_rescoped scripted scoping done

-- The slot that an operand addresses stands in the top frame of its depth.
theorem slotOf_frame {s : Slot} {depth index : Nat} {slot : FrameSlot}
    (found : c.slotOf s = .ok (depth, index, slot)) :
    depth = s.depth.toNat ∧ ∃ frame, c.frame? depth = some frame ∧ frame[index]? = some slot := by
  unfold slotOf at found
  split at found
  · cases found
  · split at found
    · cases found
    · rename_i frame top
      split at found
      · cases found
      · split at found
        · cases found
        · rename_i slot there
          cases found
          exact ⟨rfl, frame, top, there⟩

-- Where it is and what it holds does not depend on its type and name.
theorem slotOf_of_place {s t : Slot} {place : Nat × Nat × FrameSlot} (depth : s.depth = t.depth)
    (index : s.index = t.index) (found : c.slotOf s = .ok place) : c.slotOf t = .ok place := by
  unfold slotOf at found ⊢
  rw [← depth, ← index]
  cases top : c.frame? s.depth.toNat with
  | none => grind
  | some frame =>
    cases there : frame[s.index.toNat]? with
    | none => grind
    | some slot => grind

theorem locate_slot {s : Slot} (located : c.locate (.slot s) = .ok p) :
    ∃ depth index slot, c.slotOf s = .ok (depth, index, slot) ∧
      ((∃ w, slot = .held w ∧ p = .slot depth index) ∨ slot = .shared ∧ p = .host index) := by
  simp only [locate] at located
  cases found : c.slotOf s with
  | error f =>
    rw [found] at located
    cases located
  | ok place =>
    obtain ⟨depth, index, slot⟩ := place
    rw [found] at located
    cases slot with
    | empty => cases located
    | held w =>
      cases located
      exact ⟨depth, index, .held w, rfl, .inl ⟨w, rfl, rfl⟩⟩
    | shared =>
      cases located
      exact ⟨depth, index, .shared, rfl, .inr ⟨rfl, rfl⟩⟩

-- What a slot holds can be put there again.
theorem putSlot_self {depth index : Nat} {frame : ScopeFrame} {slot : FrameSlot}
    (top : c.frame? depth = some frame) (there : frame[index]? = some slot) :
    c.putSlot depth index slot = c := by
  have same : (c.putSlot depth index slot).scopes = c.scopes := by
    refine Array.ext_getElem? fun n => ?_
    simp only [putSlot, Array.getElem?_modify]
    split
    · rename_i here
      subst here
      simp only [frame?] at top
      cases found : c.scopes[depth]? with
      | none => rfl
      | some frames =>
        rw [found, Option.bind_some] at top
        obtain ⟨rest, rfl⟩ := List.head?_eq_some_iff.mp top
        have kept : frame.setIfInBounds index slot = frame := by
          refine Array.ext_getElem? fun k => ?_
          rw [Array.getElem?_setIfInBounds]
          grind
        simp only [Option.map_some, kept]
    · rfl
  exact congrArg (fun scopes => { c with scopes }) same

theorem setRegister_self {r : Register} :
    c.setRegister r ((c.registers.get? r).getD .null) = c := by
  obtain ⟨_ | _ | _ | n⟩ := r <;> rfl

theorem setRegister_setRegister {r : Register} {v w : Value} :
    (c.setRegister r v).setRegister r w = c.setRegister r w := by
  obtain ⟨_ | _ | _ | n⟩ := r <;> rfl

theorem setRegister_comm {r s : Register} {v w : Value} (apart : r ≠ s) :
    (c.setRegister r v).setRegister s w = (c.setRegister s w).setRegister r v := by
  obtain ⟨_ | _ | _ | n⟩ := r <;> obtain ⟨_ | _ | _ | m⟩ := s <;>
    first | rfl | exact absurd rfl apart

-- Assignments keep to their place.
theorem assign_stack (c : Core World) (stack : List (Option Value)) (p : Place) (v : Value) :
    assign { c with stack } p v = (c.assign p v).map fun d => { d with stack } := by
  cases p with
  | register r => rfl
  | slot depth index =>
    simp only [assign]
    change (Fault.lift ((c.read (.slot depth index)).store v)).bind _ = Except.map _ (Except.bind _ _)
    cases Fault.lift ((c.read (.slot depth index)).store v) <;> rfl
  | host index =>
    simp only [assign]
    cases c.cells[index]?.join with
    | none => rfl
    | some cell =>
      change (Fault.lift (cell.assign v)).bind _ = Except.map _ (Except.bind _ _)
      cases Fault.lift (cell.assign v) <;> rfl
  | constant w => rfl

theorem stack_of_assign (done : c.assign p v = .ok d) : d.stack = c.stack := by
  have same := assign_stack c c.stack p v
  rw [done] at same
  have kept : d = { d with stack := c.stack } := Except.ok.inj same
  have held := congrArg Core.stack kept
  exact held

theorem assign_setRegister {r : Register} (c : Core World) (apart : p ≠ .register r) (v w : Value) :
    (c.setRegister r w).assign p v = (c.assign p v).map (·.setRegister r w) := by
  cases p with
  | register s =>
    refine congrArg Except.ok (setRegister_comm fun same => apart ?_)
    rw [same]
  | slot depth index =>
    simp only [assign]
    change (Fault.lift ((c.read (.slot depth index)).store v)).bind _ = Except.map _ (Except.bind _ _)
    cases Fault.lift ((c.read (.slot depth index)).store v) <;> rfl
  | host index =>
    simp only [assign, setRegister_cells]
    cases c.cells[index]?.join with
    | none => rfl
    | some cell =>
      change (Fault.lift (cell.assign v)).bind _ = Except.map _ (Except.bind _ _)
      cases Fault.lift (cell.assign v) <;> rfl
  | constant w => rfl

end Core

-- The rules, one by one, from the same core on.
namespace Core

variable {c d : Core World} {known : Register → Prop} {flags : Prop} {r : Register}
  {rest others : List Instruction}

theorem Alike.of_invalid {i : Instruction} (failed : ∃ f, c.effect i = .error f ∧ f.Invalid) :
    Alike known flags (c.through (i :: rest)) (d.through others) := by
  obtain ⟨f, failed, invalid⟩ := failed
  rw [through_cons_of_error failed]
  exact .invalid invalid

-- The last instructions of two stretches.
theorem Alike.last {i j : Instruction} (cells : d.cells = c.cells) (world : d.world = c.world)
    (paired : Paired (Agrees known flags) (c.effect i) (d.effect j)) :
    Alike known flags (c.through [i]) (d.through [j]) := by
  cases first : c.effect i with
  | error f =>
    rw [first] at paired
    generalize second : d.effect j = result at paired
    cases paired
    rw [through_cons_of_error first, through_cons_of_error second]
    exact .error cells world
  | ok e =>
    rw [first] at paired
    generalize second : d.effect j = result at paired
    cases paired with
    | ok agrees =>
      rw [through_cons_of_ok first, through_cons_of_ok second]
      exact .ok agrees

theorem Alike.last_of_eq {i j : Instruction} (cells : d.cells = c.cells)
    (world : d.world = c.world) (same : c.effect i = d.effect j) :
    Alike known flags (c.through [i]) (d.through [j]) := by
  refine .last cells world ?_
  rw [same]
  cases d.effect j with
  | ok e => exact .ok (.refl known flags e)
  | error f => exact .error f

theorem locate_setRegister {o : Operand} {v : Value} : (c.setRegister r v).locate o = c.locate o :=
  locate_of_scopes rfl o

theorem resolve_setRegister {o : Operand} {v : Value} (other : o ≠ .register r) :
    (c.setRegister r v).resolve o = c.resolve o := by
  have agrees : Agrees (· ≠ r) True (c.setRegister r v) c := .of_setRegister (by simp)
  refine (agrees.resolve fun s is => ?_).symm
  rintro rfl
  exact other is

variable {i push move pop next load compute store : Instruction}

theorem alike_deadStore (moves : i.opcode = .move) (target : i.first = .register r)
    (unknown : ¬ known r) : Alike known flags (c.through [i]) (c.through []) := by
  rcases c.effect_of_move moves with failed | ⟨p, v, located, _, done⟩
  · exact .of_invalid failed
  · rw [target] at located
    cases eq_of_locate_register located
    rw [through_cons_of_ok done]
    exact .ok (.of_setRegister unknown)

theorem effect_move {a b : Operand} {p : Place} {v : Value} (target : c.locate a = .ok p)
    (source : c.resolve b = .ok v) : c.effect (.move a b) = c.assign p v := by
  change ((c.locate a).bind fun p => (c.resolve b).bind fun v => c.assign p v) = _
  rw [target, source]
  rfl

theorem locate_of_place {s t : Slot} {p : Place} (depth : s.depth = t.depth)
    (index : s.index = t.index) (located : c.locate (.slot s) = .ok p) :
    c.locate (.slot t) = .ok p := by
  obtain ⟨_, _, slot, found, held⟩ := locate_slot located
  have there := slotOf_of_place depth index found
  simp only [locate, there]
  rcases held with ⟨w, rfl, rfl⟩ | ⟨rfl, rfl⟩ <;> rfl

theorem locate_of_same {a b : Operand} {p : Place} (varies : a.isLiteral = false)
    (same : a.same b = true) (located : c.locate a = .ok p) : c.locate b = .ok p := by
  cases a with
  | register r => cases b <;> simp_all [Operand.same]
  | absent => cases located
  | slot s =>
    cases b with
    | slot t =>
      simp only [Operand.same, Bool.and_eq_true, beq_iff_eq] at same
      exact locate_of_place same.1.2 same.2 located
    | _ => cases same
  | _ => cases varies

-- A place of the script's own takes back what it holds.
theorem assign_read {a : Operand} {p : Place} (free : Rule.removable a = true)
    (scripted : Scripted c.scopes) (located : c.locate a = .ok p) :
    c.assign p (c.read p) = .ok c := by
  cases a with
  | register r =>
    cases eq_of_locate_register located
    exact congrArg Except.ok setRegister_self
  | slot s =>
    obtain ⟨depth, index, slot, found, held⟩ := locate_slot located
    obtain ⟨rfl, frame, top, there⟩ := slotOf_frame found
    have own : slot.Own := by
      obtain ⟨frames, present, first⟩ := Option.bind_eq_some_iff.mp top
      have inner : 0 < s.depth.toNat := by
        simp only [Rule.removable, decide_eq_true_eq] at free
        omega
      refine scripted _ frames inner present frame ?_ slot ?_
      · exact List.mem_of_mem_head? first
      · exact Array.mem_of_getElem? there
    rcases held with ⟨w, rfl, rfl⟩ | ⟨rfl, _⟩
    · have reads : c.read (.slot s.depth.toNat index) = w := by
        simp only [read, top, Option.bind_some, there]
      simp only [assign, reads, Value.store_self own]
      exact congrArg Except.ok (putSlot_self top there)
    · exact own.elim
  | _ => cases free

theorem alike_selfMove (moves : i.opcode = .move) (same : i.first.same i.second = true)
    (free : Rule.removable i.first = true) (scripted : Scripted c.scopes) :
    Alike known flags (c.through [i]) (c.through []) := by
  have varies : i.first.isLiteral = false := by
    cases target : i.first <;> simp [target, Rule.removable] at free <;> rfl
  rcases c.effect_of_move moves with failed | ⟨p, v, located, source, done⟩
  · exact .of_invalid failed
  · rw [resolve, locate_of_same varies same located] at source
    cases source
    rw [through_cons_of_ok (done.trans (assign_read free scripted located))]
    exact .ok (.refl known flags c)

-- A value that is pushed and popped arrives where it belongs.
theorem alike_pushPop (pushes : push.opcode = .push) (pops : pop.opcode = .pop) :
    Alike known flags (c.through [push, pop]) (c.through [.move pop.first push.first]) := by
  rcases c.effect_of_push pushes with failed | ⟨v, source, done⟩
  · exact .of_invalid failed
  · rw [through_cons_of_ok done]
    rcases effect_of_pop (c := { c with stack := some v :: c.stack }) pops rfl with
      failed | ⟨p, located, popped⟩
    · exact .of_invalid failed
    · have target : c.locate pop.first = .ok p :=
        (locate_of_scopes rfl pop.first).symm.trans located
      exact .last_of_eq rfl rfl (popped.trans (effect_move target source).symm)

-- The value is popped into another register than the one that is read in between.
theorem alike_pushMovePop (pushes : push.opcode = .push) (moves : move.opcode = .move)
    (pops : pop.opcode = .pop) (target : pop.first = .register r) (valid : r.index < Register.count)
    (unread : pop.first.same move.second = false) (unwritten : pop.first.same move.first = false) :
    Alike known flags (c.through [push, move, pop])
      (c.through [.move pop.first push.first, .move move.first move.second]) := by
  rcases c.effect_of_push pushes with failed | ⟨v, source, done⟩
  · exact .of_invalid failed
  · rw [through_cons_of_ok done]
    rcases effect_of_move (c := { c with stack := some v :: c.stack }) moves with
      failed | ⟨p, w, located, given, moved⟩
    · exact .of_invalid failed
    · have place : c.locate move.first = .ok p :=
        (locate_of_scopes rfl move.first).symm.trans located
      have value : c.resolve move.second = .ok w := given
      have known : c.locate pop.first = .ok (.register r) := by
        rw [target]
        exact if_pos valid
      have first : c.effect (.move pop.first push.first) = .ok (c.setRegister r v) :=
        effect_move known source
      rw [through_cons_of_ok first]
      have apart : p ≠ .register r := by
        rintro rfl
        rw [target, register_of_locate place, Instruction.same_register_iff.mpr rfl] at unwritten
        cases unwritten
      have other : move.second ≠ .register r := by
        intro is
        rw [target, is, Instruction.same_register_iff.mpr rfl] at unread
        cases unread
      have second : (c.setRegister r v).effect (.move move.first move.second) =
          (c.assign p w).map (·.setRegister r v) := by
        rw [effect_move (locate_setRegister.trans place) ((resolve_setRegister other).trans value),
          assign_setRegister c apart]
      rw [assign_stack] at moved
      cases stored : c.assign p w with
      | error f =>
        rw [stored] at moved second
        rw [through_cons_of_error moved, through_cons_of_error second]
        exact .error rfl rfl
      | ok d =>
        rw [stored] at moved second
        rw [through_cons_of_ok moved, through_cons_of_ok second]
        have back : ({ d with stack := some v :: c.stack } : Core World).locate pop.first =
            .ok (.register r) := by
          rw [target]
          exact if_pos valid
        have popped : effect pop { d with stack := some v :: c.stack } = .ok (d.setRegister r v) := by
          rw [effect_pop_eq pops rfl, back]
          change Except.ok ({ d with stack := c.stack }.setRegister r v) = _
          rw [← stack_of_assign stored]
        rw [through_cons_of_ok popped]
        exact .ok (.refl _ _ _)

theorem valid_of_locate {p : Place} (located : c.locate (.register r) = .ok p) :
    r.index < Register.count := by
  simp only [locate] at located
  split at located
  · assumption
  · cases located

theorem read_setRegister {v : Value} (valid : r.index < Register.count) :
    (c.setRegister r v).read (.register r) = v := by
  simp only [read, setRegister, Registers.get?_set_same valid, Option.getD_some]

-- What a constant is folded to can be written as a constant.
theorem ofValue_of_apply {op : UnaryOp} {v folded : Value} (fits : op.apply v = .ok folded)
    (proper : v.Proper) : Operand.ofValue folded = .literal folded := by
  cases op with
  | negate =>
    simp only [UnaryOp.apply, Value.negate] at fits
    split at fits
    · cases fits
    · split at fits
      · rename_i x _
        cases fits
        have finite : Number.isFinite (-x) = true := Number.isFinite_neg proper
        simp [Value.number, finite, Operand.ofValue]
      · cases fits
  | not =>
    simp only [UnaryOp.apply, Value.invert] at fits
    split at fits
    · cases fits
    · split at fits
      · cases fits
        rfl
      · cases fits

-- A constant is negated or inverted beforehand.
theorem alike_foldUnary {op : UnaryOp} {v folded : Value} (moves : move.opcode = .move)
    (constant : move.second = .literal v) (computes : next.opcode = .unary op)
    (register : move.first = .register r) (same : next.first = .register r)
    (fits : op.apply v = .ok folded) (proper : v.Proper) :
    Alike known flags (c.through [move, next]) (c.through [.move move.first (.ofValue folded)]) := by
  rcases c.effect_of_move moves with failed | ⟨p, w, located, source, done⟩
  · exact .of_invalid failed
  · rw [constant, resolve_literal] at source
    cases source
    have place := located
    rw [register] at located
    cases eq_of_locate_register located
    rw [through_cons_of_ok done]
    have written : (c.setRegister r v).effect next = .ok (c.setRegister r folded) := by
      rw [effect_unary_eq computes, same, locate_setRegister, located]
      change (Fault.lift (op.apply ((c.setRegister r v).read (.register r)))).bind _ = _
      rw [read_setRegister (valid_of_locate located), fits]
      exact congrArg Except.ok setRegister_setRegister
    have given : c.resolve (.ofValue folded) = .ok folded := by
      rw [ofValue_of_apply fits proper]
      rfl
    exact .last_of_eq rfl rfl (written.trans (effect_move place given).symm)

-- What is computed in a register and moved back can be computed in place.
theorem alike_foldBinary {op : BinaryOp} (loads : load.opcode = .move)
    (computes : compute.opcode = .binary op) (stores : store.opcode = .move)
    (register : load.first = .register r) (target : compute.first = .register r)
    (other : compute.second ≠ .register r) (varies : load.second.isLiteral = false)
    (back : store.first.same load.second = true) (result : store.second = .register r)
    (unknown : ¬ known r) :
    Alike known flags (c.through [load, compute, store])
      (c.through [.binary (.binary op) load.second compute.second]) := by
  rcases c.effect_of_move loads with failed | ⟨p, a, located, source, done⟩
  · exact .of_invalid failed
  · rw [register] at located
    cases eq_of_locate_register located
    rw [through_cons_of_ok done]
    have valid := valid_of_locate located
    obtain ⟨q, origin, rfl⟩ : ∃ q, c.locate load.second = .ok q ∧ c.read q = a := by
      cases found : c.locate load.second with
      | error f =>
        rw [resolve, found] at source
        cases source
      | ok q =>
        rw [resolve, found] at source
        exact ⟨q, rfl, Except.ok.inj source⟩
    rcases effect_of_binary (c := c.setRegister r (c.read q)) computes with
      failed | ⟨p, b, there, given, computed⟩
    · exact .of_invalid failed
    · rw [locate_setRegister, target] at there
      cases eq_of_locate_register there
      rw [resolve_setRegister other] at given
      rw [read_setRegister valid] at computed
      have direct : c.effect (.binary (.binary op) load.second compute.second) =
          (Fault.lift (op.apply (c.read q) b)).bind (c.assign q) := by
        rw [effect_binary_eq rfl]
        change ((c.locate load.second).bind fun p => (c.resolve compute.second).bind _) = _
        rw [origin, given]
        rfl
      cases outcome : op.apply (c.read q) b with
      | error f =>
        rw [outcome] at computed direct
        rw [through_cons_of_error computed, through_cons_of_error direct]
        exact .error rfl rfl
      | ok w =>
        rw [outcome] at computed direct
        have stored : (c.setRegister r (c.read q)).effect compute = .ok (c.setRegister r w) :=
          computed.trans (congrArg Except.ok setRegister_setRegister)
        rw [through_cons_of_ok stored]
        rcases effect_of_move (c := c.setRegister r w) stores with
          failed | ⟨p, u, goal, value, moved⟩
        · exact .of_invalid failed
        · rw [locate_setRegister] at goal
          have varies' : store.first.isLiteral = false := by
            cases first : store.first <;> cases second : load.second <;>
              simp_all [Operand.same, Operand.isLiteral]
          cases origin.symm.trans (locate_of_same varies' back goal)
          rw [result, resolve, locate_setRegister, located] at value
          change Except.ok ((c.setRegister r w).read (.register r)) = _ at value
          rw [read_setRegister valid] at value
          cases value
          refine .last rfl rfl ?_
          rw [moved, direct]
          have agrees : Agrees known flags (c.setRegister r w) c := .of_setRegister unknown
          exact (agrees.assign q w).mono fun _ _ both => both.mono (fun _ => .inl) id

-- Who reads a register right after a value was moved there can read the value where it came from.
theorem alike_propagate (moves : move.opcode = .move) (register : move.first = .register r)
    (keeps : next.writes (.register r) = false) (unknown : ¬ known r) :
    Alike known flags (c.through [move, next])
      (c.through [Rule.substitute next (.register r) move.second]) := by
  rcases c.effect_of_move moves with failed | ⟨p, v, located, source, done⟩
  · exact .of_invalid failed
  · rw [register] at located
    cases eq_of_locate_register located
    rw [through_cons_of_ok done]
    have moved : (c.setRegister r v).resolve (.register r) = .ok v := by
      rw [resolve, locate_setRegister, located]
      exact congrArg Except.ok (read_setRegister (valid_of_locate located))
    have agrees : Agrees (· ≠ r) True (c.setRegister r v) c := .of_setRegister (by simp)
    -- what is read is the source itself, or is not the register
    have given {o new : Operand} (uses : Prop) [Decidable uses]
        (is : uses → new = if uses ∧ o.same (.register r) = true then move.second else o) :
        uses → c.resolve new = (c.setRegister r v).resolve o := by
      intro reads
      rw [is reads]
      split
      · rename_i same
        rw [Instruction.same_register_iff.mp same.2, moved, source]
      · rename_i other
        rw [resolve_setRegister]
        rintro rfl
        exact other ⟨reads, Instruction.same_register_iff.mpr rfl⟩
    have supplied : Supplied (c.setRegister r v) c next
        (Rule.substitute next (.register r) move.second) :=
      ⟨rfl, given _ fun _ => Rule.first_substitute, given _ fun _ => Rule.second_substitute,
        Rule.first_substitute_of_writes keeps⟩
    refine .last rfl rfl ((agrees.effect supplied fun _ => trivial).mono fun d e both => ?_)
    refine both.mono (fun s is => .inl ?_) fun _ => .inl trivial
    rintro rfl
    exact unknown is

end Core

-- A rule puts in the place of a window what does the same, unless the window jumps or exits.
theorem Rule.Applies.through_alike {f : Flow} {place : Nat} {rule : Rule} {window others : List Instruction}
    {c : Core World} {known : Register → Prop} {flags : Prop}
    (applies : rule.Applies f place window others)
    (work : ∀ i ∈ window, i.opcode.isWork = true) (scripted : Scripted c.scopes)
    (sound : ∀ i ∈ window, i.Sound) (greeted : window.IsChain Instruction.Greets)
    (unknown : ∀ r, f.registerDead (place + window.length) (.register r) = true → ¬ known r) :
    Core.Alike known flags (c.through window) (c.through others) := by
  cases applies with
  | selfMove move same free => exact Core.alike_selfMove move same free scripted
  | deadStore move register dead =>
    obtain ⟨r, is⟩ := Operand.exists_register register
    exact Core.alike_deadStore move is (unknown r (is ▸ dead))
  | pushPop pushes pops => exact Core.alike_pushPop pushes pops
  | @pushMovePop push move pop pushes moves pops unread unwritten =>
    have received := (List.isChain_cons_cons.mp (List.isChain_cons_cons.mp greeted).2).1
    have register : pop.first.isRegister = true := by
      by_contra other
      refine received.not_receives (by simp [moves])
        (Instruction.not_receives_of_opcode (by simp [moves])) ⟨pops, ?_⟩
      exact Bool.not_eq_true _ ▸ other
    obtain ⟨r, is⟩ := Operand.exists_register register
    have valid := (sound pop (by simp)).first
    rw [is] at valid
    exact Core.alike_pushMovePop pushes moves pops is valid unread unwritten
  | foldUnary moves constant computes register same known =>
    obtain ⟨r, is⟩ := Operand.exists_register register
    rw [is, Instruction.same_register_iff] at same
    have proper := (sound _ List.mem_cons_self).second
    rw [constant] at proper
    exact Core.alike_foldUnary moves constant computes is same known proper
  | foldBinary loads computes stores register varies other target back result dead =>
    obtain ⟨r, is⟩ := Operand.exists_register register
    rw [is] at other target result dead
    refine Core.alike_foldBinary loads computes stores is (Instruction.same_register_iff.mp target)
      ?_ varies back (Instruction.same_register_iff.mp result) (unknown r dead)
    intro same
    rw [Instruction.same_register_iff.mpr same] at other
    cases other
  | propagate moves register reads keeps dead =>
    obtain ⟨r, is⟩ := Operand.exists_register register
    rw [is] at keeps dead
    exact is ▸ Core.alike_propagate moves is keeps (unknown r dead)
  | @fuseBranch set test jump _ _ _ _ _ _ fused =>
    obtain ⟨⟨condition, jumps⟩, _⟩ := Rule.fusedJump?_eq_some fused
    have works := work jump (by simp)
    rw [jumps] at works
    cases works

end ScalarScript
