import ScalarScript.Proofs.Typing.State
/-!
Variables of a checked program: where their operands lead, what is read there, and that what is
written keeps the memory as it should be.
-/
namespace ScalarScript

open Compile (eax ebx)
open Symbolic

variable {World : Type}

-- Faults that a checked program can come to. It never loses its way among frames, stack and calls;
-- a variable that is not there yet is one that may have been passed over; and where the host keeps
-- to its declarations, nothing complains about types.
def RuntimeFault.Possible (Γ : Plan) : RuntimeFault → Prop
  | .operandDepth .. | .scopeDepth _ | .noSlot _ | .noFrame _ | .emptyStack | .emptyCalls
  | .missingArguments .. | .blankPlace => False
  | .unallocated o => ∃ s ∈ Γ.outline.passed, o = s.operand
  | f => Γ.trusted → f.code ≠ .typeError

theorem RuntimeFault.possible_value {Γ : Plan} {f : Fault} (kind : Γ.trusted → f.kind ≠ .type) :
    (RuntimeFault.value f).Possible Γ := by
  change Γ.trusted → (RuntimeFault.value f).code ≠ .typeError
  intro trust
  have other := kind trust
  cases f <;> simp_all [Fault.kind, code, Code.constantAssignment, Code.nullOperand,
    Code.invalidOperation, Code.typeError]

-- Where the operand of a variable leads.
inductive Located (Γ : Plan) (registers : Nat → Bool) (lineages : List Lineage) (c : Core World)
    (s : Symbol) : Except RuntimeFault Place → Prop where
  | unallocated (passed : s ∈ Γ.outline.passed) :
      Located Γ registers lineages c s (.error (.unallocated s.operand))
  | slot {x : Instance} {i : Nat} {l : Local} {f : ScopeFrame} {fs : List ScopeFrame} {v : Value}
      (inner : s.depth ≠ 0) (first : (atDepth s.depth lineages).head? = some x)
      (known : x.layout[i]? = some l) (allocated : (i : Int) ∈ x.allocated)
      (same : s.type = l.type.ty) (top : c.scopes[s.depth]? = some (f :: fs))
      (held : f[i]? = some (.held v)) (fits : v.type = l.type.ty) :
      Located Γ registers lineages c s (.ok (.slot s.depth i))
  | host {i : Nat} {d : Declaration} {cell : Cell} (declared : Γ.outline.hosts[i]? = some d)
      (same : d.type = s.type) (plain : d.type ≠ .function)
      (present : c.cells[i]? = some (some cell)) (ok : CellOk Γ.trusted d.type (registers i) cell) :
      Located Γ registers lineages c s (.ok (.host i))

section

variable {Γ : Plan} {registers : Nat → Bool} {lineage : Lineage} {lineages : List Lineage}
  {c : Core World} {chain : Chain} {ready : Ready} {s : Symbol}

theorem Lineage.Framed.layout {x : Instance} {parents : Lineage}
    (framed : Lineage.Framed (x :: parents)) : x.layout ≠ [] → x.frame.isSome = true := by
  intro held
  unfold Instance.layout at held
  cases first : x.chain.head? with
  | none => simp [first] at held
  | some body =>
    refine framed x rfl body first (.inr ?_)
    simpa [first] using held

-- The slot of a variable of a script, in the frame of the body that declares it.
structure Memory.SlotOf (lineage : Lineage) (lineages : List Lineage) (chain : Chain)
    (c : Core World) (s : Symbol) (x : Instance) (i : Nat) (l : Local) (f : ScopeFrame)
    (fs : List ScopeFrame) : Prop where
  member : x ∈ lineage
  declares : x.chain = chain.outer s.depth
  first : (atDepth s.depth (lineage :: lineages)).head? = some x
  index : s.index = i
  known : x.layout[i]? = some l
  named : s.name = l.name
  typed : s.type = l.type.ty
  top : c.scopes[s.depth]? = some (f :: fs)
  ok : FrameOk x.layout x.allocated f
  height : x.frame = some fs.length

theorem Memory.slot (memory : Memory Γ registers (lineage :: lineages) c)
    (of : Lineage.Of chain lineage) (framed : lineage.Framed)
    (deep : chain.length ≤ Γ.outline.depths) (inner : s.depth ≠ 0) (inside : s.depth ≤ chain.length)
    (inLayout : s.InLayout chain) :
    ∃ x i l f fs, Memory.SlotOf lineage lineages chain c s x i l f fs := by
  obtain ⟨body, i, l, here, index, known, named, typed⟩ := inLayout
  obtain ⟨x, member, declares, depth, layout⟩ := of.at_depth inside here
  have held : x.layout ≠ [] := by
    rw [layout]
    intro none
    simp [none] at known
  cases lineage with
  | nil => cases member
  | cons y parents =>
    have first := memory.linked.top of framed.layout member held
    rw [depth] at first
    have bound : s.depth < c.scopes.size := by
      rw [memory.size]
      omega
    obtain ⟨f, fs, top, height, ok⟩ := memory.frames.top (Nat.pos_of_ne_zero inner) bound first
    exact ⟨x, i, l, f, fs, member, declares, first, index, layout ▸ known, named, typed, top, ok,
      height⟩

theorem Memory.SlotOf.present {x : Instance} {i : Nat} {l : Local} {f : ScopeFrame}
    {fs : List ScopeFrame} (slot : Memory.SlotOf lineage lineages chain c s x i l f fs) :
    ∃ held, f[i]? = some held := by
  have small : i < f.size := by
    rw [slot.ok.1]
    exact (List.getElem?_eq_some_iff.mp slot.known).1
  exact ⟨f[i], Array.getElem?_eq_getElem small⟩

theorem Core.slotOf_operand (type : Ty) (name : String) {depth i : Nat} {f : ScopeFrame}
    {fs : List ScopeFrame} {slot : FrameSlot} (top : c.scopes[depth]? = some (f :: fs))
    (found : f[i]? = some slot) : c.slotOf ⟨type, depth, i, name⟩ = .ok (depth, i, slot) := by
  have bound : depth < c.scopes.size := (Array.getElem?_eq_some_iff.mp top).1
  have inside : ¬ ((depth : Int) < 0 || (c.scopes.size : Int) ≤ depth) = true := by
    simp only [Bool.or_eq_true, decide_eq_true_eq]
    omega
  have frame : c.frame? depth = some f := by simp [Core.frame?, top]
  have index : ¬ (i : Int) < 0 := by omega
  simp only [Core.slotOf, if_neg inside, if_neg index, Int.toNat_natCast, frame, found]

theorem Memory.located (memory : Memory Γ registers (lineage :: lineages) c)
    (of : Lineage.Of chain lineage) (framed : lineage.Framed) (knows : lineage.Knows ready)
    (deep : chain.length ≤ Γ.outline.depths) (plain : s.isFunction = false)
    (fits : s.Fits Γ.outline chain ready) :
    Located Γ registers (lineage :: lineages) c s (c.locate s.operand) := by
  unfold Symbol.Fits at fits
  split at fits
  · rename_i outer
    obtain ⟨i, d, index, declared, same, _⟩ := fits
    have held : d.type ≠ .function := by
      rw [same]
      simpa [Symbol.isFunction] using plain
    obtain ⟨frame, top, shared⟩ := memory.host
    obtain ⟨cell, present, ok⟩ := memory.cells i d declared held
    have slot := Core.slotOf_operand s.type s.name top (shared i d declared held)
    have located : c.locate s.operand = .ok (.host i) := by
      rw [Symbol.operand, outer, index]
      simp only [Core.locate, slot]
      rfl
    rw [located]
    exact .host declared same held present ok
  · rename_i inner
    obtain ⟨inside, leads⟩ := fits
    rw [if_neg (by simp [plain])] at leads
    obtain ⟨inLayout, sure⟩ := leads
    obtain ⟨x, i, l, f, fs, slot⟩ := memory.slot of framed deep inner inside inLayout
    obtain ⟨held, found⟩ := slot.present
    have here := Core.slotOf_operand s.type s.name slot.top found
    rcases slot.ok.2 i held found with ⟨rfl, absent⟩ | ⟨allocated, l', v, known, rfl, fits⟩
    · have located : c.locate s.operand = .error (.unallocated s.operand) := by
        rw [Symbol.operand, slot.index]
        simp only [Core.locate, here]
        rfl
      rw [located]
      refine .unallocated (sure.resolve_left fun certain => absent ?_)
      rw [← slot.index]
      refine knows s certain x slot.member ?_
      rw [Instance.depth, slot.declares, Chain.length_outer inside]
    · have located : c.locate s.operand = .ok (.slot s.depth i) := by
        rw [Symbol.operand, slot.index]
        simp only [Core.locate, here]
        rfl
      rw [located]
      rw [slot.known] at known
      cases known
      exact .slot inner slot.first slot.known allocated slot.typed slot.top found fits

-- What is read from a variable is of its type.
theorem Located.read {p : Place} (located : Located Γ registers lineages c s (.ok p)) :
    Γ.Fits (c.read p) s.type := by
  cases located with
  | slot inner first known allocated same top held fits =>
    refine fun _ => .inr ?_
    simp [Core.read, Core.frame?, top, held, fits, same]
  | host declared same plain present ok =>
    intro trust
    rw [← same]
    simpa [Core.read, present] using ok.fits trust

theorem Located.resolve {v : Value}
    (located : Located Γ registers lineages c s (c.locate s.operand))
    (done : c.resolve s.operand = .ok v) : Γ.Fits v s.type := by
  unfold Core.resolve at done
  cases place : c.locate s.operand with
  | error f => simp [place, Except.map] at done
  | ok p =>
    rw [place] at located done
    cases done
    exact located.read

theorem Located.fault {f : RuntimeFault} (located : Located Γ registers lineages c s (.error f)) :
    f.Possible Γ := by
  cases located with
  | unallocated passed => exact ⟨s, passed, rfl⟩

-- Values written to slots keep the frames, whatever they are.
theorem Memory.putSlot {depth i : Nat} {x : Instance} {l : Local} {v : Value}
    (memory : Memory Γ registers lineages c) (first : (atDepth depth lineages).head? = some x)
    (inner : depth ≠ 0) (known : x.layout[i]? = some l) (allocated : (i : Int) ∈ x.allocated)
    (fits : v.type = l.type.ty) :
    Memory Γ registers lineages (c.putSlot depth i (.held v)) := by
  refine ⟨memory.linked, memory.frames.put first known allocated fits, ?_, ?_, memory.cells⟩
  · simpa [Core.putSlot] using memory.size
  · obtain ⟨frame, top, shared⟩ := memory.host
    refine ⟨frame, ?_, shared⟩
    simp only [Core.putSlot, Array.getElem?_modify, inner, if_false, top]

-- What may be written to a variable keeps the memory.
theorem Memory.assign {p : Place} {v : Value} {d : Core World}
    (memory : Memory Γ registers lineages c) (located : Located Γ registers lineages c s (.ok p))
    (fits : Γ.Fits v s.type) (done : c.assign p v = .ok d) :
    Memory Γ registers lineages d ∧ d.registers = c.registers ∧ d.flags = c.flags ∧
      d.stack = c.stack := by
  cases located with
  | @slot x i l f fs old inner first known allocated same top held typed =>
    have here : c.read (.slot s.depth i) = old := by simp [Core.read, Core.frame?, top, held]
    cases stored : old.store v with
    | error e => simp [Core.assign, here, stored, Core.lift_error, bind, Except.bind] at done
    | ok w =>
      simp only [Core.assign, here, stored, Core.lift_ok, bind, Except.bind, pure,
        Except.pure, Except.ok.injEq] at done
      rw [← done]
      exact ⟨memory.putSlot first inner known allocated ((Value.store_type stored).trans typed), rfl,
        rfl, rfl⟩
  | @host i h cell declared same plain present ok =>
    cases assigned : cell.assign v with
    | error e =>
      simp [Core.assign, present, assigned, Core.lift_error, bind, Except.bind] at done
    | ok new =>
      simp only [Core.assign, present, Option.join_some, assigned, Core.lift_ok, bind,
        Except.bind, pure, Except.pure, Except.ok.injEq] at done
      rw [← done]
      refine ⟨⟨memory.linked, memory.frames, memory.size, memory.host, ?_⟩, rfl, rfl, rfl⟩
      refine memory.cells.set ?_
      intro d' declared' held
      rw [declared] at declared'
      cases declared'
      exact ok.assign (fun trust _ => same ▸ fits trust) assigned

theorem Located.assign_fault {p : Place} {v : Value} {f : RuntimeFault}
    (located : Located Γ registers lineages c s (.ok p)) (fits : Γ.Fits v s.type)
    (failed : c.assign p v = .error f) : f.Possible Γ := by
  cases located with
  | @slot x i l frame fs old inner first known allocated same top held typed =>
    have here : c.read (.slot s.depth i) = old := by simp [Core.read, Core.frame?, top, held]
    cases stored : old.store v with
    | ok w => simp [Core.assign, here, stored, Core.lift_ok, bind, Except.bind, pure,
        Except.pure] at failed
    | error e =>
      simp only [Core.assign, here, stored, Core.lift_error, bind, Except.bind,
        Except.error.injEq] at failed
      rw [← failed]
      exact RuntimeFault.possible_value fun trust =>
        Value.store_fault (by rw [typed, ← same]; exact fits trust) stored
  | @host i h cell declared same plain present ok =>
    cases assigned : cell.assign v with
    | ok new =>
      simp [Core.assign, present, assigned, Core.lift_ok, bind, Except.bind, pure,
        Except.pure] at failed
    | error e =>
      simp only [Core.assign, present, Option.join_some, assigned, Core.lift_error, bind,
        Except.bind, Except.error.injEq] at failed
      rw [← failed]
      exact RuntimeFault.possible_value fun trust => ok.assign_fault (same ▸ fits trust) assigned

-- A variable is allocated in the frame of the innermost body.
theorem Memory.allocate {t : Scalar} (memory : Memory Γ registers (lineage :: lineages) c)
    (of : Lineage.Of chain lineage) (framed : lineage.Framed)
    (deep : chain.length ≤ Γ.outline.depths) (inner : s.depth ≠ 0) (depth : s.depth = chain.length)
    (inLayout : s.InLayout chain) (typed : s.type = t.ty) :
    ∃ d, c.allocate t s.operand = .ok d ∧
      Memory Γ registers (Trail.allocate s.index (lineage :: lineages)) d ∧
      d.registers = c.registers ∧ d.flags = c.flags ∧ d.stack = c.stack := by
  obtain ⟨x, i, l, f, fs, slot⟩ := memory.slot of framed deep inner depth.le inLayout
  obtain ⟨held, found⟩ := slot.present
  have here := Core.slotOf_operand s.type s.name slot.top found
  have fits : (Value.nullOf t.ty).type = l.type.ty := by
    rw [Value.type_nullOf, ← typed, slot.typed]
  refine ⟨c.putSlot s.depth i (.held (.nullOf t.ty)), ?_, ?_, rfl, rfl, rfl⟩
  · rw [Symbol.operand, slot.index]
    simp only [Core.allocate, here]
    rfl
  · cases lineage with
    | nil => cases slot.member
    | cons y parents =>
      have same : x.depth = chain.length := by
        rw [Instance.depth, slot.declares, Chain.length_outer depth.le, depth]
      obtain rfl := of.head_of_depth slot.member same
      have present : x.frame.isSome = true := by rw [slot.height]; rfl
      rw [slot.index]
      refine ⟨memory.linked, ?_, by simpa [Core.putSlot] using memory.size, ?_, memory.cells⟩
      · rw [Core.putSlot, depth, ← same]
        exact memory.frames.allocate present slot.known fits
      · obtain ⟨frame, top, shared⟩ := memory.host
        refine ⟨frame, ?_, shared⟩
        simp only [Core.putSlot, Array.getElem?_modify, inner, if_false, top]

end

end ScalarScript
