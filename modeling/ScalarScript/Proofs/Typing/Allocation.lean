import ScalarScript.Proofs.Typing.Lexical
/-!
Variables are allocated before they are used. Where a name is in sight its declaration was executed
in the same frame, unless the declaration stands without braces of its own in a branch, or in the
body of a loop that may not run at all: such a name stays in sight where control may have passed
its declaration over.
-/
namespace ScalarScript

open Symbolic
open Linked (At)

variable {World Watch : Type}

-- A variable whose declaration was executed in the frame that its operand leads to.
def AllocatedIn (s : RunState World Watch) (lineage : Lineage) (o : Slot) : Prop :=
  ∃ x ∈ lineage, ∃ (i : Nat) (v : Value), OnTop s x ∧ (x.depth : Int) = o.depth ∧
    (i : Int) = o.index ∧ (i : Int) ∈ x.allocated ∧ s.slotOf o = .ok (x.depth, i, .held v)

-- What holds of a state that a run reaches, given the trail up to there.
structure AllocatedFirst (m : Machine World Watch) (code : List Instruction)
    (passed : List Symbol) (s : RunState World Watch) (g : Trail) : Prop where
  -- a variable that an instruction reads or writes is there, or was passed over
  operands : ∀ i o, instructionAt code s.address = some i → i.opcode ≠ .debugLine →
    (∀ type, i.opcode ≠ .allocate type) → i.first = .slot o ∨ i.second = .slot o → o.depth ≠ 0 →
    (∃ v ∈ passed, .slot o = v.operand) ∨
      ∃ lineage rest, g.lineages = lineage :: rest ∧ AllocatedIn s lineage o
  faults : ∀ e u, Exec.step m s = .error e u →
    ∃ (w : RunState World Watch) (f : RuntimeFault), e = w.error f ∧
      ∀ o, f = .unallocated o → ∃ v ∈ passed, o = v.operand

section

variable {Γ : Plan} {registers : Nat → Bool} {lineage : Lineage} {lineages : List Lineage}
  {chain : Chain} {ready : Ready}

-- The slot of a variable holds a value, as its declaration was executed.
theorem Memory.SlotOf.allocated {c : Core World} {v : Symbol} {x : Instance} {i : Nat} {l : Local}
    {f : ScopeFrame} {fs : List ScopeFrame}
    (slot : Memory.SlotOf lineage lineages chain c v x i l f fs) (knows : lineage.Knows ready)
    (inScope : v.depth ≤ chain.length) (sure : v ∈ ready) :
    (i : Int) ∈ x.allocated ∧ ∃ w, f[i]? = some (.held w) := by
  have depth : x.depth = v.depth := by
    rw [Instance.depth, slot.declares, Chain.length_outer inScope]
  have declared : (i : Int) ∈ x.allocated := by
    rw [← slot.index]
    exact knows v sure x slot.member depth
  obtain ⟨held, found⟩ := slot.present
  rcases slot.ok.2 i held found with ⟨_, absent⟩ | ⟨_, _, w, _, rfl, _⟩
  · exact absurd declared absent
  · exact ⟨declared, w, found⟩

end

section

variable {m : Machine World Watch} {code : List Instruction} {t : Stmt} {hosts : List Declaration}
  {exitType : Option Ty} {depths : Nat} {registers : Nat → Bool} {trusted : Prop}
  {s : RunState World Watch} {g : Trail}

-- Where a checked instruction uses a variable, that is known of the variables in the shape.
theorem Check.used {Γ : Plan} {υ σ : Shape} {i : Instruction} {rest : List Instruction} {o : Slot}
    (checked : Check Γ υ σ (i :: rest)) (use : ∀ type, i.opcode ≠ .allocate type)
    (here : i.first = .slot o ∨ i.second = .slot o) :
    σ.inside = true ∧ ∃ v : Symbol, .slot o = v.operand ∧ v.isFunction = false ∧
      v.Fits Γ.outline σ.chain σ.ready := by
  cases checked with
  | load inside source later =>
    cases source with
    | constant v plain => cases v <;> rcases here with first | second <;> first | cases first | cases second
    | var v plain fits =>
      rcases here with first | second
      · cases first
      · exact ⟨inside, v, second.symm, plain, fits⟩
  | store inside plain fits given into later | receive inside plain fits given into later =>
    rcases here with first | second
    · exact ⟨inside, _, first.symm, plain, fits⟩
    · cases second
  | @allocate _ v type _ inside typed depth inner inLayout later => exact absurd rfl (use type)
  | _ => rcases here with first | second <;> first | cases first | cases second

theorem Situated.allocated {i : Instruction} {o : Slot}
    (situated : Situated code t hosts exitType depths registers trusted s g)
    (executed : instructionAt code s.address = some i) (active : i.opcode ≠ .debugLine)
    (use : ∀ type, i.opcode ≠ .allocate type) (here : i.first = .slot o ∨ i.second = .slot o)
    (script : o.depth ≠ 0) :
    (∃ v ∈ t.passed false, .slot o = v.operand) ∨
      ∃ lineage rest, g.lineages = lineage :: rest ∧ AllocatedIn s lineage o := by
  rcases situated.instruction executed active with rfl | ⟨k, σ, rest, at_, typed⟩
  · rcases here with first | second
    · cases first
    · cases second
  obtain ⟨inside, v, operand, plain, fits⟩ := typed.checked.used use here
  obtain ⟨lineage, lineages, same, of, framed, knows, memory⟩ := typed.sound.running inside
  rw [← at_.core] at memory
  have leads := operand
  simp only [Symbol.operand, Operand.slot.injEq] at leads
  have inner : v.depth ≠ 0 := by
    rintro outer
    rw [leads, outer] at script
    exact script rfl
  rw [Symbol.Fits, if_neg inner, if_neg (by simp [plain])] at fits
  obtain ⟨inScope, inLayout, sure⟩ := fits
  rcases sure with sure | passed
  · right
    obtain ⟨x, i, l, f, fs, slot⟩ :=
      memory.slot of framed (typed.sound.deep inside) inner inScope inLayout
    obtain ⟨declared, w, held⟩ := slot.allocated knows inScope sure
    have depth : x.depth = v.depth := by
      rw [Instance.depth, slot.declares, Chain.length_outer inScope]
    have found : s.slotOf o = .ok (x.depth, i, .held w) := by
      rw [leads, depth, slot.index]
      exact Core.slotOf_operand v.type v.name slot.top held
    exact ⟨lineage, lineages, same, x, slot.member, i, w,
      ⟨f, fs, depth ▸ slot.top, slot.height, slot.ok.1⟩, by rw [leads, depth],
      by rw [leads, slot.index], declared, found⟩
  · exact .inl ⟨v, passed, operand⟩

theorem Situated.allocatedFirst (hosted : Hosted m code t hosts exitType depths registers trusted)
    (situated : Situated code t hosts exitType depths registers trusted s g) :
    AllocatedFirst m code (t.passed false) s g := by
  refine ⟨?_, ?_⟩
  · intro i o executed active use here script
    exact situated.allocated executed active use here script
  · intro e u failed
    have step := situated.step hosted
    rw [failed] at step
    cases step with
    | @fault f _ w possible =>
      refine ⟨w, f, rfl, ?_⟩
      rintro o rfl
      exact possible

end

-- In every state that a run of an accepted source reaches, variables are allocated before they are
-- used, but for those that may have been passed over.
theorem Accepted.allocated_first {bindings : List (Binding World)} {source exitName : String}
    {bound : Bound World} {exitType : Option Ty} {p : Program} {m : Machine World Watch}
    (accepted : Accepted bindings source exitName bound exitType p) (loads : m.Loads bound p) :
    ∃ tokens t depths, tokenize source = .ok tokens ∧
      Compiled tokens bound.declarations exitType p t depths ∧
      ∀ first : RunState World Watch, bound.Starts first →
        (∀ s, Reaches m first s → ∃ g,
          Traced m (t.outline bound.declarations exitType depths).functions p.code.toList first
            t.trail s g) ∧
        ∀ s g, Traced m (t.outline bound.declarations exitType depths).functions p.code.toList
            first t.trail s g →
          AllocatedFirst m p.code.toList (t.passed false) s g := by
  obtain ⟨tokens, t, depths, read, compiled⟩ := accepted.tree
  have hosted := accepted.hosted compiled loads fun trust : False => trust.elim
  refine ⟨tokens, t, depths, read, compiled, ?_⟩
  intro first starts
  have start := accepted.situated hosted starts
  exact ⟨fun s reached => Traced.start.of_reaches reached,
    fun s g traced => (traced.situated hosted start).allocatedFirst hosted⟩

theorem Sample.allocates_first :
    (Sample.after 9).calls.length = 1 ∧ ∃ (t : Stmt) (g : Trail),
      AllocatedFirst Sample.machine Sample.program.code.toList (t.passed false) (Sample.after 9)
        g := by
  obtain ⟨_, t, _, _, _, runs⟩ := Accepted.allocated_first Sample.accepted Sample.loads
  obtain ⟨g, traced⟩ := (runs Sample.first Sample.starts).1 _ (Sample.reaches_after 9)
  exact ⟨Sample.within_call.1.2, t, g, (runs Sample.first Sample.starts).2 _ _ traced⟩

-- A program that passes a declaration over and uses the variable.
namespace PassedOver

def source : String := "if (false) double a = 1; a = 2; exit a;"

def bound : Bound Unit where
  declarations := []
  externals := []
  cells := []

def program : Program :=
  (compileTokens ((tokenize source).toOption.getD []) bound.declarations none).program

def machine : Machine Unit Unit where
  code := ((link program).toOption.map (·.1.code)).getD #[]

def first : RunState Unit Unit := Machine.start ⟨#[], (), (), []⟩ .background

-- What a run of twenty steps fails with.
def failure : Option (Code × String) :=
  match machine.runFrom 20 first with
  | some (.error e, _) => some (e.code, e.message)
  | _ => none

theorem computed :
    (tokenize source).isOk = true ∧
      (compileTokens ((tokenize source).toOption.getD []) bound.declarations none).error.isNone =
        true ∧
      (link program).isOk = true ∧
      failure = some (.invalidOperation, "variable a(double@1:0) used before allocation") := by
  decide +kernel

theorem accepted : Accepted [] source "" bound none program :=
  Accepted.of_checks rfl computed.1 computed.2.1

theorem loads : machine.Loads bound program :=
  .of_linkable computed.2.2.1 (by simp only [machine]) rfl

theorem starts : bound.Starts first := ⟨(), (), .background, rfl⟩

end PassedOver

-- Without braces, a declaration that was passed over leaves its name in sight.
theorem unallocated_in_sight :
    Accepted [] PassedOver.source "" PassedOver.bound none PassedOver.program ∧
      PassedOver.machine.Loads PassedOver.bound PassedOver.program ∧
      PassedOver.bound.Starts PassedOver.first ∧
      ∃ (e : RuntimeError) (final : RunState Unit Unit),
        PassedOver.machine.runFrom 20 PassedOver.first = some (.error e, final) ∧
          e.code = .invalidOperation ∧
          e.message = "variable a(double@1:0) used before allocation" := by
  refine ⟨PassedOver.accepted, PassedOver.loads, PassedOver.starts, ?_⟩
  obtain ⟨-, -, -, failed⟩ := PassedOver.computed
  unfold PassedOver.failure at failed
  split at failed
  · rename_i e final ran
    obtain ⟨code, message⟩ := Prod.mk.inj (Option.some.inj failed)
    exact ⟨e, final, ran, code, message⟩
  · cases failed

end ScalarScript
