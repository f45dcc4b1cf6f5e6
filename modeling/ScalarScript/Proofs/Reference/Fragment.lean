import ScalarScript.Proofs.Reference.Machine
/-!
Code that the compiler emits for an expression, inside any linked program: from wherever the machine
stands in front of it, it computes what the expression evaluates to.
-/
namespace ScalarScript

open Symbolic Linked

variable {World Watch : Type}

namespace Linked

-- The address is that of some code, labels and line markers apart.
def Ahead (code : List Instruction) (address : Int) (post : List Instruction) : Prop :=
  ∃ pre rest, code = pre ++ rest ∧ address = Link.address pre ∧
    (strip rest).dropWhile (·.opcode = .label) = (strip post).dropWhile (·.opcode = .label)

theorem Near.ahead {code post : List Instruction} {s : RunState World Watch} {k : Config World}
    (near : Near code s k) (rest : k.rest = strip post) : Ahead code s.address post := by
  obtain ⟨j, here, same⟩ := near
  obtain ⟨pre, behind, split, address, remains⟩ := here.position
  have settled : j.settled.rest = k.settled.rest := congrArg (·.rest) same
  rw [Config.settled, Config.settled, remains, rest] at settled
  exact ⟨pre, behind, split, address, settled⟩

-- Every address of a program is that of some code.
theorem stands_of_le {code : List Instruction} {address : Int} (positive : 0 ≤ address)
    (inside : address ≤ Link.address code) : ∃ back, Stands code address back := by
  induction code generalizing address with
  | nil => exact ⟨_, [], [], rfl, by simp at inside ⊢; omega, rfl⟩
  | cons i code ih =>
    by_cases is : i.opcode = .label
    · rw [Link.address_cons_label is] at inside
      obtain ⟨_, pre, rest, split, here, rfl⟩ := ih positive inside
      exact ⟨_, i :: pre, rest, by rw [split]; rfl, by rw [Link.address_cons_label is, here], rfl⟩
    · by_cases start : address = 0
      · exact ⟨_, [], i :: code, rfl, start, rfl⟩
      · rw [Link.address_cons_other is] at inside
        obtain ⟨_, pre, rest, split, here, rfl⟩ := @ih (address - 1) (by omega) (by omega)
        refine ⟨_, i :: pre, rest, by rw [split]; rfl, ?_, rfl⟩
        rw [Link.address_cons_other is]
        omega

theorem stands_calls {code : List Instruction} {calls : List Activation}
    (resumes : ∀ a ∈ calls, 0 ≤ a.resume ∧ a.resume ≤ Link.address code) :
    ∃ returns, List.Forall₂ (fun a back => Stands code a.resume back) calls returns := by
  induction calls with
  | nil => exact ⟨[], .nil⟩
  | cons a calls ih =>
    obtain ⟨returns, others⟩ := ih fun b member => resumes b (List.mem_cons_of_mem _ member)
    obtain ⟨positive, inside⟩ := resumes a List.mem_cons_self
    obtain ⟨back, here⟩ := stands_of_le positive inside
    exact ⟨back :: returns, .cons here others⟩

end Linked

-- The code that was emitted for an expression computes what its tree evaluates to. The functions in
-- scope are those of the program around it, wherever their code lies. The value ends up in `eax`;
-- nothing is left on the operand stack, and the calls are those from before.
theorem Compile.expression_computes {depth : Nat} {c d : Compiler} {type : Ty}
    {new pre post : List Instruction} {m : Machine World Watch} {s : RunState World Watch}
    {o : Outline} {functions : Int → Option Definition}
    (settled : c.Settled) (ran : expression depth c = .ok type d)
    (emitted : d.program.code.toList = c.program.code.toList ++ new)
    (runs : Runs m (pre ++ new ++ post))
    (resolved : ∀ f, Visible c.scope f → f.isFunction = true → ∃ chain ready, f.Fits o chain ready)
    (offers : Offers o.hosts m.externals)
    (library : Library (strip (pre ++ new ++ post)) (fun _ => false) o functions)
    (quiet : Undisturbed m s) (here : s.address = Link.address pre)
    (resumes : ∀ a ∈ s.calls, 0 ≤ a.resume ∧ a.resume ≤ m.code.size) :
    ∃ e, ReadsValue c.scope c.words e d.words ∧ e.type = type ∧ ∀ n,
      m.Mirrors (pre ++ new ++ post) (fun _ => false) n s
        (fun v after t => t.registers.eax = v ∧ t.toCore.storage = after ∧ t.stack = s.stack ∧
          t.calls = s.calls ∧ Ahead (pre ++ new ++ post) t.address post)
        (e.eval (invoke m.environment functions (fun _ => false) n s.calls.length)
          s.toCore.storage) := by
  obtain ⟨e, elaborates, typed⟩ := expression_ok depth ran
  have reads : ReadsValue c.scope c.words e d.words :=
    ⟨(elaborates.parses settled).2, elaborates.typed⟩
  refine ⟨e, reads, typed, fun n => ?_⟩
  have code : strip new = e.code := by
    obtain ⟨added, same, code, _⟩ := elaborates.emits.added
    rwa [List.append_cancel_left (emitted.symm.trans same)]
  have size : (m.code.size : Int) = Link.address (pre ++ new ++ post) := by
    rw [runs.linked, List.size_toArray, Link.length_linked]
  rw [size] at resumes
  obtain ⟨returns, calls⟩ := stands_calls resumes
  let k : Config World := ⟨strip (new ++ post), returns, s.toCore⟩
  have near : Near (pre ++ new ++ post) s k :=
    ⟨k, ⟨rfl, ⟨pre, new ++ post, by simp, here, rfl⟩, calls⟩, rfl⟩
  have unique : (labelsOf (strip (pre ++ new ++ post))).Nodup := by
    rw [labelsOf_strip]
    exact runs.unique
  have lies : LiesAt (strip (pre ++ new ++ post)) (strip pre).length k.rest :=
    ⟨strip pre, by simp [k], rfl⟩
  have served : e.All fun f => f.isFunction = true →
      Answers m.environment (strip (pre ++ new ++ post)) (fun _ => false) s.calls.length n returns
        (invoke m.environment functions (fun _ => false) n returns.length) f :=
    Expr.All.imp (fun f seen callable => by
      obtain ⟨chain, ready, fits⟩ := resolved f seen callable
      exact invoke_answers unique runs.defined.strip offers library n returns chain ready f fits
        callable) e reads.parses.visible
  have evaluated := e.simulated unique reads.typed served
  have first : k.rest = e.code ++ strip post := by simp [k, code]
  have simulates := evaluated first lies (fun _ _ _ => rfl) rfl
  rw [named_of_quiet rfl, Outcome.behind_nil, ← calls.length_eq] at simulates
  refine (Machine.mirrors runs near quiet (Nat.le_of_eq calls.length_eq) simulates).imp
    fun v after t reached => ?_
  obtain ⟨l, yields, there, below⟩ := reached
  have core : t.toCore = l.core := there.core_eq
  have kept : s.calls <:+ t.calls := below s.calls (List.suffix_refl _) (Nat.le_refl _)
  have count : s.calls.length = t.calls.length := by
    rw [there.length_calls, yields.returns, calls.length_eq]
  refine ⟨?_, ?_, ?_, (kept.eq_of_length count).symm, there.ahead yields.rest⟩
  · exact (congrArg (·.registers.eax) core).trans yields.value
  · exact (congrArg (·.storage) core).trans yields.storage
  · exact (congrArg (·.stack) core).trans yields.stack

-- A call of the host, alone in a program.
namespace Sample

def asking : Compiler where
  ahead := [⟨.identifier, "rate", 1⟩, ⟨.leftParen, "(", 1⟩, ⟨.rightParen, ")", 1⟩,
    ⟨.equal, "==", 1⟩, ⟨.kwNull, "null", 1⟩]
  lines := [(1, "rate() == null")]
  lastLine := 1
  scope := [{ symbols := [⟨"rate", .function, 0, 1, 0, [], .double⟩], slots := 2 }]

def done : Compiler :=
  match Compile.expression 8 asking with
  | .ok _ d | .error _ d => d

def asked : List Instruction := done.program.code.toList

def askingMachine : Machine Unit Unit where
  code := (Link.linked asked).toArray
  externals := bound.externals.toArray

def outline : Outline := ⟨bound.declarations, fun _ => none, [], none, 0⟩

theorem asked_computes :
    ∃ e, ReadsValue asking.scope asking.words e done.words ∧ e.type = .bool ∧ ∀ n,
      askingMachine.Mirrors asked (fun _ => false) n first
        (fun v after t => t.registers.eax = v ∧ t.toCore.storage = after ∧ t.stack = first.stack ∧
          t.calls = first.calls ∧ Ahead asked t.address [])
        (e.eval (invoke askingMachine.environment (fun _ => none) (fun _ => false) n 0)
          first.toCore.storage) := by
  have settled : asking.Settled := by
    rintro t ⟨⟩
    decide
  have runs : Runs askingMachine ([] ++ asked ++ []) :=
    ⟨by decide +kernel, by unfold BranchesDefined; decide +kernel, rfl,
      by unfold Fair; decide +kernel⟩
  have resolved : ∀ f, Visible asking.scope f → f.isFunction = true →
      ∃ chain ready, f.Fits outline chain ready := by
    rintro f ⟨name, found⟩ _
    refine ⟨[], [], Scope.Fits.resolve ?_ found⟩
    exact List.forall_mem_singleton.mpr (List.forall_mem_singleton.mpr
      ⟨1, _, rfl, rfl, rfl, fun _ => ⟨rfl, rfl⟩⟩)
  have offers : Offers outline.hosts askingMachine.externals :=
    (Binding.resolve_ok accepted.resolved).offers
  have library : Library (strip ([] ++ asked ++ [])) (fun _ => false) outline fun _ => none := nofun
  have quiet : Undisturbed askingMachine first := ⟨rfl, by decide, .inl rfl⟩
  have ran : Compile.expression 8 asking = .ok .bool done := by rfl
  exact Compile.expression_computes settled ran rfl runs resolved offers library quiet rfl nofun

end Sample

end ScalarScript
