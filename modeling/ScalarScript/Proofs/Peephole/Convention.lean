import ScalarScript.Proofs.Peephole.Demand
import ScalarScript.Proofs.Typing.Run
/-!
The conventions that optimization relies on hold of compiled code. Code is checked with what is known
at each of its points, and nothing else is ever in demand: at the entry of a function nothing is known,
and behind a call only the result.
-/
namespace ScalarScript

open Compile (eax ebx)

-- What a shape says something about: the registers and flags that are relied on.
def Shape.Knows (σ : Shape) : Scratch → Prop
  | .register r => r = .eax ∧ σ.eax.isSome = true ∨ r = .ebx ∧ σ.ebx.isSome = true
  | .flags => σ.flags.isSome = true

section
variable {Γ : Plan} {υ σ τ : Shape} {i : Instruction} {rest code : List Instruction} {x : Scratch}

@[simp] theorem Scratch.not_at_operand (s : Symbol) : ¬ x.At s.operand := by
  cases x <;> simp [Scratch.At, Symbol.operand]

@[simp] theorem Scratch.not_at_null : ¬ x.At .null := by
  cases x <;> simp [Scratch.At]

@[simp] theorem Scratch.at_eax : x.At eax ↔ x = .register .eax := at_register

@[simp] theorem Scratch.at_ebx : x.At ebx ↔ x = .register .ebx := at_register

theorem Source.not_at {o : Outline} {chain : Chain} {ready : Ready} {a : Operand} {t : Ty}
    (source : Source o chain ready a t) : ¬ x.At a := by
  cases source <;> simp

theorem Shape.knows_eax (some : σ.eax.isSome = true) : σ.Knows (.register .eax) := .inl ⟨rfl, some⟩
theorem Shape.knows_ebx (some : σ.ebx.isSome = true) : σ.Knows (.register .ebx) := .inr ⟨rfl, some⟩

-- What is relied on at a label is relied on where it is reached from.
theorem Shape.Meets.knows {m : Mark} (meets : σ.Meets m) (knows : Shape.Knows { m with } x) :
    σ.Knows x := by
  cases x with
  | register r =>
    obtain ⟨rfl, relied⟩ : r = .eax ∧ _ := by simpa [Shape.Knows] using knows
    obtain ⟨wanted, is⟩ := Option.isSome_iff_exists.mp relied
    obtain ⟨given, known, _⟩ := meets.eax wanted is
    exact Shape.knows_eax (by rw [known]; rfl)
  | flags => simp [Shape.Knows] at knows

attribute [local simp] Instruction.Asks Instruction.Sets Instruction.move Instruction.push Instruction.pop
  Instruction.unary Instruction.binary Instruction.branch Instruction.label Instruction.call
  Instruction.hostCall Instruction.pushScope Instruction.popScope Instruction.plain Opcode.reads Opcode.writes
  Opcode.asksFlags Opcode.setsFlags 

-- What an instruction of checked code asks for is relied on there.
theorem Check.asks (checked : Check Γ υ σ (i :: rest)) (read : x.demand i = .read) : σ.Knows x := by
  by_cases own : i.opcode.isOwn = true
  · have asks := (Scratch.demand_eq_read_iff own).mp read
    clear read own
    cases checked with
    | load inside source => exact absurd (by simpa using asks) source.not_at
    | binary left right | compare _ left right => 
      rcases (by simpa using asks : x = .register .eax ∨ x = .register .ebx) with rfl | rfl
      · exact Shape.knows_eax (by rw [left]; rfl)
      · exact Shape.knows_ebx (by rw [right]; rfl)
    | store _ _ _ given | push given | keep given | unary given | test given | exit _ given =>
      obtain rfl : x = .register .eax := by simpa using asks
      exact Shape.knows_eax (by rw [given]; rfl)
    | setIf given | jumpIf given =>
      obtain rfl : x = .flags := by simpa using asks
      simp [Shape.Knows, given]
    | _ => simp at asks
  · have returns : i.opcode = .ret ∧ x = .register .eax := by
      cases opcode : i.opcode <;> simp [opcode, Opcode.isOwn] at own <;> cases x <;>
        simp_all [Scratch.demand, Scratch.effect, registerEffect, flagEffect]
      all_goals split at read <;> cases read
    cases checked with
    | ret outside chain function empty given =>
      rw [returns.2]
      exact Shape.knows_eax (by rw [given]; rfl)
    | _ => cases returns.1


-- What it passes on was relied on before, if it is relied on behind it.
theorem Check.passes (checked : Check Γ υ σ (i :: rest)) (pass : x.demand i = .pass)
    (stays : i.opcode ≠ .exit ∧ i.opcode ≠ .jump) :
    ∃ τ, Check Γ υ τ rest ∧ (τ.Knows x → σ.Knows x) := by
  by_cases own : i.opcode.isOwn = true
  · have asks := (not_congr (Scratch.demand_eq_read_iff own)).mp (by simp [pass] : x.demand i ≠ .read)
    have sets : ¬ i.Sets x := fun sets =>
      absurd ((Scratch.demand_eq_kill_iff own).mpr ⟨asks, sets⟩) (by simp [pass])
    clear pass asks
    cases checked with
    | jump | exit | exitNull => simp at stays
    | call | hostCall | ret => cases own
    | label target meets later => exact ⟨_, later, meets.knows⟩
    | _ =>
      refine ⟨_, by assumption, fun knows => ?_⟩
      cases x <;> simp_all [Shape.Knows, Shape.holding]
  · have hosted : i.opcode = .hostCall ∧ x ≠ .register .eax := by
      cases opcode : i.opcode <;> simp [opcode, Opcode.isOwn] at own <;> cases x <;>
        simp_all [Scratch.demand, Scratch.effect, registerEffect, flagEffect, Operand.same]
      all_goals split at pass <;> cases pass
    cases checked with
    | hostCall inside outer function fits arguments into later =>
      refine ⟨_, later, fun knows => ?_⟩
      cases x <;> simp_all [Shape.Knows, Shape.holding]
    | _ => cases hosted.1

-- A jump leads to a label that the point meets.
theorem Check.leads (checked : Check Γ υ σ (i :: rest))
    (leads : i.opcode = .jump ∨ i.opcode.isConditionalJump = true) :
    ∃ m, Γ.labels i.target = some m ∧ σ.Meets m := by
  cases checked with
  | jump target meets | jumpIf _ _ target meets => exact ⟨_, target, meets⟩
  | _ => simp [Opcode.isConditionalJump] at leads

-- What is in demand is relied on.
theorem Demanded.knows {υ' : Shape} (places : ∀ label target, seek label code = some target →
      ∃ m, Γ.labels label = some m ∧ Check Γ υ' { m with } target)
    (demanded : Demanded code x rest) (checked : Check Γ υ σ rest) : σ.Knows x := by
  induction demanded generalizing υ σ with
  | here read => exact checked.asks read
  | behind pass stays _ ih =>
    obtain ⟨τ, later, relied⟩ := checked.passes pass stays
    exact relied (ih later)
  | label pass leads found _ ih =>
    obtain ⟨m, known, meets⟩ := checked.leads leads
    obtain ⟨m', known', there⟩ := places _ _ found
    cases known.symm.trans known'
    exact meets.knows (ih there)

theorem Operand.Sound.eax : Compile.eax.Sound := Nat.zero_lt_succ 2

theorem Operand.Sound.ebx : Compile.ebx.Sound := Nat.one_lt_succ_succ 1

theorem Source.sound {o : Outline} {chain : Chain} {ready : Ready} {a : Operand} {t : Ty}
    (source : Source o chain ready a t) : a.Sound := by
  cases source with
  | constant v => exact Operand.sound_ofValue v
  | var => trivial

-- Registers of checked code are there, and constants are finite.
theorem Check.sound (checked : Check Γ υ σ code) : ∀ i ∈ code, i.Sound := by
  induction checked with
  | nil => simp
  | load _ source _ sound => exact List.forall_mem_cons.mpr ⟨⟨.eax, source.sound⟩, sound⟩
  | binary _ _ _ sound | compare _ _ _ _ _ sound =>
    exact List.forall_mem_cons.mpr ⟨⟨.eax, .ebx⟩, sound⟩
  | store _ _ _ _ _ _ sound => exact List.forall_mem_cons.mpr ⟨⟨trivial, .eax⟩, sound⟩
  | keep _ _ sound => exact List.forall_mem_cons.mpr ⟨⟨.ebx, .eax⟩, sound⟩
  | push _ _ sound | pop _ _ sound | unary _ _ sound | setIf _ _ _ sound | test _ _ sound
  | exit _ _ _ _ sound => exact List.forall_mem_cons.mpr ⟨⟨.eax, trivial⟩, sound⟩
  | _ => exact List.forall_mem_cons.mpr ⟨⟨trivial, trivial⟩, by assumption⟩

end

-- Code in which arguments are taken behind the allocation of the parameters only, wherever it stands.
structure Orderly (code : List Instruction) : Prop where
  greeted : code.IsChain Instruction.Greets
  first : ∀ i ∈ code.head?, ¬ i.Receives

namespace Orderly

variable {a b : List Instruction} {i : Instruction}

theorem nil : Orderly [] := ⟨.nil, by simp⟩

theorem cons (plain : ¬ i.Receives) (behind : Orderly a) : Orderly (i :: a) := by
  refine ⟨List.isChain_cons.mpr ⟨?_, behind.greeted⟩, by simpa using plain⟩
  exact fun j first receives => absurd receives (behind.first j first)

theorem append (one : Orderly a) (two : Orderly b) : Orderly (a ++ b) := by
  refine ⟨List.isChain_append.mpr ⟨one.greeted, two.greeted, ?_⟩, ?_⟩
  · exact fun _ _ j first receives => absurd receives (two.first j first)
  · intro i first
    rw [List.head?_append] at first
    cases front : a.head? with
    | none => exact two.first i (by simpa [front] using first)
    | some j => exact one.first i (by simpa [front] using first)

end Orderly

section

attribute [local simp] Instruction.Receives Instruction.move Instruction.push Instruction.pop
  Instruction.unary Instruction.binary Instruction.branch Instruction.label Instruction.call
  Instruction.hostCall Instruction.pushScope Instruction.popScope Instruction.plain Compile.eax
  Operand.isRegister

theorem orderly_regroup {code : List Instruction} (behind : Orderly code) :
    Orderly (regroup ++ code) :=
  .cons (by simp) (.cons (by simp) behind)

mutual

-- Expressions take values back into registers only.
theorem Expr.orderly : (e : Expr) → Orderly e.code
  | .constant v | .var s => .cons (by simp) .nil
  | .call s args => by
    rw [Expr.code]
    refine args.orderly.append (.cons ?_ .nil)
    unfold Symbol.callInstruction
    split <;> simp
  | .unary op e => by
    rw [Expr.code]
    exact e.orderly.append (.cons (by simp) .nil)
  | .binary op a b => by
    rw [Expr.code, List.append_assoc]
    refine (a.orderly.append (.cons (by simp) b.orderly)).append (orderly_regroup ?_)
    exact .cons (by simp) .nil
  | .compare c a b => by
    rw [Expr.code, List.append_assoc]
    refine (a.orderly.append (.cons (by simp) b.orderly)).append (orderly_regroup ?_)
    exact .cons (by simp) (.cons (by simp) .nil)
  | .logical c a b done => by
    rw [Expr.code, List.append_assoc]
    refine ((a.orderly.append ?_).append b.orderly).append (orderly_regroup ?_)
    · exact .cons (by simp) (.cons (by simp) (.cons (by simp) .nil))
    · exact .cons (by simp) (.cons (by simp) .nil)
  | .choose c a b otherwise done => by
    rw [Expr.code]
    refine ((((c.orderly.append ?_).append a.orderly).append ?_).append b.orderly).append ?_
    · exact .cons (by simp) (.cons (by simp) .nil)
    · exact .cons (by simp) (.cons (by simp) .nil)
    · exact .cons (by simp) .nil

theorem Args.orderly : (args : Args) → Orderly args.code
  | .nil => .nil
  | .cons e rest => by
    rw [Args.code]
    exact e.orderly.append (.cons (by simp) rest.orderly)

end

-- A function allocates its parameters before it takes its arguments.
theorem Routine.orderly_receive (r : Routine) : Orderly r.receive := by
  have allocates : ∀ i ∈ r.params.zipIdx.map fun q =>
      Instruction.unary (.allocate q.1.type) (r.slot q.2 q.1),
      ∃ type, i.opcode = .allocate type := by
    intro i member
    obtain ⟨q, _, rfl⟩ := List.mem_map.mp member
    exact ⟨q.1.type, rfl⟩
  have receives : ∀ i ∈ (r.params.zipIdx.map fun q => Instruction.pop (r.slot q.2 q.1)).reverse,
      i.Receives := by
    intro i member
    obtain ⟨q, _, rfl⟩ := List.mem_map.mp (List.mem_reverse.mp member)
    exact ⟨rfl, rfl⟩
  refine ⟨List.isChain_append.mpr ⟨?_, ?_, ?_⟩, ?_⟩
  · exact (List.pairwise_of_forall_mem_list fun i member _ _ _ => .inl (allocates i member)).isChain
  · exact (List.pairwise_of_forall_mem_list fun i member _ _ _ => .inr (receives i member)).isChain
  · exact fun i last _ _ _ => .inl (allocates i (List.mem_of_mem_getLast? last))
  · intro i first
    rw [Routine.receive, List.head?_append] at first
    cases params : r.params with
    | nil => simp [params] at first
    | cons p params =>
      obtain rfl : _ = i := by simpa [params] using first
      simp

theorem Stmt.orderly_guard (e : Option Expr) (otherwise : Int) : Orderly (Stmt.guard e otherwise) := by
  cases e with
  | none => exact .nil
  | some e => exact e.orderly.append (.cons (by simp) (.cons (by simp) .nil))

theorem Stmt.orderly (t : Stmt) : Orderly t.code := by
  induction t with
  | skip => exact .nil
  | seq a b first second => exact first.append second
  | block a inner => exact inner
  | expr e => exact e.orderly
  | assign s e => exact e.orderly.append (.cons (by simp) .nil)
  | declare type s init =>
    cases init with
    | none => exact .cons (by simp) .nil
    | some e => exact .append (.cons (by simp) e.orderly) (.cons (by simp) .nil)
  | function r body inner =>
    refine .append (.append (.append ?_ r.orderly_receive) inner) ?_
    · exact .cons (by simp) (.cons (by simp) (.cons (by simp) .nil))
    · exact .cons (by simp) (.cons (by simp) (.cons (by simp) (.cons (by simp) (.cons (by simp) .nil))))
  | ifThen e a otherwise inner =>
    exact ((orderly_guard _ _).append inner).append (.cons (by simp) .nil)
  | ifElse e a b otherwise done first second =>
    refine ((((orderly_guard _ _).append first).append ?_).append second).append (.cons (by simp) .nil)
    exact .cons (by simp) (.cons (by simp) .nil)
  | whileLoop e a top done inner =>
    refine .append (.append (.cons (by simp) (orderly_guard _ _)) inner) ?_
    exact .cons (by simp) (.cons (by simp) .nil)
  | forLoop init e a step top done before inner onward =>
    refine .append (.append (.append (before.append (.cons (by simp) (orderly_guard _ _))) inner)
      onward) ?_
    exact .cons (by simp) (.cons (by simp) .nil)
  | loopWhile a e top done inner =>
    refine .append (.append (.cons (by simp) inner) e.orderly) ?_
    exact .cons (by simp) (.cons (by simp) (.cons (by simp) .nil))
  | leave done => exact .cons (by simp) .nil
  | yield e result =>
    cases e with
    | none => exact .cons (by simp) (.cons (by simp) .nil)
    | some e => exact e.orderly.append (.cons (by simp) .nil)
  | exit e =>
    cases e with
    | none => exact .cons (by simp) .nil
    | some e => exact e.orderly.append (.cons (by simp) .nil)

end

section

variable {t : Stmt} {hosts : List Declaration} {exitType : Option Ty} {depths : Nat}

theorem Stmt.orderly_program (t : Stmt) (size : Nat) : Orderly (t.program size) := by
  have whole : Orderly t.main := by
    refine .append (.append ?_ t.orderly) ?_
    · split
      · exact .nil
      · exact .cons (Instruction.not_receives_of_opcode (by rintro ⟨⟩)) .nil
    · exact .cons (Instruction.not_receives_of_opcode (by rintro ⟨⟩)) .nil
  rw [t.program_eq]
  exact .cons (Instruction.not_receives_of_opcode (by rintro ⟨⟩)) whole

-- The code of a tree keeps to the conventions.
theorem Stmt.disciplined (plain : PlainTypes hosts exitType) (deep : 1 ≤ depths)
    (unique : (labelsOf t.code).Nodup) (ok : t.Ok (t.outline hosts exitType depths) [t.frame] [] []) :
    Disciplined (t.program (depths + 1)) := by
  have checked : Check (t.plan hosts exitType depths True) t.start t.start t.main :=
    t.plan_check plain deep unique ok
  have coherent : (t.plan hosts exitType depths True).Coherent := t.plan_coherent plain unique
  have orderly := (t.orderly_program (depths + 1)).greeted
  rw [t.program_eq] at orderly ⊢
  have places (label : Int) (target : List Instruction)
      (found : seek label (.scopeDepth (depths + 1 : Nat) :: t.main) = some target) :
      ∃ m, (t.plan hosts exitType depths True).labels label = some m ∧
        Check (t.plan hosts exitType depths True) t.start { m with } target := by
    rw [seek, if_neg (by rintro ⟨⟨⟩, _⟩)] at found
    exact checked.seek found
  -- a call stands somewhere in checked code
  have calls {i : Instruction} {rest : List Instruction}
      (inside : i :: rest <:+ .scopeDepth (depths + 1 : Nat) :: t.main) (call : i.opcode = .call) :
      ∃ τ, Check (t.plan hosts exitType depths True) t.start τ (i :: rest) := by
    rcases List.suffix_cons_iff.mp inside with whole | ⟨before, split⟩
    · cases whole
      cases call
    · rw [← split] at checked
      obtain ⟨τ, _, later⟩ := checked.split
      exact ⟨τ, later⟩
  refine ⟨?_, ?_, ?_, ?_, orderly⟩
  · rw [labelsOf_cons_other (by rintro ⟨⟩), Hosted.labels_code]
    exact unique
  · intro i rest target x inside call found demanded
    obtain ⟨τ, later⟩ := calls inside call
    cases later with
    | call _ inner function fits =>
      rw [Symbol.Fits, if_neg inner, if_pos function] at fits
      obtain ⟨_, body, f, before, known, _⟩ := fits
      obtain ⟨m, start, there⟩ := places _ _ found
      cases (coherent.starts _ _ known).symm.trans start
      have knows := demanded.knows places there
      cases x <;> simp [Shape.Knows, Signature.start] at knows
    | _ => cases call
  · intro i rest x inside call demanded
    obtain ⟨τ, later⟩ := calls inside call
    cases later with
    | call _ _ _ _ _ _ behind =>
      have knows := demanded.knows places behind
      cases x <;> simp [Shape.Knows, Shape.holding] at knows ⊢
      exact knows
    | _ => cases call
  · exact List.forall_mem_cons.mpr ⟨⟨trivial, trivial⟩, checked.sound⟩

end

end ScalarScript
