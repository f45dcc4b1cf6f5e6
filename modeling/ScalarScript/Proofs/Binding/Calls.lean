import ScalarScript.Proofs.Binding.Resolved
import ScalarScript.Proofs.Source.Placement
import ScalarScript.Proofs.Source.Sight
/-!
Where code refers to its host. A call of a host function stands behind the code of its arguments, and
a slot of depth 0 is that of a host variable; both are names that the host has declared.
-/
namespace ScalarScript

open Compile (eax ebx)

mutual

-- The calls in an expression, in the order in which they are made.
def Expr.calls : Expr → List (Symbol × Args)
  | .constant _ | .var _ => []
  | .call s args => args.calls ++ [(s, args)]
  | .unary _ e => e.calls
  | .binary _ a b | .compare _ a b | .logical _ a b _ => a.calls ++ b.calls
  | .choose c a b _ _ => c.calls ++ a.calls ++ b.calls

def Args.calls : Args → List (Symbol × Args)
  | .nil => []
  | .cons e rest => e.calls ++ rest.calls

end

namespace Stmt

def guardCalls (e : Option Expr) : List (Symbol × Args) := e.elim [] Expr.calls

def calls : Stmt → List (Symbol × Args)
  | seq a b => a.calls ++ b.calls
  | block a | function _ a => a.calls
  | expr e | assign _ e => e.calls
  | declare _ _ e | yield e _ | exit e => guardCalls e
  | ifThen e a _ | whileLoop e a _ _ => e.calls ++ a.calls
  | ifElse e a b _ _ => e.calls ++ a.calls ++ b.calls
  | forLoop init e a step _ _ => init.calls ++ guardCalls e ++ a.calls ++ step.calls
  | loopWhile a e _ _ => a.calls ++ e.calls
  | skip | leave _ => []

end Stmt

-- A call that may stand in code, behind what computes and pushes its arguments.
structure HostCalled (hosts : List Declaration) (calls : List (Symbol × Args))
    (before : List Instruction) (i : Instruction) (s : Symbol) (args : Args) : Prop where
  made : (s, args) ∈ calls
  known : s ∈ hostSymbols hosts
  function : s.isFunction = true
  accepted : List.Forall₂ (fun wanted given => Ty.accepts false wanted given = true) s.params args.types
  behind : ∃ front, before = front ++ args.code
  instruction : i = .hostCall s.index s.name

-- How code refers to its host.
structure Refers (hosts : List Declaration) (calls : List (Symbol × Args)) (code : List Instruction) :
    Prop where
  calls : ∀ before i after, code = before ++ i :: after → i.opcode = .hostCall →
    ∃ s args, HostCalled hosts calls before i s args
  slots : Each (fun i => ∀ a : Slot, .slot a ∈ i.operands → a.depth = 0 →
    ∃ s ∈ hostSymbols hosts, s.isFunction = false ∧ a = s.place) code

-- An instruction that has nothing to do with a host.
def Instruction.idle (i : Instruction) : Bool :=
  decide (i.opcode ≠ .hostCall) && i.operands.all fun
    | .slot _ => false
    | _ => true

namespace Refers

variable {hosts : List Declaration} {calls : List (Symbol × Args)} {a b code : List Instruction}
  {i : Instruction} {s : Symbol} {args : Args}

theorem nil : Refers hosts calls [] where
  calls before i after split := by simp at split
  slots := .nil

theorem append (first : Refers hosts calls a) (second : Refers hosts calls b) :
    Refers hosts calls (a ++ b) where
  calls before i after split host := by
    rcases List.append_eq_append_iff.mp split with ⟨middle, rfl, rest⟩ | ⟨middle, rfl, rest⟩
    · obtain ⟨s, args, called⟩ := second.calls middle i after rest host
      obtain ⟨front, behind⟩ := called.behind
      exact ⟨s, args, { called with behind := ⟨a ++ front, by rw [behind, List.append_assoc]⟩ }⟩
    · cases middle with
      | nil =>
        obtain ⟨s, args, called⟩ := second.calls [] i after rest.symm host
        obtain ⟨front, behind⟩ := called.behind
        obtain ⟨rfl, none⟩ := List.append_eq_nil_iff.mp behind.symm
        exact ⟨s, args, { called with behind := ⟨before, by simp [none]⟩ }⟩
      | cons j middle =>
        cases rest
        exact first.calls before i middle rfl host
  slots := first.slots.append second.slots

theorem single (other : i.opcode ≠ .hostCall)
    (slots : ∀ a : Slot, .slot a ∈ i.operands → a.depth = 0 →
      ∃ s ∈ hostSymbols hosts, s.isFunction = false ∧ a = s.place) : Refers hosts calls [i] where
  calls before j after split host := by
    cases before with
    | nil =>
      cases split
      exact absurd host other
    | cons k before => simp at split
  slots := .cons slots .nil

theorem cons (first : Refers hosts calls [i]) (others : Refers hosts calls code) :
    Refers hosts calls (i :: code) := first.append others

theorem idle (idle : i.idle = true) : Refers hosts calls [i] := by
  rw [Instruction.idle, Bool.and_eq_true, decide_eq_true_iff, List.all_eq_true] at idle
  exact .single idle.1 fun a member => absurd (idle.2 _ member) Bool.false_ne_true

theorem plain (idle : i.idle = true) (others : Refers hosts calls code) :
    Refers hosts calls (i :: code) := .cons (.idle idle) others

theorem regroup : Refers hosts calls regroup := .plain rfl (.plain rfl .nil)

-- Loads and stores of a variable.
theorem move {o : Operand} (plain : s.isFunction = false)
    (known : s.depth = 0 → s ∈ hostSymbols hosts) (register : o = eax) :
    Refers hosts calls [.move o s.operand] ∧ Refers hosts calls [.move s.operand o] := by
  subst register
  have slots (a : Slot) (same : Operand.slot a = s.operand) (outer : a.depth = 0) :
      ∃ s ∈ hostSymbols hosts, s.isFunction = false ∧ a = s.place := by
    cases same
    exact ⟨s, known (Int.ofNat_inj.mp outer), plain, rfl⟩
  refine ⟨.single (by rintro ⟨⟩) fun a member => ?_, .single (by rintro ⟨⟩) fun a member => ?_⟩
  · rcases List.mem_pair.mp (show .slot a ∈ [eax, s.operand] from member) with other | same
    · cases other
    · exact slots a same
  · rcases List.mem_pair.mp (show .slot a ∈ [s.operand, eax] from member) with same | other
    · exact slots a same
    · cases other

-- A call behind its arguments.
theorem call (before : Refers hosts calls args.code) (made : (s, args) ∈ calls)
    (function : s.isFunction = true) (known : s.depth = 0 → s ∈ hostSymbols hosts)
    (accepted : List.Forall₂ (fun wanted given => Ty.accepts false wanted given = true) s.params
      args.types) : Refers hosts calls (args.code ++ [s.callInstruction]) := by
  unfold Symbol.callInstruction
  by_cases outer : s.depth = 0
  · rw [if_pos (by simp [Symbol.isExternal, outer])]
    refine ⟨fun front i after split host => ?_, before.slots.append (.cons (by rintro _ ⟨⟩) .nil)⟩
    have here (same : front = args.code) (is : i = .hostCall s.index s.name) :
        ∃ s args, HostCalled hosts calls front i s args :=
      ⟨s, args, made, known outer, function, accepted, ⟨[], same⟩, is⟩
    rcases List.append_eq_append_iff.mp split with ⟨middle, same, rest⟩ | ⟨middle, same, rest⟩
    · cases middle with
      | nil => exact here (by simp [same]) (List.cons.inj rest).1.symm
      | cons j middle => simp at rest
    · cases middle with
      | nil => exact here (by simp [same]) (List.cons.inj rest).1
      | cons j middle =>
        obtain ⟨rfl, _⟩ := List.cons.inj rest
        exact before.calls front i middle same host
  · rw [if_neg (by simp [Symbol.isExternal, outer])]
    exact before.append (.idle rfl)

end Refers

section

variable {hosts : List Declaration} {calls : List (Symbol × Args)}

mutual

theorem Expr.refers : (e : Expr) → e.Typed → e.All (fun s => s.depth = 0 → s ∈ hostSymbols hosts) →
    e.calls ⊆ calls → Refers hosts calls e.code
  | .constant v, _, _, _ => by
    rw [Expr.code]
    exact .idle (by cases v <;> rfl)
  | .var s, typed, all, _ => by
    rw [Expr.code]
    exact (Refers.move typed all rfl).1
  | .call s args, typed, all, among => by
    rw [Expr.code]
    obtain ⟨inner, made⟩ := List.append_subset.mp among
    exact .call (args.refers typed.2.1 all.2 inner) (made List.mem_cons_self) typed.1 all.1 typed.2.2
  | .unary op e, typed, all, among => by
    rw [Expr.code]
    exact .append (e.refers typed.1 all among) (.idle rfl)
  | .binary op a b, typed, all, among => by
    rw [Expr.code]
    obtain ⟨one, two⟩ := List.append_subset.mp among
    exact .append (.append (.append (a.refers typed.1 all.1 one)
      (.plain rfl (b.refers typed.2.1 all.2 two))) .regroup) (.idle rfl)
  | .compare c a b, typed, all, among => by
    rw [Expr.code]
    obtain ⟨one, two⟩ := List.append_subset.mp among
    exact .append (.append (.append (a.refers typed.1 all.1 one)
      (.plain rfl (b.refers typed.2.1 all.2 two))) .regroup) (.plain rfl (.idle rfl))
  | .logical c a b done, typed, all, among => by
    rw [Expr.code]
    obtain ⟨one, two⟩ := List.append_subset.mp among
    exact .append (.append (.append (.append (a.refers typed.1 all.1 one)
      (.plain rfl (.plain rfl (.idle rfl)))) (b.refers typed.2.1 all.2 two)) .regroup)
      (.plain rfl (.idle rfl))
  | .choose c a b otherwise done, typed, all, among => by
    rw [Expr.code]
    obtain ⟨front, three⟩ := List.append_subset.mp among
    obtain ⟨one, two⟩ := List.append_subset.mp front
    exact .append (.append (.append (.append (.append (c.refers typed.1 all.1 one)
      (.plain rfl (.idle rfl))) (a.refers typed.2.1 all.2.1 two)) (.plain rfl (.idle rfl)))
      (b.refers typed.2.2.1 all.2.2 three)) (.idle rfl)

theorem Args.refers : (args : Args) → args.Typed →
    args.All (fun s => s.depth = 0 → s ∈ hostSymbols hosts) → args.calls ⊆ calls →
    Refers hosts calls args.code
  | .nil, _, _, _ => by
    rw [Args.code]
    exact .nil
  | .cons e rest, typed, all, among => by
    rw [Args.code]
    obtain ⟨one, two⟩ := List.append_subset.mp among
    exact .append (e.refers typed.1 all.1 one) (.plain rfl (rest.refers typed.2 all.2 two))

end

end

-- Everything in sight that lies at depth 0 is a name of the host.
def Sight.Known (hosts : List Declaration) (g : Sight) : Prop :=
  ∀ symbols ∈ g, ∀ s ∈ symbols, s.depth = 0 → s ∈ hostSymbols hosts

namespace Sight.Known

variable {hosts : List Declaration} {g : Sight} {s : Symbol}

theorem shows (known : g.Known hosts) (shown : g.Shows s) : s.depth = 0 → s ∈ hostSymbols hosts := by
  obtain ⟨inner, newer, older, outer, rfl, _⟩ := shown
  exact known (newer ++ s :: older) (by simp) s (by simp)

theorem cons (known : g.Known hosts) {symbols : List Symbol} (inner : ∀ s ∈ symbols, s.depth ≠ 0) :
    Sight.Known hosts (symbols :: g) :=
  List.forall_mem_cons.mpr ⟨fun s member outer => absurd outer (inner s member), known⟩

theorem adding (known : g.Known hosts) (inner : s.depth ≠ 0) : (g.adding s).Known hosts := by
  cases g with
  | nil => exact known
  | cons here outer =>
    obtain ⟨front, others⟩ := List.forall_mem_cons.mp known
    exact List.forall_mem_cons.mpr
      ⟨List.forall_mem_cons.mpr ⟨fun none => absurd none inner, front⟩, others⟩

end Sight.Known

section

variable {o : Outline} {chain : Chain} {ready : Ready} {loops : List Int} {t : Stmt} {g : Sight}
  {hosts : List Declaration} {calls : List (Symbol × Args)} {code : List Instruction}

theorem Stmt.Ok.sight_known (ok : t.Ok o chain ready loops) (inner : chain ≠ [])
    (known : g.Known hosts) : (t.sight g).Known hosts := by
  induction t generalizing g ready loops with
  | seq a b first second => exact second ok.2 (first ok.1 known)
  | ifElse e a b otherwise done first second => exact second ok.2.2.2 (first ok.2.2.1 known)
  | ifThen e a otherwise ih => exact ih ok.2.2 known
  | whileLoop e a top done ih => exact ih ok.2.2 known
  | loopWhile a e top done ih => exact ih ok.1 known
  | declare type s init => exact known.adding ok.2.1
  | function r body =>
    refine known.adding ?_
    have depth := ok.1
    have some := List.length_pos_iff.mpr inner
    change r.depth - 1 ≠ 0
    omega
  | _ => exact known

theorem Expr.Ok.refers {e : Expr} (ok : e.Ok o chain ready) (shown : e.All g.Shows)
    (known : g.Known hosts) (among : e.calls ⊆ calls) : Refers hosts calls e.code :=
  Expr.refers e ok.1 (Expr.All.imp (fun _ => known.shows) e shown) among

theorem Stmt.refers_guard {e : Option Expr} {otherwise : Int}
    (ok : ∀ test ∈ e, test.Ok o chain ready) (shown : ∀ test ∈ e, test.All g.Shows)
    (known : g.Known hosts) (among : guardCalls e ⊆ calls) :
    Refers hosts calls (guard e otherwise) := by
  cases e with
  | none => exact .nil
  | some e => exact .append ((ok e rfl).refers (shown e rfl) known among) (.plain rfl (.idle rfl))

theorem Refers.of_single (others : ∀ i ∈ code, Refers hosts calls [i]) : Refers hosts calls code := by
  induction code with
  | nil => exact .nil
  | cons i rest ih =>
    obtain ⟨first, rest⟩ := List.forall_mem_cons.mp others
    exact .cons first (ih rest)

-- Parameters are no matter of the host.
theorem Routine.refers_receive (r : Routine) (deep : r.depth ≠ 0) :
    Refers hosts calls r.receive := by
  refine .append (.of_single fun i made => ?_) (.of_single fun i made => ?_)
  · obtain ⟨⟨p, index⟩, _, rfl⟩ := List.mem_map.mp made
    refine .single (by rintro ⟨⟩) fun a member outer => ?_
    cases List.mem_singleton.mp (show .slot a ∈ [r.slot index p] from member)
    exact absurd (Int.ofNat_inj.mp outer) deep
  · obtain ⟨⟨p, index⟩, _, rfl⟩ := List.mem_map.mp (List.mem_reverse.mp made)
    refine .single (by rintro ⟨⟩) fun a member outer => ?_
    cases List.mem_singleton.mp (show .slot a ∈ [r.slot index p] from member)
    exact absurd (Int.ofNat_inj.mp outer) deep

-- A statement refers to the host where it means it.
theorem Stmt.Ok.refers (ok : t.Ok o chain ready loops) (inner : chain ≠ []) (resolved : t.Resolved g)
    (known : g.Known hosts) (among : t.calls ⊆ calls) : Refers hosts calls t.code := by
  induction t generalizing chain ready loops g with
  | skip => exact .nil
  | seq a b first second =>
    obtain ⟨one, two⟩ := List.append_subset.mp among
    exact .append (first ok.1 inner resolved.1 known one)
      (second ok.2 inner resolved.2 (ok.1.sight_known inner known) two)
  | block a ih => exact ih ok inner resolved (known.cons (List.forall_mem_nil _)) among
  | expr e => exact Expr.Ok.refers ok resolved known among
  | assign s e =>
    obtain ⟨value, plain, _, _⟩ := ok
    exact .append (value.refers resolved.2 known among)
      (Refers.move plain (known.shows resolved.1) rfl).2
  | declare type s init =>
    obtain ⟨_, deep, typed, _, given⟩ := ok
    have plain : Refers hosts calls [.unary (.allocate type) s.operand] :=
      .single (by rintro ⟨⟩) fun a member outer => by
        cases List.mem_singleton.mp (show .slot a ∈ [s.operand] from member)
        exact absurd (Int.ofNat_inj.mp outer) deep
    have function := Symbol.isFunction_of_scalar typed
    cases init with
    | none => exact plain
    | some e =>
      have shown : e.All g.Shows := Expr.All.imp (fun _ both => both.1) e (resolved e rfl)
      exact .append (.append plain ((given e rfl).1.refers shown known among))
        (Refers.move function (fun outer => absurd outer deep) rfl).2
  | function r body ih =>
    obtain ⟨depth, _, _, _, within⟩ := ok
    have own : r.symbol.depth ≠ 0 := by
      have some := List.length_pos_iff.mpr inner
      change r.depth - 1 ≠ 0
      omega
    have deep : ∀ s ∈ r.symbols, s.depth ≠ 0 := fun s member => by
      obtain ⟨_, _, _, rfl⟩ := Routine.mem_symbols.mp member
      change r.depth ≠ 0
      omega
    rw [code_function]
    exact .append (.plain rfl (.plain rfl (.idle rfl))) (.append (.append (r.refers_receive (by omega))
      (ih within (List.cons_ne_nil _ _) resolved ((known.adding own).cons deep) among))
      (.plain rfl (.plain rfl (.plain rfl (.plain rfl (.idle rfl))))))
  | ifThen e a otherwise ih =>
    obtain ⟨test, _, branch⟩ := ok
    obtain ⟨one, two⟩ := List.append_subset.mp among
    exact .append (.append (refers_guard (e := some e) (by simpa using test)
      (by simpa using resolved.1) known one) (ih branch inner resolved.2 known two)) (.idle rfl)
  | ifElse e a b otherwise done first second =>
    obtain ⟨test, _, yes, no⟩ := ok
    obtain ⟨front, three⟩ := List.append_subset.mp among
    obtain ⟨one, two⟩ := List.append_subset.mp front
    exact .append (.append (.append (.append (refers_guard (e := some e) (by simpa using test)
      (by simpa using resolved.1) known one) (first yes inner resolved.2.1 known two))
      (.plain rfl (.idle rfl)))
      (second no inner resolved.2.2 (yes.sight_known inner known) three)) (.idle rfl)
  | whileLoop e a top done ih =>
    obtain ⟨test, _, body⟩ := ok
    obtain ⟨one, two⟩ := List.append_subset.mp among
    exact .append (.append (.plain rfl (refers_guard (e := some e) (by simpa using test)
      (by simpa using resolved.1) known one)) (ih body inner resolved.2 known two))
      (.plain rfl (.idle rfl))
  | forLoop init e a step top done initIh ih stepIh =>
    obtain ⟨one, test, two, three⟩ := ok
    obtain ⟨front, last⟩ := List.append_subset.mp among
    obtain ⟨front, middle⟩ := List.append_subset.mp front
    obtain ⟨first, guarded⟩ := List.append_subset.mp front
    have block : Sight.Known hosts ([] :: g) := known.cons (List.forall_mem_nil _)
    have behind := one.sight_known inner block
    exact .append (.append (.append (.append (initIh one inner resolved.1 block first)
      (.plain rfl (refers_guard (fun e given => (test e given).1) resolved.2.1 behind guarded)))
      (ih two inner resolved.2.2.1 behind middle))
      (stepIh three inner resolved.2.2.2 (two.sight_known inner behind) last))
      (.plain rfl (.idle rfl))
  | loopWhile a e top done ih =>
    obtain ⟨body, _, test, _⟩ := ok
    obtain ⟨one, two⟩ := List.append_subset.mp among
    exact .append (.append (.plain rfl (ih body inner resolved.1 known one))
      (test.refers resolved.2 (body.sight_known inner known) two))
      (.plain rfl (.plain rfl (.idle rfl)))
  | leave done => exact .idle rfl
  | yield e result =>
    obtain ⟨_, _, _, _, _, given⟩ := ok
    cases e with
    | none => exact .plain rfl (.idle rfl)
    | some e =>
      exact .append ((given e rfl).1.refers (resolved e rfl) known among) (.idle rfl)
  | exit e =>
    cases e with
    | none => exact .idle rfl
    | some e => exact .append ((ok e rfl).1.refers (resolved e rfl) known among) (.idle rfl)

-- A whole program, from its first instruction to the final exit.
theorem Stmt.Ok.refers_program (ok : t.Ok o [t.frame] ready loops)
    (resolved : t.Resolved [[], hostSymbols hosts]) (depths : Nat) :
    Refers hosts t.calls (t.program depths) := by
  have known : Sight.Known hosts [[], hostSymbols hosts] :=
    .cons (by simpa [Sight.Known] using fun s member _ => member) (List.forall_mem_nil _)
  have body := ok.refers (List.cons_ne_nil _ _) resolved known (List.Subset.refl _)
  refine .append (.append (.plain rfl ?_) body) (.idle rfl)
  split
  · exact .nil
  · exact .idle rfl

end

-- The tree that tokens stand for, where every name of the host means what the host declared.
theorem compileTokens_refers {tokens : List Token} {declarations : List Declaration}
    {exitType : Option Ty} (fine : (compileTokens tokens declarations exitType).error = none) :
    ∃ t depths, Compiled tokens declarations exitType
        (compileTokens tokens declarations exitType).program t depths ∧
      Refers declarations t.calls (t.program (depths + 1)) := by
  unfold compileTokens at fine ⊢
  cases ran : Compile.program tokens declarations (Compiler.start tokens exitType) with
  | error e c => simp [ran] at fine
  | ok u c =>
    obtain ⟨t, hosts, after, rest, code, _, stage, deep, unique, routines, known, ends, reads,
      listed⟩ := Compile.program_ok ran
    have ok := reads.program_ok known unique routines
    have resolved := (reads.resolved known.grounded).1
    rw [show Scope.sight [{ depth := 1 }, hosts] = [[], hostSymbols declarations] from
      congrArg (fun symbols => [[], symbols]) listed] at resolved
    exact ⟨t, c.maxDepth, ⟨code, stage, deep, unique, ok, hosts, after, rest, known, ends, reads⟩,
      ok.refers_program resolved _⟩

end ScalarScript
