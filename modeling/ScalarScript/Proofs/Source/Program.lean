import ScalarScript.Proofs.Source.Loop
import ScalarScript.Proofs.Source.Scoping
/-!
Compiling whole programs: the words are statements of the grammar in the scope of the host's names,
and the code is that of their tree between a frame and a final exit.
-/
namespace ScalarScript

open Stateful Compile

-- The code of a whole program. A frame without slots is left out.
def Stmt.program (t : Stmt) (depths : Nat) : List Instruction :=
  Instruction.scopeDepth depths :: (if t.count = 0 then [] else [Instruction.pushScope 1 t.count]) ++
    t.code ++ [Instruction.unary .exit .null]

-- The table of the host's names.
structure Table.Hosts (hosts : List Declaration) (t : Table) : Prop where
  outermost : t.depth = 0
  known : ∀ s ∈ t.symbols, s.depth = 0 ∧ s.OfHost hosts

-- What a name of the host means, by its slot.
def Declaration.symbol (d : Declaration) (index : Nat) : Symbol :=
  if d.type = .function then ⟨d.name, .function, 0, index, 0, d.params, d.returnType⟩
  else { name := d.name, type := d.type, depth := 0, index }

-- The names of the host, latest first.
def hostSymbols (hosts : List Declaration) : List Symbol :=
  (hosts.zipIdx.map fun (d, index) => d.symbol index).reverse

theorem hostSymbols_append_singleton (hosts : List Declaration) (d : Declaration) :
    hostSymbols (hosts ++ [d]) = d.symbol hosts.length :: hostSymbols hosts := by
  simp [hostSymbols, List.zipIdx_append]

theorem Declaration.ofHost_symbol {d : Declaration} {hosts : List Declaration} {index : Nat}
    (found : hosts[index]? = some d) :
    (d.symbol index).depth = 0 ∧ (d.symbol index).OfHost hosts := by
  unfold symbol
  split
  · rename_i callable
    exact ⟨rfl, index, d, rfl, found, callable, fun _ => ⟨rfl, rfl⟩⟩
  · rename_i plain
    refine ⟨rfl, index, d, rfl, found, rfl, fun callable => absurd ?_ plain⟩
    simpa [Symbol.isFunction] using callable

theorem Table.Hosts.of_symbols {hosts : List Declaration} {t : Table} (outermost : t.depth = 0)
    (listed : t.symbols = hostSymbols hosts) : t.Hosts hosts := by
  refine ⟨outermost, fun s declared => ?_⟩
  rw [listed, hostSymbols, List.mem_reverse] at declared
  obtain ⟨⟨d, index⟩, member, rfl⟩ := List.mem_map.mp declared
  exact Declaration.ofHost_symbol (List.mem_zipIdx_iff_getElem?.mp member)

namespace Compile

theorem statementBy_ok {self : Compile Unit} {expr : Compile Ty} {steps : Nat}
    (compiles : Compiles (Reads .one) self) (faithful : Faithful .choice expr) :
    Compiles (Reads .one) (statementBy self expr steps) := by
  intro c d u settled ran
  simp only [statementBy, bind_eq_ok_iff (x := token), token_apply, EStateM.Result.ok.injEq,
    ↓existsAndEq, true_and] at ran
  generalize here : c.current.kind = kind at ran
  split at ran
  · exact block_ok compiles settled here ran
  · exact conditional_ok compiles faithful settled here ran
  · exact whileLoop_ok compiles faithful settled here ran
  · exact forLoop_ok compiles faithful settled here ran
  · exact loopWhile_ok compiles faithful settled here ran
  · exact breakLoop_ok settled here ran
  · exact returnValue_ok faithful settled here ran
  · exact exitProgram_ok faithful settled here ran
  · rw [advance_apply] at ran
    cases ran
    refine ⟨c.settled_advanced, .skip, ⟨(EmitsInScope.advance c).toEmits, by simp [Stmt.routines],
      .none (by simp)⟩, ?_⟩
    rw [Compiler.words_of_kind settled here (by decide), Compiler.advanced_scope]
    exact .empty here
  · exact absurd ran (fail_ne_ok _ _ _ _)
  · cases scalar : kind.scalar? with
    | some type =>
      rw [scalar] at ran
      obtain ⟨b, m, declared, ran⟩ := bind_eq_ok_iff.mp ran
      rw [← here] at scalar
      have real : c.current.kind ≠ .finish := by
        intro last
        simp [last, Kind.scalar?] at scalar
      rw [Compiler.words_eq_cons settled real]
      obtain ⟨named, ⟨rfl, _, opened, inner⟩ | ⟨rfl, _, inner⟩⟩ := declaration_eq_ok declared
      · cases ran
        have before := (EmitsInScope.advance c).trans (.advance c.advanced)
        obtain ⟨later, a, builds, reads⟩ :=
          function_ok compiles c.advanced.settled_advanced scalar named opened inner
        refine ⟨later, a, .between before builds (.refl _), ?_⟩
        rwa [Compiler.words_of_kind c.settled_advanced named (by decide), ← before.scope,
          ← before.setting]
      · obtain ⟨later, a, builds, reads⟩ := variables_ok faithful named inner
        simp only [Bool.not_false, if_true, expect_eq_ok_iff] at ran
        obtain ⟨ended, rfl⟩ := ran
        refine ⟨m.settled_advanced, a, .between (.refl _) builds (.advance m), ?_⟩
        rw [Compiler.words_of_kind later ended (by decide)] at reads
        rw [Compiler.advanced_scope]
        exact .declare scalar reads ended
    | none =>
      rw [scalar] at ran
      obtain ⟨_, m, inner, ran⟩ := bind_eq_ok_iff.mp ran
      obtain ⟨ended, rfl⟩ := expect_eq_ok_iff.mp ran
      obtain ⟨later, a, builds, scope, reads⟩ := simple_ok faithful settled inner
      refine ⟨m.settled_advanced, a, .between (.refl _) builds (.advance m), ?_⟩
      rw [Compiler.words_of_kind later ended (by decide)] at reads
      rw [Compiler.advanced_scope, scope]
      exact .simple reads ended

theorem statement_ok (depth : Nat) : Compiles (Reads .one) (statement depth) := by
  induction depth with
  | zero =>
    intro c d u settled ran
    exact absurd ran (fail_ne_ok _ _ _ _)
  | succ depth ih => exact statementBy_ok ih (expression_ok depth)

-- Statements up to the end, where no word is left that the compiler looks at.
theorem topLevel_ok {statement : Compile Unit} (compiles : Compiles (Reads .one) statement)
    (steps : Nat) {c d : Compiler} {u : Unit} (settled : c.Settled)
    (ran : topLevel statement steps c = .ok u d) :
    d.current.kind = .finish ∧ d.Settled ∧
      ∃ t, Builds c t d ∧ Reads .many c.setting c.scope c.words t d.scope d.words := by
  induction steps generalizing c with
  | zero => exact absurd ran (fail_ne_ok _ _ _ _)
  | succ steps ih =>
    simp only [topLevel, bind_eq_ok_iff (x := token), token_apply, EStateM.Result.ok.injEq,
      ↓existsAndEq, true_and, ne_eq, ite_not] at ran
    split at ran
    · rename_i last
      cases ran
      exact ⟨last, settled, .skip, ⟨.refl _, by simp [Stmt.routines], .none (Nat.le_refl _)⟩, .done⟩
    · obtain ⟨_, m, first, ran⟩ := bind_eq_ok_iff.mp ran
      obtain ⟨middle, a, builds, reads⟩ := compiles settled first
      obtain ⟨last, later, b, more, others⟩ := ih middle ran
      rw [builds.emits.setting] at others
      exact ⟨last, later, .seq a b, builds.seq more, .next reads others⟩

-- A declared name of the host has the next slot of depth 0.
theorem declareHost_ok {h : Declaration} {c d : Compiler} {u : Unit}
    (outermost : c.scope.top.depth = 0) (ran : declareHost h c = .ok u d) :
    d = { c with scope := (c.scope.claimed 1).adding [h.symbol c.scope.count] } := by
  obtain ⟨s, inner⟩ := discard_eq_ok_iff.mp ran
  obtain ⟨scope, declared, rfl⟩ := onScope_eq_ok_iff.mp inner
  split at declared
  · rename_i callable
    obtain ⟨rfl, rfl⟩ := Scope.declareHostFunction_eq_ok declared
    rw [Declaration.symbol, if_pos callable]
  · rename_i plain
    obtain ⟨rfl, rfl⟩ := Scope.declare_eq_ok declared
    rw [Declaration.symbol, if_neg plain, outermost]

-- The names of the host take the slots in their order.
theorem declareHosts_ok {before rest : List Declaration} {t : Table} {c d : Compiler} {u : Unit}
    (scope : c.scope = [t]) (plain : t.isBlock = false) (depth : t.depth = 0)
    (count : t.slots = before.length) (listed : t.symbols = hostSymbols before)
    (ran : rest.forM declareHost c = .ok u d) :
    ∃ t' : Table, d = { c with scope := [t'] } ∧ t'.depth = 0 ∧
      t'.symbols = hostSymbols (before ++ rest) := by
  induction rest generalizing before t c with
  | nil =>
    cases ran
    exact ⟨t, by rw [← scope], depth, by rw [listed, List.append_nil]⟩
  | cons h rest ih =>
    simp only [List.forM_eq_forM, List.forM_cons, bind_eq_ok_iff] at ran
    obtain ⟨_, m, first, ran⟩ := ran
    obtain rfl := declareHost_ok (by rw [scope]; exact depth) first
    have slot : c.scope.count = before.length := by simp [scope, Scope.count, plain, count]
    let t₁ : Table :=
      { t with slots := t.slots + 1, symbols := h.symbol before.length :: t.symbols }
    have after : (c.scope.claimed 1).adding [h.symbol c.scope.count] = [t₁] := by
      rw [slot]
      simp [scope, Scope.claimed, Scope.adding, plain, t₁]
    have listedAfter : t₁.symbols = hostSymbols (before ++ [h]) := by
      rw [hostSymbols_append_singleton, ← listed]
    have countAfter : t₁.slots = (before ++ [h]).length := by simp [t₁, count]
    have final := ih (c := { c with scope := (c.scope.claimed 1).adding [h.symbol c.scope.count] })
      after plain depth countAfter listedAfter ran
    rwa [List.append_assoc] at final

@[simp] theorem enter_apply (table : Table) (c : Compiler) :
    enter table c = .ok ⟨⟩ (c.inside table) := rfl

@[simp] theorem leave_apply (c : Compiler) : leave c = .ok ⟨⟩ c.outside := rfl

-- The two instructions in front get their numbers last, and an empty frame goes.
theorem front_code {c d : Compiler} {code : List Instruction} {i j : Instruction}
    (empty : c.program.code = #[]) (emits : Emits ((c.push i).push j) d code)
    (k : Instruction) (plain : k.opcode ≠ .debugLine) :
    (strip ((d.program.code.setIfInBounds 0 k).eraseIdxIfInBounds 1).toList = k :: code ∧
      MarkersLead ((d.program.code.setIfInBounds 0 k).eraseIdxIfInBounds 1).toList) ∧
      ∀ l : Instruction, l.opcode ≠ .debugLine →
        strip ((d.program.code.setIfInBounds 0 k).setIfInBounds 1 l).toList = k :: l :: code ∧
        MarkersLead ((d.program.code.setIfInBounds 0 k).setIfInBounds 1 l).toList := by
  obtain ⟨new, added, rfl, lead⟩ := emits.added
  have whole : d.program.code = (i :: j :: new).toArray := by
    apply Array.toList_inj.mp
    simpa [Compiler.push, empty] using added
  refine ⟨?_, ?_⟩
  · have short : ((d.program.code.setIfInBounds 0 k).eraseIdxIfInBounds 1).toList = k :: new := by
      simp [whole]
    rw [short]
    exact ⟨strip_cons_other plain new, .cons plain lead⟩
  · intro l mark
    have long : ((d.program.code.setIfInBounds 0 k).setIfInBounds 1 l).toList = k :: l :: new := by
      simp [whole]
    rw [long, strip_cons_other plain, strip_cons_other mark]
    exact ⟨rfl, .cons plain (.cons mark lead)⟩

-- The words of a source, up to its end.
def sourceWords (tokens : List Token) : List Token := tokens.filter (·.kind ≠ .lineMark)

theorem program_ok {tokens : List Token} {declarations : List Declaration} {exitType : Option Ty}
    {d : Compiler} {u : Unit}
    (ran : program tokens declarations (Compiler.start tokens exitType) = .ok u d) :
    ∃ (t : Stmt) (hosts : Table) (after : Scope) (rest : List Token),
      strip d.program.code.toList = t.program (d.maxDepth + 1) ∧
      MarkersLead d.program.code.toList ∧
      d.program.stage = .building ∧ 1 ≤ d.maxDepth ∧ (labelsOf t.code).Nodup ∧
      (∀ r ∈ t.routines, r.depth ≤ d.maxDepth) ∧ hosts.Hosts declarations ∧
      (∀ u ∈ rest.head?, u.kind = .finish) ∧
      Reads .many ⟨[], none, exitType⟩ [{ depth := 1 }, hosts] (sourceWords tokens) t after
        rest ∧
      hosts.symbols = hostSymbols declarations := by
  simp only [program, bind_eq_ok_iff (x := place _), place_apply, bind_eq_ok_iff (x := innermost),
    innermost_apply, bind_eq_ok_iff (x := enter _), enter_apply, bind_eq_ok_iff (x := seek _),
    seek_apply, bind_eq_ok_iff (x := emit _), emit_apply, bind_eq_ok_iff (x := get), get_apply,
    bind_eq_ok_iff (x := leave), leave_apply, bind_eq_ok_iff (x := amend _ _), amend_apply,
    bind_eq_ok_iff (x := topLevel _ _), bind_eq_ok_iff (x := List.forM _ _),
    EStateM.Result.ok.injEq, ↓existsAndEq, true_and, and_true, exists_const] at ran
  obtain ⟨_, c, declared, _, m, inner, ran⟩ := ran
  have bare : ({} : Table).symbols = hostSymbols [] := rfl
  obtain ⟨hosts, rfl, outermost, listed⟩ := declareHosts_ok rfl rfl rfl rfl bare declared
  have known := Table.Hosts.of_symbols outermost listed
  generalize hc : { Compiler.start tokens exitType with scope := [hosts] } = c at *
  have empty : c.program.code = #[] := by rw [← hc]; rfl
  have table : c.scope.top.child = { depth := 1 } := by
    rw [← hc]
    simp [Scope.top, Table.child, known.outermost]
  obtain ⟨last, later, t, builds, reads⟩ :=
    topLevel_ok (statement_ok _) _ (Compiler.settled_settle _ _) inner
  have start := EmitsInScope.settle ((c.push (.scopeDepth 0)).push (.pushScope 1 0) |>.inside
    ((c.push (.scopeDepth 0)).push (.pushScope 1 0)).scope.top.child) tokens
  have finish := EmitsInScope.emitted (i := .unary .exit .null) (by rintro ⟨⟩) m
  have emits := ((start.toEmits.trans builds.emits).trans finish.toEmits).within
  have startScope : ((((c.push (.scopeDepth 0)).push (.pushScope 1 0)).inside
      ((c.push (.scopeDepth 0)).push (.pushScope 1 0)).scope.top.child).settle tokens).scope =
      [{ depth := 1 }, hosts] := by
    rw [start.scope]
    change c.scope.top.child :: c.scope = _
    rw [table, ← hc]
  have size : (m.emitted (.unary .exit .null)).scope.count = t.count := by
    obtain ⟨extra, scope⟩ := reads.scope_eq
    rw [finish.scope, scope, startScope, Scope.count_adding]
    simp [Scope.claimed, Scope.count]
  have deeper : 1 ≤ (m.emitted (.unary .exit .null)).maxDepth := by
    have child : c.scope.top.child.depth = 1 := by rw [table]
    have inside : 1 ≤ max c.maxDepth c.scope.top.child.depth :=
      child.symm.le.trans (le_max_right ..)
    exact inside.trans ((start.toEmits.trans builds.emits).trans finish.toEmits).deeper
  have deep : ∀ r ∈ t.routines, r.depth ≤ (m.emitted (.unary .exit .null)).maxDepth :=
    fun r member => (builds.deep r member).trans finish.deeper
  have final : ∀ u ∈ m.words.head?, u.kind = .finish := by
    intro u first
    rw [← Compiler.current_eq_of_mem later first]
    exact last
  have read : Reads .many ⟨[], none, exitType⟩ [{ depth := 1 }, hosts] (sourceWords tokens) t
      m.scope m.words := by
    rw [start.setting, startScope, Compiler.words_settle] at reads
    change Reads .many c.setting _ (sourceWords tokens) t _ _ at reads
    rwa [← hc] at reads
  have stage := emits.stage.trans (show c.program.stage = .building by rw [← hc]; rfl)
  obtain ⟨short, long⟩ := front_code empty emits
    (.scopeDepth ((m.emitted (.unary .exit .null)).maxDepth + 1 : Nat)) (by rintro ⟨⟩)
  rw [size] at ran
  split at ran
  · rename_i framed
    simp only [bind_eq_ok_iff, amend_apply, get_apply, report, modify_apply,
      EStateM.Result.ok.injEq, ↓existsAndEq, true_and, exists_const] at ran
    subst ran
    obtain ⟨long, lead⟩ := long (.pushScope 1 t.count) (by rintro ⟨⟩)
    refine ⟨t, hosts, m.scope, m.words, long.trans ?_, lead, stage, deeper,
      builds.numbered.unique, deep, known, final, read, listed⟩
    rw [Stmt.program, if_neg (by omega)]
    rfl
  · rename_i bare
    simp only [bind_eq_ok_iff, get_apply, report, modify_apply, EStateM.Result.ok.injEq,
      ↓existsAndEq, true_and, exists_const] at ran
    subst ran
    refine ⟨t, hosts, m.scope, m.words, short.1.trans ?_, short.2, stage, deeper,
      builds.numbered.unique, deep, known, final, read, listed⟩
    rw [Stmt.program, if_pos (by simpa using bare)]
    rfl

end Compile

end ScalarScript
