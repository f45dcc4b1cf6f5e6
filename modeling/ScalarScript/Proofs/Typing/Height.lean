import ScalarScript.Proofs.Typing.Parts
/-!
How high the stack of the running body is, told from the code alone: every address has one height,
however control comes there. Between statements a body has nothing on the stack.
-/
namespace ScalarScript

open Compile (eax ebx)

-- The number of operands that a body has on the stack before some code.
def Plan.height (Γ : Plan) : List Instruction → Nat
  | [] => 0
  | i :: rest =>
    match i.opcode with
    | .push => Γ.height rest - 1
    | .pop => Γ.height rest + 1
    | .jump | .label => ((Γ.labels i.target).map (·.stack.length)).getD 0
    | .call => Γ.height rest + ((Γ.outline.functions i.target).map (·.params.length)).getD 0
    | .hostCall => Γ.height rest + ((Γ.outline.hosts[i.target.toNat]?).map (·.params.length)).getD 0
    | .exit | .ret => 0
    | _ => Γ.height rest

section

variable {Γ : Plan} {υ σ : Shape} {code rest other : List Instruction} {chain : Chain}
  {ready : Ready}

theorem Symbol.Fits.params_of_script {s : Symbol} (fits : s.Fits Γ.outline chain ready)
    (inner : s.depth ≠ 0) (function : s.isFunction = true) :
    (Γ.outline.functions s.label).map (·.params.length) = some s.params.length := by
  rw [Symbol.Fits, if_neg inner, if_pos function] at fits
  obtain ⟨_, body, f, before, known, _⟩ := fits
  rw [known]
  rfl

theorem Symbol.Fits.params_of_host {s : Symbol} (fits : s.Fits Γ.outline chain ready)
    (outer : s.depth = 0) (function : s.isFunction = true) :
    (Γ.outline.hosts[s.index.toNat]?).map (·.params.length) = some s.params.length := by
  rw [Symbol.Fits, if_pos outer] at fits
  obtain ⟨i, d, index, declared, _, callable⟩ := fits
  rw [index, Int.toNat_natCast, declared, ← (callable function).1]
  rfl

-- Checked code has the height of its shape.
theorem Check.height (checked : Check Γ υ σ code) (final : υ.stack = []) :
    Γ.height code = σ.stack.length := by
  induction checked with
  | nil => rw [final]; rfl
  | load _ _ _ ih | store _ _ _ _ _ _ ih | keep _ _ ih | binary _ _ _ ih | unary _ _ ih
  | compare _ _ _ _ _ ih | setIf _ _ _ ih | test _ _ ih | jumpIf _ _ _ _ _ ih
  | allocate _ _ _ _ _ _ ih | pushScope _ _ _ _ _ ih | popScope _ _ _ _ ih =>
    exact ih
  | push given later ih =>
    change Γ.height _ - 1 = _
    rw [ih]
    rfl
  | pop given later ih | receive inside plain fits given into later ih =>
    change Γ.height _ + 1 = _
    rw [ih, given]
    rfl
  | @jump _ _ label _ _ target meets later ih | @label _ label _ _ target meets later ih =>
    change ((Γ.labels label).map _).getD 0 = _
    rw [target, meets.stack]
    rfl
  | @call σ s given stack rest inside inner function fits arguments into later ih =>
    change Γ.height _ + ((Γ.outline.functions s.label).map _).getD 0 = _
    rw [ih, fits.params_of_script inner function, arguments, List.length_append, into.length_eq,
      List.length_reverse, Nat.add_comm]
    rfl
  | @hostCall σ s given stack rest inside outer function fits arguments into later ih =>
    change Γ.height _ + ((Γ.outline.hosts[s.index.toNat]?).map _).getD 0 = _
    rw [ih, fits.params_of_host outer function, arguments, List.length_append, into.length_eq,
      List.length_reverse, Nat.add_comm]
    rfl
  | exitNull empty later ih | exit empty given into later ih
  | ret outside chain function empty given into later ih =>
    rw [empty]
    rfl

-- What stands behind some code matters by its height only.
theorem Plan.height_append (same : Γ.height rest = Γ.height other) :
    Γ.height (code ++ rest) = Γ.height (code ++ other) := by
  induction code with
  | nil => exact same
  | cons i code ih => simp only [List.cons_append, height, ih]

end

-- A statement at its place in some code.
structure Portion where
  before : List Instruction
  stmt : Stmt
  after : List Instruction

-- The same place in longer code.
def Portion.within (x y : List Instruction) (p : Portion) : Portion :=
  ⟨x ++ p.before, p.stmt, p.after ++ y⟩

def Portion.code (p : Portion) : List Instruction := p.before ++ p.stmt.code ++ p.after

theorem Portion.code_within (x y : List Instruction) (p : Portion) :
    (p.within x y).code = x ++ p.code ++ y := by
  simp [code, within]

namespace Stmt

-- The statements directly inside a statement.
def portions : Stmt → List Portion
  | seq a b => [⟨[], a, b.code⟩, ⟨a.code, b, []⟩]
  | block a => [⟨[], a, []⟩]
  | function r body =>
    [⟨[.branch .jump r.skip, .label r.entry, .pushScope r.depth (r.params.length + body.count)] ++
      r.receive, body, conclude r⟩]
  | ifThen e a otherwise => [⟨guard (some e) otherwise, a, [.label otherwise]⟩]
  | ifElse e a b otherwise done =>
    [⟨guard (some e) otherwise, a, [.branch .jump done, .label otherwise] ++ b.code ++ [.label done]⟩,
      ⟨guard (some e) otherwise ++ a.code ++ [.branch .jump done, .label otherwise], b, [.label done]⟩]
  | whileLoop e a top done =>
    [⟨.label top :: guard (some e) done, a, [.branch .jump top, .label done]⟩]
  | forLoop init e a step top done =>
    [⟨[], init, .label top :: guard e done ++ a.code ++ step.code ++
        [.branch .jump top, .label done]⟩,
      ⟨init.code ++ .label top :: guard e done, a, step.code ++ [.branch .jump top, .label done]⟩,
      ⟨init.code ++ .label top :: guard e done ++ a.code, step, [.branch .jump top, .label done]⟩]
  | loopWhile a e top done =>
    [⟨[.label top], a, e.code ++ [.unary .test eax, .branch (.jumpIf .notEqual) top, .label done]⟩]
  | _ => []

-- Every statement of a program, with the code around it.
inductive Includes (t : Stmt) : Portion → Prop where
  | whole : Includes t ⟨[], t, []⟩
  | inner {p q : Portion} (outer : Includes t p) (here : q ∈ p.stmt.portions) :
      Includes t (q.within p.before p.after)

theorem code_of_mem_portions {t : Stmt} {p : Portion} (here : p ∈ t.portions) :
    p.code = t.code := by
  cases t with
  | skip | expr e | assign s e | declare type s init | leave done | yield e result | exit e =>
    cases here
  | block a | function r body | ifThen e a otherwise | whileLoop e a top done
  | loopWhile a e top done =>
    obtain rfl := List.mem_singleton.mp here
    simp [Portion.code, code]
  | seq a b | ifElse e a b otherwise done =>
    simp only [portions, List.mem_cons, List.not_mem_nil, or_false] at here
    rcases here with rfl | rfl <;> simp [Portion.code, code]
  | forLoop init e a step top done =>
    simp only [portions, List.mem_cons, List.not_mem_nil, or_false] at here
    rcases here with rfl | rfl | rfl <;> simp [Portion.code, code]

-- A statement stands where it is said to.
theorem Includes.code_eq {t : Stmt} {p : Portion} (includes : t.Includes p) : p.code = t.code := by
  induction includes with
  | whole => simp [Portion.code]
  | inner outer here ih => rw [Portion.code_within, code_of_mem_portions here, ← ih, Portion.code]

end Stmt

-- A statement whose names lead somewhere, at a place from which all its labels are known.
def Stmt.Known (Γ : Plan) (t : Stmt) : Prop :=
  ∃ chain before loops, t.Ok Γ.outline chain before loops ∧
    (∀ p ∈ t.marks chain before, Γ.labels p.1 = some p.2) ∧ Concludes Γ chain ∧
    (t.leaves = true → Leaves Γ chain before loops)

section

variable {Γ : Plan} {t : Stmt} {rest : List Instruction}

-- A statement starts and ends with nothing on the stack.
theorem Stmt.Known.height (known : t.Known Γ) (plain : Γ.outline.Plain)
    (empty : Γ.height rest = 0) : Γ.height (t.code ++ rest) = 0 := by
  obtain ⟨chain, before, loops, ok, marks, ends, leaves⟩ := known
  let σ : Shape := ⟨⟨chain, true, before, [], none⟩, none, none⟩
  have follows : Follows Γ σ chain before [] (t.code ++ [Instruction.unary .exit .null]) :=
    t.check plain ok marks ends leaves fun _ _ _ _ empty => .exitNull empty .nil
  have whole := (follows σ rfl rfl (List.Subset.refl _) rfl).height rfl
  have same : Γ.height rest = Γ.height [.unary .exit .null] := empty
  exact (Plan.height_append same).trans whole

theorem Plan.height_of_label {label : Int} {m : Mark} (known : Γ.labels label = some m)
    (empty : m.stack = []) : Γ.height (.label label :: rest) = 0 := by
  change ((Γ.labels label).map _).getD 0 = 0
  rw [known]
  simp [empty]

theorem Plan.height_of_jump {label : Int} {m : Mark} (known : Γ.labels label = some m)
    (empty : m.stack = []) : Γ.height (.branch .jump label :: rest) = 0 := by
  change ((Γ.labels label).map _).getD 0 = 0
  rw [known]
  simp [empty]

-- The statements inside are at such places as well, and end with nothing on the stack.
theorem Stmt.Known.portion (known : t.Known Γ) (plain : Γ.outline.Plain) {p : Portion}
    (here : p ∈ t.portions) (empty : Γ.height rest = 0) :
    p.stmt.Known Γ ∧ Γ.height (p.after ++ rest) = 0 := by
  obtain ⟨chain, before, loops, ok, marks, ends, leaves⟩ := known
  cases t with
  | skip | expr e | assign s e | declare type s init | leave done | yield e result | exit e =>
    cases here
  | block a =>
    obtain rfl := List.mem_singleton.mp here
    exact ⟨⟨chain, before, loops, ok, marks, ends, leaves⟩, empty⟩
  | seq a b =>
    rw [Stmt.marks, List.forall_mem_append] at marks
    rw [Stmt.leaves, Bool.or_eq_true] at leaves
    have second : b.Known Γ :=
      ⟨chain, _, loops, ok.2, marks.2, ends, fun out => (leaves (.inr out)).mono (a.subset_ready _)⟩
    simp only [portions, List.mem_cons, List.not_mem_nil, or_false] at here
    rcases here with rfl | rfl
    · exact ⟨⟨chain, before, loops, ok.1, marks.1, ends, fun out => leaves (.inl out)⟩,
        second.height plain empty⟩
    · exact ⟨second, empty⟩
  | function r body =>
    simp only [Stmt.marks, List.cons_append, List.forall_mem_cons, List.forall_mem_append,
      List.not_mem_nil, IsEmpty.forall_iff, implies_true, and_true] at marks
    obtain ⟨entry, bodyMarks, result, skip⟩ := marks
    have scalar : r.returnType.ty ≠ .null := by cases r.returnType <;> rintro ⟨⟩
    have inner : Concludes Γ (r.frame body :: chain) := by
      rintro _ ⟨rfl⟩ _ ⟨rfl⟩
      exact ⟨scalar, result⟩
    have ending : Γ.height (Instruction.label r.result ::
        [.popScope r.depth, .plain .ret, .label r.skip] ++ rest) = 0 := Plan.height_of_label result rfl
    obtain rfl := List.mem_singleton.mp here
    exact ⟨⟨_, _, [], ok.2.2.2.2, bodyMarks, inner, fun _ => by simp [Leaves]⟩, ending⟩
  | ifThen e a otherwise =>
    simp only [Stmt.marks, List.forall_mem_append, List.forall_mem_singleton] at marks
    obtain ⟨⟨_, aMarks⟩, target⟩ := marks
    obtain rfl := List.mem_singleton.mp here
    exact ⟨⟨chain, before, loops, ok.2.2, aMarks, ends, leaves⟩, Plan.height_of_label target rfl⟩
  | ifElse e a b otherwise done =>
    simp only [Stmt.marks, List.forall_mem_append, List.forall_mem_singleton] at marks
    obtain ⟨⟨⟨⟨_, aMarks⟩, other⟩, bMarks⟩, target⟩ := marks
    rw [Stmt.leaves, Bool.or_eq_true] at leaves
    simp only [portions, List.mem_cons, List.not_mem_nil, or_false] at here
    rcases here with rfl | rfl
    · exact ⟨⟨chain, before, loops, ok.2.2.1, aMarks, ends, fun out => leaves (.inl out)⟩,
        Plan.height_of_jump target rfl⟩
    · exact ⟨⟨chain, before, loops, ok.2.2.2, bMarks, ends, fun out => leaves (.inr out)⟩,
        Plan.height_of_label target rfl⟩
  | whileLoop e a top done =>
    simp only [Stmt.marks, List.cons_append, List.forall_mem_cons, List.forall_mem_append,
      List.not_mem_nil, IsEmpty.forall_iff, implies_true, and_true] at marks
    obtain ⟨start, ⟨_, aMarks⟩, target⟩ := marks
    have out : Leaves Γ chain before (done :: loops) := by
      rintro _ ⟨rfl⟩
      exact ⟨before, List.Subset.refl _, target⟩
    obtain rfl := List.mem_singleton.mp here
    exact ⟨⟨chain, before, done :: loops, ok.2.2, aMarks, ends, fun _ => out⟩,
      Plan.height_of_jump start rfl⟩
  | forLoop init e a step top done =>
    obtain ⟨initOk, eOk, aOk, stepOk⟩ := ok
    simp only [Stmt.marks, List.forall_mem_cons, List.forall_mem_append, List.not_mem_nil,
      IsEmpty.forall_iff, implies_true, and_true] at marks
    obtain ⟨⟨⟨⟨initMarks, start, _⟩, aMarks⟩, stepMarks⟩, target⟩ := marks
    have out : Leaves Γ chain (init.ready before) (done :: loops) := by
      rintro _ ⟨rfl⟩
      exact ⟨_, List.Subset.refl _, target⟩
    have again : Γ.height ([Instruction.branch .jump top, .label done] ++ rest) = 0 :=
      Plan.height_of_jump start rfl
    have last : step.Known Γ :=
      ⟨chain, _, [], stepOk, stepMarks, ends, fun _ => by simp [Leaves]⟩
    simp only [portions, List.mem_cons, List.not_mem_nil, or_false] at here
    rcases here with rfl | rfl | rfl
    · exact ⟨⟨chain, before, [], initOk, initMarks, ends, fun _ => by simp [Leaves]⟩,
        Plan.height_of_label start rfl⟩
    · refine ⟨⟨chain, _, done :: loops, aOk, aMarks, ends, fun _ => out⟩, ?_⟩
      rw [List.append_assoc]
      exact last.height plain again
    · exact ⟨last, again⟩
  | loopWhile a e top done =>
    obtain ⟨aOk, kept, eOk, boolean⟩ := ok
    simp only [Stmt.marks, List.cons_append, List.forall_mem_cons, List.forall_mem_append,
      List.not_mem_nil, IsEmpty.forall_iff, implies_true, and_true] at marks
    obtain ⟨start, ⟨aMarks, eMarks⟩, target⟩ := marks
    obtain rfl := List.mem_singleton.mp here
    refine ⟨⟨chain, before, done :: loops, aOk, aMarks, ends, ?_⟩, ?_⟩
    · rintro out _ ⟨rfl⟩
      exact ⟨_, by rw [kept out]; exact List.Subset.refl _, target⟩
    · -- The condition stands behind the body: its code is that of an expression statement.
      have behind : Γ.height (.label done :: rest) = 0 := Plan.height_of_label target rfl
      have test : Γ.height ([Instruction.unary .test eax, .branch (.jumpIf .notEqual) top,
          .label done] ++ rest) = 0 := behind
      have condition : (Stmt.expr e).Known Γ :=
        ⟨chain, _, [], eOk, eMarks, ends, fun _ => by simp [Leaves]⟩
      rw [List.append_assoc]
      exact condition.height plain test

-- At both ends of every statement of a program there is nothing on the stack.
theorem Stmt.Includes.height (known : t.Known Γ) (plain : Γ.outline.Plain)
    (empty : Γ.height rest = 0) {p : Portion} (includes : t.Includes p) :
    Γ.height (p.stmt.code ++ (p.after ++ rest)) = 0 ∧ Γ.height (p.after ++ rest) = 0 := by
  have inside : p.stmt.Known Γ ∧ Γ.height (p.after ++ rest) = 0 := by
    induction includes with
    | whole => exact ⟨known, empty⟩
    | inner outer here ih =>
      obtain ⟨inner, behind⟩ := ih.1.portion plain here ih.2
      refine ⟨inner, ?_⟩
      rw [Portion.within, List.append_assoc]
      exact behind
  exact ⟨inside.1.height plain inside.2, inside.2⟩

end

end ScalarScript
