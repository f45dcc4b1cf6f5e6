import ScalarScript.Proofs.Typing.Plan
/-!
The expressions of a program, each with the code before and behind it. What their code leaves in
`eax` is told by its last instruction.
-/
namespace ScalarScript

open Compile (eax ebx)

-- An expression at its place in some code.
structure Part where
  before : List Instruction
  expr : Expr
  after : List Instruction

namespace Part

-- The same place in longer code.
def within (x y : List Instruction) (p : Part) : Part := ⟨x ++ p.before, p.expr, p.after ++ y⟩

def code (p : Part) : List Instruction := p.before ++ p.expr.code ++ p.after

theorem code_within (x y : List Instruction) (p : Part) : (p.within x y).code = x ++ p.code ++ y := by
  simp [code, within]

end Part

def Args.places : Args → List Part
  | .nil => []
  | .cons e rest =>
    ⟨[], e, .push eax :: rest.code⟩ :: rest.places.map (·.within (e.code ++ [.push eax]) [])

-- The operands of an expression.
def Expr.places : Expr → List Part
  | .constant _ | .var _ => []
  | .call s args => args.places.map (·.within [] [s.callInstruction])
  | .unary op e => [⟨[], e, [.unary (.unary op) eax]⟩]
  | .binary op a b =>
    [⟨[], a, .push eax :: b.code ++ regroup ++ [.binary (.binary op) eax ebx]⟩,
      ⟨a.code ++ [.push eax], b, regroup ++ [.binary (.binary op) eax ebx]⟩]
  | .compare c a b =>
    [⟨[], a, .push eax :: b.code ++ regroup ++ [.binary .compare eax ebx, .unary (.setIf c) eax]⟩,
      ⟨a.code ++ [.push eax], b, regroup ++ [.binary .compare eax ebx, .unary (.setIf c) eax]⟩]
  | .logical c a b done =>
    [⟨[], a, [.unary .test eax, .branch (.jumpIf c.rule.skip) done, .push eax] ++ b.code ++
        regroup ++ [.binary (.binary c.rule.op) eax ebx, .label done]⟩,
      ⟨a.code ++ [.unary .test eax, .branch (.jumpIf c.rule.skip) done, .push eax], b,
        regroup ++ [.binary (.binary c.rule.op) eax ebx, .label done]⟩]
  | .choose c a b otherwise done =>
    [⟨[], c, [.unary .test eax, .branch (.jumpIf .equal) otherwise] ++ a.code ++
        [.branch .jump done, .label otherwise] ++ b.code ++ [.label done]⟩,
      ⟨c.code ++ [.unary .test eax, .branch (.jumpIf .equal) otherwise], a,
        [.branch .jump done, .label otherwise] ++ b.code ++ [.label done]⟩,
      ⟨c.code ++ [.unary .test eax, .branch (.jumpIf .equal) otherwise] ++ a.code ++
        [.branch .jump done, .label otherwise], b, [.label done]⟩]

namespace Stmt

-- The expression of a condition that may be left out.
def guardPlaces : Option Expr → Int → List Part
  | none, _ => []
  | some e, otherwise => [⟨[], e, [.unary .test eax, .branch (.jumpIf .equal) otherwise]⟩]

-- The expressions of a statement that are no operands.
def places : Stmt → List Part
  | skip | declare _ _ none | leave _ | yield none _ | exit none => []
  | seq a b => a.places.map (·.within [] b.code) ++ b.places.map (·.within a.code [])
  | block a => a.places
  | expr e => [⟨[], e, []⟩]
  | assign s e => [⟨[], e, [.move s.operand eax]⟩]
  | declare type s (some e) => [⟨[.unary (.allocate type) s.operand], e, [.move s.operand eax]⟩]
  | function r body =>
    body.places.map (·.within ([.branch .jump r.skip, .label r.entry,
      .pushScope r.depth (r.params.length + body.count)] ++ r.receive) (conclude r))
  | ifThen e a otherwise =>
    (guardPlaces (some e) otherwise).map (·.within [] (a.code ++ [.label otherwise])) ++
      a.places.map (·.within (guard (some e) otherwise) [.label otherwise])
  | ifElse e a b otherwise done =>
    (guardPlaces (some e) otherwise).map (·.within []
        (a.code ++ [.branch .jump done, .label otherwise] ++ b.code ++ [.label done])) ++
      a.places.map (·.within (guard (some e) otherwise)
        ([.branch .jump done, .label otherwise] ++ b.code ++ [.label done])) ++
      b.places.map (·.within (guard (some e) otherwise ++ a.code ++
        [.branch .jump done, .label otherwise]) [.label done])
  | whileLoop e a top done =>
    (guardPlaces (some e) done).map (·.within [.label top]
        (a.code ++ [.branch .jump top, .label done])) ++
      a.places.map (·.within (.label top :: guard (some e) done)
        [.branch .jump top, .label done])
  | forLoop init e a step top done =>
    init.places.map (·.within [] (.label top :: guard e done ++ a.code ++ step.code ++
        [.branch .jump top, .label done])) ++
      (guardPlaces e done).map (·.within (init.code ++ [.label top])
        (a.code ++ step.code ++ [.branch .jump top, .label done])) ++
      a.places.map (·.within (init.code ++ .label top :: guard e done)
        (step.code ++ [.branch .jump top, .label done])) ++
      step.places.map (·.within (init.code ++ .label top :: guard e done ++ a.code)
        [.branch .jump top, .label done])
  | loopWhile a e top done =>
    a.places.map (·.within [.label top]
        (e.code ++ [.unary .test eax, .branch (.jumpIf .notEqual) top, .label done])) ++
      [⟨.label top :: a.code, e, [.unary .test eax, .branch (.jumpIf .notEqual) top, .label done]⟩]
  | yield (some e) result => [⟨[], e, [.branch .jump result]⟩]
  | exit (some e) => [⟨[], e, [.unary .exit eax]⟩]

-- Every expression of a statement, operands of operands included.
inductive Holds (t : Stmt) : Part → Prop where
  | whole {p : Part} (here : p ∈ t.places) : Holds t p
  | operand {p q : Part} (outer : Holds t p) (here : q ∈ p.expr.places) :
      Holds t (q.within p.before p.after)

end Stmt

theorem Args.code_of_mem_places {args : Args} {p : Part} (here : p ∈ args.places) :
    p.code = args.code := by
  induction args using Args.places.induct generalizing p with
  | case1 => cases here
  | case2 e rest ih =>
    simp only [Args.places, List.mem_cons, List.mem_map] at here
    rcases here with rfl | ⟨q, inner, rfl⟩
    · simp [Part.code, Args.code]
    · rw [Part.code_within, ih inner]
      simp [Args.code]

theorem Expr.code_of_mem_places {e : Expr} {p : Part} (here : p ∈ e.places) : p.code = e.code := by
  cases e with
  | constant v => cases here
  | var s => cases here
  | call s args =>
    obtain ⟨q, inner, rfl⟩ := List.mem_map.mp here
    rw [Part.code_within, Args.code_of_mem_places inner]
    simp [Expr.code]
  | unary op e =>
    simp only [Expr.places, List.mem_singleton] at here
    subst here
    simp [Part.code, Expr.code]
  | binary op a b | compare c a b | logical c a b done =>
    simp only [Expr.places, List.mem_cons, List.not_mem_nil, or_false] at here
    rcases here with rfl | rfl <;> simp [Part.code, Expr.code]
  | choose c a b otherwise done =>
    simp only [Expr.places, List.mem_cons, List.not_mem_nil, or_false] at here
    rcases here with rfl | rfl | rfl <;> simp [Part.code, Expr.code]

theorem Stmt.code_of_mem_guardPlaces {e : Option Expr} {otherwise : Int} {p : Part}
    (here : p ∈ guardPlaces e otherwise) : p.code = guard e otherwise := by
  cases e with
  | none => cases here
  | some e =>
    obtain rfl := List.mem_singleton.mp here
    simp [Part.code, guard]

theorem Stmt.code_of_mem_places {t : Stmt} {p : Part} (here : p ∈ t.places) : p.code = t.code := by
  induction t generalizing p with
  | skip | leave done => cases here
  | seq a b aCode bCode =>
    simp only [Stmt.places, List.mem_append, List.mem_map] at here
    rcases here with ⟨q, inner, rfl⟩ | ⟨q, inner, rfl⟩
    · simp [Part.code_within, aCode inner, Stmt.code]
    · simp [Part.code_within, bCode inner, Stmt.code]
  | block a code => exact code here
  | expr e | assign s e =>
    simp only [Stmt.places, List.mem_singleton] at here
    simp [here, Part.code, Stmt.code]
  | declare type s init | yield init result | exit init =>
    cases init with
    | none => cases here
    | some e =>
      simp only [Stmt.places, List.mem_singleton] at here
      simp [here, Part.code, Stmt.code]
  | function r body code =>
    obtain ⟨q, inner, rfl⟩ := List.mem_map.mp here
    simp [Part.code_within, code inner, Stmt.code]
  | ifThen e a otherwise code =>
    simp only [Stmt.places, List.mem_append, List.mem_map] at here
    rcases here with ⟨q, inner, rfl⟩ | ⟨q, inner, rfl⟩
    · simp [Part.code_within, code_of_mem_guardPlaces inner, Stmt.code]
    · simp [Part.code_within, code inner, Stmt.code]
  | ifElse e a b otherwise done aCode bCode =>
    simp only [Stmt.places, List.mem_append, List.mem_map] at here
    rcases here with (⟨q, inner, rfl⟩ | ⟨q, inner, rfl⟩) | ⟨q, inner, rfl⟩
    · simp [Part.code_within, code_of_mem_guardPlaces inner, Stmt.code]
    · simp [Part.code_within, aCode inner, Stmt.code]
    · simp [Part.code_within, bCode inner, Stmt.code]
  | whileLoop e a top done code =>
    simp only [Stmt.places, List.mem_append, List.mem_map] at here
    rcases here with ⟨q, inner, rfl⟩ | ⟨q, inner, rfl⟩
    · simp [Part.code_within, code_of_mem_guardPlaces inner, Stmt.code]
    · simp [Part.code_within, code inner, Stmt.code]
  | forLoop init e a step top done initCode aCode stepCode =>
    simp only [Stmt.places, List.mem_append, List.mem_map] at here
    rcases here with ((⟨q, inner, rfl⟩ | ⟨q, inner, rfl⟩) | ⟨q, inner, rfl⟩) | ⟨q, inner, rfl⟩
    · simp [Part.code_within, initCode inner, Stmt.code]
    · simp [Part.code_within, code_of_mem_guardPlaces inner, Stmt.code]
    · simp [Part.code_within, aCode inner, Stmt.code]
    · simp [Part.code_within, stepCode inner, Stmt.code]
  | loopWhile a e top done code =>
    simp only [Stmt.places, List.mem_append, List.mem_map, List.mem_singleton] at here
    rcases here with ⟨q, inner, rfl⟩ | rfl
    · simp [Part.code_within, code inner, Stmt.code]
    · simp [Part.code, Stmt.code]

-- An expression stands where it is said to.
theorem Stmt.Holds.code_eq {t : Stmt} {p : Part} (holds : t.Holds p) : p.code = t.code := by
  induction holds with
  | whole here => exact Stmt.code_of_mem_places here
  | operand outer here ih => rw [Part.code_within, Expr.code_of_mem_places here, ← ih, Part.code]

-- An expression with the types asked for, whose labels are known.
def Expr.Known (Γ : Plan) (e : Expr) : Prop :=
  ∃ chain ready stack, e.Ok Γ.outline chain ready ∧
    ∀ m ∈ e.marks chain ready stack, Γ.labels m.1 = some m.2

section

variable {Γ : Plan} {chain : Chain} {ready : Ready}

theorem Args.known {args : Args} {stack : List Ty} {p : Part} (typed : args.Typed)
    (fits : args.All (·.Fits Γ.outline chain ready))
    (marks : ∀ m ∈ args.marks chain ready stack, Γ.labels m.1 = some m.2) (here : p ∈ args.places) :
    p.expr.Known Γ := by
  induction args using Args.places.induct generalizing p stack with
  | case1 => cases here
  | case2 e rest ih =>
    rw [Args.marks, List.forall_mem_append] at marks
    simp only [Args.places, List.mem_cons, List.mem_map] at here
    rcases here with rfl | ⟨q, inner, rfl⟩
    · exact ⟨chain, ready, stack, ⟨typed.1, fits.1⟩, marks.1⟩
    · exact ih (p := q) typed.2 fits.2 marks.2 inner

-- The operands of such an expression are such expressions.
theorem Expr.Known.operand {e : Expr} (known : e.Known Γ) {p : Part} (here : p ∈ e.places) :
    p.expr.Known Γ := by
  obtain ⟨chain, ready, stack, ⟨typed, fits⟩, marks⟩ := known
  cases e with
  | constant v => cases here
  | var s => cases here
  | call s args =>
    obtain ⟨q, inner, rfl⟩ := List.mem_map.mp here
    exact Args.known (p := q) typed.2.1 fits.2 marks inner
  | unary op e =>
    simp only [Expr.places, List.mem_singleton] at here
    subst here
    exact ⟨chain, ready, stack, ⟨typed.1, fits⟩, marks⟩
  | binary op a b | compare c a b =>
    rw [Expr.marks, List.forall_mem_append] at marks
    simp only [Expr.places, List.mem_cons, List.not_mem_nil, or_false] at here
    rcases here with rfl | rfl
    · exact ⟨chain, ready, stack, ⟨typed.1, fits.1⟩, marks.1⟩
    · exact ⟨chain, ready, _, ⟨typed.2.1, fits.2⟩, marks.2⟩
  | logical c a b done =>
    rw [Expr.marks, List.forall_mem_append, List.forall_mem_append] at marks
    simp only [Expr.places, List.mem_cons, List.not_mem_nil, or_false] at here
    rcases here with rfl | rfl
    · exact ⟨chain, ready, stack, ⟨typed.1, fits.1⟩, marks.1.1⟩
    · exact ⟨chain, ready, _, ⟨typed.2.1, fits.2⟩, marks.1.2⟩
  | choose c a b otherwise done =>
    simp only [Expr.marks, List.forall_mem_append] at marks
    simp only [Expr.places, List.mem_cons, List.not_mem_nil, or_false] at here
    rcases here with rfl | rfl | rfl
    · exact ⟨chain, ready, stack, ⟨typed.1, fits.1⟩, marks.1.1.1.1⟩
    · exact ⟨chain, ready, stack, ⟨typed.2.1, fits.2.1⟩, marks.1.1.1.2⟩
    · exact ⟨chain, ready, stack, ⟨typed.2.2.1, fits.2.2⟩, marks.1.2⟩

theorem Stmt.guard_known {e : Option Expr} {otherwise : Int} {p : Part}
    (ok : ∀ test ∈ e, test.Ok Γ.outline chain ready)
    (marks : ∀ m ∈ guardMarks chain ready e, Γ.labels m.1 = some m.2)
    (here : p ∈ guardPlaces e otherwise) : p.expr.Known Γ := by
  cases e with
  | none => cases here
  | some e =>
    obtain rfl := List.mem_singleton.mp here
    exact ⟨chain, ready, [], ok e rfl, marks⟩

theorem Stmt.known {t : Stmt} {before : Ready} {loops : List Int} {p : Part}
    (ok : t.Ok Γ.outline chain before loops)
    (marks : ∀ m ∈ t.marks chain before, Γ.labels m.1 = some m.2) (here : p ∈ t.places) :
    p.expr.Known Γ := by
  induction t generalizing p chain before loops with
  | skip | leave done => cases here
  | seq a b aKnown bKnown =>
    rw [Stmt.marks, List.forall_mem_append] at marks
    simp only [Stmt.places, List.mem_append, List.mem_map] at here
    rcases here with ⟨q, inner, rfl⟩ | ⟨q, inner, rfl⟩
    · exact aKnown (p := q) ok.1 marks.1 inner
    · exact bKnown (p := q) ok.2 marks.2 inner
  | block a known => exact known ok marks here
  | expr e =>
    simp only [Stmt.places, List.mem_singleton] at here
    exact here ▸ ⟨chain, before, [], ok, marks⟩
  | assign s e =>
    simp only [Stmt.places, List.mem_singleton] at here
    exact here ▸ ⟨chain, before, [], ok.1, marks⟩
  | declare type s init =>
    cases init with
    | none => cases here
    | some e =>
      simp only [Stmt.places, List.mem_singleton] at here
      obtain ⟨⟨typed, fits⟩, _⟩ := ok.2.2.2.2 e rfl
      exact here ▸ ⟨chain, s :: before, [], ⟨typed, Expr.All.imp
        (fun _ fits => fits.mono (List.subset_cons_self s before)) e fits⟩, marks⟩
  | yield init result =>
    cases init with
    | none => cases here
    | some e =>
      simp only [Stmt.places, List.mem_singleton] at here
      obtain ⟨_, _, _, _, _, values⟩ := ok
      exact here ▸ ⟨chain, before, [], (values e rfl).1, marks⟩
  | exit init =>
    cases init with
    | none => cases here
    | some e =>
      simp only [Stmt.places, List.mem_singleton] at here
      exact here ▸ ⟨chain, before, [], (ok e rfl).1, marks⟩
  | function r body known =>
    simp only [Stmt.marks, List.cons_append, List.forall_mem_cons, List.forall_mem_append] at marks
    obtain ⟨q, inner, rfl⟩ := List.mem_map.mp here
    exact known (p := q) ok.2.2.2.2 marks.2.1 inner
  | ifThen e a otherwise known =>
    simp only [Stmt.marks, List.forall_mem_append] at marks
    simp only [Stmt.places, List.mem_append, List.mem_map] at here
    rcases here with ⟨q, inner, rfl⟩ | ⟨q, inner, rfl⟩
    · refine Stmt.guard_known (e := some e) (p := q) ?_ marks.1.1 inner
      rintro _ ⟨rfl⟩
      exact ok.1
    · exact known (p := q) ok.2.2 marks.1.2 inner
  | ifElse e a b otherwise done aKnown bKnown =>
    simp only [Stmt.marks, List.forall_mem_append] at marks
    simp only [Stmt.places, List.mem_append, List.mem_map] at here
    rcases here with (⟨q, inner, rfl⟩ | ⟨q, inner, rfl⟩) | ⟨q, inner, rfl⟩
    · refine Stmt.guard_known (e := some e) (p := q) ?_ marks.1.1.1.1 inner
      rintro _ ⟨rfl⟩
      exact ok.1
    · exact aKnown (p := q) ok.2.2.1 marks.1.1.1.2 inner
    · exact bKnown (p := q) ok.2.2.2 marks.1.2 inner
  | whileLoop e a top done known =>
    simp only [Stmt.marks, List.cons_append, List.forall_mem_cons, List.forall_mem_append] at marks
    simp only [Stmt.places, List.mem_append, List.mem_map] at here
    rcases here with ⟨q, inner, rfl⟩ | ⟨q, inner, rfl⟩
    · refine Stmt.guard_known (e := some e) (p := q) ?_ marks.2.1.1 inner
      rintro _ ⟨rfl⟩
      exact ok.1
    · exact known (p := q) ok.2.2 marks.2.1.2 inner
  | forLoop init e a step top done initKnown aKnown stepKnown =>
    obtain ⟨initOk, eOk, aOk, stepOk⟩ := ok
    simp only [Stmt.marks, List.forall_mem_cons, List.forall_mem_append] at marks
    simp only [Stmt.places, List.mem_append, List.mem_map] at here
    rcases here with ((⟨q, inner, rfl⟩ | ⟨q, inner, rfl⟩) | ⟨q, inner, rfl⟩) | ⟨q, inner, rfl⟩
    · exact initKnown (p := q) initOk marks.1.1.1.1 inner
    · exact Stmt.guard_known (p := q) (fun test given => (eOk test given).1) marks.1.1.1.2.2 inner
    · exact aKnown (p := q) aOk marks.1.1.2 inner
    · exact stepKnown (p := q) stepOk marks.1.2 inner
  | loopWhile a e top done known =>
    simp only [Stmt.marks, List.cons_append, List.forall_mem_cons, List.forall_mem_append] at marks
    simp only [Stmt.places, List.mem_append, List.mem_map, List.mem_singleton] at here
    rcases here with ⟨q, inner, rfl⟩ | rfl
    · exact known (p := q) ok.1 marks.2.1.1 inner
    · exact ⟨chain, a.ready before, [], ok.2.2.1, marks.2.1.2⟩

theorem Stmt.Holds.known {t : Stmt} {before : Ready} {loops : List Int} {p : Part}
    (holds : t.Holds p) (ok : t.Ok Γ.outline chain before loops)
    (marks : ∀ m ∈ t.marks chain before, Γ.labels m.1 = some m.2) : p.expr.Known Γ := by
  induction holds with
  | whole here => exact Stmt.known ok marks here
  | @operand p q outer here ih => exact ih.operand (p := q) here

end

section

variable {Γ : Plan} {υ σ : Shape}

theorem Check.source_of_load {o : Operand} (checked : Check Γ υ σ [.move eax o]) :
    ∃ t, Source Γ.outline σ.chain σ.ready o t ∧ υ.eax = some t := by
  cases checked with
  | load inside source later =>
    cases later
    exact ⟨_, source, rfl⟩

theorem Source.type_of_constant {o : Outline} {chain : Chain} {ready : Ready} {v : Value} {t : Ty}
    (source : Source o chain ready (.ofValue v) t) : t = v.type := by
  generalize same : Operand.ofValue v = operand at source
  cases source with
  | constant w plain =>
    cases v <;> cases w <;> simp [Operand.ofValue, Value.truth, Value.number, Value.text] at same <;> rfl
  | var s _ _ => cases v <;> cases same

theorem Source.type_of_var {o : Outline} {chain : Chain} {ready : Ready} {s : Symbol} {t : Ty}
    (source : Source o chain ready s.operand t) : t = s.type := by
  generalize same : s.operand = operand at source
  cases source with
  | constant w plain => cases w <;> cases same
  | var u _ _ =>
    simp only [Symbol.operand, Operand.slot.injEq, Slot.mk.injEq] at same
    exact same.1.symm

-- What the call of a function gives is told by its number or its label.
theorem Check.returnType_of_hostCall {s : Symbol} {chain : Chain} {ready : Ready}
    (outer : s.depth = 0) (function : s.isFunction = true) (fits : s.Fits Γ.outline chain ready)
    (checked : Check Γ υ σ [.hostCall s.index s.name]) : υ.eax = some s.returnType := by
  generalize first : Instruction.hostCall s.index s.name = i at checked
  cases checked with
  | hostCall inside outer' callable fits' arguments into later =>
    rw [Symbol.Fits, if_pos outer] at fits
    rw [Symbol.Fits, if_pos outer'] at fits'
    obtain ⟨i, d, index, declared, _, more⟩ := fits
    obtain ⟨j, d', index', declared', _, more'⟩ := fits'
    have same := congrArg Instruction.target first
    simp only [Instruction.hostCall] at same
    have here : i = j := by omega
    rw [← here, declared] at declared'
    cases declared'
    cases later
    rw [← (more function).2, (more' callable).2]
    rfl
  | _ => cases first

theorem Check.returnType_of_call {s : Symbol} {chain : Chain} {ready : Ready}
    (inner : s.depth ≠ 0) (function : s.isFunction = true) (fits : s.Fits Γ.outline chain ready)
    (checked : Check Γ υ σ [.call s.label s.name]) : υ.eax = some s.returnType := by
  generalize first : Instruction.call s.label s.name = i at checked
  cases checked with
  | call inside inner' callable fits' arguments into later =>
    rw [Symbol.Fits, if_neg inner, if_pos function] at fits
    rw [Symbol.Fits, if_neg inner', if_pos callable] at fits'
    obtain ⟨_, body, f, _, known, enclosing, returnType, _⟩ := fits
    obtain ⟨_, body', f', _, known', enclosing', returnType', _⟩ := fits'
    have same := congrArg Instruction.target first
    simp only [Instruction.call] at same
    rw [← same, known, Option.some.injEq, Signature.mk.injEq, List.cons.injEq] at known'
    rw [← known'.2.2.1, enclosing] at enclosing'
    cases enclosing'
    cases later
    rw [← returnType, returnType']
    rfl
  | _ => cases first

-- The code of an expression leaves a value of its type.
theorem Check.eax_of_expr {e : Expr} (known : e.Known Γ) (checked : Check Γ υ σ e.code) :
    υ.eax = some e.type := by
  obtain ⟨chain, ready, stack, ⟨typed, fits⟩, marks⟩ := known
  cases e with
  | constant v =>
    obtain ⟨t, source, held⟩ := checked.source_of_load
    rw [held, source.type_of_constant]
    rfl
  | var s =>
    obtain ⟨t, source, held⟩ := checked.source_of_load
    rw [held, source.type_of_var]
    rfl
  | call s args =>
    rw [Expr.code] at checked
    obtain ⟨τ, _, last⟩ := checked.split
    unfold Symbol.callInstruction at last
    split at last
    · rename_i outer
      exact last.returnType_of_hostCall (by simpa [Symbol.isExternal] using outer) typed.1 fits.1
    · rename_i inner
      exact last.returnType_of_call (by simpa [Symbol.isExternal] using inner) typed.1 fits.1
  | unary op e =>
    rw [Expr.code] at checked
    obtain ⟨τ, _, last⟩ := checked.split
    cases last with
    | unary given later =>
      cases later
      rfl
  | binary op a b =>
    rw [Expr.code] at checked
    obtain ⟨τ, _, last⟩ := checked.split
    cases last with
    | binary left right later =>
      cases later
      rfl
  | compare c a b =>
    rw [Expr.code] at checked
    obtain ⟨τ, _, last⟩ := checked.split
    cases last with
    | compare ordered left right numbers later =>
      cases later with
      | setIf given order later =>
        cases later
        rfl
  | logical c a b done =>
    have known := marks (done, ⟨chain, true, ready, stack, some .bool⟩) (by simp [Expr.marks])
    rw [Expr.code] at checked
    obtain ⟨τ, _, last⟩ := checked.split
    cases last with
    | binary left right later =>
      cases later with
      | label target meets later =>
        rw [known] at target
        cases target
        cases later
        rfl
  | choose c a b otherwise done =>
    have known := marks (done, ⟨chain, true, ready, stack,
      some (if a.type = .null then b.type else a.type)⟩) (by simp [Expr.marks])
    rw [Expr.code] at checked
    obtain ⟨τ, _, last⟩ := checked.split
    cases last with
    | label target meets later =>
      rw [known] at target
      cases target
      cases later
      rfl

end

-- Jumps of the code lead to these labels only.
def JumpsInto (labels : List Int) (code : List Instruction) : Prop :=
  ∀ i ∈ code, i.opcode.isBranch = true → i.opcode ≠ .call → i.target ∈ labels

namespace JumpsInto

theorem append {labels : List Int} {a b : List Instruction} (first : JumpsInto labels a)
    (second : JumpsInto labels b) : JumpsInto labels (a ++ b) := by
  intro i member
  rcases List.mem_append.mp member with early | late
  · exact first i early
  · exact second i late

theorem cons {labels : List Int} {i : Instruction} {code : List Instruction}
    (jump : i.opcode.isBranch = true → i.opcode ≠ .call → i.target ∈ labels)
    (rest : JumpsInto labels code) : JumpsInto labels (i :: code) :=
  List.forall_mem_cons.mpr ⟨jump, rest⟩

theorem nil {labels : List Int} : JumpsInto labels [] := by simp [JumpsInto]

theorem plain {labels : List Int} {i : Instruction} {code : List Instruction}
    (other : i.opcode.isBranch = false) (rest : JumpsInto labels code) :
    JumpsInto labels (i :: code) :=
  cons (fun branch => absurd (other.symm.trans branch) (by rintro ⟨⟩)) rest

end JumpsInto

theorem jumpsInto_regroup {labels : List Int} {code : List Instruction}
    (rest : JumpsInto labels code) : JumpsInto labels (regroup ++ code) :=
  .plain rfl (.plain rfl rest)

section

attribute [local simp] labelsOf_cons Instruction.move Instruction.binary Instruction.unary
  Instruction.push Instruction.pop Instruction.branch Instruction.label regroup

mutual

-- The jumps of an expression stay in it.
theorem Expr.jumps (labels : List Int) : (e : Expr) → labelsOf e.code ⊆ labels →
    JumpsInto labels e.code
  | .constant v, _ => .plain rfl .nil
  | .var s, _ => .plain rfl .nil
  | .call s args, inside => by
    rw [Expr.code] at inside ⊢
    rw [labelsOf_append, List.append_subset] at inside
    refine .append (args.jumps labels inside.1) ?_
    unfold Symbol.callInstruction
    split
    · exact .plain rfl .nil
    · exact .cons (fun _ other => absurd rfl other) .nil
  | .unary op e, inside => by
    rw [Expr.code] at inside ⊢
    rw [labelsOf_append, List.append_subset] at inside
    exact .append (e.jumps labels inside.1) (.plain rfl .nil)
  | .binary op a b, inside => by
    have parts : labelsOf a.code ⊆ labels ∧ labelsOf b.code ⊆ labels := by
      simpa [Expr.code, List.append_subset] using inside
    simp only [Expr.code, List.append_assoc, List.cons_append]
    exact .append (a.jumps labels parts.1) (.plain rfl (.append (b.jumps labels parts.2)
      (jumpsInto_regroup (.plain rfl .nil))))
  | .compare c a b, inside => by
    have parts : labelsOf a.code ⊆ labels ∧ labelsOf b.code ⊆ labels := by
      simpa [Expr.code, List.append_subset] using inside
    simp only [Expr.code, List.append_assoc, List.cons_append]
    exact .append (a.jumps labels parts.1) (.plain rfl (.append (b.jumps labels parts.2)
      (jumpsInto_regroup (.plain rfl (.plain rfl .nil)))))
  | .logical c a b done, inside => by
    have parts : labelsOf a.code ⊆ labels ∧ labelsOf b.code ⊆ labels ∧ done ∈ labels := by
      simpa [Expr.code, List.append_subset] using inside
    simp only [Expr.code, List.append_assoc, List.cons_append, List.nil_append]
    exact .append (a.jumps labels parts.1) (.plain rfl (.cons (fun _ _ => parts.2.2)
      (.plain rfl (.append (b.jumps labels parts.2.1)
        (jumpsInto_regroup (.plain rfl (.plain rfl .nil)))))))
  | .choose c a b otherwise done, inside => by
    have parts : labelsOf c.code ⊆ labels ∧ labelsOf a.code ⊆ labels ∧ otherwise ∈ labels ∧
        labelsOf b.code ⊆ labels ∧ done ∈ labels := by
      simpa [Expr.code, List.append_subset] using inside
    simp only [Expr.code, List.append_assoc, List.cons_append, List.nil_append]
    exact .append (c.jumps labels parts.1) (.plain rfl (.cons (fun _ _ => parts.2.2.1)
      (.append (a.jumps labels parts.2.1) (.cons (fun _ _ => parts.2.2.2.2)
        (.plain rfl (.append (b.jumps labels parts.2.2.2.1) (.plain rfl .nil)))))))

theorem Args.jumps (labels : List Int) : (args : Args) → labelsOf args.code ⊆ labels →
    JumpsInto labels args.code
  | .nil, _ => .nil
  | .cons e rest, inside => by
    rw [Args.code] at inside ⊢
    rw [labelsOf_append, List.append_subset] at inside
    exact .append (e.jumps labels inside.1) (.plain rfl (rest.jumps labels inside.2))

end

end

mutual

-- An expression starts with an instruction that is executed.
theorem Expr.code_head : (e : Expr) → ∃ i rest, e.code = i :: rest ∧ i.opcode ≠ .label
  | .constant v => ⟨_, _, rfl, (by rintro ⟨⟩)⟩
  | .var s => ⟨_, _, rfl, (by rintro ⟨⟩)⟩
  | .call s args => by
    have last : s.callInstruction.opcode ≠ .label := by
      unfold Symbol.callInstruction
      split <;> rintro ⟨⟩
    rcases args.code_head with none | ⟨i, rest, code, other⟩
    · exact ⟨_, _, by rw [Expr.code, none]; rfl, last⟩
    · exact ⟨i, _, by rw [Expr.code, code]; rfl, other⟩
  | .unary op e => by
    obtain ⟨i, rest, code, other⟩ := e.code_head
    exact ⟨i, _, by rw [Expr.code, code]; rfl, other⟩
  | .binary op a b | .compare op a b | .logical op a b _ | .choose a op b _ _ => by
    obtain ⟨i, rest, code, other⟩ := a.code_head
    exact ⟨i, _, by rw [Expr.code, code]; rfl, other⟩

theorem Args.code_head : (args : Args) →
    args.code = [] ∨ ∃ i rest, args.code = i :: rest ∧ i.opcode ≠ .label
  | .nil => .inl rfl
  | .cons e rest => by
    obtain ⟨i, tail, code, other⟩ := e.code_head
    exact .inr ⟨i, _, by rw [Args.code, code]; rfl, other⟩

end

end ScalarScript
