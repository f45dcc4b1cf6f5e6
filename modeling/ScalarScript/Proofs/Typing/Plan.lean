import ScalarScript.Proofs.Source.Program
import ScalarScript.Proofs.Typing.Tree
import Mathlib.Data.List.Nodup
/-!
Every tree whose names lead somewhere has a plan: what is known at its labels follows from the tree,
and where labels are distinct, the whole program is checked.
-/
namespace ScalarScript

open Compile (eax ebx)

theorem Symbol.labelsOf_callInstruction (s : Symbol) : labelsOf [s.callInstruction] = [] := by
  unfold Symbol.callInstruction
  split <;> rfl

section

attribute [local simp] labelsOf_cons Instruction.move Instruction.binary Instruction.unary
  Instruction.push Instruction.pop Instruction.branch Instruction.label Instruction.pushScope
  Instruction.popScope Instruction.plain regroup

mutual

-- The labels of a tree are those of its code.
theorem Expr.map_fst_marks (chain : Chain) (ready : Ready) : (e : Expr) → (stack : List Ty) →
    (e.marks chain ready stack).map Prod.fst = labelsOf e.code
  | .constant v, stack => rfl
  | .var s, stack => rfl
  | .call s args, stack => by
    rw [Expr.marks, Expr.code, labelsOf_append, s.labelsOf_callInstruction, List.append_nil,
      args.map_fst_marks chain ready stack]
  | .unary op e, stack => by simp [Expr.marks, Expr.code, e.map_fst_marks chain ready stack]
  | .binary op a b, stack => by
    simp [Expr.marks, Expr.code, a.map_fst_marks chain ready stack,
      b.map_fst_marks chain ready (a.type :: stack)]
  | .compare c a b, stack => by
    simp [Expr.marks, Expr.code, a.map_fst_marks chain ready stack,
      b.map_fst_marks chain ready (a.type :: stack)]
  | .logical c a b done, stack => by
    simp [Expr.marks, Expr.code, a.map_fst_marks chain ready stack,
      b.map_fst_marks chain ready (a.type :: stack)]
  | .choose c a b otherwise done, stack => by
    simp [Expr.marks, Expr.code, c.map_fst_marks chain ready stack,
      a.map_fst_marks chain ready stack, b.map_fst_marks chain ready stack]

theorem Args.map_fst_marks (chain : Chain) (ready : Ready) : (args : Args) → (stack : List Ty) →
    (args.marks chain ready stack).map Prod.fst = labelsOf args.code
  | .nil, stack => rfl
  | .cons e rest, stack => by
    simp [Args.marks, Args.code, e.map_fst_marks chain ready stack,
      rest.map_fst_marks chain ready (e.type :: stack)]

end

theorem Stmt.map_fst_guardMarks (e : Option Expr) (otherwise : Int) (chain : Chain)
    (ready : Ready) : (guardMarks chain ready e).map Prod.fst = labelsOf (guard e otherwise) := by
  cases e with
  | none => rfl
  | some e => simp [guardMarks, guard, e.map_fst_marks chain ready []]

theorem Stmt.map_fst_marks (t : Stmt) (chain : Chain) (before : Ready) :
    (t.marks chain before).map Prod.fst = labelsOf t.code := by
  induction t generalizing chain before with
  | skip => rfl
  | seq a b aKeys bKeys => simp [Stmt.marks, Stmt.code, aKeys, bKeys]
  | block a keys => exact keys chain before
  | expr e => exact e.map_fst_marks chain before []
  | assign s e => simp [Stmt.marks, Stmt.code, e.map_fst_marks chain before []]
  | declare type s init =>
    cases init with
    | none => rfl
    | some e => simp [Stmt.marks, guardMarks, Stmt.code, e.map_fst_marks chain (s :: before) []]
  | function r body keys => simp [Stmt.marks, Stmt.code, Stmt.conclude, keys]
  | ifThen e a otherwise keys =>
    simp [Stmt.marks, Stmt.code, guard, keys, e.map_fst_marks chain before []]
  | ifElse e a b otherwise done aKeys bKeys =>
    simp [Stmt.marks, Stmt.code, guard, aKeys, bKeys, e.map_fst_marks chain before []]
  | whileLoop e a top done keys =>
    simp [Stmt.marks, Stmt.code, guard, keys, e.map_fst_marks chain before []]
  | forLoop init e a step top done initKeys aKeys stepKeys =>
    simp [Stmt.marks, Stmt.code, initKeys, aKeys, stepKeys, map_fst_guardMarks e done]
  | loopWhile a e top done keys =>
    simp [Stmt.marks, Stmt.code, keys, e.map_fst_marks chain (a.ready before) []]
  | leave done => rfl
  | yield e result =>
    cases e with
    | none => rfl
    | some e => simp [Stmt.marks, guardMarks, Stmt.code, e.map_fst_marks chain before []]
  | exit e =>
    cases e with
    | none => rfl
    | some e => simp [Stmt.marks, guardMarks, Stmt.code, e.map_fst_marks chain before []]

end

-- The entries of functions among the labels.
theorem Stmt.starts_sublist (t : Stmt) (chain : Chain) (before : Ready) :
    ((t.functions chain before).map fun p => (p.1, p.2.start)).Sublist (t.marks chain before) := by
  induction t generalizing chain before with
  | seq a b aStarts bStarts =>
    rw [Stmt.functions, Stmt.marks, List.map_append]
    exact (aStarts chain before).append (bStarts chain _)
  | block a starts => exact starts chain before
  | function r body starts =>
    rw [Stmt.functions, Stmt.marks, List.map_cons, List.cons_append]
    exact ((starts _ _).trans (List.sublist_append_left _ _)).cons_cons _
  | ifThen e a otherwise starts =>
    exact ((starts chain before).trans (List.sublist_append_right _ _)).trans
      (List.sublist_append_left _ _)
  | ifElse e a b otherwise done aStarts bStarts =>
    rw [Stmt.functions, Stmt.marks, List.map_append]
    have first := ((aStarts chain before).trans
      (List.sublist_append_right (e.marks chain before []) _)).trans
      (List.sublist_append_left _ [(otherwise, Mark.rest chain before)])
    exact (first.append (bStarts chain before)).trans (List.sublist_append_left _ _)
  | whileLoop e a top done starts =>
    exact ((starts chain before).trans (List.sublist_append_right
      ((top, Mark.rest chain before) :: e.marks chain before []) _)).trans
      (List.sublist_append_left _ _)
  | forLoop init e a step top done initStarts aStarts stepStarts =>
    exact (((aStarts chain (init.ready before)).trans (List.sublist_append_right _ _)).trans
      (List.sublist_append_left _ _)).trans (List.sublist_append_left _ _)
  | loopWhile a e top done starts =>
    have first := ((starts chain before).cons (top, Mark.rest chain before)).trans
      (List.sublist_append_left _ (e.marks chain (a.ready before) []))
    exact first.trans (List.sublist_append_left _ _)
  | skip | expr e | assign s e | declare type s init | leave done | yield e result | exit e =>
    exact List.nil_sublist _

theorem lookup_of_mem {α : Type} {l : List (Int × α)} (unique : (l.map Prod.fst).Nodup)
    {p : Int × α} (member : p ∈ l) : l.lookup p.1 = some p.2 := by
  obtain ⟨before, after, rfl⟩ := List.append_of_mem member
  refine List.lookup_eq_some_iff.mpr ⟨before, after, rfl, ?_⟩
  intro q earlier
  rw [List.map_append, List.nodup_append] at unique
  have other := unique.2.2 q.1 (List.mem_map_of_mem earlier) p.1 (by simp)
  simpa using Ne.symm other

theorem mem_of_lookup {α : Type} {l : List (Int × α)} {label : Int} {a : α}
    (found : l.lookup label = some a) : (label, a) ∈ l := by
  obtain ⟨before, after, rfl, _⟩ := List.lookup_eq_some_iff.mp found
  simp

theorem Stmt.params_of_mem_functions {t : Stmt} {chain : Chain} {before : Ready}
    {p : Int × Signature} (member : p ∈ t.functions chain before) :
    ∀ type ∈ p.2.params, type ≠ .null := by
  induction t generalizing chain before with
  | seq a b aPlain bPlain | ifElse _ a b _ _ aPlain bPlain =>
    rcases List.mem_append.mp member with first | second
    · exact aPlain first
    · exact bPlain second
  | block a plain | ifThen _ a _ plain | whileLoop _ a _ _ plain | loopWhile a _ _ _ plain =>
    exact plain member
  | forLoop _ _ a _ _ _ _ plain _ => exact plain member
  | function r body plain =>
    rcases List.mem_cons.mp member with rfl | inner
    · intro type given
      obtain ⟨scalar, _, rfl⟩ := List.mem_map.mp given
      cases scalar <;> rintro ⟨⟩
    · exact plain inner
  | skip | expr _ | assign _ _ | declare _ _ _ | leave _ | yield _ _ | exit _ => cases member

namespace Stmt

-- The outline of a program, and what is known at its labels.
def outline (t : Stmt) (hosts : List Declaration) (exitType : Option Ty) (depths : Nat) :
    Outline where
  hosts := hosts
  functions label := (t.functions [t.frame] []).lookup label
  passed := t.passed false
  exitType := exitType
  depths := depths

def plan (t : Stmt) (hosts : List Declaration) (exitType : Option Ty) (depths : Nat)
    (trusted : Prop) : Plan where
  outline := t.outline hosts exitType depths
  labels label := (t.marks [t.frame] []).lookup label
  trusted := trusted

end Stmt

-- The parts of a plan agree with each other.
structure Plan.Coherent (Γ : Plan) : Prop where
  plain : Γ.outline.Plain
  starts : ∀ label f, Γ.outline.functions label = some f → Γ.labels label = some f.start

-- The point behind the number of depths, at which the program starts.
def Stmt.start (t : Stmt) : Shape := ⟨⟨[t.frame], t.count = 0, [], [], none⟩, none, none⟩

-- The code from there on.
def Stmt.main (t : Stmt) : List Instruction :=
  (if t.count = 0 then [] else [Instruction.pushScope 1 t.count]) ++ t.code ++
    [Instruction.unary .exit .null]

theorem Stmt.program_eq (t : Stmt) (depths : Nat) :
    t.program depths = Instruction.scopeDepth depths :: t.main := by
  simp [program, main]

-- What declarations and the exit type must be like.
def PlainTypes (hosts : List Declaration) (exitType : Option Ty) : Prop :=
  (∀ d ∈ hosts, d.type ≠ .null ∧ (d.type = .function → ∀ p ∈ d.params, p ≠ .null)) ∧
    ∀ t ∈ exitType, t ≠ .null

section

variable {t : Stmt} {hosts : List Declaration} {exitType : Option Ty} {depths : Nat}
  {trusted : Prop}

theorem Stmt.plan_coherent (plain : PlainTypes hosts exitType) (unique : (labelsOf t.code).Nodup) :
    (t.plan hosts exitType depths trusted).Coherent := by
  have keys := t.map_fst_marks [t.frame] []
  refine ⟨⟨plain.1, ?_, plain.2⟩, ?_⟩
  · intro label f known
    exact Stmt.params_of_mem_functions (mem_of_lookup known)
  · intro label f known
    have member := (t.starts_sublist [t.frame] []).subset
      (List.mem_map_of_mem (mem_of_lookup known))
    exact lookup_of_mem (keys ▸ unique) member

theorem Stmt.plan_check (plain : PlainTypes hosts exitType) (deep : 1 ≤ depths)
    (unique : (labelsOf t.code).Nodup)
    (ok : t.Ok (t.outline hosts exitType depths) [t.frame] [] []) :
    Check (t.plan hosts exitType depths trusted) t.start t.start t.main := by
  have keys := t.map_fst_marks [t.frame] []
  have follows : Follows (t.plan hosts exitType depths trusted) t.start [t.frame] [] []
      (t.code ++ [Instruction.unary .exit .null]) := by
    refine t.check (plan_coherent plain unique).plain ok ?_ ?_ (fun _ => by simp [Leaves]) ?_
    · intro p member
      exact lookup_of_mem (keys ▸ unique) member
    · rintro _ ⟨rfl⟩ _ ⟨⟩
    · exact fun σ _ _ _ empty => .exitNull empty .nil
  unfold main
  split
  · rename_i bare
    exact follows _ rfl (by simp [start, bare]) (List.nil_subset _) rfl
  · rename_i framed
    have outside : t.start.inside = false := by simp [start, framed]
    have length : t.start.chain.length ≤ (t.plan hosts exitType depths trusted).outline.depths := deep
    have size : (t.count : Int) = (t.frame).layout.length := by
      rw [Stmt.frame, Stmt.length_slots]
    rw [size]
    exact .pushScope outside rfl length (by simp [start]) (follows _ rfl rfl (List.nil_subset _) rfl)

end

end ScalarScript
