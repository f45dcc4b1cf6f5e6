import ScalarScript.Script
import ScalarScript.Proofs.Symbolic.Turn
import ScalarScript.Proofs.Typing.Plan
import ScalarScript.Proofs.Typing.State
/-!
What valid bindings provide: for every declaration a slot of the machine, and for every variable a
cell that holds a value of its type.
-/
namespace ScalarScript

variable {World Watch : Type}

-- A declaration, the machine's slot for it, and its cell.
inductive Provides : Declaration → External World → Option Cell → Prop where
  | function {d : Declaration} {ext : External World} {f : HostFunction World}
      (type : d.type = .function) (given : ext.function = some f)
      (arity : ext.arity = d.params.length) (same : ext.returnType = d.returnType)
      (scalar : ext.returnType.isScalar = true) (params : ∀ p ∈ d.params, p ≠ .null) :
      Provides d ext none
  | holder {d : Declaration} {ext : External World} {c : Cell} (type : d.type = c.content.type)
      (scalar : d.type.isScalar = true) (arity : ext.arity = 0) : Provides d ext (some c)

-- Declarations, slots and cells side by side.
inductive Aligned : List Declaration → List (External World) → List (Option Cell) → Prop where
  | nil : Aligned [] [] []
  | cons {d : Declaration} {ext : External World} {cell : Option Cell} {ds : List Declaration}
      {exts : List (External World)} {cells : List (Option Cell)} (first : Provides d ext cell)
      (rest : Aligned ds exts cells) : Aligned (d :: ds) (ext :: exts) (cell :: cells)

theorem Ty.isScalar_of_declarable {name : String} {t : Ty} (named : Ty.declarable? name = .ok t) :
    t.isScalar = true := by
  unfold Ty.declarable? at named
  split at named
  · cases named
    rfl
  · split at named
    · cases named
      rfl
    · split at named
      · cases named
        rfl
      · cases named

theorem Ty.ne_null_of_isScalar {t : Ty} (scalar : t.isScalar = true) : t ≠ .null := by
  rintro rfl
  cases scalar

namespace Binding

theorem paramTypes_ok {function : String} {position : Nat} {names : List String} {types : List Ty}
    (resolved : paramTypes function position names = (types, [])) :
    types.length = names.length ∧ ∀ p ∈ types, p ≠ .null := by
  induction names generalizing position types with
  | nil =>
    cases resolved
    simp
  | cons name rest ih =>
    unfold paramTypes at resolved
    cases inner : paramTypes function (position + 1) rest with
    | mk others errors =>
      cases named : Ty.declarable? name with
      | error e => simp [inner, named] at resolved
      | ok t =>
        simp only [inner, named, Prod.mk.injEq] at resolved
        obtain ⟨rfl, rfl⟩ := resolved
        obtain ⟨length, plain⟩ := ih inner
        refine ⟨by simp [length], ?_⟩
        intro p member
        rcases List.mem_cons.mp member with rfl | later
        · exact Ty.ne_null_of_isScalar (Ty.isScalar_of_declarable named)
        · exact plain p later

theorem resolveFunction_ok {name returnType : String} {params : List String}
    {invoke : Option (HostFunction World)} {d : Declaration} {ext : External World}
    (resolved : resolveFunction name returnType params invoke = .ok (d, ext)) :
    Provides d ext none := by
  unfold resolveFunction at resolved
  cases given : paramTypes name 1 params with
  | mk types errors =>
    cases named : Ty.declarable? returnType with
    | error e => simp [given, named] at resolved
    | ok t =>
      cases invoke with
      | none => simp [given, named] at resolved
      | some f =>
        cases errors with
        | cons e rest => simp [given, named] at resolved
        | nil =>
          simp only [given, named, Option.isNone_some, Bool.false_eq_true, if_false, List.nil_append,
            Except.ok.injEq, Prod.mk.injEq] at resolved
          obtain ⟨rfl, rfl⟩ := resolved
          obtain ⟨length, plain⟩ := paramTypes_ok given
          exact .function rfl rfl (by simp [length]) rfl (Ty.isScalar_of_declarable named) plain

theorem resolveVariable_ok {name : String} {cell : Option Cell} {d : Declaration}
    {ext : External World} (resolved : resolveVariable name cell = .ok (d, ext)) :
    Provides d ext cell := by
  unfold resolveVariable at resolved
  cases cell with
  | none => cases resolved
  | some c =>
    simp only at resolved
    split at resolved
    · cases resolved
      exact .holder rfl (by assumption) rfl
    · cases resolved

theorem resolveOne_ok {position : Nat} {seen : List String} {b : Binding World} {d : Declaration}
    {ext : External World} (resolved : resolveOne position seen b = .ok (d, ext)) :
    Provides d ext b.cell? := by
  unfold resolveOne at resolved
  split at resolved
  · cases resolved
  · split at resolved
    · cases resolved
    · split at resolved
      · cases resolved
      · rcases b with ⟨name, returnType, params, invoke⟩ | ⟨name, cell⟩ | _ | ⟨name, kind⟩
        · exact resolveFunction_ok resolved
        · exact resolveVariable_ok resolved
        · cases resolved
        · cases resolved

theorem resolveFrom_ok {position : Nat} {seen : List String} {bindings : List (Binding World)}
    {bound : Bound World} (resolved : resolveFrom position seen bindings = (bound, [])) :
    Aligned bound.declarations bound.externals bound.cells := by
  induction bindings generalizing position seen bound with
  | nil =>
    cases resolved
    exact .nil
  | cons b rest ih =>
    unfold resolveFrom at resolved
    cases inner : resolveFrom (position + 1) (b.name :: seen) rest with
    | mk others errors =>
      cases first : resolveOne position seen b with
      | error found =>
        simp only [inner, first, Prod.mk.injEq, List.append_eq_nil_iff] at resolved
        obtain ⟨rfl, _, rfl⟩ := resolved
        exact ih inner
      | ok pair =>
        simp only [inner, first, Prod.mk.injEq] at resolved
        obtain ⟨rfl, rfl⟩ := resolved
        exact .cons (resolveOne_ok first) (ih inner)

theorem resolve_ok {bindings : List (Binding World)} {bound : Bound World}
    (resolved : resolve bindings = .ok bound) :
    Aligned bound.declarations bound.externals bound.cells := by
  unfold resolve at resolved
  split at resolved
  · rename_i inner
    cases resolved
    exact resolveFrom_ok inner
  · cases resolved

end Binding

-- The variables that take whatever is stored.
def registersOf (cells : List (Option Cell)) (i : Nat) : Bool :=
  (cells[i]?.join.map Cell.isRegister).getD false

namespace Aligned

variable {ds : List Declaration} {exts : List (External World)} {cells : List (Option Cell)}

theorem at_index {i : Nat} {d : Declaration} (aligned : Aligned ds exts cells)
    (declared : ds[i]? = some d) :
    ∃ ext cell, exts[i]? = some ext ∧ cells[i]? = some cell ∧ Provides d ext cell := by
  induction aligned generalizing i with
  | nil => simp at declared
  | cons first rest ih =>
    cases i with
    | zero =>
      cases declared
      exact ⟨_, _, rfl, rfl, first⟩
    | succ i => exact ih (by simpa using declared)

theorem arity (aligned : Aligned ds exts cells) : ∀ ext ∈ exts, 0 ≤ ext.arity := by
  induction aligned with
  | nil => simp
  | cons first rest ih =>
    intro ext member
    rcases List.mem_cons.mp member with rfl | later
    · cases first with
      | function _ _ arity => omega
      | holder _ _ arity => omega
    · exact ih ext later

theorem plain (aligned : Aligned ds exts cells) :
    ∀ d ∈ ds, d.type ≠ .null ∧ (d.type = .function → ∀ p ∈ d.params, p ≠ .null) := by
  intro d member
  obtain ⟨i, _, here⟩ := List.getElem_of_mem member
  obtain ⟨ext, cell, _, _, provides⟩ := aligned.at_index (List.getElem?_eq_some_iff.mpr ⟨_, here⟩)
  cases provides with
  | function type _ _ _ _ params => exact ⟨by simp [type], fun _ => params⟩
  | holder _ scalar _ =>
    refine ⟨Ty.ne_null_of_isScalar scalar, ?_⟩
    intro isFunction
    rw [isFunction] at scalar
    cases scalar

theorem offers (aligned : Aligned ds exts cells) : Offers ds exts.toArray := by
  intro i d declared isFunction
  obtain ⟨ext, cell, present, _, provides⟩ := aligned.at_index declared
  cases provides with
  | @function f _ given arity same scalar _ =>
    refine ⟨ext, f, ?_, arity, same, scalar⟩
    simp [External.function?, present, given]
  | holder _ scalar _ =>
    rw [isFunction] at scalar
    cases scalar

theorem cellsOk {trusted : Prop} (aligned : Aligned ds exts cells) :
    CellsOk trusted ds (registersOf cells) cells.toArray := by
  intro i d declared held
  obtain ⟨ext, cell, _, present, provides⟩ := aligned.at_index declared
  cases provides with
  | function type => exact absurd type held
  | @holder c type scalar _ =>
    refine ⟨c, by simp [present], fun _ => .inr type.symm, ?_, fun _ => type.symm⟩
    simp [registersOf, present]

theorem hostFrame (aligned : Aligned ds exts cells) (world : World) (watch : Watch)
    (context : Context) :
    HostFrame ds (Machine.start ⟨cells.toArray, world, watch, []⟩ context).scopes := by
  refine ⟨_, rfl, ?_⟩
  intro i d declared held
  obtain ⟨ext, cell, _, present, provides⟩ := aligned.at_index declared
  cases provides with
  | function type => exact absurd type held
  | @holder c type scalar _ => simp [present]

end Aligned

end ScalarScript
