import ScalarScript.Binding
import Mathlib.Data.List.Forall2
/-!
Which lists of bindings can be resolved, and what they resolve to: every binding gives one
declaration, one slot of the machine and one cell, in its place.
-/
namespace ScalarScript

variable {World : Type}

-- The name of a type that can be declared.
def Ty.Named (name : String) (t : Ty) : Prop := ∃ s : Scalar, name = s.ty.name ∧ t = s.ty

theorem Ty.declarable?_eq_ok_iff {name : String} {t : Ty} :
    Ty.declarable? name = .ok t ↔ Ty.Named name t := by
  constructor
  · intro declarable
    unfold Ty.declarable? at declarable
    split at declarable
    · cases declarable
      exact ⟨.bool, ‹_›, rfl⟩
    · split at declarable
      · cases declarable
        exact ⟨.double, ‹_›, rfl⟩
      · split at declarable
        · cases declarable
          exact ⟨.string, ‹_›, rfl⟩
        · cases declarable
  · rintro ⟨s, rfl, rfl⟩
    cases s <;> rfl

theorem Ty.Named.of_error {name e : String} {t : Ty} (failed : Ty.declarable? name = .error e) :
    ¬ Ty.Named name t := fun named => by
  rw [Ty.declarable?_eq_ok_iff.mpr named] at failed
  cases failed

theorem Ty.forall_named_iff {names : List String} :
    (∀ name ∈ names, ∃ t, Ty.Named name t) ↔ ∃ types, List.Forall₂ Ty.Named names types := by
  induction names with
  | nil => exact ⟨fun _ => ⟨[], .nil⟩, fun _ => List.forall_mem_nil _⟩
  | cons name rest ih =>
    rw [List.forall_mem_cons, ih]
    constructor
    · rintro ⟨⟨t, named⟩, types, others⟩
      exact ⟨t :: types, .cons named others⟩
    · rintro ⟨_, _ | ⟨named, others⟩⟩
      exact ⟨⟨_, named⟩, _, others⟩

namespace Binding

-- A function that can be called, with the names of its types, or a variable with a value. Neither
-- a missing binding nor one of another kind is valid.
inductive Valid : Binding World → Prop where
  | function {name returnType : String} {params : List String} {f : HostFunction World}
      (returns : ∃ t, Ty.Named returnType t) (takes : ∀ p ∈ params, ∃ t, Ty.Named p t) :
      Valid (.function name returnType params (some f))
  | holder {name : String} {cell : Cell} (scalar : cell.content.type.isScalar = true) :
      Valid (.variable name (some cell))

-- What a binding is for the compiler and for the machine.
inductive Gives : Binding World → Declaration → External World → Prop where
  | function {name returnType : String} {params : List String} {f : HostFunction World} {ret : Ty}
      {types : List Ty} (returns : Ty.Named returnType ret)
      (takes : List.Forall₂ Ty.Named params types) :
      Gives (.function name returnType params (some f))
        { name, type := .function, params := types, returnType := ret }
        { name, function := some f, arity := params.length, returnType := ret }
  | holder {name : String} {cell : Cell} (scalar : cell.content.type.isScalar = true) :
      Gives (.variable name (some cell)) { name, type := cell.content.type } { name }

theorem valid_iff_gives {b : Binding World} : b.Valid ↔ ∃ d ext, b.Gives d ext := by
  constructor
  · intro valid
    cases valid with
    | function returns takes =>
      obtain ⟨ret, returns⟩ := returns
      obtain ⟨types, takes⟩ := Ty.forall_named_iff.mp takes
      exact ⟨_, _, .function returns takes⟩
    | holder scalar => exact ⟨_, _, .holder scalar⟩
  · rintro ⟨d, ext, gives⟩
    cases gives with
    | function returns takes => exact .function ⟨_, returns⟩ (Ty.forall_named_iff.mpr ⟨_, takes⟩)
    | holder scalar => exact .holder scalar

section Resolve

variable {b : Binding World} {d : Declaration} {ext : External World} {bindings : List (Binding World)}
  {bound : Bound World} {seen : List String} {position : Nat}

theorem paramTypes_eq_ok_iff {function : String} {names : List String} {types : List Ty} :
    paramTypes function position names = (types, []) ↔ List.Forall₂ Ty.Named names types := by
  induction names generalizing position types with
  | nil =>
    rw [List.forall₂_nil_left_iff, paramTypes, Prod.mk.injEq]
    exact ⟨fun same => same.1.symm, fun same => ⟨same.symm, rfl⟩⟩
  | cons name rest ih =>
    rw [List.forall₂_cons_left_iff, paramTypes]
    obtain ⟨others, errors, inner⟩ : ∃ others errors,
      paramTypes function (position + 1) rest = (others, errors) := ⟨_, _, rfl⟩
    rw [inner]
    cases declarable : Ty.declarable? name with
    | error e => simp [Ty.Named.of_error declarable]
    | ok t =>
      constructor
      · rintro ⟨⟩
        exact ⟨t, others, Ty.declarable?_eq_ok_iff.mp declarable, ih.mp inner, rfl⟩
      · rintro ⟨u, types, named, takes, rfl⟩
        have same := (ih.mpr takes).symm.trans inner
        cases same
        rw [Ty.declarable?_eq_ok_iff.mpr named] at declarable
        cases declarable
        rfl

theorem resolveFunction_eq_ok_iff {name returnType : String} {params : List String}
    {invoke : Option (HostFunction World)} :
    resolveFunction name returnType params invoke = .ok (d, ext) ↔
      Gives (.function name returnType params invoke) d ext := by
  obtain ⟨types, errors, given⟩ : ∃ types errors,
    paramTypes name 1 params = (types, errors) := ⟨_, _, rfl⟩
  unfold resolveFunction
  rw [given]
  constructor
  · intro resolved
    cases declarable : Ty.declarable? returnType with
    | error e => simp [declarable] at resolved
    | ok ret =>
      cases invoke with
      | none => simp [declarable] at resolved
      | some f =>
        cases errors with
        | cons e rest => simp [declarable] at resolved
        | nil =>
          simp only [declarable, Option.isNone_some, Bool.false_eq_true, if_false, List.nil_append]
            at resolved
          cases resolved
          exact .function (Ty.declarable?_eq_ok_iff.mp declarable) (paramTypes_eq_ok_iff.mp given)
  · rintro (⟨returns, takes⟩ | _)
    rw [paramTypes_eq_ok_iff.mpr takes] at given
    cases given
    simp [Ty.declarable?_eq_ok_iff.mpr returns]

theorem resolveVariable_eq_ok_iff {name : String} {cell : Option Cell} :
    resolveVariable name cell = .ok (d, ext) ↔ Gives (.variable name cell) d ext := by
  unfold resolveVariable
  constructor
  · intro resolved
    cases cell with
    | none => cases resolved
    | some c =>
      dsimp only at resolved
      split at resolved
      · cases resolved
        exact .holder ‹_›
      · cases resolved
  · rintro (_ | scalar)
    dsimp only
    rw [if_pos scalar]

theorem resolveOne_eq_ok_iff :
    resolveOne position seen b = .ok (d, ext) ↔ b.name ≠ "" ∧ b.name ∉ seen ∧ b.Gives d ext := by
  have kind : b.resolveKind = .ok (d, ext) ↔ b.Gives d ext := by
    cases b with
    | function name returnType params invoke => exact resolveFunction_eq_ok_iff
    | «variable» name cell => exact resolveVariable_eq_ok_iff
    | missing => exact ⟨nofun, nofun⟩
    | foreign name kind => exact ⟨nofun, nofun⟩
  rw [← kind]
  unfold resolveOne
  split
  · simp [Binding.name]
  · by_cases unnamed : b.name = ""
    · simp [unnamed]
    · by_cases used : b.name ∈ seen
      · simp [unnamed, used]
      · simp [unnamed, used]

-- What is refused is refused with a message.
theorem resolveFunction_ne_error_nil {name returnType : String} {params : List String}
    {invoke : Option (HostFunction World)} :
    resolveFunction name returnType params invoke ≠ .error [] := by
  intro refused
  unfold resolveFunction at refused
  dsimp only at refused
  generalize (if invoke.isNone then _ else _ : List String) ++ _ ++ _ = errors at refused
  cases errors <;> cases refused

theorem resolveOne_ne_error_nil : resolveOne position seen b ≠ .error [] := by
  intro refused
  unfold resolveOne at refused
  split at refused
  · cases refused
  · rename_i given
    split at refused
    · cases refused
    · split at refused
      · cases refused
      · cases b with
        | function name returnType params invoke => exact resolveFunction_ne_error_nil refused
        | «variable» name cell =>
          simp only [resolveKind, resolveVariable] at refused
          split at refused
          · cases refused
          · split at refused <;> cases refused
        | missing => exact given rfl
        | foreign name kind => cases refused

-- The bindings and what they provide, one by one.
inductive Resolves : List String → List (Binding World) → Bound World → Prop where
  | nil {seen : List String} : Resolves seen [] {}
  | cons {seen : List String} {b : Binding World} {bindings : List (Binding World)} {d : Declaration}
      {ext : External World} {bound : Bound World} (named : b.name ≠ "") (unused : b.name ∉ seen)
      (first : b.Gives d ext) (others : Resolves (b.name :: seen) bindings bound) :
      Resolves seen (b :: bindings)
        ⟨d :: bound.declarations, ext :: bound.externals, b.cell? :: bound.cells⟩

theorem resolveFrom_eq_ok_iff :
    resolveFrom position seen bindings = (bound, []) ↔ Resolves seen bindings bound := by
  induction bindings generalizing position seen bound with
  | nil =>
    constructor
    · rintro ⟨⟩
      exact .nil
    · rintro ⟨⟩
      rfl
  | cons b rest ih =>
    obtain ⟨others, errors, inner⟩ : ∃ others errors,
      resolveFrom (position + 1) (b.name :: seen) rest = (others, errors) := ⟨_, _, rfl⟩
    unfold resolveFrom
    rw [inner]
    constructor
    · intro resolved
      cases first : resolveOne position seen b with
      | error found =>
        simp only [first, Prod.mk.injEq, List.append_eq_nil_iff] at resolved
        obtain ⟨_, rfl, _⟩ := resolved
        exact absurd first resolveOne_ne_error_nil
      | ok pair =>
        obtain ⟨named, unused, gives⟩ := resolveOne_eq_ok_iff.mp first
        simp only [first, Prod.mk.injEq] at resolved
        obtain ⟨rfl, rfl⟩ := resolved
        exact .cons named unused gives (ih.mp inner)
    · rintro (_ | ⟨named, unused, gives, more⟩)
      rw [ih.mpr more] at inner
      cases inner
      rw [resolveOne_eq_ok_iff.mpr ⟨named, unused, gives⟩]

theorem resolve_eq_ok_iff : resolve bindings = .ok bound ↔ Resolves [] bindings bound := by
  have whole : resolveFrom 0 [] bindings = (bound, []) ↔ _ := resolveFrom_eq_ok_iff
  rw [← whole]
  unfold resolve
  constructor
  · intro resolved
    split at resolved
    · cases resolved
      assumption
    · cases resolved
  · intro resolved
    rw [resolved]

-- A binding that can stand behind others.
structure Fits (before : List (Binding World)) (b : Binding World) : Prop where
  named : b.name ≠ ""
  unused : ∀ earlier ∈ before, earlier.name ≠ b.name
  valid : b.Valid

theorem exists_resolves_iff : (∃ bound, Resolves seen bindings bound) ↔
    ∀ before (b : Binding World) after, bindings = before ++ b :: after →
      b.Fits before ∧ b.name ∉ seen := by
  induction bindings generalizing seen with
  | nil =>
    refine ⟨fun _ before b after split => ?_, fun _ => ⟨{}, .nil⟩⟩
    cases before <;> cases split
  | cons first rest ih =>
    constructor
    · rintro ⟨_, _ | ⟨named, unused, gives, others⟩⟩ before b after split
      cases before with
      | nil =>
        cases split
        exact ⟨⟨named, List.forall_mem_nil _, valid_iff_gives.mpr ⟨_, _, gives⟩⟩, unused⟩
      | cons c before =>
        cases split
        obtain ⟨fits, fresh⟩ := ih.mp ⟨_, others⟩ before b after rfl
        rw [List.mem_cons, not_or] at fresh
        exact ⟨⟨fits.named, List.forall_mem_cons.mpr ⟨Ne.symm fresh.1, fits.unused⟩, fits.valid⟩,
          fresh.2⟩
    · intro all
      obtain ⟨fits, unused⟩ := all [] first rest rfl
      obtain ⟨d, ext, gives⟩ := valid_iff_gives.mp fits.valid
      have later (before : List (Binding World)) (b : Binding World) (after : List (Binding World))
          (split : rest = before ++ b :: after) : b.Fits before ∧ b.name ∉ first.name :: seen := by
        obtain ⟨fits, fresh⟩ := all (first :: before) b after (by rw [split]; rfl)
        obtain ⟨other, more⟩ := List.forall_mem_cons.mp fits.unused
        exact ⟨⟨fits.named, more, fits.valid⟩, by simp [Ne.symm other, fresh]⟩
      obtain ⟨bound, others⟩ := ih.mpr later
      exact ⟨_, .cons fits.named unused gives others⟩

end Resolve

-- What stands at a place of the list gives what stands there in the others.
theorem Resolves.at_index {seen : List String} {bindings : List (Binding World)}
    {bound : Bound World} (resolves : Resolves seen bindings bound) (index : Nat) :
    (bindings[index]? = none ∧ bound.declarations[index]? = none ∧
        bound.externals[index]? = none ∧ bound.cells[index]? = none) ∨
      ∃ b d ext, bindings[index]? = some b ∧ bound.declarations[index]? = some d ∧
        bound.externals[index]? = some ext ∧ bound.cells[index]? = some b.cell? ∧ b.Gives d ext := by
  induction resolves generalizing index with
  | nil => exact .inl ⟨rfl, rfl, rfl, rfl⟩
  | cons named unused first others ih =>
    cases index with
    | zero => exact .inr ⟨_, _, _, rfl, rfl, rfl, rfl, first⟩
    | succ index => simpa using ih index

theorem Gives.name_eq {b : Binding World} {d : Declaration} {ext : External World}
    (gives : b.Gives d ext) : d.name = b.name ∧ ext.name = b.name := by
  cases gives <;> exact ⟨rfl, rfl⟩

theorem Resolves.names {seen : List String} {bindings : List (Binding World)}
    {bound : Bound World} (resolves : Resolves seen bindings bound) :
    (bound.declarations.map (·.name)).Nodup ∧
      ∀ d ∈ bound.declarations, d.name ∉ seen ∧ (d.type = .function ∨ d.type.isScalar = true) := by
  induction resolves with
  | nil => exact ⟨.nil, List.forall_mem_nil _⟩
  | @cons seen b bindings d ext bound named unused first others ih =>
    obtain ⟨distinct, later⟩ := ih
    have name := first.name_eq.1
    refine ⟨List.nodup_cons.mpr ⟨?_, distinct⟩, List.forall_mem_cons.mpr ⟨⟨name ▸ unused, ?_⟩, ?_⟩⟩
    · intro member
      obtain ⟨other, member, same⟩ := List.mem_map.mp member
      have used : other.name = b.name := same.trans name
      exact (later other member).1 (used ▸ List.mem_cons_self)
    · cases first with
      | function => exact .inl rfl
      | holder scalar => exact .inr scalar
    · exact fun other member => ⟨fun used => (later other member).1 (List.mem_cons_of_mem _ used),
        (later other member).2⟩

end Binding

end ScalarScript
