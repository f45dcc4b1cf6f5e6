import ScalarScript.Proofs.Machine.Effected
import ScalarScript.Proofs.Machine.Proper
import Mathlib.Data.Option.Basic
/-!
What becomes of storage in a run. A constant of the host stays as it is and nothing assigns to it, a
variable of the host keeps its type, and a slot of the script keeps the type it was last allocated
with.
-/
namespace ScalarScript

open Stateful

variable {World Watch : Type}

-- The second cell is what assignments may make of the first one.
structure Cell.Follows (c d : Cell) : Prop where
  access : d.access = c.access
  constant : c.isConstant = true → d = c
  type : c.isRegister = false → d.content.type = c.content.type

namespace Cell

theorem Follows.refl (c : Cell) : c.Follows c := ⟨rfl, fun _ => rfl, fun _ => rfl⟩

theorem Follows.trans {c d e : Cell} (first : c.Follows d) (second : d.Follows e) :
    c.Follows e where
  access := second.access.trans first.access
  constant fixed := by
    have same := first.constant fixed
    exact (second.constant (by rwa [same])).trans same
  type other := by
    have kind : d.isRegister = false := by rwa [isRegister, first.access, ← isRegister]
    exact (second.type kind).trans (first.type other)

theorem follows_of_assign {c d : Cell} {v : Value} (done : c.assign v = .ok d) : c.Follows d where
  access := assign_access done
  constant fixed := by
    rw [assign_of_isConstant fixed] at done
    cases done
  type other := by
    obtain ⟨content, access⟩ := c
    cases access with
    | register name => cases other
    | constant => cases done
    | mutable =>
      cases stored : content.store v with
      | error f =>
        simp only [assign, stored, Except.map] at done
        cases done
      | ok w =>
        simp only [assign, stored, Except.map] at done
        cases done
        exact Value.store_type stored

end Cell

-- Arrays whose elements are related one by one.
def Pointwise {α β : Type} (R : α → β → Prop) (xs : Array α) (ys : Array β) : Prop :=
  ∀ index : Nat, Option.Rel R xs[index]? ys[index]?

namespace Pointwise

variable {α β : Type} {R : α → β → Prop} {xs : Array α} {ys : Array β}

theorem refl {R : α → α → Prop} (each : ∀ x, R x x) (xs : Array α) : Pointwise R xs xs := by
  intro index
  cases xs[index]? with
  | none => exact .none
  | some x => exact .some (each x)

theorem related (all : Pointwise R xs ys) {index : Nat} {x : α} {y : β}
    (here : xs[index]? = some x) (there : ys[index]? = some y) : R x y := by
  have both := all index
  rw [here, there] at both
  cases both
  assumption

theorem partner (all : Pointwise R xs ys) {index : Nat} {x : α} (here : xs[index]? = some x) :
    ∃ y, ys[index]? = some y ∧ R x y := by
  have both := all index
  rw [here] at both
  generalize ys[index]? = there at both
  cases both with
  | some related => exact ⟨_, rfl, related⟩

theorem size_eq (all : Pointwise R xs ys) : xs.size = ys.size := by
  have left := all xs.size
  have right := all ys.size
  rw [Array.getElem?_eq_none (Nat.le_refl _)] at left
  rw [Array.getElem?_eq_none (Nat.le_refl ys.size)] at right
  generalize there : ys[xs.size]? = y at left
  generalize here : xs[ys.size]? = x at right
  cases left
  cases right
  rw [Array.getElem?_eq_none_iff] at here there
  exact Nat.le_antisymm here there

-- Elements are changed on both sides.
theorem modify (all : Pointwise R xs ys) {index : Nat} {f : α → α} {g : β → β}
    (changed : ∀ x y, xs[index]? = some x → R x y → R (f x) (g y)) :
    Pointwise R (xs.modify index f) (ys.modify index g) := by
  intro j
  have both := all j
  rw [Array.getElem?_modify, Array.getElem?_modify]
  split
  · subst j
    generalize found : xs[index]? = x at both
    generalize ys[index]? = y at both
    cases both with
    | none => exact .none
    | some related => exact .some (changed _ _ found related)
  · exact both

theorem modify_right (all : Pointwise R xs ys) {index : Nat} {f : β → β}
    (changed : ∀ x y, ys[index]? = some y → R x y → R x (f y)) :
    Pointwise R xs (ys.modify index f) := by
  intro j
  have both := all j
  rw [Array.getElem?_modify]
  split
  · subst j
    generalize xs[index]? = x at both
    generalize found : ys[index]? = y at both
    cases both with
    | none => exact .none
    | some related => exact .some (changed _ _ found related)
  · exact both

theorem set (all : Pointwise R xs ys) {index : Nat} {x : α} {y : β} (related : R x y) :
    Pointwise R (xs.setIfInBounds index x) (ys.setIfInBounds index y) := by
  intro j
  rw [Array.getElem?_setIfInBounds, Array.getElem?_setIfInBounds, all.size_eq]
  split
  · split
    · exact .some related
    · exact .none
  · exact all j

theorem set_right (all : Pointwise R xs ys) {index : Nat} {y : β}
    (changed : ∀ x, xs[index]? = some x → R x y) :
    Pointwise R xs (ys.setIfInBounds index y) := by
  intro j
  rw [Array.getElem?_setIfInBounds]
  split
  · subst j
    split
    · rename_i bound
      have here := Array.getElem?_eq_getElem (all.size_eq ▸ bound)
      rw [here]
      exact .some (changed _ here)
    · rename_i bound
      rw [Array.getElem?_eq_none (by rw [all.size_eq]; omega)]
      exact .none
  · exact all j

theorem append {zs : Array α} {ws : Array β} (first : Pointwise R xs ys)
    (second : Pointwise R zs ws) : Pointwise R (xs ++ zs) (ys ++ ws) := by
  intro j
  rw [Array.getElem?_append, Array.getElem?_append, first.size_eq]
  split
  · exact first j
  · exact second _

theorem replicate (count : Nat) {x : α} {y : β} (related : R x y) :
    Pointwise R (Array.replicate count x) (Array.replicate count y) := by
  intro j
  rw [Array.getElem?_replicate, Array.getElem?_replicate]
  split
  · exact .some related
  · exact .none

end Pointwise

-- The same cells, each as assignments may have left it.
abbrev CellsFollow : Array (Option Cell) → Array (Option Cell) → Prop :=
  Pointwise (Option.Rel Cell.Follows)

namespace CellsFollow

theorem refl (cells : Array (Option Cell)) : CellsFollow cells cells :=
  Pointwise.refl (fun cell => by
    cases cell with
    | none => exact .none
    | some c => exact .some (.refl c)) cells

theorem trans {before now later : Array (Option Cell)} (first : CellsFollow before now)
    (second : CellsFollow now later) : CellsFollow before later := by
  intro index
  have one := first index
  have two := second index
  generalize before[index]? = x at one
  generalize now[index]? = y at one two
  generalize later[index]? = z at two
  cases one with
  | none =>
    cases two
    exact .none
  | some one =>
    cases two with
    | some two =>
      cases one with
      | none =>
        cases two
        exact .some .none
      | some one =>
        cases two with
        | some two => exact .some (.some (one.trans two))

-- What the host puts into its variables goes through assignments too.
theorem stores (stores : List (Nat × Value)) (cells : Array (Option Cell)) :
    CellsFollow cells (stores.foldl (fun cells (index, v) => Core.store cells index v) cells) := by
  induction stores generalizing cells with
  | nil => exact refl cells
  | cons entry rest ih =>
    refine CellsFollow.trans ((refl cells).modify_right fun before cell _ same => ?_) (ih _)
    cases same with
    | none => exact .none
    | @some b c follows =>
      refine .some (follows.trans ?_)
      show c.Follows ((c.assign entry.2).toOption.getD c)
      cases done : c.assign entry.2 with
      | error f => exact .refl c
      | ok d => exact Cell.follows_of_assign done

end CellsFollow

namespace Core

variable {c d : Core World} {i : Instruction}

theorem cellsFollow_assign {p : Place} {v : Value} (done : c.assign p v = .ok d) :
    CellsFollow c.cells d.cells := by
  cases p with
  | register r =>
    cases done
    exact .refl _
  | slot depth index =>
    simp only [assign] at done
    cases stored : (c.read (.slot depth index)).store v with
    | error f =>
      rw [stored] at done
      cases done
    | ok w =>
      rw [stored] at done
      cases done
      exact .refl _
  | host index =>
    simp only [assign] at done
    split at done
    · rename_i cell found
      cases stored : cell.assign v with
      | error f =>
        rw [stored] at done
        cases done
      | ok e =>
        rw [stored] at done
        cases done
        refine (CellsFollow.refl c.cells).set_right fun before present => ?_
        obtain rfl := Option.some.inj (present.symm.trans (Option.join_eq_some_iff.mp found))
        exact .some (Cell.follows_of_assign stored)
    · cases done
      exact .refl _
  | constant w => cases done

theorem cellsFollow_effect (done : c.effect i = .ok d) : CellsFollow c.cells d.cells := by
  cases c.effected i d done with
  | nothing | flags | pushed | rescoped => exact .refl _
  | assigned _ _ _ assigned => exact cellsFollow_assign assigned
  | @popped p v rest d _ _ _ assigned =>
    exact cellsFollow_assign (c := { c with stack := rest }) assigned

end Core

namespace Exec

variable {m : Machine World Watch}

theorem preserves_cells (before : Array (Option Cell)) :
    Preserves (fun s : RunState World Watch => CellsFollow before s.cells) (step m) := by
  have internal : Internal fun s : RunState World Watch => CellsFollow before s.cells := by
    intro s t core _ follows
    rwa [core]
  refine internal.step (internal.survives ?_ ?_ ?_) ?_
  · exact fun s ext f _ _ follows => follows.trans (.stores _ _)
  · exact fun _ _ follows => follows
  · exact fun _ _ _ _ _ _ _ _ _ follows => follows
  · exact fun i _ s follows core done => follows.trans (Core.cellsFollow_effect done)

end Exec

-- The types that slots were last allocated with, for every frame of every depth.
abbrev SlotTypes := Array (List (Array (Option Scalar)))

-- What an instruction that is executed does to them.
def SlotTypes.after (types : SlotTypes) (i : Instruction) : SlotTypes :=
  match i.opcode with
  | .scopeDepth => types ++ Array.replicate (i.size.toNat - types.size) []
  | .pushScope => types.modify i.depth.toNat (Array.replicate i.size.toNat none :: ·)
  | .popScope => types.modify i.depth.toNat List.tail
  | .allocate type =>
    match i.first with
    | .slot s =>
      types.modify s.depth.toNat fun
        | frame :: rest => frame.setIfInBounds s.index.toNat (some type) :: rest
        | [] => []
    | _ => types
  | _ => types

theorem SlotTypes.after_of_still {i : Instruction} (types : SlotTypes)
    (still : i.opcode.isScoping = false) : types.after i = types := by
  unfold after
  cases opcode : i.opcode <;> simp [opcode, Opcode.isScoping] at still <;> rfl

-- A slot holds a value of the type it was allocated with, and none before that.
def FrameSlot.Typed : Option Scalar → FrameSlot → Prop
  | some type, .held v => v.type = type.ty
  | none, .empty | none, .shared => True
  | _, _ => False

abbrev ScopesTyped : SlotTypes → Array (List ScopeFrame) → Prop :=
  Pointwise (List.Forall₂ (Pointwise FrameSlot.Typed))

namespace Core

variable {c d : Core World} {i : Instruction} {types : SlotTypes}

-- What is assigned to a slot takes on the type of what was there.
theorem scopesTyped_assign {p : Place} {v : Value} (typed : ScopesTyped types c.scopes)
    (done : c.assign p v = .ok d) : ScopesTyped types d.scopes := by
  cases p with
  | register r =>
    cases done
    exact typed
  | slot depth index =>
    simp only [assign] at done
    cases stored : (c.read (.slot depth index)).store v with
    | error f =>
      rw [stored] at done
      cases done
    | ok w =>
      rw [stored] at done
      cases done
      refine typed.modify_right fun tags frames here related => ?_
      cases related with
      | nil => exact .nil
      | @cons tag frame tags rest same lower =>
        refine .cons (same.set_right fun type there => ?_) lower
        obtain ⟨slot, held, kind⟩ := same.partner there
        simp only [read, frame?, here, Option.bind_some, List.head?_cons, held] at stored
        cases slot with
        | empty => cases stored
        | shared => cases stored
        | held u =>
          cases type with
          | none => exact kind.elim
          | some type => exact (Value.store_type stored).trans kind
  | host index =>
    simp only [assign] at done
    split at done
    · rename_i cell found
      cases stored : cell.assign v with
      | error f =>
        rw [stored] at done
        cases done
      | ok e =>
        rw [stored] at done
        cases done
        exact typed
    · cases done
      exact typed
  | constant w => cases done

theorem slotOf_eq_ok {s : Slot} {depth index : Nat} {slot : FrameSlot}
    (found : c.slotOf s = .ok (depth, index, slot)) :
    depth = s.depth.toNat ∧ index = s.index.toNat := by
  unfold slotOf at found
  split at found
  · cases found
  · split at found
    · cases found
    · split at found
      · cases found
      · split at found
        · cases found
        · cases found
          exact ⟨rfl, rfl⟩

theorem scopesTyped_rescoped (typed : ScopesTyped types c.scopes)
    (opcode : i.opcode.isScoping = true) (done : c.effect i = .ok d) :
    ScopesTyped (types.after i) d.scopes := by
  unfold SlotTypes.after
  cases kind : i.opcode with
  | scopeDepth =>
    simp only [effect, kind] at done
    cases done
    have same := typed.size_eq
    dsimp only
    rw [same]
    exact typed.append (.replicate _ .nil)
  | pushScope =>
    simp only [effect, kind] at done
    obtain ⟨_, _, rfl⟩ := pushScope_eq_ok done
    exact typed.modify fun _ _ _ lower => .cons (.replicate _ trivial) lower
  | popScope =>
    simp only [effect, kind] at done
    obtain ⟨_, _, rfl⟩ := popScope_eq_ok done
    refine typed.modify fun _ _ _ related => ?_
    cases related with
    | nil => exact .nil
    | cons _ lower => exact lower
  | allocate type =>
    simp only [effect, kind] at done
    obtain ⟨s, depth, index, slot, place, found, rfl⟩ := allocate_eq_ok done
    obtain ⟨rfl, rfl⟩ := slotOf_eq_ok found
    simp only [place]
    refine typed.modify fun _ _ _ related => ?_
    cases related with
    | nil => exact .nil
    | cons same lower => exact .cons (same.set (by cases type <;> rfl)) lower
  | _ => simp [kind, Opcode.isScoping] at opcode

-- Other instructions change no more than what slots hold.
theorem scopesTyped_still (typed : ScopesTyped types c.scopes)
    (still : i.opcode.isScoping = false) (done : c.effect i = .ok d) :
    ScopesTyped types d.scopes := by
  cases c.effected i d done with
  | nothing | flags | pushed => exact typed
  | assigned _ _ _ assigned => exact scopesTyped_assign typed assigned
  | @popped p v rest d _ _ _ assigned =>
    exact scopesTyped_assign (c := { c with stack := rest }) typed assigned
  | rescoped scoping =>
    rw [still] at scoping
    cases scoping

end Core

namespace Exec

variable {m : Machine World Watch} {i : Instruction}

theorem internal_typed (types : SlotTypes) :
    Internal fun s : RunState World Watch => ScopesTyped types s.scopes := by
  intro s t core _ typed
  rwa [core]

theorem survives_typed (types : SlotTypes) :
    Survives m fun s => ScopesTyped types s.scopes := by
  refine (internal_typed types).survives ?_ ?_ ?_
  · exact fun _ _ _ _ _ typed => typed
  · exact fun _ _ typed => typed
  · exact fun _ _ _ _ _ _ _ _ _ typed => typed

-- The types that slots have once a step is taken.
def typesAfter (m : Machine World Watch) (types : SlotTypes) (s : RunState World Watch) :
    SlotTypes :=
  match fetched m s with
  | some i => types.after i
  | none => types

-- What a step leaves of the types: an instruction that fails allocates nothing.
def TypesKept (m : Machine World Watch) (types : SlotTypes) (s : RunState World Watch) :
    EStateM.Result RuntimeError (RunState World Watch) (Option Value) → Prop
  | .ok none t => ScopesTyped (typesAfter m types s) t.scopes
  | .ok (some _) t | .error _ t => ScopesTyped types t.scopes

-- A step at an instruction that leaves the scopes to others.
theorem step_still {s : RunState World Watch} {types : SlotTypes} (inside : 0 ≤ s.address)
    (found : m.code[s.address.toNat]? = some i) (still : i.opcode.isScoping = false)
    (typed : ScopesTyped types s.scopes) :
    Kept (fun t => ScopesTyped types t.scopes) (fun _ => True) (step m s) := by
  have internal := @internal_typed World Watch types
  have survives := survives_typed (m := m) types
  rw [step_of_fetched inside found]
  refine (internal.checkContext (m := m)).bind (fun _ => ?_) s typed
  cases active : i.opcode.isMark with
  | true => exact preserves_mark survives active
  | false =>
    rw [execute_of_active active]
    refine internal.countInstruction.bind fun _ => (internal.observeStep i).bind fun _ => ?_
    exact preserves_finish survives fun t typed core done => Core.scopesTyped_still typed still done

-- A step at one that is about them.
theorem step_scoping {s : RunState World Watch} {types : SlotTypes} (inside : 0 ≤ s.address)
    (found : m.code[s.address.toNat]? = some i) (scoping : i.opcode.isScoping = true)
    (typed : ScopesTyped types s.scopes) : TypesKept m types s (step m s) := by
  have internal := @internal_typed World Watch types
  have active : i.opcode.isMark = false := by
    cases opcode : i.opcode <;> simp [opcode, Opcode.isScoping] at scoping <;> rfl
  have plain : i.opcode ≠ .hostCall := by
    rintro opcode
    rw [opcode] at scoping
    cases scoping
  have allowed : Preserves (fun t => ScopesTyped types t.scopes) (allow m i) :=
    internal.checkContext.bind fun _ => internal.countInstruction.bind fun _ =>
      internal.observeStep i
  have before := allowed s typed
  rw [step_of_allowed inside found active, bind_apply]
  cases ran : allow m i s with
  | error e t =>
    rw [ran] at before
    exact before.1
  | ok _ t =>
    rw [ran] at before
    simp only [finish, bind_apply]
    cases done : Core.effect i t.toCore with
    | error f =>
      rw [perform_of_error plain done]
      exact before
    | ok core =>
      have moves (u : RunState World Watch) : transfer m i u = .ok (.inl (u.address + 1)) u := by
        unfold transfer
        cases opcode : i.opcode <;> simp [opcode, Opcode.isScoping] at scoping <;> rfl
      rw [perform_of_ok plain done]
      simp only [moves]
      show ScopesTyped (typesAfter m types s) core.scopes
      simp only [typesAfter, fetched, found]
      exact Core.scopesTyped_rescoped before scoping done

theorem step_typed {s : RunState World Watch} {types : SlotTypes}
    (typed : ScopesTyped types s.scopes) : TypesKept m types s (step m s) := by
  cases placed m s with
  | past outside =>
    rw [step_of_past outside]
    exact typed
  | negative outside =>
    have kept := (internal_typed types).checkContext (m := m) s typed
    rw [step_of_negative outside, bind_apply]
    cases ran : checkContext m s with
    | error e t =>
      rw [ran] at kept
      exact kept.1
    | ok _ t =>
      rw [ran] at kept
      exact kept
  | «at» i inside found =>
    cases scoping : i.opcode.isScoping with
    | true => exact step_scoping inside found scoping typed
    | false =>
      have kept := step_still inside found scoping typed
      have same : typesAfter m types s = types := by
        simp only [typesAfter, fetched, found]
        exact types.after_of_still scoping
      generalize step m s = result at kept
      cases result with
      | error e t => exact kept.1
      | ok answer t =>
        cases answer with
        | some v => exact kept
        | none =>
          show ScopesTyped (typesAfter m types s) t.scopes
          rwa [same]

-- The types that slots have after so many steps.
def slotTypes (m : Machine World Watch) :
    Nat → SlotTypes → RunState World Watch → SlotTypes
  | 0, types, _ => types
  | n + 1, types, s =>
    match step m s with
    | .ok none t => slotTypes m n (typesAfter m types s) t
    | _ => types

theorem drive_typed (n : Nat) {s : RunState World Watch} {types : SlotTypes}
    (typed : ScopesTyped types s.scopes) :
    ScopesTyped (slotTypes m n types s) (endState (drive (step m) n s)).scopes := by
  induction n generalizing s types with
  | zero => exact typed
  | succ n ih =>
    have kept := step_typed (m := m) typed
    rw [drive_apply, slotTypes]
    generalize step m s = result at kept
    cases result with
    | error e t => exact kept
    | ok answer t =>
      cases answer with
      | some v => exact kept
      | none => exact ih kept

end Exec

-- A place that nothing is assigned to.
def Core.Fixed (c : Core World) : Place → Prop
  | .constant _ => True
  | .host index => ∃ cell, c.cells[index]? = some (some cell) ∧ cell.isConstant = true
  | .slot _ _ | .register _ => False

theorem Core.assign_of_fixed {c d : Core World} {p : Place} (fixed : c.Fixed p) (v : Value) :
    c.assign p v ≠ .ok d := by
  intro done
  cases p with
  | constant w => cases done
  | host index =>
    obtain ⟨cell, found, constant⟩ := fixed
    simp only [assign, found, Option.join_some, Cell.assign_of_isConstant constant] at done
    cases done
  | slot depth index => exact fixed
  | register r => exact fixed

-- No instruction that assigns to such a place comes to an end.
theorem Core.effect_of_fixed {c d : Core World} {i : Instruction} {p : Place}
    (assigns : i.opcode.isAssignment = true) (target : c.locate i.first = .ok p)
    (fixed : c.Fixed p) : c.effect i ≠ .ok d := by
  intro done
  cases c.effected i d done with
  | nothing plain | flags plain =>
    rw [plain] at assigns
    cases assigns
  | pushed opcode =>
    rw [opcode] at assigns
    cases assigns
  | assigned located _ _ assigned =>
    cases target.symm.trans located
    exact assign_of_fixed fixed _ assigned
  | @popped q v rest d located _ _ assigned =>
    cases target.symm.trans located
    refine assign_of_fixed (c := { c with stack := rest }) (p := p) ?_ v assigned
    cases p <;> exact fixed
  | rescoped scoping =>
    rw [Opcode.isAssignment_of_isScoping scoping] at assigns
    cases assigns

namespace Exec

variable {m : Machine World Watch} {i : Instruction}

theorem step_of_fixed {s t : RunState World Watch} {p : Place} {result : Option Value}
    (inside : 0 ≤ s.address) (found : m.code[s.address.toNat]? = some i)
    (assigns : i.opcode.isAssignment = true) (target : s.locate i.first = .ok p)
    (fixed : s.Fixed p) : step m s ≠ .ok result t := by
  intro stepped
  have active : i.opcode.isMark = false := by
    cases opcode : i.opcode <;> simp [opcode, Opcode.isAssignment] at assigns <;> rfl
  have plain : i.opcode ≠ .hostCall := by
    rintro opcode
    rw [opcode] at assigns
    cases assigns
  rw [step_of_allowed inside found active] at stepped
  obtain ⟨_, u, allowed, finished⟩ := bind_eq_ok_iff.mp stepped
  have internal : Internal fun u : RunState World Watch => u.toCore = s.toCore := by
    intro u v core _ same
    exact core.trans same
  have same := allow_keeps (m := m) internal i s rfl
  rw [allowed] at same
  obtain ⟨_, w, performed, _⟩ := bind_eq_ok_iff.mp finished
  cases done : Core.effect i u.toCore with
  | ok core =>
    rw [show u.toCore = s.toCore from same] at done
    exact Core.effect_of_fixed assigns target fixed done
  | error f =>
    rw [perform_of_error plain done] at performed
    cases performed

end Exec

-- The storage of a run, at every point of it. The host's constants are what they were, its variables
-- have the types they had, slots hold values of the type they were last allocated with, and every
-- number is finite. An instruction that would assign to a constant fails.
theorem Machine.storage_kept (m : Machine World Watch) (proper : m.Proper)
    (around : Surroundings World Watch) (cells : CellsProper around.cells)
    (room : PlacesProper around.room) (context : Context) (n : Nat) :
    let s := Machine.start around context
    let last := endState (Exec.drive (Exec.step m) n s)
    CellsFollow around.cells last.cells ∧
      ScopesTyped (Exec.slotTypes m n #[[Array.replicate around.cells.size none]] s) last.scopes ∧
      last.Proper ∧
      (∀ call ∈ along (Exec.step m) (Exec.calling m) n s, ∀ v ∈ call.arguments, v.Proper) ∧
      (∀ v t, Exec.drive (Exec.step m) n s = .ok (some v) t → v.Proper) ∧
      ∀ i p, 0 ≤ last.address → m.code[last.address.toNat]? = some i →
        i.opcode.isAssignment = true → last.locate i.first = .ok p → last.Fixed p →
        ∀ result t, Exec.step m last ≠ .ok result t := by
  intro s last
  have start : s.Proper := Machine.start_proper cells room context
  have typed : ScopesTyped #[[Array.replicate around.cells.size none]] s.scopes := by
    intro index
    cases index with
    | zero =>
      refine .some (.cons (fun j => ?_) .nil)
      rw [Array.getElem?_replicate, Array.getElem?_map]
      by_cases bound : j < around.cells.size
      · rw [if_pos bound, Array.getElem?_eq_getElem bound]
        refine .some ?_
        cases around.cells[j] <;> trivial
      · rw [if_neg bound, Array.getElem?_eq_none (by omega)]
        exact .none
    | succ index => exact .none
  obtain ⟨arguments, exits⟩ := Exec.drive_proper proper n start
  refine ⟨?_, Exec.drive_typed n typed, ?_, arguments, exits, ?_⟩
  · exact ((Exec.preserves_cells around.cells).drive n s (.refl _)).endState
  · exact ((Exec.preserves_proper proper).drive n s start).endState
  · intro i p inside found assigns target fixed result t
    exact Exec.step_of_fixed inside found assigns target fixed

-- The host's variable that is a place.
def Place.host? : Place → Option Nat
  | .host index => some index
  | _ => none

theorem Place.eq_of_host? {p : Place} {index : Nat} (shared : p.host? = some index) :
    p = .host index := by
  cases p <;> cases shared
  rfl

-- A program that gives a slot of its own to the host, and then assigns to the host's first variable,
-- which is a constant.
def Machine.tampering : Machine Unit Unit where
  code :=
    let fixed : Operand := .slot ⟨.bool, 0, 0, "fixed"⟩
    let own : Slot := ⟨.bool, 1, 0, "own"⟩
    #[.scopeDepth 2, .pushScope 1 1, .allocate .bool own,
      .move (.slot own) (.literal (.truth false)), .push (.slot own), .hostCall 1 "take",
      .move fixed (.slot own)]
  externals := #[{ name := "fixed", returnType := .bool },
    { name := "take", function := some fun world _ => { world, popped := 1, result := .value none }
      arity := 1 }]

def Surroundings.fixed : Surroundings Unit Unit :=
  ⟨#[some { content := .truth true, access := .constant }], (), (), []⟩

def RunState.tampered : RunState Unit Unit :=
  endState (Exec.drive (Exec.step Machine.tampering) 6
    (Machine.start Surroundings.fixed .background))

theorem Machine.tampering_fails :
    Machine.tampering.Proper ∧ CellsProper Surroundings.fixed.cells ∧
      RunState.tampered.address = 6 ∧
      ScopesTyped #[[#[none]], [#[some .bool]]] RunState.tampered.scopes ∧
      RunState.tampered.Proper ∧
      ∀ result t, Exec.step Machine.tampering RunState.tampered ≠ .ok result t := by
  have proper : Machine.tampering.Proper := by
    refine ⟨fun i member => ?_, fun ext member f given => ?_⟩
    · simp only [tampering, List.mem_toArray, List.mem_cons, List.not_mem_nil, or_false] at member
      rcases member with rfl | rfl | rfl | rfl | rfl | rfl | rfl <;> exact ⟨trivial, trivial⟩
    · simp only [tampering, List.mem_toArray, List.mem_cons, List.not_mem_nil, or_false] at member
      rcases member with rfl | rfl
      · cases given
      · cases given
        exact fun w r _ _ => ⟨trivial, nofun⟩
  have cells : CellsProper Surroundings.fixed.cells := by
    intro cell member
    cases Array.mem_singleton.mp member
    trivial
  have room : PlacesProper Surroundings.fixed.room := fun v member => absurd member List.not_mem_nil
  have here : RunState.tampered.address = 6 := by decide +kernel
  have types : Exec.slotTypes Machine.tampering 6
      #[[Array.replicate Surroundings.fixed.cells.size none]]
      (Machine.start Surroundings.fixed .background) = #[[#[none]], [#[some .bool]]] := by
    decide +kernel
  have shared : (RunState.tampered.locate (.slot ⟨.bool, 0, 0, "fixed"⟩)).toOption.bind
      Place.host? = some 0 := by
    decide +kernel
  have whole := Machine.tampering.storage_kept proper Surroundings.fixed cells room .background 6
  have ran : endState (Exec.drive (Exec.step Machine.tampering) 6
      (Machine.start Surroundings.fixed .background)) = RunState.tampered := rfl
  dsimp only at whole
  rw [ran, types] at whole
  -- from here on the state is as good as any
  generalize RunState.tampered = s at here shared whole ⊢
  obtain ⟨follows, typed, kept, _, _, refuses⟩ := whole
  have located : s.locate (.slot ⟨.bool, 0, 0, "fixed"⟩) = .ok (.host 0) := by
    generalize s.locate (.slot ⟨.bool, 0, 0, "fixed"⟩) = found at shared
    cases found with
    | error f => cases shared
    | ok p => rw [Place.eq_of_host? shared]
  have constant : s.Fixed (.host 0) := by
    have first : Option.Rel (Option.Rel Cell.Follows) (some (some _)) s.cells[0]? := follows 0
    generalize held : s.cells[0]? = cell at first
    cases first with
    | some inner =>
      cases inner with
      | some same => exact ⟨_, held, by rw [same.constant rfl]; rfl⟩
  rw [here] at refuses
  exact ⟨proper, cells, here, typed, kept,
    refuses _ (.host 0) (by decide) rfl rfl located constant⟩

end ScalarScript
