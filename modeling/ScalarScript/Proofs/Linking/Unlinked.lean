import ScalarScript.Proofs.Machine.Abreast
import ScalarScript.Proofs.Symbolic.Marks
import Mathlib.Data.List.TakeWhile
/-!
Lists of instructions that still have their labels, run by the machine itself. Its address is a
place in the list. Labels are passed over, and a branch goes on behind the label that it names.
-/
namespace ScalarScript

open Stateful

variable {World Watch : Type}

namespace Unlinked

-- The place behind a label.
def behind (code : List Instruction) (label : Int) : Nat :=
  code.length - ((seek label code).getD []).length

-- A branch names the place that it goes to.
def placed (code : List Instruction) (i : Instruction) : Instruction :=
  if i.opcode.isBranch then { i with target := (behind code i.target : Nat) } else i

-- The place of the next instruction that is no label.
def settled (code : List Instruction) (place : Nat) : Nat :=
  place + ((code.drop place).takeWhile (·.opcode = .label)).length

-- A step as an observer of the linked program would hear of it.
def words (code : List Instruction) (event : StepEvent) : StepEvent :=
  match code[event.address.toNat]? with
  | none => event
  | some i =>
    { event with
      address := Link.address (code.take event.address.toNat)
      instruction := (Link.retarget (Link.addresses code 0) i).render true }

-- The machine with the list for its program.
def machine (m : Machine World Watch) (code : List Instruction) : Machine World Watch :=
  { m with
    code := (code.map (placed code)).toArray
    observer := m.observer.map (·.told (words code)) }

def step (m : Machine World Watch) (code : List Instruction) : Exec World Watch (Option Value) := do
  modify fun s => { s with address := settled code s.address.toNat }
  Exec.step (machine m code)

-- Behind a label stands what a branch to it finds.
theorem behind_eq {code pre rest : List Instruction} {label : Int}
    (found : seek label code = some rest) (split : code = pre ++ rest) :
    behind code label = pre.length := by
  rw [behind, found, Option.getD_some]
  conv_lhs => rw [split, List.length_append]
  omega

-- A run that comes to labels at the end of the list is over, without an error.
theorem step_of_labels (m : Machine World Watch) {code : List Instruction}
    {s : RunState World Watch} (labels : ∀ i ∈ code.drop s.address.toNat, i.opcode = .label) :
    ∃ t, step m code s = .ok (some .null) t := by
  have passed : (code.drop s.address.toNat).takeWhile (·.opcode = .label) =
      code.drop s.address.toNat := by
    rw [List.takeWhile_eq_self_iff]
    simpa using labels
  have end_ : code.length ≤ settled code s.address.toNat := by
    rw [settled, passed, List.length_drop]
    omega
  refine ⟨{ s with address := settled code s.address.toNat }, Exec.step_of_past ?_⟩
  show ((code.map (placed code)).toArray.size : Int) ≤ settled code s.address.toNat
  rw [List.size_toArray, List.length_map]
  exact Int.ofNat_le.mpr end_

end Unlinked

namespace Linked

-- An address of the linked program, and the place in the list that it stands for.
def Site (code : List Instruction) (address place : Int) : Prop :=
  0 ≤ place ∧ place ≤ code.length ∧ address = Link.address (code.take place.toNat)

theorem site_zero (code : List Instruction) : Site code 0 0 := by
  simp [Site]

-- The place behind some code.
theorem site_of_split {code pre rest : List Instruction} (split : code = pre ++ rest) :
    Site code (Link.address pre) pre.length := by
  subst split
  refine ⟨by omega, ?_, by simp⟩
  rw [List.length_append]
  omega

theorem Site.inside {code : List Instruction} {address place : Int} (site : Site code address place) :
    0 ≤ address ∧ address ≤ (Link.linked code).length := by
  obtain ⟨_, _, rfl⟩ := site
  rw [Link.length_linked]
  refine ⟨by omega, ?_⟩
  have bound : Link.address (code.take place.toNat) ≤ Link.address code :=
    (List.take_sublist _ _).countP_le
  omega

-- A place in the list is at its end, at a label, or at an instruction.
theorem Site.split {code : List Instruction} {address place : Int} (site : Site code address place) :
    ∃ pre rest, code = pre ++ rest ∧ address = Link.address pre ∧ place = pre.length := by
  obtain ⟨low, high, rfl⟩ := site
  refine ⟨code.take place.toNat, code.drop place.toNat, (List.take_append_drop _ _).symm, rfl, ?_⟩
  rw [List.length_take]
  omega

theorem address_labels {code : List Instruction} (labels : ∀ i ∈ code, i.opcode = .label) :
    Link.address code = 0 := by
  rw [Link.address, List.countP_eq_zero]
  intro i member
  simp [labels i member]

-- Labels stand at the address of what follows them.
theorem Site.settled {code : List Instruction} {address place : Int}
    (site : Site code address place) :
    Site code address (Unlinked.settled code place.toNat) ∧
      ∀ i, code[Unlinked.settled code place.toNat]? = some i → i.opcode ≠ .label := by
  obtain ⟨pre, rest, rfl, rfl, rfl⟩ := site.split
  have passed : Unlinked.settled (pre ++ rest) (pre.length : Int).toNat =
      (pre ++ rest.takeWhile (·.opcode = .label)).length := by
    simp [Unlinked.settled]
  have parts : pre ++ rest =
      (pre ++ rest.takeWhile (·.opcode = .label)) ++ rest.dropWhile (·.opcode = .label) := by
    rw [List.append_assoc, List.takeWhile_append_dropWhile]
  rw [passed]
  constructor
  · have labels : ∀ i ∈ rest.takeWhile (·.opcode = .label), i.opcode = .label := by
      intro i member
      simpa using List.mem_takeWhile_imp member
    have stands := site_of_split parts
    rwa [Link.address_append, address_labels labels, Nat.add_zero] at stands
  · intro i fetched
    rw [parts, List.getElem?_append_right (Nat.le_refl _), Nat.sub_self] at fetched
    have first := List.head?_dropWhile_not (p := (·.opcode = .label)) rest
    rw [← List.head?_eq_getElem?] at fetched
    simpa [fetched] using first

-- An instruction of the list and the one that it is linked to differ in the place named.
theorem counterpart (code : List Instruction) (i : Instruction) :
    Counterpart (Link.retarget (Link.addresses code 0) i) (Unlinked.placed code i) := by
  unfold Link.retarget Unlinked.placed
  cases branch : i.opcode.isBranch with
  | false => exact .refl i
  | true => exact ⟨rfl, fun plain => by simp [branch] at plain⟩

-- A branch goes to corresponding places.
theorem site_target {code : List Instruction} (defined : BranchesDefined code) {i : Instruction}
    (member : i ∈ code) (branch : i.opcode.isBranch = true) :
    Site code (Link.retarget (Link.addresses code 0) i).target (Unlinked.placed code i).target := by
  cases found : seek i.target code with
  | none => exact absurd (defined i member branch) (seek_eq_none_iff.mp found)
  | some rest =>
    obtain ⟨pre, j, split, is, given⟩ := Link.lookup_addresses_of_seek found 0
    have parts : code = (pre ++ [j]) ++ rest := by simp [split]
    have stands := site_of_split parts
    rw [Link.address_append, Link.address_cons_label is, Link.address_nil, Nat.add_zero] at stands
    have behind : Unlinked.behind code i.target = (pre ++ [j]).length :=
      Unlinked.behind_eq found parts
    simpa only [Link.retarget, Unlinked.placed, branch, if_true, given, Option.getD_some, behind,
      Nat.zero_add] using stands

section Run

variable {m : Machine World Watch} {code : List Instruction}

theorem twins (m : Machine World Watch) (code : List Instruction) :
    Twins m (Unlinked.machine m code) (Unlinked.words code) := ⟨rfl, rfl, rfl, rfl, rfl⟩

-- Where the next instruction of the list stands, its linked form stands at the address.
theorem step_alike_settled (linked : m.code = (Link.linked code).toArray)
    (defined : BranchesDefined code) {s t : RunState World Watch} {here there : Int}
    (states : Abreast (Site code) True here there s t) (site : Site code here there)
    (other : ∀ i, code[there.toNat]? = some i → i.opcode ≠ .label) :
    Alike (Along (Site code) True) Eq (Exec.step m s)
      (Exec.step (Unlinked.machine m code) t) := by
  obtain ⟨pre, rest, split, rfl, rfl⟩ := site.split
  cases rest with
  | nil =>
    rw [List.append_nil] at split
    subst split
    have pastHere : (m.code.size : Int) ≤ s.address := Int.le_of_eq <| by
      rw [linked, states.here, List.size_toArray, Link.length_linked]
    have pastThere : ((Unlinked.machine m code).code.size : Int) ≤ t.address :=
      Int.le_of_eq <| by rw [states.there, Unlinked.machine, List.size_toArray, List.length_map]
    rw [Exec.step_of_past pastHere, Exec.step_of_past pastThere]
    exact .ok rfl (states.along site)
  | cons i rest =>
    have fetched : code[pre.length]? = some i := by simp [split]
    have notLabel := other i fetched
    have parts : code = (pre ++ [i]) ++ rest := by simp [split]
    refine Exec.step_alike (twins m code) (counterpart code i) ⟨site, ?_, ?_⟩ ?_ (.inl trivial)
      states (by omega) (by omega) ?_ ?_
    · have stands := site_of_split parts
      simpa [Link.address_cons_other notLabel] using stands
    · intro branch
      rw [Link.retarget_opcode] at branch
      exact site_target defined (by simp [split]) branch
    · intro event place _
      have index : event.address.toNat = pre.length := by omega
      have before : code.take pre.length = pre := by simp [split]
      simp only [Unlinked.words, index, fetched, before]
    · rw [linked, List.getElem?_toArray]
      exact Link.linked_getElem? split notLabel
    · simp [Unlinked.machine, fetched]

-- A step of the linked program is a step of the list.
theorem step_alike_unlinked (linked : m.code = (Link.linked code).toArray)
    (defined : BranchesDefined code) :
    Exec.Parallel (Along (Site code) True) Eq (Exec.step m) (Unlinked.step m code) := by
  intro s t along
  obtain ⟨states, site⟩ := along
  obtain ⟨settled, other⟩ := site.settled
  exact step_alike_settled linked defined
    (t := { t with address := Unlinked.settled code t.address.toNat })
    { states with there := rfl } settled other

-- The instruction at the address is the linked form of the one that the list settles on.
theorem fetched_alike (linked : m.code = (Link.linked code).toArray) {s t : RunState World Watch}
    (along : Along (Site code) True s t) :
    m.code[s.address.toNat]? = code[Unlinked.settled code t.address.toNat]?.map
      (Link.retarget (Link.addresses code 0)) := by
  obtain ⟨settled, other⟩ := along.2.settled
  obtain ⟨pre, rest, split, address, place⟩ := settled.split
  have index : s.address.toNat = Link.address pre := by omega
  have index' : Unlinked.settled code t.address.toNat = pre.length := by omega
  rw [linked, List.getElem?_toArray, index, index']
  rw [index'] at other
  cases rest with
  | nil =>
    rw [List.append_nil] at split
    subst split
    rw [List.getElem?_eq_none (by rw [Link.length_linked]), List.getElem?_eq_none (Nat.le_refl _)]
    rfl
  | cons i rest =>
    have fetched : code[pre.length]? = some i := by simp [split]
    rw [Link.linked_getElem? split (other i fetched), fetched]
    rfl

-- Both runs visit the same instructions.
theorem visits_alike (linked : m.code = (Link.linked code).toArray)
    (defined : BranchesDefined code) {s t : RunState World Watch}
    (along : Along (Site code) True s t) (n : Nat) :
    visits (Exec.step m) (fun s => m.code[s.address.toNat]?) n s =
      (visits (Unlinked.step m code) (fun t => code[Unlinked.settled code t.address.toNat]?) n t).map
        (Link.retarget (Link.addresses code 0)) := by
  induction n generalizing s t with
  | zero => rfl
  | succ n ih =>
    have stepped := step_alike_unlinked linked defined s t along
    rw [visits, visits, fetched_alike linked along, List.map_append]
    congr 1
    · cases code[Unlinked.settled code t.address.toNat]? <;> rfl
    · generalize Exec.step m s = one at stepped
      generalize Unlinked.step m code t = two at stepped
      cases stepped with
      | @ok result _ u v same along =>
        subst same
        cases result with
        | none => exact ih along
        | some v => rfl
      | error place along => rfl

end Run

end Linked

end ScalarScript
