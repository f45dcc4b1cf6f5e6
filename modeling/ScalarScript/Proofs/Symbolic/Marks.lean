import ScalarScript.Proofs.Linking.InPlace
import ScalarScript.Proofs.Symbolic.Machine
import Mathlib.Data.List.Nodup
import Mathlib.Data.List.Infix
/-!
Marks of a program. Line markers can be left out. Labels stand somewhere, have code behind them, and
become addresses; a program can be linked exactly when its labels are distinct and its branches lead
to them.
-/
namespace ScalarScript

-- The labels of a program, in order.
def labelsOf (code : List Instruction) : List Int :=
  (code.filter (·.opcode = .label)).map (·.target)

@[simp] theorem labelsOf_nil : labelsOf [] = [] := rfl

@[simp] theorem labelsOf_append (a b : List Instruction) :
    labelsOf (a ++ b) = labelsOf a ++ labelsOf b := by simp [labelsOf]

theorem labelsOf_cons_label {i : Instruction} (is : i.opcode = .label) (rest : List Instruction) :
    labelsOf (i :: rest) = i.target :: labelsOf rest := by simp [labelsOf, is]

theorem labelsOf_cons_other {i : Instruction} (other : i.opcode ≠ .label)
    (rest : List Instruction) : labelsOf (i :: rest) = labelsOf rest := by simp [labelsOf, other]

theorem labelsOf_cons (i : Instruction) (rest : List Instruction) :
    labelsOf (i :: rest) = if i.opcode = .label then i.target :: labelsOf rest else labelsOf rest := by
  split
  · exact labelsOf_cons_label ‹_› rest
  · exact labelsOf_cons_other ‹_› rest

-- Every jump and call leads to a label of the program.
def BranchesDefined (code : List Instruction) : Prop :=
  ∀ i ∈ code, i.opcode.isBranch = true → i.target ∈ labelsOf code

theorem seek_eq_none_iff {label : Int} {code : List Instruction} :
    seek label code = none ↔ label ∉ labelsOf code := by
  induction code with
  | nil => simp [seek]
  | cons i rest ih =>
    by_cases is : i.opcode = .label
    · rw [labelsOf_cons_label is]
      by_cases same : i.target = label
      · simp [seek, is, same]
      · simp [seek, is, same, ih, Ne.symm same]
    · rw [labelsOf_cons_other is]
      simp [seek, is, ih]

-- What is found stands directly behind the label.
theorem seek_eq_some {label : Int} {code rest : List Instruction}
    (found : seek label code = some rest) :
    ∃ pre i, code = pre ++ i :: rest ∧ i.opcode = .label ∧ i.target = label := by
  induction code with
  | nil => simp [seek] at found
  | cons i tail ih =>
    unfold seek at found
    split at found
    · rename_i here
      cases found
      exact ⟨[], i, rfl, here.1, here.2⟩
    · obtain ⟨pre, j, split, is, same⟩ := ih found
      exact ⟨i :: pre, j, by rw [split, List.cons_append], is, same⟩

theorem seek_append_of_notMem {label : Int} {pre rest : List Instruction}
    (absent : label ∉ labelsOf pre) : seek label (pre ++ rest) = seek label rest := by
  induction pre with
  | nil => rfl
  | cons i pre ih =>
    by_cases is : i.opcode = .label
    · rw [labelsOf_cons_label is, List.mem_cons, not_or] at absent
      simp [seek, is, Ne.symm absent.1, ih absent.2]
    · rw [labelsOf_cons_other is] at absent
      simp [seek, is, ih absent]

theorem seek_append_of_some {label : Int} {code rest tail : List Instruction}
    (found : seek label code = some rest) : seek label (code ++ tail) = some (rest ++ tail) := by
  induction code with
  | nil => cases found
  | cons i code ih =>
    unfold seek at found
    rw [List.cons_append, seek]
    split at found
    · rename_i here
      cases found
      rw [if_pos here]
    · rename_i elsewhere
      rw [if_neg elsewhere, ih found]

-- Where labels are distinct, every one of them is found.
theorem seek_of_split {label : Int} {code pre rest : List Instruction} {i : Instruction}
    (unique : (labelsOf code).Nodup) (split : code = pre ++ i :: rest) (is : i.opcode = .label)
    (same : i.target = label) : seek label code = some rest := by
  subst split same
  rw [labelsOf_append, labelsOf_cons_label is] at unique
  have absent : i.target ∉ labelsOf pre := by
    intro present
    exact (List.nodup_append.mp unique).2.2 _ present _ (List.mem_cons_self) rfl
  rw [seek_append_of_notMem absent]
  simp [seek, is]

-- The code without its line markers.
def strip (code : List Instruction) : List Instruction :=
  code.filter (·.opcode ≠ .debugLine)

@[simp] theorem strip_nil : strip [] = [] := rfl

@[simp] theorem strip_append (a b : List Instruction) : strip (a ++ b) = strip a ++ strip b := by
  simp [strip]

theorem strip_cons_debugLine {i : Instruction} (is : i.opcode = .debugLine)
    (rest : List Instruction) : strip (i :: rest) = strip rest := by simp [strip, is]

theorem strip_cons_other {i : Instruction} (other : i.opcode ≠ .debugLine)
    (rest : List Instruction) : strip (i :: rest) = i :: strip rest := by simp [strip, other]

-- Every line marker stands directly in front of an instruction that is no mark.
def MarkersLead : List Instruction → Prop
  | [] => True
  | i :: rest =>
    (i.opcode = .debugLine → ∃ j ∈ rest.head?, ¬ j.opcode.isMark = true) ∧ MarkersLead rest

theorem MarkersLead.append {a b : List Instruction} (first : MarkersLead a)
    (second : MarkersLead b) : MarkersLead (a ++ b) := by
  induction a with
  | nil => exact second
  | cons i a ih =>
    refine ⟨?_, ih first.2⟩
    intro marker
    obtain ⟨j, next, active⟩ := first.1 marker
    cases a with
    | nil => cases next
    | cons k a => exact ⟨j, next, active⟩

theorem MarkersLead.cons {i : Instruction} {rest : List Instruction}
    (plain : i.opcode ≠ .debugLine) (later : MarkersLead rest) : MarkersLead (i :: rest) :=
  ⟨fun marker => absurd marker plain, later⟩

theorem labelsOf_strip (code : List Instruction) : labelsOf (strip code) = labelsOf code := by
  induction code with
  | nil => rfl
  | cons i rest ih =>
    by_cases mark : i.opcode = .debugLine
    · rw [strip_cons_debugLine mark, labelsOf_cons_other (by simp [mark]), ih]
    · by_cases is : i.opcode = .label
      · rw [strip_cons_other mark, labelsOf_cons_label is, labelsOf_cons_label is, ih]
      · rw [strip_cons_other mark, labelsOf_cons_other is, labelsOf_cons_other is, ih]

theorem seek_strip (label : Int) (code : List Instruction) :
    seek label (strip code) = (seek label code).map strip := by
  induction code with
  | nil => rfl
  | cons i rest ih =>
    by_cases mark : i.opcode = .debugLine
    · simp [strip_cons_debugLine mark, seek, mark, ih]
    · rw [strip_cons_other mark]
      by_cases here : i.opcode = .label ∧ i.target = label
      · simp [seek, here]
      · simp only [seek, if_neg here, ih]

namespace Link

-- The address of what follows some code once its labels are gone.
def address (pre : List Instruction) : Nat := pre.countP (·.opcode ≠ .label)

@[simp] theorem address_nil : address [] = 0 := rfl

@[simp] theorem address_append (a b : List Instruction) :
    address (a ++ b) = address a + address b := by simp [address]

theorem address_cons_label {i : Instruction} (is : i.opcode = .label) (rest : List Instruction) :
    address (i :: rest) = address rest := by
  simp [address, is]

theorem address_cons_other {i : Instruction} (other : i.opcode ≠ .label)
    (rest : List Instruction) : address (i :: rest) = address rest + 1 := by
  simp [address, other]

theorem map_fst_addresses (code : List Instruction) (next : Nat) :
    (addresses code next).map (·.1) = labelsOf code := by
  induction code generalizing next with
  | nil => rfl
  | cons i rest ih =>
    by_cases is : i.opcode = .label
    · simp [addresses, is, labelsOf_cons_label is, ih]
    · simp [addresses, is, labelsOf_cons_other is, ih]

theorem lookup_addresses_eq_none_iff {code : List Instruction} {next : Nat} {label : Int} :
    (addresses code next).lookup label = none ↔ label ∉ labelsOf code := by
  rw [List.lookup_eq_none_iff, ← map_fst_addresses code next]
  simp only [List.mem_map, not_exists, not_and]
  constructor
  · intro apart p member same
    simpa [same] using apart p member
  · intro absent p member
    simpa using fun same => absent p member same.symm

-- A label gets the address of what follows it.
theorem lookup_addresses_of_seek {code rest : List Instruction} {label : Int}
    (found : seek label code = some rest) (next : Nat) :
    ∃ pre i, code = pre ++ i :: rest ∧ i.opcode = .label ∧
      (addresses code next).lookup label = some (next + address pre) := by
  induction code generalizing next with
  | nil => simp [seek] at found
  | cons i tail ih =>
    unfold seek at found
    split at found
    · rename_i here
      cases found
      exact ⟨[], i, rfl, here.1, by simp [addresses, here.1, here.2]⟩
    · rename_i elsewhere
      by_cases is : i.opcode = .label
      · obtain ⟨pre, j, split, isLabel, given⟩ := ih found next
        refine ⟨i :: pre, j, by rw [split, List.cons_append], isLabel, ?_⟩
        have other : (label == i.target) = false := by
          simpa using fun same => elsewhere ⟨is, same.symm⟩
        rw [address_cons_label is]
        simp only [addresses, is, if_true, List.lookup_cons, other, given]
      · obtain ⟨pre, j, split, isLabel, given⟩ := ih found (next + 1)
        refine ⟨i :: pre, j, by rw [split, List.cons_append], isLabel, ?_⟩
        rw [address_cons_other is]
        simp only [addresses, is, if_false, given]
        congr 1
        omega

theorem duplicate?_eq_none_iff {seen labels : List Int} :
    duplicate? seen labels = none ↔ labels.Nodup ∧ ∀ label ∈ labels, label ∉ seen := by
  induction labels generalizing seen with
  | nil => simp [duplicate?]
  | cons label rest ih =>
    unfold duplicate?
    by_cases old : label ∈ seen
    · simp [old]
    · rw [if_neg (by simpa using old), ih]
      simp only [List.mem_cons, List.nodup_cons, forall_eq_or_imp, not_or]
      grind

theorem undefined?_eq_none_iff (code : List Instruction) :
    undefined? (addresses code 0) code = none ↔ BranchesDefined code := by
  unfold undefined? BranchesDefined
  rw [List.find?_eq_none]
  refine forall₂_congr fun i _ => ?_
  simp only [Bool.and_eq_true, Option.isNone_iff_eq_none, lookup_addresses_eq_none_iff]
  tauto

-- The instructions of a linked program.
def linked (code : List Instruction) : List Instruction :=
  (code.filter (·.opcode ≠ .label)).map (retarget (addresses code 0))

theorem retarget_opcode (labels : List (Int × Nat)) (i : Instruction) :
    (retarget labels i).opcode = i.opcode := by
  unfold retarget
  split <;> rfl

theorem retarget_line (labels : List (Int × Nat)) (i : Instruction) :
    (retarget labels i).line = i.line := by
  unfold retarget
  split <;> rfl

-- The instruction after some code stands at the address of that code.
theorem linked_getElem? {code pre rest : List Instruction} {i : Instruction}
    (split : code = pre ++ i :: rest) (other : i.opcode ≠ .label) :
    (linked code)[address pre]? = some (retarget (addresses code 0) i) := by
  have place : address pre = (pre.filter (·.opcode ≠ .label)).length := by
    rw [address, List.countP_eq_length_filter]
  unfold linked
  generalize addresses code 0 = labels
  rw [split, place]
  simp [other]

theorem length_linked (code : List Instruction) : (linked code).length = address code := by
  rw [linked, List.length_map, address, List.countP_eq_length_filter]

end Link

-- Linking succeeds on distinct labels that no branch misses.
theorem link_eq_ok_iff {p q : Program} {log : List LogRecord} (open_ : p.stage ≠ .ready) :
    link p = .ok (q, log) ↔
      (labelsOf p.code.toList).Nodup ∧ BranchesDefined p.code.toList ∧
        q = { p with code := (Link.linked p.code.toList).toArray, stage := .ready } ∧
        log = [{ message := "linked program"
                 fields := [("labels", .int (Link.addresses p.code.toList 0).length),
                   ("instructions", .int (Link.linked p.code.toList).length)] }] := by
  have distinct : Link.duplicate? [] ((Link.addresses p.code.toList 0).map (·.1)) = none ↔
      (labelsOf p.code.toList).Nodup := by
    rw [Link.duplicate?_eq_none_iff, Link.map_fst_addresses]
    simp
  have reached := Link.undefined?_eq_none_iff p.code.toList
  rw [Link.link_apply, if_neg open_]
  dsimp only
  split
  · rename_i label twice
    simp [← distinct, twice]
  · rename_i once i missing
    simp [← reached, missing]
  · rename_i once complete
    rw [← distinct, ← reached]
    simp only [once, complete, true_and, Except.ok.injEq, Prod.mk.injEq, Link.linked,
      Link.finishedRecord]
    constructor
    · rintro ⟨rfl, rfl⟩
      exact ⟨rfl, rfl⟩
    · rintro ⟨rfl, rfl⟩
      exact ⟨rfl, rfl⟩

end ScalarScript
