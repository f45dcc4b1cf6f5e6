import ScalarScript.Proofs.Linking.Unlinked
/-!
What linking is for: it fails on exactly the lists that have no meaning, before it changes anything,
and a program that it makes ready runs as its list of instructions did.
-/
namespace ScalarScript

open Stateful

variable {World Watch : Type}

namespace Link

theorem inPlace_of_duplicate {p : Program} (unlinked : p.stage ≠ .ready)
    (twice : ¬ (labelsOf p.code.toList).Nodup) :
    ∃ label, inPlace p = .error (.duplicate label) p := by
  have found : duplicate? [] ((addresses p.code.toList 0).map (·.1)) ≠ none := by
    rw [ne_eq, duplicate?_eq_none_iff, map_fst_addresses]
    exact fun once => twice once.1
  obtain ⟨label, found⟩ := Option.ne_none_iff_exists'.mp found
  refine ⟨label, ?_⟩
  rw [inPlace_apply, if_neg unlinked]
  simp only [found]

theorem inPlace_of_undefined {p : Program} (unlinked : p.stage ≠ .ready)
    (once : (labelsOf p.code.toList).Nodup) (missing : ¬ BranchesDefined p.code.toList) :
    ∃ label opcode, inPlace p = .error (.undefined label opcode) p := by
  have none : duplicate? [] ((addresses p.code.toList 0).map (·.1)) = none := by
    rw [duplicate?_eq_none_iff, map_fst_addresses]
    exact ⟨once, fun _ _ => by simp⟩
  have found := mt (undefined?_eq_none_iff p.code.toList).mp missing
  obtain ⟨i, found⟩ := Option.ne_none_iff_exists'.mp found
  refine ⟨i.target, i.opcode, ?_⟩
  rw [inPlace_apply, if_neg unlinked]
  simp only [none, found]

theorem inPlace_of_linkable {p : Program} (unlinked : p.stage ≠ .ready)
    (once : (labelsOf p.code.toList).Nodup) (defined : BranchesDefined p.code.toList) :
    inPlace p = .ok [finishedRecord p.code.toList]
      { p with code := (linked p.code.toList).toArray, stage := .ready } := by
  have none : duplicate? [] ((addresses p.code.toList 0).map (·.1)) = none := by
    rw [duplicate?_eq_none_iff, map_fst_addresses]
    exact ⟨once, fun _ _ => by simp⟩
  rw [inPlace_apply, if_neg unlinked]
  simp only [none, (undefined?_eq_none_iff p.code.toList).mpr defined]
  rfl

theorem inPlace_of_ready {p : Program} (ready : p.stage = .ready) : inPlace p = .ok [] p := by
  rw [inPlace_apply, if_pos ready]

-- What is left of the list, in order, and what became of each instruction.
theorem linked_counterparts (code : List Instruction) :
    List.Forall₂ Counterpart (code.filter (·.opcode ≠ .label)) (linked code) := by
  rw [linked, List.forall₂_map_right_iff, List.forall₂_same]
  intro i _
  unfold retarget
  cases branch : i.opcode.isBranch with
  | false => exact .refl i
  | true => exact ⟨rfl, fun plain => by simp [branch] at plain⟩

end Link

namespace Linked

-- A linked program runs as the list that it was made from.
structure Follows (m : Machine World Watch) (code : List Instruction) (s : RunState World Watch)
    (n : Nat) : Prop where
  -- the same result, and the same state but for the numbers of places
  effects : Alike (Along (Site code) True) Eq (Exec.drive (Exec.step m) n s)
    (Exec.drive (Unlinked.step m code) n s)
  visited : visits (Exec.step m) (fun s => m.code[s.address.toNat]?) n s =
    (visits (Unlinked.step m code) (fun t => code[Unlinked.settled code t.address.toNat]?) n s).map
      (Link.retarget (Link.addresses code 0))
  low : 0 ≤ (endState (Exec.drive (Exec.step m) n s)).address
  high : (endState (Exec.drive (Exec.step m) n s)).address ≤ m.code.size

theorem start_along (code : List Instruction) (around : Surroundings World Watch)
    (context : Context) :
    Along (Site code) True (Machine.start around context) (Machine.start around context) :=
  ⟨⟨rfl, rfl, rfl, rfl, rfl, rfl, rfl, rfl, fun _ => rfl, .nil, rfl, rfl⟩, site_zero code⟩

theorem follows {m : Machine World Watch} {code : List Instruction}
    (linked : m.code = (Link.linked code).toArray) (defined : BranchesDefined code)
    (around : Surroundings World Watch) (context : Context) (n : Nat) :
    Follows m code (Machine.start around context) n := by
  have along := start_along code around context
  have effects := (step_alike_unlinked linked defined).drive n _ _ along
  have inside : 0 ≤ (endState (Exec.drive (Exec.step m) n (Machine.start around context))).address ∧
      (endState (Exec.drive (Exec.step m) n (Machine.start around context))).address ≤
        m.code.size := by
    rw [linked, List.size_toArray]
    generalize Exec.drive (Exec.step m) n (Machine.start around context) = one at effects
    generalize Exec.drive (Unlinked.step m code) n (Machine.start around context) = two at effects
    cases effects with
    | ok _ along => exact along.2.inside
    | error _ along => exact along.2.inside
  exact ⟨effects, visits_alike linked defined along n, inside.1, inside.2⟩

end Linked

-- Linking a list of instructions, whatever it holds.
theorem Link.keeps_meaning (p : Program) (unlinked : p.stage ≠ .ready) :
    ((∃ f q, Link.inPlace p = .error f q ∧ f.error.code = .duplicateLabel) ↔
      ¬ (labelsOf p.code.toList).Nodup) ∧
    ((∃ f q, Link.inPlace p = .error f q ∧ f.error.code = .undefinedLabel) ↔
      (labelsOf p.code.toList).Nodup ∧ ¬ BranchesDefined p.code.toList) ∧
    (∀ f q, Link.inPlace p = .error f q → q = p) ∧
    (∀ log q, Link.inPlace p = .ok log q →
      q = { p with code := q.code, stage := .ready } ∧
      List.Forall₂ Counterpart (p.code.toList.filter (·.opcode ≠ .label)) q.code.toList ∧
      Link.inPlace q = .ok [] q ∧
      ∀ (World Watch : Type) (m : Machine World Watch) (around : Surroundings World Watch)
        (context : Context) (n : Nat), m.code = q.code →
        Linked.Follows m p.code.toList (Machine.start around context) n ∧
        ∀ s : RunState World Watch,
          (∀ i ∈ p.code.toList.drop s.address.toNat, i.opcode = .label) →
          ∃ t, Unlinked.step m p.code.toList s = .ok (some .null) t) := by
  by_cases once : (labelsOf p.code.toList).Nodup
  · by_cases defined : BranchesDefined p.code.toList
    · have done := inPlace_of_linkable unlinked once defined
      refine ⟨?_, ?_, ?_, ?_⟩
      · simp [done, once]
      · simp [done, defined]
      · simp [done]
      · intro log q ran
        rw [done] at ran
        cases ran
        refine ⟨rfl, linked_counterparts p.code.toList, inPlace_of_ready rfl, ?_⟩
        intro World Watch m around context n ready
        exact ⟨Linked.follows ready defined around context n, fun _ => Unlinked.step_of_labels m⟩
    · obtain ⟨label, opcode, failed⟩ := inPlace_of_undefined unlinked once defined
      refine ⟨?_, ?_, ?_, ?_⟩
      · simp only [failed, once, not_true_eq_false, iff_false]
        rintro ⟨f, q, same, code⟩
        cases same
        exact absurd code (by decide : Code.undefinedLabel ≠ Code.duplicateLabel)
      · simp [failed, once, defined, LinkFault.error]
      · simp [failed, eq_comm]
      · simp [failed]
  · obtain ⟨label, failed⟩ := inPlace_of_duplicate unlinked once
    refine ⟨?_, ?_, ?_, ?_⟩
    · simp [failed, once, LinkFault.error]
    · simp only [failed, once, false_and, iff_false]
      rintro ⟨f, q, same, code⟩
      cases same
      exact absurd code (by decide : Code.duplicateLabel ≠ Code.undefinedLabel)
    · simp [failed, eq_comm]
    · simp [failed]

-- A loop that is left to a label in last position, behind another one.
def Link.loop : Program where
  code := #[.label 1, .branch (.jumpIf .equal) 3, .debugLine 1 "", .branch .jump 1, .label 2,
    .label 3]

theorem Link.loop_keeps_meaning :
    Link.loop.stage ≠ .ready ∧ (labelsOf Link.loop.code.toList).Nodup ∧
      ∃ log q, Link.inPlace Link.loop = .ok log q ∧
        ∀ n, Linked.Follows ({ code := q.code } : Machine Unit Unit) Link.loop.code.toList
           (Machine.start ⟨#[], (), (), []⟩ .background) n := by
  have unlinked : Link.loop.stage ≠ .ready := by decide
  have once : (labelsOf Link.loop.code.toList).Nodup := by decide
  have defined : BranchesDefined Link.loop.code.toList := by
    unfold BranchesDefined
    decide
  have ran := inPlace_of_linkable unlinked once defined
  refine ⟨unlinked, once, _, _, ran, ?_⟩
  intro n
  exact (((Link.keeps_meaning Link.loop unlinked).2.2.2 _ _ ran).2.2.2 Unit Unit _
    ⟨#[], (), (), []⟩ .background n rfl).1

end ScalarScript
