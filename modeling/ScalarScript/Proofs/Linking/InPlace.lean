import ScalarScript.Link
import ScalarScript.Proofs.Stateful
import Mathlib.Data.List.Basic
/-!
Linking where the program is. Its steps come to one closed form: a program that fails a check is
left alone, and a program that passes both is the one without labels whose branches are retargeted.
-/
namespace ScalarScript.Link

open Stateful

-- The places of the branches, counted from some place on.
def branchesFrom : List Instruction → Nat → List Nat
  | [], _ => []
  | i :: rest, place =>
    if i.opcode.isBranch then place :: branchesFrom rest (place + 1)
    else branchesFrom rest (place + 1)

theorem branches_eq (p : Program) : p.branches = branchesFrom p.code.toList 0 := by
  have general (code : List Instruction) (place : Nat) :
      ((code.zipIdx place).filter (·.1.opcode.isBranch)).map Prod.snd =
        branchesFrom code place := by
    induction code generalizing place with
    | nil => rfl
    | cons i rest ih =>
      rw [List.zipIdx_cons, branchesFrom, ← ih (place + 1)]
      by_cases branch : i.opcode.isBranch = true
      · simp [branch]
      · simp [branch]
  exact general p.code.toList 0

theorem retarget_of_plain {labels : List (Int × Nat)} {i : Instruction}
    (plain : i.opcode.isBranch = false) : retarget labels i = i := by
  simp [retarget, plain]

-- What is in front of the places patched stays.
theorem patchAll_apply (labels : List (Int × Nat)) (p : Program) (pre rest : List Instruction)
    (split : p.code.toList = pre ++ rest) :
    patchAll labels (branchesFrom rest pre.length) p =
      .ok () { p with code := (pre ++ rest.map (retarget labels)).toArray } := by
  induction rest generalizing p pre with
  | nil =>
    rw [List.map_nil, ← split]
    rfl
  | cons i rest ih =>
    have further : p.code.toList = (pre ++ [i]) ++ rest := by simp [split]
    have length : (pre ++ [i]).length = pre.length + 1 := by simp
    cases branch : i.opcode.isBranch with
    | false =>
      rw [branchesFrom, branch, if_neg (by simp), ← length, ih p (pre ++ [i]) further]
      simp [retarget_of_plain branch]
    | true =>
      have patched : (p.code.modify pre.length (retarget labels)).toList =
          (pre ++ [retarget labels i]) ++ rest := by
        rw [Array.toList_modify, split, List.modify_eq_take_cons_drop (by simp)]
        simp
      rw [branchesFrom, branch, if_pos rfl, patchAll, bind_apply, modify_apply]
      have later := ih { p with code := p.code.modify pre.length (retarget labels) }
        (pre ++ [retarget labels i]) patched
      rw [show (pre ++ [retarget labels i]).length = pre.length + 1 by simp] at later
      simp only [later]
      simp

-- Both checks come before anything changes.
theorem check_apply (labels : List (Int × Nat)) (p q : Program) :
    check labels p q =
      match duplicate? [] (labels.map (·.1)), undefined? labels p.code.toList with
      | some label, _ => .error (.duplicate label) q
      | none, some i => .error (.undefined i.target i.opcode) q
      | none, none => .ok () q := by
  unfold check
  cases duplicate? [] (labels.map (·.1)) with
  | some label => rfl
  | none =>
    cases undefined? labels p.code.toList with
    | some i => rfl
    | none => rfl

-- What follows the checks.
def finishedRecord (code : List Instruction) : LogRecord where
  message := "linked program"
  fields := [("labels", .int (addresses code 0).length),
    ("instructions", .int ((code.filter (·.opcode ≠ .label)).map
      (retarget (addresses code 0))).length)]

theorem inPlace_apply (p : Program) :
    inPlace p =
      if p.stage = .ready then .ok [] p
      else
        let code := p.code.toList
        let labels := addresses code 0
        match duplicate? [] (labels.map (·.1)), undefined? labels code with
        | some label, _ => .error (.duplicate label) p
        | none, some i => .error (.undefined i.target i.opcode) p
        | none, none => .ok [finishedRecord code]
            { p with
              code := ((code.filter (·.opcode ≠ .label)).map (retarget labels)).toArray
              stage := .ready } := by
  unfold inPlace
  rw [bind_apply]
  simp only [get_apply]
  by_cases ready : p.stage = .ready
  · rw [if_pos ready, if_pos ready]
    rfl
  rw [if_neg ready, if_neg ready]
  simp only [bind_apply, check_apply]
  cases duplicate? [] ((addresses p.code.toList 0).map (·.1)) with
  | some label => rfl
  | none =>
    cases undefined? (addresses p.code.toList 0) p.code.toList with
    | some i => rfl
    | none =>
      have kept := patchAll_apply (addresses p.code.toList 0)
        { p with code := p.code.filter (·.opcode ≠ .label) } []
        (p.code.toList.filter (·.opcode ≠ .label)) (by simp)
      simp only [dropLabels, modify_apply, branches_eq]
      simp at kept
      simp [kept, finishedRecord, Program.markReady, Program.size]

-- Linking at once.
theorem link_apply (p : Program) :
    link p =
      if p.stage = .ready then .ok (p, [])
      else
        let code := p.code.toList
        let labels := addresses code 0
        match duplicate? [] (labels.map (·.1)), undefined? labels code with
        | some label, _ => .error (.duplicate label)
        | none, some i => .error (.undefined i.target i.opcode)
        | none, none => .ok
            ({ p with
                code := ((code.filter (·.opcode ≠ .label)).map (retarget labels)).toArray
                stage := .ready }, [finishedRecord code]) := by
  unfold link
  rw [inPlace_apply]
  by_cases ready : p.stage = .ready
  · rw [if_pos ready, if_pos ready]
  rw [if_neg ready, if_neg ready]
  dsimp only
  cases duplicate? [] ((addresses p.code.toList 0).map (·.1)) with
  | some label => rfl
  | none => cases undefined? (addresses p.code.toList 0) p.code.toList <;> rfl

end ScalarScript.Link
