import ScalarScript.Peephole.Optimize
import ScalarScript.Proofs.Control.Skeleton
import Mathlib.Data.Option.Basic
/-!
The optimizer leaves the skeleton of a program alone. Every rule replaces a few instructions in a
row by others without a label, and where it replaces a jump, the new one leads where the old one did.
-/
namespace ScalarScript

-- Instructions in a row, and others that may stand in their place as far as control goes.
structure Swaps (window others : List Instruction) : Prop where
  skeleton : skeleton others = skeleton window
  present : window ≠ []
  straight : ∀ i ∈ window, i.opcode ≠ .label ∧ i.opcode ≠ .jump
  unlabelled : ∀ i ∈ others, i.opcode ≠ .label

namespace Instruction

-- Only instructions without operands have a part in control, apart from jumps.
theorem control?_of_reads {i : Instruction} {o : Operand} (reads : i.reads o = true) :
    i.control? = none := by
  unfold control?
  split
  all_goals first | rfl | (rename_i opcode; simp [Instruction.reads, touches, operands, opcode,
    Opcode.operandCount] at reads)

theorem straight_of_control? {i : Instruction} (none : i.control? = .none) :
    i.opcode ≠ .label ∧ i.opcode ≠ .jump := by
  constructor
  · intro label
    simp [control?, label] at none
  · intro jump
    simp [control?, jump] at none

end Instruction

-- Instructions without a part in control can be swapped for such.
theorem Swaps.of_plain {window others : List Instruction} (present : window ≠ [])
    (before : ∀ i ∈ window, i.control? = none) (after : ∀ i ∈ others, i.control? = none) :
    Swaps window others := by
  refine ⟨?_, present, fun i member => Instruction.straight_of_control? (before i member),
    fun i member => (Instruction.straight_of_control? (after i member)).1⟩
  rw [ScalarScript.skeleton, ScalarScript.skeleton, List.filterMap_eq_nil_iff.mpr before,
    List.filterMap_eq_nil_iff.mpr after]

namespace Rule

section

variable {f : Flow} {place : Nat} {a b c : Instruction} {others : List Instruction}

theorem control?_of_opcode {i : Instruction} {o : Opcode} (is : i.opcode = o)
    (plain : (Instruction.plain o).control? = none) : i.control? = none := by
  unfold Instruction.control? at plain ⊢
  rw [is]
  cases o <;> first | rfl | cases plain

theorem selfMove?_swaps (swapped : selfMove? a = some others) : Swaps [a] others := by
  unfold selfMove? at swapped
  split at swapped
  · rename_i applies
    cases swapped
    simp only [Bool.and_eq_true, decide_eq_true_eq] at applies
    exact .of_plain (by simp) (by simpa using control?_of_opcode applies.1.1 rfl) (by simp)
  · cases swapped

theorem deadStore?_swaps (swapped : deadStore? f place a = some others) : Swaps [a] others := by
  unfold deadStore? at swapped
  split at swapped
  · rename_i applies
    cases swapped
    simp only [Bool.and_eq_true, decide_eq_true_eq] at applies
    exact .of_plain (by simp) (by simpa using control?_of_opcode applies.1.1 rfl) (by simp)
  · cases swapped

theorem pushPop?_swaps (swapped : pushPop? a b = some others) : Swaps [a, b] others := by
  unfold pushPop? at swapped
  split at swapped
  · rename_i applies
    cases swapped
    simp only [Bool.and_eq_true, decide_eq_true_eq] at applies
    refine .of_plain (by simp) ?_ (by simp [Instruction.move, Instruction.binary,
      Instruction.control?])
    simpa using ⟨control?_of_opcode applies.1 rfl, control?_of_opcode applies.2 rfl⟩
  · cases swapped

theorem pushMovePop?_swaps (swapped : pushMovePop? a b c = some others) :
    Swaps [a, b, c] others := by
  unfold pushMovePop? at swapped
  split at swapped
  · rename_i applies
    cases swapped
    simp only [Bool.and_eq_true, decide_eq_true_eq] at applies
    refine .of_plain (by simp) ?_ (by simp [Instruction.move, Instruction.binary,
      Instruction.control?])
    simpa using ⟨control?_of_opcode applies.1.1.1.1 rfl, control?_of_opcode applies.1.1.1.2 rfl,
      control?_of_opcode applies.1.1.2 rfl⟩
  · cases swapped

theorem foldUnary?_swaps (swapped : foldUnary? a b = some others) : Swaps [a, b] others := by
  unfold foldUnary? at swapped
  split at swapped
  · rename_i move _ unary
    split at swapped
    · split at swapped
      · cases swapped
        refine .of_plain (by simp) ?_ (by simp [Instruction.move, Instruction.binary,
          Instruction.control?])
        simpa using ⟨control?_of_opcode move rfl, control?_of_opcode unary rfl⟩
      · cases swapped
    · cases swapped
  · cases swapped

theorem foldBinary?_swaps (swapped : foldBinary? f place a b c = some others) :
    Swaps [a, b, c] others := by
  unfold foldBinary? at swapped
  split at swapped
  · rename_i load compute store
    dsimp only at swapped
    split at swapped
    · cases swapped
      refine .of_plain (by simp) ?_ (by simp [Instruction.binary, Instruction.control?])
      simpa using ⟨control?_of_opcode load rfl, control?_of_opcode compute rfl,
        control?_of_opcode store rfl⟩
    · cases swapped
  · cases swapped

theorem propagate?_swaps (swapped : propagate? f place a b = some others) :
    Swaps [a, b] others := by
  unfold propagate? at swapped
  dsimp only at swapped
  split at swapped
  · rename_i applies
    cases swapped
    simp only [Bool.and_eq_true, decide_eq_true_eq] at applies
    have reader := Instruction.control?_of_reads applies.1.1.2
    have same : (substitute b a.first a.second).control? = b.control? := rfl
    refine .of_plain (by simp) ?_ (by simpa [same] using reader)
    simpa using ⟨control?_of_opcode applies.1.1.1.1 rfl, reader⟩
  · cases swapped

-- The jump put in place of the old one is taken or not, and leads to the same label.
theorem fusedJump?_eq_some {set branch code : Opcode} (fused : fusedJump? set branch = some code) :
    (∃ condition, branch = .jumpIf condition) ∧ ∃ condition, code = .jumpIf condition := by
  unfold fusedJump? at fused
  split at fused
  all_goals cases fused
  all_goals exact ⟨⟨_, rfl⟩, _, rfl⟩

theorem fuseBranch?_swaps (swapped : fuseBranch? f place a b c = some others) :
    Swaps [a, b, c] others := by
  simp only [fuseBranch?, Option.bind_eq_bind, Option.bind_eq_some_iff, Option.guard_eq_some',
    Option.pure_def, Option.some.injEq] at swapped
  obtain ⟨_, matched, code, fused, _, _, _, _, _, _, rfl⟩ := swapped
  simp only [Bool.and_eq_true, decide_eq_true_eq] at matched
  obtain ⟨⟨⟨sets, tests⟩, _⟩, _⟩ := matched
  obtain ⟨⟨condition, jump⟩, other, rfl⟩ := fusedJump?_eq_some fused
  have set : a.control? = none := by
    cases opcode : a.opcode <;> simp [opcode, Opcode.isSet] at sets
    exact control?_of_opcode opcode rfl
  have test : b.control? = none := control?_of_opcode tests rfl
  have old : c.control? = some (.branch c.target) := by simp [Instruction.control?, jump]
  refine ⟨?_, by simp, ?_, by simp [Instruction.branch]⟩
  · rw [skeleton_cons_of_none set, skeleton_cons_of_none test, skeleton_cons_of_some old]
    rfl
  · intro i member
    simp only [List.mem_cons, List.not_mem_nil, or_false] at member
    rcases member with rfl | rfl | rfl
    · exact Instruction.straight_of_control? set
    · exact Instruction.straight_of_control? test
    · simp [jump]

end

theorem replacement?_swaps {rule : Rule} {f : Flow} {place : Nat} {others : List Instruction}
    (swapped : rule.replacement? f place = some others) :
    ∃ pre window rest, f.code.toList = pre ++ window ++ rest ∧ pre.length = place ∧
      window.length = rule.width ∧ Swaps window others := by
  have one {a : Instruction} (first : f.code[place]? = some a) :
      f.code.toList = f.code.toList.take place ++ [a] ++ f.code.toList.drop (place + 1) ∧
        (f.code.toList.take place).length = place := by
    rw [← Array.getElem?_toList] at first
    obtain ⟨bound, rfl⟩ := List.getElem?_eq_some_iff.mp first
    refine ⟨?_, by rw [List.length_take]; omega⟩
    rw [List.append_assoc, List.singleton_append, ← List.drop_eq_getElem_cons bound,
      List.take_append_drop]
  have two {a b : Instruction} (first : f.code[place]? = some a)
      (second : f.code[place + 1]? = some b) :
      f.code.toList = f.code.toList.take place ++ [a, b] ++ f.code.toList.drop (place + 2) := by
    rw [← Array.getElem?_toList] at second
    obtain ⟨bound, rfl⟩ := List.getElem?_eq_some_iff.mp second
    have split := (one first).1
    rw [List.drop_eq_getElem_cons bound] at split
    simpa using split
  have three {a b c : Instruction} (first : f.code[place]? = some a)
      (second : f.code[place + 1]? = some b) (third : f.code[place + 2]? = some c) :
      f.code.toList = f.code.toList.take place ++ [a, b, c] ++ f.code.toList.drop (place + 3) := by
    rw [← Array.getElem?_toList] at third
    obtain ⟨bound, rfl⟩ := List.getElem?_eq_some_iff.mp third
    have split := two first second
    rw [List.drop_eq_getElem_cons bound] at split
    simpa using split
  simp only [replacement?, Option.bind_eq_bind, Option.bind_eq_some_iff] at swapped
  obtain ⟨a, first, swapped⟩ := swapped
  obtain ⟨whole, length⟩ := one first
  cases rule with
  | selfMove => exact ⟨_, [a], _, whole, length, rfl, selfMove?_swaps swapped⟩
  | deadStore => exact ⟨_, [a], _, whole, length, rfl, deadStore?_swaps swapped⟩
  | pushPop =>
    obtain ⟨b, second, swapped⟩ := Option.bind_eq_some_iff.mp swapped
    exact ⟨_, [a, b], _, two first second, length, rfl, pushPop?_swaps swapped⟩
  | foldUnary =>
    obtain ⟨b, second, swapped⟩ := Option.bind_eq_some_iff.mp swapped
    exact ⟨_, [a, b], _, two first second, length, rfl, foldUnary?_swaps swapped⟩
  | propagate =>
    obtain ⟨b, second, swapped⟩ := Option.bind_eq_some_iff.mp swapped
    exact ⟨_, [a, b], _, two first second, length, rfl, propagate?_swaps swapped⟩
  | pushMovePop =>
    obtain ⟨b, second, c, third, swapped⟩ := by simpa [Option.bind_eq_some_iff] using swapped
    exact ⟨_, [a, b, c], _, three first second third, length, rfl, pushMovePop?_swaps swapped⟩
  | foldBinary =>
    obtain ⟨b, second, c, third, swapped⟩ := by simpa [Option.bind_eq_some_iff] using swapped
    exact ⟨_, [a, b, c], _, three first second third, length, rfl, foldBinary?_swaps swapped⟩
  | fuseBranch =>
    obtain ⟨b, second, c, third, swapped⟩ := by simpa [Option.bind_eq_some_iff] using swapped
    exact ⟨_, [a, b, c], _, three first second third, length, rfl, fuseBranch?_swaps swapped⟩

end Rule

namespace Peephole

theorem toList_replaceAt {code : Array Instruction} {pre window rest others : List Instruction}
    (split : code.toList = pre ++ window ++ rest) :
    (replaceAt code pre.length window.length others).toList = pre ++ others ++ rest := by
  have whole : code = (pre ++ window ++ rest).toArray := Array.toList_inj.mp (by simpa using split)
  subst whole
  have behind : (pre ++ (window ++ rest)).drop (pre.length + window.length) = rest := by
    rw [← List.length_append, ← List.append_assoc, List.drop_left]
  simp only [replaceAt, Array.toList_append, Array.toList_extract, List.extract_eq_take_drop,
    List.size_toArray, List.drop_zero, Nat.sub_zero, List.append_assoc, List.take_left, behind]
  rw [List.take_of_length_le (by simp only [List.length_append]; omega)]

-- What every rule keeps, optimization keeps.
section

variable {P : List Instruction → Prop}
  (keeps : ∀ (rule : Rule) (f : Flow) (pre window rest others : List Instruction),
    rule.replacement? f pre.length = some others → f.code.toList = pre ++ window ++ rest →
    Swaps window others → P (pre ++ window ++ rest) → P (pre ++ others ++ rest))

include keeps

theorem tryRule_keeps (place : Nat) (rule : Rule) {s : State} (holds : P s.flow.code.toList) :
    P (tryRule place s rule).flow.code.toList := by
  unfold tryRule
  split
  · exact holds
  · rename_i others swapped
    obtain ⟨pre, window, rest, split, rfl, width, swaps⟩ := Rule.replacement?_swaps swapped
    rw [← width]
    show P (replaceAt s.flow.code pre.length window.length others).toList
    rw [toList_replaceAt split]
    exact keeps rule s.flow pre window rest others swapped split swaps (split ▸ holds)

theorem passFrom_keeps (steps place : Nat) {s : State} (holds : P s.flow.code.toList) :
    P (passFrom steps place s).flow.code.toList := by
  induction steps generalizing place s with
  | zero => exact holds
  | succ steps ih =>
    unfold passFrom
    split
    · refine ih (place + 1) ?_
      clear * - keeps holds
      generalize Rule.all = rules
      induction rules generalizing s with
      | nil => exact holds
      | cons rule rules inner => exact inner (tryRule_keeps keeps place rule holds)
    · exact holds

theorem passes_keeps (limit : Int) (steps count : Nat) {s : State} (holds : P s.flow.code.toList) :
    P (passes limit steps count s).2.flow.code.toList := by
  induction steps generalizing count s with
  | zero => exact holds
  | succ steps ih =>
    unfold passes
    split
    · exact holds
    · have next : P (pass s).flow.code.toList := passFrom_keeps keeps _ _ holds
      dsimp only
      split
      · exact next
      · exact ih (count + 1) next

theorem optimize_keeps {p : Program} {maxPasses : Int} {o : Optimization}
    (done : optimize p maxPasses = .ok o) (holds : P (strip p.code.toList)) :
    P o.program.code.toList := by
  have start : P (Flow.of (p.code.filter (·.opcode ≠ .debugLine))).code.toList := by
    simpa [Flow.of, strip] using holds
  have kept := passes_keeps keeps maxPasses ((p.code.filter (·.opcode ≠ .debugLine)).size + 2) 0
    (s := { flow := .of (p.code.filter (·.opcode ≠ .debugLine)) }) start
  unfold optimize at done
  split at done
  · cases done
  · exact Except.ok.inj done ▸ kept

end

end Peephole

-- What is not in the middle is in front of it or behind it.
theorem split_outside {a b c front behind : List Instruction} {j : Instruction}
    (split : a ++ b ++ c = front ++ j :: behind) (outside : j ∉ b) :
    (∃ more, a = front ++ j :: more) ∨ ∃ more, front = a ++ b ++ more ∧ c = more ++ j :: behind := by
  rw [List.append_assoc] at split
  rcases List.append_eq_append_iff.mp split with ⟨more, rfl, parts⟩ | ⟨more, rfl, parts⟩
  · rcases List.append_eq_append_iff.mp parts with ⟨later, rfl, rest⟩ | ⟨later, inside, rest⟩
    · exact .inr ⟨later, by simp, rest⟩
    · cases later with
      | nil => exact .inr ⟨[], by simp [inside], rest.symm⟩
      | cons k later =>
        cases rest
        exact absurd (by simp [inside]) outside
  · cases more with
    | nil =>
      cases b with
      | nil => exact .inr ⟨[], by simp, parts.symm⟩
      | cons k b =>
        cases parts
        exact absurd List.mem_cons_self outside
    | cons k more =>
      cases parts
      exact .inl ⟨more, rfl⟩

-- Fences stay, since no rule applies to the jump of one.
theorem Fenced.swap {pre window rest others : List Instruction} (swaps : Swaps window others)
    (fenced : Fenced (pre ++ window ++ rest)) : Fenced (pre ++ others ++ rest) := by
  have same : functionEntries (pre ++ others ++ rest) = functionEntries (pre ++ window ++ rest) := by
    simp only [functionEntries, skeleton_append, swaps.skeleton]
  intro front j behind split label entry
  rw [same] at entry
  rcases split_outside split fun inside => swaps.unlabelled j inside label with
    ⟨more, rfl⟩ | ⟨more, rfl, rfl⟩
  · exact fenced front j (more ++ window ++ rest) (by simp) label entry
  · obtain ⟨i, last, jump⟩ := fenced (pre ++ window ++ more) j behind (by simp) label entry
    rcases List.eq_nil_or_concat' more with rfl | ⟨earlier, k, rfl⟩
    · -- the jump would be one of those replaced
      obtain ⟨w, lastWindow⟩ : ∃ w, window.getLast? = some w :=
        Option.ne_none_iff_exists'.mp (by simpa using swaps.present)
      rw [List.append_nil, List.getLast?_append, lastWindow] at last
      cases last
      exact absurd jump (swaps.straight i (List.mem_of_getLast? lastWindow)).2
    · rw [← List.append_assoc, List.getLast?_concat] at last ⊢
      cases last
      exact ⟨i, rfl, jump⟩

-- An optimized program has the skeleton of the program that it was made from, and its fences.
theorem optimize_skeleton {p : Program} {maxPasses : Int} {o : Optimization}
    (done : optimize p maxPasses = .ok o) (fenced : Fenced (strip p.code.toList)) :
    skeleton o.program.code.toList = skeleton p.code.toList ∧ Fenced o.program.code.toList := by
  refine Peephole.optimize_keeps
    (P := fun code => skeleton code = skeleton p.code.toList ∧ Fenced code) ?_ done
    ⟨skeleton_strip _, fenced⟩
  rintro rule f pre window rest others _ _ swaps ⟨same, fenced⟩
  refine ⟨?_, fenced.swap swaps⟩
  rw [← same]
  simp only [skeleton_append, swaps.skeleton]

end ScalarScript
