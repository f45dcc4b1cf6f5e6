import ScalarScript.Proofs.Peephole.Application
import Mathlib.Algebra.Ring.Nat
import Mathlib.Logic.Relation
/-!
Optimization comes to an end where no rule applies. Every rule that is applied makes the program
shorter by one or two instructions, and a pass that applies none has looked at every place.
-/
namespace ScalarScript

-- How many instructions a program loses where the rule is applied.
def Rule.saving : Rule → Nat
  | .foldBinary | .fuseBranch => 2
  | .selfMove | .deadStore | .pushPop | .pushMovePop | .foldUnary | .propagate => 1

theorem Rule.mem_all (rule : Rule) : rule ∈ Rule.all := by
  cases rule <;> decide

-- The instructions that are no marks.
def countCode (code : List Instruction) : Nat := code.countP fun i => !i.opcode.isMark

@[simp] theorem countCode_append (a b : List Instruction) :
    countCode (a ++ b) = countCode a + countCode b := List.countP_append

theorem countCode_of_plain {code : List Instruction} (plain : ∀ i ∈ code, i.opcode.isMark = false) :
    countCode code = code.length := by
  rw [countCode, List.countP_eq_length]
  intro i member
  simp [plain i member]

theorem toList_stripped (code : Array Instruction) :
    (code.filter (·.opcode ≠ .debugLine)).toList = strip code.toList := by
  simp [strip]

theorem countCode_strip (code : List Instruction) : countCode (strip code) = countCode code := by
  rw [countCode, countCode, strip, List.countP_filter]
  refine List.countP_congr fun i _ => ?_
  cases opcode : i.opcode <;> simp [Opcode.isMark]

namespace Rule

variable {f : Flow} {place : Nat} {rule : Rule} {window others : List Instruction}

theorem isMark_of_reads {i : Instruction} {o : Operand} (reads : i.reads o = true) :
    i.opcode.isMark = false := by
  cases opcode : i.opcode <;> first | rfl | simp [Instruction.reads, Instruction.touches,
    Instruction.operands, opcode, Opcode.operandCount] at reads

theorem Applies.plain (applies : Applies f place rule window others) :
    ∀ i ∈ others, i.opcode.isMark = false := by
  cases applies with
  | selfMove | deadStore => simp
  | pushPop | pushMovePop | foldUnary | foldBinary =>
    simp [Instruction.move, Instruction.binary, Opcode.isMark]
  | propagate _ _ reads => simpa [substitute] using isMark_of_reads reads
  | fuseBranch _ _ _ _ fused =>
    obtain ⟨_, condition, rfl⟩ := fusedJump?_eq_some fused
    simp [Instruction.branch, Opcode.isMark]

theorem Applies.plainWindow (applies : Applies f place rule window others) :
    ∀ i ∈ window, i.opcode.isMark = false := by
  have of {i : Instruction} {o : Opcode} (is : i.opcode = o) (plain : o.isMark = false) :
      i.opcode.isMark = false := is ▸ plain
  cases applies with
  | selfMove move | deadStore move => simpa using of move rfl
  | pushPop pushes pops => simpa using ⟨of pushes rfl, of pops rfl⟩
  | pushMovePop pushes moves pops => simpa using ⟨of pushes rfl, of moves rfl, of pops rfl⟩
  | foldUnary moves _ computes => simpa using ⟨of moves rfl, of computes rfl⟩
  | foldBinary loads computes stores =>
    simpa using ⟨of loads rfl, of computes rfl, of stores rfl⟩
  | propagate moves _ reads => simpa using ⟨of moves rfl, isMark_of_reads reads⟩
  | @fuseBranch set test jump _ _ sets tests _ _ fused =>
    obtain ⟨⟨condition, jumps⟩, _⟩ := fusedJump?_eq_some fused
    have set : set.opcode.isMark = false := by
      cases opcode : set.opcode <;> first | rfl | simp [opcode, Opcode.isSet] at sets
    simpa using ⟨set, of tests rfl, of jumps rfl⟩

-- The program loses as many instructions as the rule saves.
theorem Applies.countCode (applies : Applies f place rule window others) :
    countCode others + rule.saving = countCode window := by
  rw [countCode_of_plain applies.plain, countCode_of_plain applies.plainWindow, applies.width]
  cases applies <;> rfl

end Rule

namespace Peephole

-- One application of a rule.
inductive Rewrites (s : State) : State → Prop where
  | apply {rule : Rule} {pre window rest others : List Instruction}
      (split : s.flow.code.toList = pre ++ window ++ rest)
      (applies : rule.Applies s.flow pre.length window others) :
      Rewrites s
        { flow := .of (pre ++ others ++ rest).toArray
          applied := (rule, pre.length) :: s.applied }

-- No rule applies anywhere.
def Quiet (s : State) : Prop := ∀ (rule : Rule) (place : Nat), rule.replacement? s.flow place = none

-- What an attempt comes to.
theorem tryRule_cases (place : Nat) (s : State) (rule : Rule) :
    (rule.replacement? s.flow place = none ∧ tryRule place s rule = s) ∨
      Rewrites s (tryRule place s rule) := by
  unfold tryRule
  split
  · exact .inl ⟨‹_›, rfl⟩
  · rename_i others swapped
    obtain ⟨pre, window, rest, split, rfl, applies⟩ := Rule.replacement?_applies swapped
    have code : replaceAt s.flow.code pre.length rule.width others =
        (pre ++ others ++ rest).toArray := by
      rw [← applies.width]
      exact Array.toList_inj.mp (toList_replaceAt split)
    rw [code]
    exact .inr (.apply split applies)

theorem Rewrites.length {s t : State} (rewrites : Rewrites s t) :
    t.applied.length = s.applied.length + 1 := by
  cases rewrites
  rfl

-- Rules applied one after the other.
abbrev Reworks : State → State → Prop := Relation.ReflTransGen Rewrites

theorem Reworks.length {s t : State} (reworks : Reworks s t) :
    s.applied.length ≤ t.applied.length := by
  induction reworks with
  | refl => exact Nat.le_refl _
  | tail _ rewrites ih => exact ih.trans (rewrites.length ▸ Nat.le_succ _)

-- Nothing was applied exactly where nothing was recorded.
theorem Reworks.eq_of_length {s t : State} (reworks : Reworks s t)
    (same : t.applied.length = s.applied.length) : t = s := by
  rcases Relation.ReflTransGen.cases_tail reworks with rfl | ⟨u, before, last⟩
  · rfl
  · have := Reworks.length before
    have := last.length
    omega

-- What an attempt at some places comes to: rules applied, or no rule that applies there.
theorem foldl_tryRule (place : Nat) (rules : List Rule) (s : State) :
    Reworks s (rules.foldl (tryRule place) s) ∧
      (rules.foldl (tryRule place) s = s → ∀ rule ∈ rules, rule.replacement? s.flow place = none) := by
  induction rules generalizing s with
  | nil => exact ⟨.refl, fun _ _ member => absurd member List.not_mem_nil⟩
  | cons rule rules ih =>
    obtain ⟨reworks, silent⟩ := ih (tryRule place s rule)
    rw [List.foldl_cons]
    rcases tryRule_cases place s rule with ⟨none, same⟩ | rewrites
    · rw [same] at reworks silent ⊢
      refine ⟨reworks, fun unchanged other member => ?_⟩
      rcases List.mem_cons.mp member with rfl | later
      · exact none
      · exact silent unchanged other later
    · refine ⟨.head rewrites reworks, fun unchanged => ?_⟩
      have grown := Reworks.length reworks
      rw [unchanged, rewrites.length] at grown
      omega

theorem passFrom_reworks (steps place : Nat) (s : State) :
    Reworks s (passFrom steps place s) ∧
      (passFrom steps place s = s → ∀ rule : Rule, ∀ p, place ≤ p → p < place + steps →
        rule.replacement? s.flow p = none) := by
  induction steps generalizing place s with
  | zero => exact ⟨.refl, fun _ _ p _ _ => by omega⟩
  | succ steps ih =>
    unfold passFrom
    split
    · obtain ⟨first, silentHere⟩ := foldl_tryRule place Rule.all s
      obtain ⟨later, silentBehind⟩ := ih (place + 1) (Rule.all.foldl (tryRule place) s)
      refine ⟨first.trans later, fun unchanged => ?_⟩
      -- the part in front changed nothing either
      have same : Rule.all.foldl (tryRule place) s = s := by
        refine Reworks.eq_of_length first (Nat.le_antisymm ?_ (Reworks.length first))
        have := Reworks.length later
        rwa [unchanged] at this
      rw [same] at unchanged silentBehind
      intro rule p from_ below
      rcases Nat.eq_or_lt_of_le from_ with rfl | behind
      · exact silentHere same rule rule.mem_all
      · exact silentBehind unchanged rule p behind (by omega)
    · rename_i outside
      refine ⟨.refl, fun _ rule p from_ _ => ?_⟩
      have none : s.flow.code[p]? = none := Array.getElem?_eq_none (by omega)
      simp [Rule.replacement?, none]

-- Where no rule applies, a pass changes nothing.
theorem Quiet.passFrom {s : State} (quiet : Quiet s) (steps place : Nat) :
    passFrom steps place s = s := by
  have kept (place : Nat) : Rule.all.foldl (tryRule place) s = s :=
    List.foldl_fixed' (fun rule => by simp only [tryRule, quiet rule place]) Rule.all
  induction steps generalizing place with
  | zero => rfl
  | succ steps ih =>
    rw [Peephole.passFrom, kept place, ih (place + 1), ite_self]

-- A pass that applies no rule has tried all of them everywhere.
theorem pass_eq_self_iff {s : State} : pass s = s ↔ Quiet s := by
  refine ⟨fun unchanged rule place => ?_, fun quiet => quiet.passFrom _ _⟩
  by_cases inside : place < s.flow.code.size
  · exact (passFrom_reworks s.flow.code.size 0 s).2 unchanged rule place (Nat.zero_le _) (by omega)
  · have none : s.flow.code[place]? = none := Array.getElem?_eq_none (by omega)
    simp [Rule.replacement?, none]

-- A program on the way from where optimization started: labels and code instructions are accounted
-- for, and there is no line marker.
structure Accounted (start : List Instruction) (s : State) : Prop where
  flow : s.flow = .of s.flow.code
  labels : labelsOf s.flow.code.toList = labelsOf start
  unmarked : ∀ i ∈ s.flow.code.toList, i.opcode ≠ .debugLine
  count : countCode s.flow.code.toList + (s.applied.map (·.1.saving)).sum = countCode start

theorem Rule.labelsOf_eq_nil {code : List Instruction}
    (plain : ∀ i ∈ code, i.opcode.isMark = false) : labelsOf code = [] := by
  rw [labelsOf, List.filter_eq_nil_iff.mpr, List.map_nil]
  intro i member label
  have := plain i member
  simp_all [Opcode.isMark]

theorem Accounted.rewrite {start : List Instruction} {s t : State} (accounted : Accounted start s)
    (rewrites : Rewrites s t) : Accounted start t := by
  cases rewrites with
  | apply split applies =>
    obtain ⟨-, labels, unmarked, count⟩ := accounted
    rw [split] at labels unmarked count
    refine ⟨rfl, ?_, ?_, ?_⟩
    · simpa [Flow.of, Rule.labelsOf_eq_nil applies.plain,
        Rule.labelsOf_eq_nil applies.plainWindow] using labels
    · intro i member
      simp only [Flow.of, List.mem_append] at member
      rcases member with (first | new) | last
      · exact unmarked i (by simp [first])
      · intro mark
        have := applies.plain i new
        simp [mark, Opcode.isMark] at this
      · exact unmarked i (by simp [last])
    · have saved := applies.countCode
      simp only [Flow.of, countCode_append, List.map_cons, List.sum_cons] at count ⊢
      omega

theorem Accounted.rework {start : List Instruction} {s t : State} (accounted : Accounted start s)
    (reworks : Reworks s t) : Accounted start t := by
  induction reworks with
  | refl => exact accounted
  | tail _ rewrites ih => exact ih.rewrite rewrites

theorem Rewrites.shrinks {s t : State} (rewrites : Rewrites s t) :
    countCode t.flow.code.toList < countCode s.flow.code.toList := by
  cases rewrites with
  | @apply rule _ _ _ _ split applies =>
    have saved := applies.countCode
    have some : 0 < rule.saving := by cases rule <;> decide
    rw [split]
    simp only [Flow.of, countCode_append]
    omega

theorem Reworks.shrinks {s t : State} (reworks : Reworks s t) :
    t = s ∨ countCode t.flow.code.toList < countCode s.flow.code.toList := by
  induction reworks with
  | refl => exact .inl rfl
  | tail _ rewrites ih =>
    rcases ih with rfl | less
    · exact .inr rewrites.shrinks
    · exact .inr (rewrites.shrinks.trans less)

-- How passes come to an end: by the limit, or where no rule applies.
structure Finished (limit : Int) (count : Nat) (s : State) (result : Nat × State) : Prop where
  reworks : Reworks s result.2
  few : result.1 + countCode result.2.flow.code.toList ≤
    count + countCode s.flow.code.toList + 1
  quiet : (0 < limit ∧ limit ≤ result.1) ∨ Quiet result.2

theorem passes_finished {limit : Int} {steps count : Nat} {s : State}
    (enough : countCode s.flow.code.toList < steps) :
    Finished limit count s (passes limit steps count s) := by
  induction steps generalizing count s with
  | zero => exact absurd enough (Nat.not_lt_zero _)
  | succ steps ih =>
    unfold passes
    have reworks := (passFrom_reworks s.flow.code.size 0 s).1
    change Reworks s (pass s) at reworks
    split
    · rename_i reached
      simp only [Bool.and_eq_true, decide_eq_true_eq] at reached
      exact ⟨.refl, by dsimp only; omega, .inl reached⟩
    · dsimp only
      split
      · rename_i same
        have unchanged := Reworks.eq_of_length reworks same
        rw [unchanged]
        exact ⟨.refl, by dsimp only; omega, .inr (pass_eq_self_iff.mp unchanged)⟩
      · rename_i other
        rcases Reworks.shrinks reworks with same | less
        · exact absurd (congrArg (·.applied.length) same) other
        · have rest : Finished limit (count + 1) (pass s) (passes limit steps (count + 1) (pass s)) :=
            ih (by omega)
          obtain ⟨later, few, quiet⟩ := rest
          exact ⟨reworks.trans later, by omega, quiet⟩

end Peephole

namespace Savings

-- How often a rule was applied.
def count (s : Savings) (rule : Rule) : Nat := (s.counts.lookup rule).getD 0

-- An entry that was left out counts as none.
theorem lookup_positive (times : Rule → Nat) (rules : List Rule) (rule : Rule) :
    ((((rules.map fun r => (r, times r)).filter (0 < ·.2)).lookup rule).getD 0) =
      if rule ∈ rules then times rule else 0 := by
  induction rules with
  | nil => rfl
  | cons r rules ih =>
    rw [List.map_cons, List.filter_cons]
    by_cases same : rule = r
    · subst same
      rw [if_pos List.mem_cons_self]
      split
      · rw [List.lookup_cons_self, Option.getD_some]
      · rename_i never
        simp only [decide_eq_true_eq] at never
        rw [ih]
        split <;> omega
    · have other : (rule == r) = false := by simpa using same
      have member : rule ∈ r :: rules ↔ rule ∈ rules := by simp [same]
      split
      · simp only [List.lookup_cons, other, ih, member]
      · simp only [ih, member]

theorem count_eq (s : Savings) (rule : Rule) :
    s.count rule = s.applied.countP (·.1 == rule) := by
  rw [count, counts, lookup_positive (fun r => s.applied.countP (·.1 == r)), if_pos rule.mem_all]

-- What was saved, rule by rule.
theorem sum_saving (s : Savings) :
    (s.applied.map (·.1.saving)).sum =
      (s.count .selfMove + s.count .deadStore + s.count .pushPop + s.count .pushMovePop +
        s.count .foldUnary + s.count .propagate) + 2 * (s.count .foldBinary + s.count .fuseBranch) := by
  simp only [count_eq]
  induction s.applied with
  | nil => rfl
  | cons entry rest ih =>
    obtain ⟨rule, place⟩ := entry
    rw [List.map_cons, List.sum_cons, ih]
    simp only [List.countP_cons]
    cases rule <;> simp only [Rule.saving, beq_self_eq_true, if_true, reduceCtorEq, beq_iff_eq,
      if_false] <;> omega

end Savings

namespace Peephole

-- The code that optimization starts with.
theorem Accounted.start (code : Array Instruction) :
    Accounted code.toList { flow := .of (code.filter (·.opcode ≠ .debugLine)) } := by
  refine ⟨rfl, ?_, ?_, ?_⟩
  · show labelsOf (code.filter (·.opcode ≠ .debugLine)).toList = _
    rw [toList_stripped, labelsOf_strip]
  · intro i member
    simpa using (Array.mem_filter.mp (Array.mem_toList_iff.mp member)).2
  · show countCode (code.filter (·.opcode ≠ .debugLine)).toList + 0 = _
    rw [toList_stripped, countCode_strip, Nat.add_zero]

-- Where no rule applies, one pass finds that out.
theorem Quiet.passes {s : State} (quiet : Quiet s) (limit : Int) (steps : Nat) :
    passes limit (steps + 1) 0 s = (1, s) := by
  have first : ¬ ((0 < limit && limit ≤ ((0 : Nat) : Int)) = true) := by
    simp only [Bool.and_eq_true, decide_eq_true_eq]
    omega
  rw [Peephole.passes, if_neg first]
  simp only [pass_eq_self_iff.mpr quiet, if_true, Nat.zero_add]

end Peephole

open Peephole

-- The passes that optimization makes, on the code without line markers.
def allPasses (p : Program) (maxPasses : Int) : Nat × State :=
  passes maxPasses ((p.code.filter (·.opcode ≠ .debugLine)).size + 2) 0
    { flow := .of (p.code.filter (·.opcode ≠ .debugLine)) }

theorem allPasses_finished (p : Program) (maxPasses : Int) :
    Finished maxPasses 0 { flow := .of (p.code.filter (·.opcode ≠ .debugLine)) }
      (allPasses p maxPasses) := by
  refine passes_finished ?_
  have few : countCode (p.code.filter (·.opcode ≠ .debugLine)).toList ≤
      (p.code.filter (·.opcode ≠ .debugLine)).size := by
    rw [← Array.length_toList]
    exact List.countP_le_length
  exact Nat.lt_of_le_of_lt few (by omega)

theorem allPasses_accounted (p : Program) (maxPasses : Int) :
    Accounted p.code.toList (allPasses p maxPasses).2 :=
  (Accounted.start p.code).rework (allPasses_finished p maxPasses).reworks

-- What an optimization tells is what its passes did.
theorem optimize_eq {p : Program} (building : p.stage = .building) (maxPasses : Int) :
    ∃ o, optimize p maxPasses = .ok o ∧ o.savings.passes = (allPasses p maxPasses).1 ∧
      o.program.code = (allPasses p maxPasses).2.flow.code ∧
      o.savings.applied = (allPasses p maxPasses).2.applied.reverse ∧
      o.savings.before = p.codeCount ∧ o.savings.after = o.program.codeCount := by
  unfold optimize
  rw [if_neg (by simp [building])]
  exact ⟨_, rfl, rfl, rfl, rfl, rfl, rfl⟩

theorem codeCount_eq (p : Program) : p.codeCount = countCode p.code.toList := by
  rw [Program.codeCount, countCode, Array.countP_toList]

-- Where no rule applies to a program without line markers, optimizing it changes nothing.
theorem optimize_of_quiet {code : Array Instruction} (quiet : Peephole.Quiet { flow := .of code })
    (unmarked : ∀ i ∈ code, i.opcode ≠ .debugLine) (maxPasses : Int) (free : Nat) :
    ∃ q, optimize { code, nextLabel := free } maxPasses = .ok q ∧ q.program.code = code ∧
      q.savings.applied = [] ∧ q.savings.passes = 1 := by
  obtain ⟨q, done, passes, same, applied, -⟩ :=
    optimize_eq (p := { code, nextLabel := free }) rfl maxPasses
  have bare : code.filter (·.opcode ≠ .debugLine) = code := by
    rw [Array.filter_eq_self]
    simpa using unmarked
  have first : allPasses { code, nextLabel := free } maxPasses = (1, { flow := .of code }) := by
    simp only [allPasses, bare]
    exact quiet.passes maxPasses _
  rw [first] at passes same applied
  exact ⟨q, done, same, applied, passes⟩

-- Optimization ends after few passes and keeps its accounts. Unless it was stopped, no rule applies
-- to what it leaves, and optimizing that again changes nothing.
theorem optimize_settles (p : Program) (maxPasses : Int) (building : p.stage = .building) :
    ∃ o, optimize p maxPasses = .ok o ∧
      o.savings.passes ≤ o.savings.before + 1 ∧
      o.savings.before = p.codeCount ∧ o.savings.after = o.program.codeCount ∧
      o.savings.before = o.savings.after +
        (o.savings.count .selfMove + o.savings.count .deadStore + o.savings.count .pushPop +
          o.savings.count .pushMovePop + o.savings.count .foldUnary + o.savings.count .propagate) +
        2 * (o.savings.count .foldBinary + o.savings.count .fuseBranch) ∧
      labelsOf o.program.code.toList = labelsOf p.code.toList ∧
      (∀ i ∈ o.program.code, i.opcode ≠ .debugLine) ∧
      (maxPasses ≤ 0 ∨ o.savings.passes < maxPasses →
        (∀ (rule : Rule) place, rule.replacement? (.of o.program.code) place = none) ∧
        ∀ (again : Int) (free : Nat),
          ∃ q, optimize { code := o.program.code, nextLabel := free } again = .ok q ∧
            q.program.code = o.program.code ∧ q.savings.applied = [] ∧ q.savings.passes = 1) := by
  obtain ⟨o, done, passes, code, applied, before, after⟩ := optimize_eq building maxPasses
  obtain ⟨-, few, quiet⟩ := allPasses_finished p maxPasses
  obtain ⟨flow, labels, unmarked, count⟩ := allPasses_accounted p maxPasses
  rw [← code] at few labels unmarked count flow
  rw [← passes] at few quiet
  have saved := o.savings.sum_saving
  rw [applied, List.map_reverse, List.sum_reverse] at saved
  rw [codeCount_eq] at before after
  refine ⟨o, done, ?_, codeCount_eq p ▸ before, codeCount_eq o.program ▸ after, ?_, labels,
    fun i member => unmarked i (Array.mem_toList_iff.mpr member), fun free => ?_⟩
  · change o.savings.passes + _ ≤
      0 + countCode (p.code.filter (·.opcode ≠ .debugLine)).toList + 1 at few
    rw [toList_stripped, countCode_strip] at few
    omega
  · omega
  · have settled : Peephole.Quiet { flow := .of o.program.code } := by
      intro rule place
      rw [← flow]
      exact quiet.resolve_left (by omega) rule place
    exact ⟨settled, optimize_of_quiet settled fun i member =>
      unmarked i (Array.mem_toList_iff.mpr member)⟩

-- `exit 1 + 2;`, as it is compiled.
def Peephole.sum : Program where
  code := #[.scopeDepth 2, .debugLine 1 "exit 1 + 2;", .move (.register .eax) (.literal (.number 1)),
    .push (.register .eax), .move (.register .eax) (.literal (.number 2)),
    .move (.register .ebx) (.register .eax), .pop (.register .eax),
    .binary (.binary .add) (.register .eax) (.register .ebx), .unary .exit (.register .eax),
    .unary .exit .null]

-- Four rules leave five of its nine instructions.
theorem Peephole.sum_settles :
    sum.stage = .building ∧ ∃ o, optimize sum 0 = .ok o ∧ o.savings.passes ≤ 10 ∧
      o.savings.after = 5 ∧ ∀ (rule : Rule) place, rule.replacement? (.of o.program.code) place = none := by
  refine ⟨rfl, ?_⟩
  obtain ⟨o, done, few, before, -, -, -, -, quiet⟩ := optimize_settles sum 0 rfl
  have after : (optimize sum 0).toOption.map (·.savings.after) = some 5 := by decide +kernel
  rw [done] at after
  have nine : sum.codeCount = 9 := by decide +kernel
  exact ⟨o, done, by omega, Option.some.inj after, (quiet (.inl (Int.le_refl 0))).1⟩

end ScalarScript
