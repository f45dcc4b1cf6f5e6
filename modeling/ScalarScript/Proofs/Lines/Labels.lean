import ScalarScript.Proofs.Lines.Written
/-!
Labels along a compilation. A branch leads to a label that was given out before, and nothing behind a
clause is told the labels that were given out in it: only the clause itself leads to them.
-/
namespace ScalarScript

open Compile

namespace Compiler

variable {c d : Compiler}

theorem known_eq (setting : d.setting = c.setting) (scope : d.scope = c.scope) :
    d.known = c.known := by
  have loops : d.loops = c.loops := congrArg Setting.loops setting
  have enclosing : d.enclosing = c.enclosing := congrArg Setting.enclosing setting
  rw [known, known, loops, enclosing, scope]

@[simp] theorem known_settle (c : Compiler) (tokens : List Token) :
    (c.settle tokens).known = c.known := known_eq (by simp) (by simp)

@[simp] theorem known_advanced (c : Compiler) : c.advanced.known = c.known := c.known_settle _

@[simp] theorem known_emitted (c : Compiler) (i : Instruction) :
    (c.emitted i).known = c.known := known_eq (by simp) (by simp)

@[simp] theorem known_push (c : Compiler) (i : Instruction) : (c.push i).known = c.known := rfl

@[simp] theorem known_labelled (c : Compiler) : c.labelled.known = c.known := rfl

theorem known_rescope {scope : Scope} {maxDepth : Nat} {log : List LogRecord}
    (fewer : scope.entries ⊆ c.scope.entries) :
    ({ c with scope, maxDepth, log } : Compiler).known ⊆ c.known := by
  intro l member
  rw [mem_known] at member ⊢
  exact member.imp_right (Or.imp_right fun entry => fewer entry)

theorem faces_emitted_eq (c : Compiler) (i : Instruction) :
    ∃ marks, (c.emitted i).faces = c.faces ++ (marks ++ [i.face]) ∧
      ∀ f ∈ marks, f.1 = .debugLine := by
  unfold emitted
  split
  · rename_i line _
    refine ⟨[(Instruction.debugLine line (c.lineText line)).face], ?_,
      List.forall_mem_singleton.mpr rfl⟩
    simp [faces, push]
  · exact ⟨[], faces_push c i, by simp⟩

end Compiler

-- Where the branches lead that were put in behind a place in the code.
def Leading (size : Nat) (fine : Int → Prop) (c : Compiler) : Prop :=
  size ≤ c.faces.length ∧ ∀ f ∈ c.faces.drop size, f.1.isBranch = true → fine f.2.1

namespace Leading

variable {size : Nat} {fine : Int → Prop} {c d : Compiler} {i : Instruction}

theorem congr (leading : Leading size fine c) (same : d.faces = c.faces) : Leading size fine d := by
  unfold Leading at leading ⊢
  rwa [same]

theorem mono {more : Int → Prop} (leading : Leading size fine c) (weaker : ∀ l, fine l → more l) :
    Leading size more c :=
  ⟨leading.1, fun f member branch => weaker _ (leading.2 f member branch)⟩

theorem extend {new : List (Opcode × Int × Int)} (leading : Leading size fine c)
    (same : d.faces = c.faces ++ new) (leads : ∀ f ∈ new, f.1.isBranch = true → fine f.2.1) :
    Leading size fine d := by
  refine ⟨?_, ?_⟩
  · rw [same, List.length_append]
    exact leading.1.trans (Nat.le_add_right _ _)
  · rw [same, List.drop_append_of_le_length leading.1]
    exact List.forall_mem_append.mpr ⟨leading.2, leads⟩

theorem push (leading : Leading size fine c) (leads : i.opcode.isBranch = true → fine i.target) :
    Leading size fine (c.push i) :=
  leading.extend (c.faces_push i) (List.forall_mem_singleton.mpr leads)

theorem emitted (leading : Leading size fine c) (leads : i.opcode.isBranch = true → fine i.target) :
    Leading size fine (c.emitted i) := by
  obtain ⟨marks, same, silent⟩ := c.faces_emitted_eq i
  refine leading.extend same (List.forall_mem_append.mpr ⟨?_, List.forall_mem_singleton.mpr leads⟩)
  intro f member branch
  rw [silent f member] at branch
  cases branch

end Leading

-- The labels at hand, and those that branches lead to, were given out.
def GivenOut (G : List Int) (c : Compiler) : Prop :=
  (∀ l ∈ c.known ++ G, l < c.free) ∧ Leading 0 (· < c.free) c

theorem roaming_givenOut : Roaming GivenOut where
  weaken fewer given := ⟨fun l member => given.1 l (by
    rcases List.mem_append.mp member with known | more
    · exact List.mem_append_left _ known
    · exact List.mem_append_right _ (fewer more)), given.2⟩
  gather given := ⟨fun l member => given.1 l (by simp_all), given.2⟩
  advance given := ⟨by simpa using given.1, by simpa using given.2.congr (Compiler.faces_advanced _)⟩
  emit _ leads given := ⟨by simpa using given.1, by
    rw [Compiler.free_emitted]
    exact given.2.emitted fun branch => given.1 _ (List.mem_append_right _ (leads branch))⟩
  label _ given := ⟨given.1, given.2.push (by simp [Instruction.label, Opcode.isBranch])⟩
  jump _ member given := ⟨given.1, given.2.push fun _ => given.1 _ (List.mem_append_right _ member)⟩
  fresh {G c} given := by
    have more : (c.free : Int) < c.labelled.free := Int.lt_succ _
    refine ⟨fun l member => ?_, (given.2.congr rfl).mono fun l less => lt_trans less more⟩
    rw [Compiler.known_labelled, List.mem_append, List.mem_cons] at member
    rcases member with known | rfl | other
    · exact (given.1 l (List.mem_append_left _ known)).trans more
    · exact more
    · exact (given.1 l (List.mem_append_right _ other)).trans more
  rescope _ _ _ fewer given := ⟨fun l member => given.1 l (by
    rcases List.mem_append.mp member with known | more
    · exact List.mem_append_left _ (Compiler.known_rescope fewer known)
    · exact List.mem_append_right _ more), given.2⟩
  lend _ _ _ lent given := ⟨fun l member => given.1 l (by
    rcases List.mem_append.mp member with known | more
    · exact List.mem_append.mpr (lent l known)
    · exact List.mem_append_right _ more), given.2⟩
  detour _ given := ⟨by simpa using given.1, by
    simpa using given.2.congr (Compiler.faces_settle _ _)⟩
  amend same given := ⟨given.1, given.2.congr (faces_amended same)⟩
  roam _ given := ⟨by simpa using given.1, by simpa using given.2.congr (Compiler.faces_settle _ _)⟩

-- No label between two counts is at hand, and no branch behind a place in the code leads there.
def Spares (low high : Int) (size : Nat) (G : List Int) (c : Compiler) : Prop :=
  (∀ l ∈ c.known ++ G, l < low ∨ high ≤ l) ∧ high ≤ c.free ∧
    Leading size (fun l => l < low ∨ high ≤ l) c

theorem roaming_spares (low high : Int) (size : Nat) : Roaming (Spares low high size) where
  weaken fewer spares := ⟨fun l member => spares.1 l (by
    rcases List.mem_append.mp member with known | more
    · exact List.mem_append_left _ known
    · exact List.mem_append_right _ (fewer more)), spares.2⟩
  gather spares := ⟨fun l member => spares.1 l (by simp_all), spares.2⟩
  advance spares := ⟨by simpa using spares.1, by simpa using spares.2.1,
    spares.2.2.congr (Compiler.faces_advanced _)⟩
  emit _ leads spares := ⟨by simpa using spares.1, by simpa using spares.2.1,
    spares.2.2.emitted fun branch => spares.1 _ (List.mem_append_right _ (leads branch))⟩
  label _ spares := ⟨spares.1, spares.2.1,
    spares.2.2.push (by simp [Instruction.label, Opcode.isBranch])⟩
  jump _ member spares := ⟨spares.1, spares.2.1,
    spares.2.2.push fun _ => spares.1 _ (List.mem_append_right _ member)⟩
  fresh {G c} spares := by
    have more : (c.free : Int) ≤ c.labelled.free := Int.le_of_lt (Int.lt_succ _)
    refine ⟨fun l member => ?_, spares.2.1.trans more, spares.2.2.congr rfl⟩
    rw [Compiler.known_labelled, List.mem_append, List.mem_cons] at member
    rcases member with known | rfl | other
    · exact spares.1 l (List.mem_append_left _ known)
    · exact .inr spares.2.1
    · exact spares.1 l (List.mem_append_right _ other)
  rescope _ _ _ fewer spares := ⟨fun l member => spares.1 l (by
    rcases List.mem_append.mp member with known | more
    · exact List.mem_append_left _ (Compiler.known_rescope fewer known)
    · exact List.mem_append_right _ more), spares.2⟩
  lend _ _ _ lent spares := ⟨fun l member => spares.1 l (by
    rcases List.mem_append.mp member with known | more
    · exact List.mem_append.mpr (lent l known)
    · exact List.mem_append_right _ more), spares.2⟩
  detour _ spares := ⟨by simpa using spares.1, by simpa using spares.2.1,
    spares.2.2.congr (Compiler.faces_settle _ _)⟩
  amend same spares := ⟨spares.1, spares.2.1, spares.2.2.congr (faces_amended same)⟩
  roam _ spares := ⟨by simpa using spares.1, by simpa using spares.2.1,
    spares.2.2.congr (Compiler.faces_settle _ _)⟩

-- The compiler stands at a token that is no line mark.
theorem roaming_settled : Roaming fun _ c => c.Settled where
  weaken _ settled := settled
  gather settled := settled
  advance _ := Compiler.settled_advanced _
  emit _ _ settled := settled.emitted _
  label _ settled := settled
  jump _ _ settled := settled
  fresh settled := settled
  rescope _ _ _ _ settled := settled
  lend _ _ _ _ settled := settled
  detour _ _ := Compiler.settled_settle _ _
  amend _ settled := settled
  roam _ _ := Compiler.settled_settle _ _

-- Expressions and simple statements make no more labels known.
theorem upheld_known (labels : List Int) : Upheld fun _ c => c.known ⊆ labels where
  weaken _ fewer := fewer
  gather fewer := fewer
  advance fewer := by simpa using fewer
  emit _ _ fewer := by simpa using fewer
  label _ fewer := fewer
  jump _ _ fewer := fewer
  fresh fewer := fewer
  rescope _ _ _ less fewer := List.Subset.trans (Compiler.known_rescope less) fewer

end ScalarScript
