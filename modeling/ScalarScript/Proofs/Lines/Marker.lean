import ScalarScript.Proofs.Source.Moves
import ScalarScript.Proofs.Symbolic.Marks
/-!
The line markers of a clause. Where a clause begins its line, the compiler puts the marker of that
line in front of its code, and the markers inside are those of lines that its tokens stand on.
-/
namespace ScalarScript

-- Labels and jumps. They cannot fail, and no marker is put in front of them.
def Opcode.silent : Opcode → Bool
  | label | jump | jumpIf _ => true
  | _ => false

theorem Opcode.ne_debugLine_of_silent {o : Opcode} (silent : o.silent = true) :
    o ≠ .debugLine := by
  rintro rfl
  cases silent

open Stateful Compile

-- One of the lines that some tokens stand on.
def OnLine (tokens : List Token) (line : Int) : Prop :=
  ∃ t ∈ tokens, t.kind ≠ .lineMark ∧ line = t.line

instance (tokens : List Token) (line : Int) : Decidable (OnLine tokens line) :=
  inferInstanceAs (Decidable (∃ t ∈ tokens, _))

theorem OnLine.mono {tokens more : List Token} {line : Int} (on : OnLine tokens line)
    (fewer : tokens ⊆ more) : OnLine more line := by
  obtain ⟨t, member, real, same⟩ := on
  exact ⟨t, fewer member, real, same⟩

-- The markers put behind a place in the code, when the tokens up to the current one were reached.
-- One of them stands in front of everything but labels and jumps, or is about to.
structure Marking (tokens : List Token) (size : Nat) (past : List Token) (c : Compiler) : Prop where
  ahead : tokens = past ++ c.ahead
  grown : size ≤ c.faces.length
  waiting : ∀ line ∈ c.pending, OnLine (past ++ c.ahead.take 1) line
  markers : ∀ f ∈ c.faces.drop size, f.1 = .debugLine → OnLine (past ++ c.ahead.take 1) f.2.2
  opens : (c.pending ≠ none ∧ ∀ f ∈ c.faces.drop size, f.1.silent = true) ∨
    ∃ a f b, c.faces.drop size = a ++ f :: b ∧ (∀ g ∈ a, g.1.silent = true) ∧ f.1 = .debugLine

namespace Marking

variable {tokens past : List Token} {size : Nat} {c : Compiler} {i : Instruction}

-- Where a line has just been reached.
theorem start {t : Token} {rest : List Token} (settled : c.Settled) (here : c.ahead = t :: rest)
    (waits : c.pending = some t.line) : Marking c.ahead c.faces.length [] c := by
  refine ⟨rfl, le_rfl, ?_, by simp, .inl ⟨by simp [waits], by simp⟩⟩
  rw [waits]
  rintro _ ⟨⟩
  exact ⟨t, by simp [here], settled t (by simp [here]), rfl⟩

theorem faces_push (held : Marking tokens size past c) (i : Instruction) :
    (c.push i).faces.drop size = c.faces.drop size ++ [i.face] := by
  rw [Compiler.faces_push, List.drop_append_of_le_length held.grown]

theorem grown_push (held : Marking tokens size past c) (i : Instruction) :
    size ≤ (c.push i).faces.length := by
  rw [Compiler.faces_push, List.length_append]
  exact held.grown.trans (Nat.le_add_right _ _)

theorem silent (held : Marking tokens size past c) (silent : i.opcode.silent = true) :
    Marking tokens size past (c.push i) := by
  refine ⟨held.ahead, held.grown_push i, held.waiting, ?_, ?_⟩
  · rw [held.faces_push]
    intro f member marks
    rcases List.mem_append.mp member with old | new
    · exact held.markers f old marks
    · rw [List.mem_singleton.mp new] at marks
      change i.opcode = _ at marks
      rw [marks] at silent
      cases silent
  · rw [held.faces_push]
    rcases held.opens with ⟨waits, quiet⟩ | ⟨a, f, b, same, quiet, marks⟩
    · refine .inl ⟨waits, List.forall_mem_append.mpr ⟨quiet, ?_⟩⟩
      exact List.forall_mem_singleton.mpr silent
    · exact .inr ⟨a, f, b ++ [i.face], by rw [same]; simp, quiet, marks⟩

-- An instruction where no marker waits.
theorem plain (held : Marking tokens size past c) (other : i.opcode ≠ .debugLine)
    (none : c.pending = none) : Marking tokens size past (c.push i) := by
  refine ⟨held.ahead, held.grown_push i, held.waiting, ?_, ?_⟩
  · rw [held.faces_push]
    intro f member marks
    rcases List.mem_append.mp member with old | new
    · exact held.markers f old marks
    · rw [List.mem_singleton.mp new] at marks
      exact absurd marks other
  · rw [held.faces_push]
    rcases held.opens with ⟨waits, _⟩ | ⟨a, f, b, same, quiet, marks⟩
    · exact absurd none waits
    · exact .inr ⟨a, f, b ++ [i.face], by rw [same]; simp, quiet, marks⟩

-- The marker that waits.
theorem marker {line : Nat} (held : Marking tokens size past c) (waits : c.pending = some line) :
    Marking tokens size past
      ({ c with pending := none }.push (.debugLine line (c.lineText line))) := by
  refine ⟨held.ahead, held.grown_push (.debugLine line (c.lineText line)), by simp [Compiler.push],
    ?_, .inr ?_⟩
  · change ∀ f ∈ (c.push (.debugLine line (c.lineText line))).faces.drop size, _
    rw [held.faces_push]
    intro f member marks
    rcases List.mem_append.mp member with old | new
    · exact held.markers f old marks
    · rw [List.mem_singleton.mp new]
      exact held.waiting line waits
  · change ∃ a f b, (c.push (.debugLine line (c.lineText line))).faces.drop size = _ ∧ _
    rw [held.faces_push]
    rcases held.opens with ⟨_, quiet⟩ | ⟨a, f, b, same, quiet, marks⟩
    · exact ⟨_, _, [], rfl, quiet, rfl⟩
    · exact ⟨a, f, b ++ [(Instruction.debugLine line (c.lineText line)).face],
        by rw [same]; simp, quiet, marks⟩

theorem emitted (held : Marking tokens size past c) (active : i.opcode.isMark = false) :
    Marking tokens size past (c.emitted i) := by
  have other : i.opcode ≠ .debugLine := by
    intro marks
    rw [marks] at active
    cases active
  unfold Compiler.emitted
  split
  · rename_i line waits
    exact (held.marker waits).plain other rfl
  · rename_i none
    exact held.plain other none

-- What is passed together with the current token.
def passed (past : List Token) (c : Compiler) : List Token :=
  past ++ c.ahead.take 1 ++ c.ahead.tail.takeWhile (·.kind = .lineMark)

theorem tokens_passed (held : Marking tokens size past c) :
    tokens = passed past c ++ c.advanced.ahead := by
  rw [held.ahead, Compiler.advanced, Compiler.settle_ahead, passed, List.append_assoc,
    List.takeWhile_append_dropWhile, List.append_assoc]
  cases c.ahead <;> rfl

-- The next token may be the first on its line.
theorem settle_pending (c : Compiler) (rest : List Token) :
    (c.settle rest).pending = c.pending ∨
      ∃ t, t ∈ (c.settle rest).ahead.take 1 ∧ t.kind ≠ .lineMark ∧
        (c.settle rest).pending = some t.line := by
  unfold Compiler.settle
  cases found : rest.dropWhile (·.kind = .lineMark) with
  | nil => exact .inl rfl
  | cons t rest' =>
    dsimp only
    split
    · refine .inr ⟨t, by simp, ?_, rfl⟩
      have first := List.head?_dropWhile_not (fun t : Token => decide (t.kind = .lineMark)) rest
      rw [found] at first
      simpa using first
    · exact .inl rfl

theorem advanced (held : Marking tokens size past c) :
    Marking tokens size (passed past c) c.advanced := by
  have wider : past ++ c.ahead.take 1 ⊆ passed past c ++ c.advanced.ahead.take 1 :=
    List.Subset.trans (List.subset_append_left _ _) (List.subset_append_left _ _)
  refine ⟨held.tokens_passed, by simpa using held.grown, ?_, ?_, ?_⟩
  · intro line waits
    rcases settle_pending c c.ahead.tail with same | ⟨t, member, real, same⟩
    · exact (held.waiting line (same ▸ waits)).mono wider
    · have next : some t.line = some line := same.symm.trans waits
      cases next
      exact ⟨t, List.mem_append_right _ member, real, rfl⟩
  · rw [Compiler.faces_advanced]
    exact fun f member marks => (held.markers f member marks).mono wider
  · rw [Compiler.faces_advanced]
    refine held.opens.imp_left fun waiting => ⟨?_, waiting.2⟩
    have waits := waiting.1
    rcases settle_pending c c.ahead.tail with same | ⟨t, _, _, same⟩
    · exact same ▸ waits
    · exact same ▸ Option.some_ne_none _

end Marking

-- Some tokens passed, and the markers of their lines put in.
theorem upheld_marking (tokens : List Token) (size : Nat) :
    Upheld fun _ c => ∃ past, Marking tokens size past c where
  weaken _ held := held
  gather held := held
  advance held := held.elim fun _ held => ⟨_, held.advanced⟩
  emit active _ held := held.imp fun _ held => held.emitted active
  label _ held := held.imp fun _ held => held.silent rfl
  jump is _ held := held.imp fun _ held =>
    held.silent (by obtain rfl | ⟨_, rfl⟩ := is <;> rfl)
  fresh held := held.imp fun _ held => { held with }
  rescope _ _ _ _ held := held.imp fun _ held => { held with }

end ScalarScript
