import ScalarScript.Compile.Statement
import ScalarScript.Proofs.Source.Reading
import ScalarScript.Proofs.Stateful
import ScalarScript.Proofs.Symbolic.Marks
/-!
What the compiler's basic moves do when they succeed: which code they add, line markers apart, which
labels they give out, and where they leave the tokens.
-/
namespace ScalarScript

open Stateful Compile

namespace Compiler

def setting (c : Compiler) : Setting := ⟨c.loops, c.enclosing, c.exitType⟩

-- The first label that was not given out.
def free (c : Compiler) : Nat := c.program.nextLabel

end Compiler

-- Code is added at the end, and the place in loops and functions stays.
structure Emits (c d : Compiler) (code : List Instruction) : Prop where
  setting : d.setting = c.setting
  stage : d.program.stage = c.program.stage
  deeper : c.maxDepth ≤ d.maxDepth
  numbers : c.free ≤ d.free
  added : ∃ new, d.program.code.toList = c.program.code.toList ++ new ∧ strip new = code ∧
    MarkersLead new

namespace Emits

theorem refl (c : Compiler) : Emits c c [] :=
  ⟨rfl, rfl, Nat.le_refl _, Nat.le_refl _, [], by simp, rfl, trivial⟩

theorem trans {c d e : Compiler} {a b : List Instruction} (first : Emits c d a)
    (second : Emits d e b) : Emits c e (a ++ b) := by
  obtain ⟨new, one, rfl, lead⟩ := first.added
  obtain ⟨more, two, rfl, follow⟩ := second.added
  refine ⟨second.setting.trans first.setting, second.stage.trans first.stage,
    first.deeper.trans second.deeper, first.numbers.trans second.numbers, new ++ more, ?_,
    strip_append new more, lead.append follow⟩
  rw [two, one, List.append_assoc]

end Emits

-- Labels that were given out between two counts, each once.
structure Numbered (low : Nat) (labels : List Int) (high : Nat) : Prop where
  bound : low ≤ high
  unique : labels.Nodup
  range : ∀ label ∈ labels, (low : Int) ≤ label ∧ label < high

namespace Numbered

variable {low middle high : Nat} {a b : List Int}

theorem none (bound : low ≤ high) : Numbered low [] high := ⟨bound, List.nodup_nil, by simp⟩

theorem append (first : Numbered low a middle) (second : Numbered middle b high) :
    Numbered low (a ++ b) high := by
  have below := first.bound
  have above := second.bound
  refine ⟨below.trans above, List.nodup_append.mpr ⟨first.unique, second.unique, ?_⟩, ?_⟩
  · rintro x one y two rfl
    have := first.range x one
    have := second.range x two
    omega
  · intro x member
    rcases List.mem_append.mp member with one | two
    · have := first.range x one
      omega
    · have := second.range x two
      omega

-- The first label given out stands anywhere among the others.
theorem insert (rest : Numbered (low + 1) (a ++ b) high) :
    Numbered low (a ++ (low : Int) :: b) high := by
  have bound := rest.bound
  refine ⟨by omega, ?_, ?_⟩
  · rw [List.nodup_middle, List.nodup_cons]
    refine ⟨?_, rest.unique⟩
    intro member
    have := rest.range _ member
    omega
  · intro x member
    rcases List.mem_append.mp member with one | two
    · have := rest.range x (List.mem_append_left _ one)
      omega
    · rcases List.mem_cons.mp two with rfl | later
      · omega
      · have := rest.range x (List.mem_append_right _ later)
        omega

theorem widen {below above : Nat} (numbered : Numbered low a high) (lower : below ≤ low)
    (higher : high ≤ above) : Numbered below a above := by
  refine ⟨lower.trans (numbered.bound.trans higher), numbered.unique, ?_⟩
  intro x member
  have := numbered.range x member
  omega

end Numbered

-- The tokens ahead that are no line marks.
def Compiler.words (c : Compiler) : List Token := c.ahead.filter (·.kind ≠ .lineMark)

-- No line mark is in reach.
def Compiler.Settled (c : Compiler) : Prop := ∀ t ∈ c.ahead.head?, t.kind ≠ .lineMark

namespace Compiler

theorem settle_eq (c : Compiler) (tokens : List Token) :
    ∃ reached pending, c.settle tokens =
      { c with ahead := tokens.dropWhile (·.kind = .lineMark), reached, pending } := by
  unfold settle
  split
  · rename_i none
    exact ⟨c.reached, c.pending, by rw [none]⟩
  · rename_i t rest found
    split
    · exact ⟨t.line, some t.line, by rw [found]⟩
    · exact ⟨c.reached, c.pending, by rw [found]⟩

@[simp] theorem settle_ahead (c : Compiler) (tokens : List Token) :
    (c.settle tokens).ahead = tokens.dropWhile (·.kind = .lineMark) := by
  obtain ⟨_, _, same⟩ := c.settle_eq tokens
  rw [same]

@[simp] theorem settle_scope (c : Compiler) (tokens : List Token) :
    (c.settle tokens).scope = c.scope := by
  obtain ⟨_, _, same⟩ := c.settle_eq tokens
  rw [same]

theorem emits_settle (c : Compiler) (tokens : List Token) : Emits c (c.settle tokens) [] := by
  obtain ⟨_, _, same⟩ := c.settle_eq tokens
  rw [same]
  exact ⟨rfl, rfl, Nat.le_refl _, Nat.le_refl _, [], by simp, rfl, trivial⟩

@[simp] theorem free_settle (c : Compiler) (tokens : List Token) :
    (c.settle tokens).free = c.free := by
  obtain ⟨_, _, same⟩ := c.settle_eq tokens
  rw [same]
  rfl

theorem settled_settle (c : Compiler) (tokens : List Token) : (c.settle tokens).Settled := by
  intro t first
  rw [settle_ahead] at first
  have := List.head?_dropWhile_not (fun t : Token => decide (t.kind = .lineMark)) tokens
  rw [first] at this
  simpa using this

theorem words_settle (c : Compiler) (tokens : List Token) :
    (c.settle tokens).words = tokens.filter (·.kind ≠ .lineMark) := by
  rw [words, settle_ahead]
  induction tokens with
  | nil => rfl
  | cons t rest ih =>
    by_cases mark : t.kind = .lineMark
    · simpa [mark] using ih
    · simp [mark]

-- The state once the current token is passed.
def advanced (c : Compiler) : Compiler := c.settle c.ahead.tail

theorem settled_advanced (c : Compiler) : c.advanced.Settled := c.settled_settle _

@[simp] theorem advanced_scope (c : Compiler) : c.advanced.scope = c.scope := c.settle_scope _

@[simp] theorem free_advanced (c : Compiler) : c.advanced.free = c.free := c.free_settle _

theorem words_advanced (c : Compiler) :
    c.advanced.words = c.ahead.tail.filter (·.kind ≠ .lineMark) := c.words_settle _

-- Where the current token is a real one, it is the first word.
theorem words_eq_cons {c : Compiler} (settled : c.Settled) (more : c.current.kind ≠ .finish) :
    c.words = c.current :: c.advanced.words := by
  rw [words_advanced]
  cases ahead : c.ahead with
  | nil => simp [current, ahead] at more
  | cons t rest =>
    have real : t.kind ≠ .lineMark := settled t (by simp [ahead])
    simp [words, current, ahead, real]

theorem current_eq_of_mem {c : Compiler} {t : Token} (settled : c.Settled)
    (first : t ∈ c.words.head?) : c.current = t := by
  unfold words at first
  unfold current
  cases ahead : c.ahead with
  | nil => simp [ahead] at first
  | cons u rest =>
    have real : u.kind ≠ .lineMark := settled u (by simp [ahead])
    simpa [ahead, real] using first

-- What follows is what an advance reaches.
theorem following_eq (c : Compiler) : c.following = c.advanced.current.kind := by
  unfold following current advanced
  rw [settle_ahead]
  generalize (c.settle c.ahead.tail).lastLine = last
  induction c.ahead.tail with
  | nil => rfl
  | cons t rest ih =>
    by_cases mark : t.kind = .lineMark
    · simpa [mark] using ih
    · simp [mark]

theorem ne_debugLine_of_active {i : Instruction} (active : ¬ i.opcode.isMark = true) :
    i.opcode ≠ .debugLine := by
  intro marker
  rw [marker] at active
  exact active rfl

-- The state after an instruction is emitted.
def emitted (c : Compiler) (i : Instruction) : Compiler :=
  match c.pending with
  | some line => ({ c with pending := none }.push (.debugLine line (c.lineText line))).push i
  | none => c.push i

-- The state after a label is given out.
def labelled (c : Compiler) : Compiler := { c with program := c.program.freshLabel.2 }

@[simp] theorem push_ahead (c : Compiler) (i : Instruction) : (c.push i).ahead = c.ahead := rfl

@[simp] theorem push_scope (c : Compiler) (i : Instruction) : (c.push i).scope = c.scope := rfl

@[simp] theorem labelled_ahead (c : Compiler) : c.labelled.ahead = c.ahead := rfl

@[simp] theorem labelled_scope (c : Compiler) : c.labelled.scope = c.scope := rfl

@[simp] theorem emitted_ahead (c : Compiler) (i : Instruction) :
    (c.emitted i).ahead = c.ahead := by
  unfold emitted
  split <;> rfl

@[simp] theorem emitted_scope (c : Compiler) (i : Instruction) :
    (c.emitted i).scope = c.scope := by
  unfold emitted
  split <;> rfl

@[simp] theorem words_push (c : Compiler) (i : Instruction) : (c.push i).words = c.words := rfl

@[simp] theorem words_labelled (c : Compiler) : c.labelled.words = c.words := rfl

@[simp] theorem words_emitted (c : Compiler) (i : Instruction) :
    (c.emitted i).words = c.words := by rw [words, emitted_ahead, words]

@[simp] theorem free_push (c : Compiler) (i : Instruction) : (c.push i).free = c.free := rfl

@[simp] theorem free_labelled (c : Compiler) : c.labelled.free = c.free + 1 := rfl

@[simp] theorem free_emitted (c : Compiler) (i : Instruction) : (c.emitted i).free = c.free := by
  unfold emitted
  split <;> rfl

theorem Settled.push {c : Compiler} (settled : c.Settled) (i : Instruction) :
    (c.push i).Settled := settled

theorem Settled.labelled {c : Compiler} (settled : c.Settled) : c.labelled.Settled := settled

theorem Settled.emitted {c : Compiler} (settled : c.Settled) (i : Instruction) :
    (c.emitted i).Settled := by
  unfold Settled
  rw [emitted_ahead]
  exact settled

theorem emits_push {i : Instruction} (plain : i.opcode ≠ .debugLine) (c : Compiler) :
    Emits c (c.push i) [i] :=
  ⟨rfl, rfl, Nat.le_refl _, Nat.le_refl _, [i], by simp [push], strip_cons_other plain [],
    .cons plain trivial⟩

theorem emits_labelled (c : Compiler) : Emits c c.labelled [] :=
  ⟨rfl, rfl, Nat.le_refl _, Nat.le_succ _, [], by simp [labelled, Program.freshLabel], rfl,
    trivial⟩

theorem emits_emitted {i : Instruction} (active : ¬ i.opcode.isMark = true) (c : Compiler) :
    Emits c (c.emitted i) [i] := by
  have plain := ne_debugLine_of_active active
  unfold emitted
  split
  · rename_i line _
    refine ⟨rfl, rfl, Nat.le_refl _, Nat.le_refl _, [.debugLine line (c.lineText line), i], ?_, ?_,
      fun _ => ⟨i, rfl, active⟩, .cons plain trivial⟩
    · simp [push]
    · rw [strip_cons_debugLine rfl, strip_cons_other plain, strip_nil]
  · exact emits_push plain c

end Compiler

-- Code is added, and no name.
structure EmitsInScope (c d : Compiler) (code : List Instruction) : Prop
    extends Emits c d code where
  scope : d.scope = c.scope

namespace EmitsInScope

theorem refl (c : Compiler) : EmitsInScope c c [] := ⟨.refl c, rfl⟩

theorem trans {c d e : Compiler} {a b : List Instruction} (first : EmitsInScope c d a)
    (second : EmitsInScope d e b) : EmitsInScope c e (a ++ b) :=
  ⟨first.toEmits.trans second.toEmits, second.scope.trans first.scope⟩

theorem cast {c d : Compiler} {a b : List Instruction} (emits : EmitsInScope c d a)
    (same : a = b) : EmitsInScope c d b := same ▸ emits

theorem settle (c : Compiler) (tokens : List Token) : EmitsInScope c (c.settle tokens) [] :=
  ⟨c.emits_settle tokens, c.settle_scope tokens⟩

theorem advance (c : Compiler) : EmitsInScope c c.advanced [] :=
  ⟨c.emits_settle _, c.settle_scope _⟩

theorem emitted {i : Instruction} (active : ¬ i.opcode.isMark = true) (c : Compiler) :
    EmitsInScope c (c.emitted i) [i] :=
  ⟨Compiler.emits_emitted active c, c.emitted_scope i⟩

theorem push {i : Instruction} (plain : i.opcode ≠ .debugLine) (c : Compiler) :
    EmitsInScope c (c.push i) [i] :=
  ⟨Compiler.emits_push plain c, rfl⟩

theorem labelled (c : Compiler) : EmitsInScope c c.labelled [] := ⟨c.emits_labelled, rfl⟩

end EmitsInScope

namespace Compile

variable {α β : Type}

@[simp] theorem token_apply (c : Compiler) : token c = .ok c.current c := rfl

@[simp] theorem line_apply (c : Compiler) : line c = .ok c.current.line c := rfl

@[simp] theorem advance_apply (c : Compiler) : advance c = .ok ⟨⟩ c.advanced := rfl

@[simp] theorem seek_apply (tokens : List Token) (c : Compiler) :
    seek tokens c = .ok ⟨⟩ (c.settle tokens) := rfl

@[simp] theorem place_apply (i : Instruction) (c : Compiler) : place i c = .ok ⟨⟩ (c.push i) := rfl

@[simp] theorem emitLabel_apply (label : Int) (c : Compiler) :
    emitLabel label c = .ok ⟨⟩ (c.push (.label label)) := rfl

@[simp] theorem emitJump_apply (o : Opcode) (label : Int) (c : Compiler) :
    emitJump o label c = .ok ⟨⟩ (c.push (.branch o label)) := rfl

@[simp] theorem emit_apply (i : Instruction) (c : Compiler) :
    emit i c = .ok ⟨⟩ (c.emitted i) := rfl

@[simp] theorem freshLabel_apply (c : Compiler) :
    freshLabel c = .ok (c.free : Int) c.labelled := rfl

@[simp] theorem resolve?_apply (name : String) (c : Compiler) :
    resolve? name c = .ok (c.scope.resolve? name) c := rfl

@[simp] theorem innermost_apply (c : Compiler) : innermost c = .ok c.scope.top c := rfl

@[simp] theorem failAt_ne_ok (l : Nat) (f : CompileFault) (c d : Compiler) (a : α) :
    (failAt l f : Compile α) c ≠ .ok a d := (by rintro ⟨⟩)

@[simp] theorem fail_ne_ok (f : CompileFault) (c d : Compiler) (a : α) :
    (fail f : Compile α) c ≠ .ok a d := (by rintro ⟨⟩)

@[simp] theorem failUndefined_ne_ok (l : Nat) (name : String) (f : CompileFault)
    (c d : Compiler) (a : α) : (failUndefined l name f : Compile α) c ≠ .ok a d := (by rintro ⟨⟩)

-- What is refused on a condition succeeds only without it.
theorem refuseAt_eq_ok_iff {p : Prop} [Decidable p] {l : Nat} {f : CompileFault}
    {g : β → Compile α} {x : Compile α} {c d : Compiler} {a : α} :
    (if p then (failAt l f >>= g) else x) c = .ok a d ↔ ¬ p ∧ x c = .ok a d := by
  split
  · rename_i holds
    simp [bind_eq_ok_iff, holds]
  · rename_i fails
    simp [fails]

theorem refuse_eq_ok_iff {p : Prop} [Decidable p] {f : CompileFault} {g : β → Compile α}
    {x : Compile α} {c d : Compiler} {a : α} :
    (if p then (fail f >>= g) else x) c = .ok a d ↔ ¬ p ∧ x c = .ok a d := by
  split
  · rename_i holds
    simp [bind_eq_ok_iff, holds]
  · rename_i fails
    simp [fails]

theorem expect_eq_ok_iff {kind : Kind} {c d : Compiler} {u : Unit} :
    expect kind c = .ok u d ↔ c.current.kind = kind ∧ d = c.advanced := by
  simp only [expect, bind_apply, token_apply]
  split
  · rename_i here
    simp [here, eq_comm]
  · rename_i elsewhere
    split <;> simp [elsewhere]

theorem accept_eq_ok_iff {kind : Kind} {c d : Compiler} {b : Bool} :
    accept kind c = .ok b d ↔
      (c.current.kind = kind ∧ b = true ∧ d = c.advanced) ∨
      (c.current.kind ≠ kind ∧ b = false ∧ d = c) := by
  simp only [accept, bind_apply, token_apply]
  split
  · rename_i here
    simp [bind_apply, here, eq_comm]
  · rename_i elsewhere
    simp [elsewhere, eq_comm]

end Compile

end ScalarScript
