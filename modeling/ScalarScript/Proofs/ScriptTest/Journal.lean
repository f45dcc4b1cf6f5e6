import ScalarScript.ScriptTest.Journal
import ScalarScript.Proofs.Machine.Effected
import Mathlib.Data.List.Basic
/-!
What a test script has printed. Every function prints whole lines, so the lines tell the text, but
for an empty text and a single empty line.
-/
namespace ScalarScript

namespace Text

theorem lines_injective {s t : String} (same : lines s = lines t) : s = t := by
  have pieces : split '\n' s.toList = split '\n' t.toList :=
    List.map_injective_iff.mpr (fun _ _ => String.ofList_injective) same
  rw [← String.toList_inj, ← join_split '\n' s.toList, pieces, join_split]

-- A text of whole lines.
def Whole (s : String) : Prop := s = "" ∨ ∃ t, s = t ++ "\n"

theorem Whole.line {s : String} (t : String) : Whole (s ++ (t ++ "\n")) :=
  .inr ⟨s ++ t, by rw [String.append_assoc]⟩

theorem withoutEnding_line (t : String) : withoutEnding "\n" (t ++ "\n") = t := by
  have ends : endsWith "\n" (t ++ "\n") = true := by simp [endsWith]
  have text : (t ++ "\n").toList = t.toList ++ ['\n'] := by simp
  rw [withoutEnding, if_pos ends, text, String.length_append, Nat.add_sub_cancel]
  rw [← String.length_toList, List.take_left, String.ofList_toList]

end Text

namespace Journal

-- The printed lines tell what was printed, but for nothing and an empty line.
theorem output_of_logs {j k : Journal} (one : Text.Whole j.output) (two : Text.Whole k.output)
    (same : j.logs = k.logs) :
    j.output = k.output ∨
      (j.output = "" ∨ j.output = "\n") ∧ (k.output = "" ∨ k.output = "\n") := by
  have empty {j : Journal} (whole : Text.Whole j.output) (none : j.logs = []) :
      j.output = "" ∨ j.output = "\n" := by
    rcases whole with nothing | ⟨t, line⟩
    · exact .inl nothing
    · simp only [logs, line, Text.withoutEnding_line] at none
      split at none
      · rename_i blank
        rw [line, String.isEmpty_iff.mp blank]
        exact .inr rfl
      · have pieces := congrArg List.length none
        simp [Text.lines, Text.splitText, Text.length_split] at pieces
  have text {j : Journal} (whole : Text.Whole j.output) (some : j.logs ≠ []) :
      ∃ t, j.output = t ++ "\n" ∧ j.logs = Text.lines t := by
    rcases whole with nothing | ⟨t, line⟩
    · exact absurd (by simp only [logs, nothing]; rfl) some
    · refine ⟨t, line, ?_⟩
      simp only [logs, line, Text.withoutEnding_line] at some ⊢
      split at some
      · exact absurd rfl some
      · rw [if_neg ‹_›]
  by_cases none : j.logs = []
  · exact .inr ⟨empty one none, empty two (same ▸ none)⟩
  · obtain ⟨t, line, first⟩ := text one none
    obtain ⟨u, line', second⟩ := text two (same ▸ none)
    rw [first, second] at same
    rw [line, line', Text.lines_injective same]
    exact .inl rfl

-- Functions that print whole lines only.
def PrintsLines (f : HostFunction Journal) : Prop :=
  ∀ j r, Text.Whole j.output → Text.Whole (f j r).world.output

theorem printsLines_pure (arity : Nat) (f : (Nat → Value) → Value) :
    PrintsLines (Builtin.pure arity f) := fun _ _ whole => whole

theorem printsLines_printing (display : Value → String) :
    PrintsLines (Builtin.printing (fun j text => .ok (j.print text)) display) :=
  fun _ _ _ => .line _

theorem printsLines_assert : PrintsLines assert := by
  intro j r whole
  unfold assert
  dsimp only
  split <;> exact whole

end Journal

-- The function that a binding offers, if it does.
def Binding.function? {World : Type} : Binding World → Option (HostFunction World)
  | .function _ _ _ invoke => invoke
  | _ => none

-- Every function of a test script prints whole lines.
theorem Journal.bindings_printLines :
    ∀ b ∈ Journal.bindings, ∀ f ∈ b.function?, PrintsLines f := by
  simp only [bindings, Builtin.bindings, List.cons_append, List.nil_append, List.forall_mem_cons,
    Binding.function?, Option.mem_some_iff, forall_eq']
  refine ⟨printsLines_printing _, printsLines_printing _, ?_⟩
  refine ⟨printsLines_pure _ _, printsLines_pure _ _, printsLines_pure _ _, printsLines_pure _ _,
    printsLines_pure _ _, printsLines_pure _ _, printsLines_pure _ _, printsLines_pure _ _,
    printsLines_pure _ _, printsLines_pure _ _, printsLines_pure _ _, ?_⟩
  refine ⟨printsLines_assert, fun _ _ whole => whole, fun _ _ whole => whole, ?_, nofun⟩
  exact fun j r _ => .line _

namespace Binding

variable {World : Type} {bindings : List (Binding World)} {ext : External World}
  {f : HostFunction World}

theorem function?_of_resolveOne {position : Nat} {seen : List String} {b : Binding World}
    {d : Declaration} (resolved : resolveOne position seen b = .ok (d, ext)) :
    ext.function = b.function? := by
  have kind : b.resolveKind = .ok (d, ext) := by
    unfold resolveOne at resolved
    split at resolved
    · cases resolved
    · split at resolved
      · cases resolved
      · split at resolved
        · cases resolved
        · exact resolved
  rcases b with ⟨name, returnType, params, invoke⟩ | ⟨name, cell⟩ | _ | ⟨name, other⟩
  · simp only [resolveKind, resolveFunction] at kind
    split at kind <;> cases kind
    rfl
  · simp only [resolveKind, resolveVariable] at kind
    split at kind
    · cases kind
    · split at kind <;> cases kind
      rfl
  · cases kind
  · cases kind

-- The functions of the machine's slots are those of the bindings.
theorem mem_of_resolveFrom {position : Nat} {seen : List String}
    (member : ext ∈ (resolveFrom position seen bindings).1.externals)
    (given : ext.function = some f) : ∃ b ∈ bindings, b.function? = some f := by
  induction bindings generalizing position seen with
  | nil => cases member
  | cons b rest ih =>
    have later (member : ext ∈ (resolveFrom (position + 1) (b.name :: seen) rest).1.externals) :
        ∃ c ∈ b :: rest, c.function? = some f := by
      obtain ⟨c, inner, offers⟩ := ih member
      exact ⟨c, List.mem_cons_of_mem _ inner, offers⟩
    unfold resolveFrom at member
    cases first : resolveOne position seen b with
    | error found =>
      simp only [first] at member
      exact later member
    | ok pair =>
      simp only [first, List.mem_cons] at member
      rcases member with rfl | member
      · exact ⟨b, List.mem_cons_self, (function?_of_resolveOne first).symm.trans given⟩
      · exact later member

theorem mem_of_resolve {bound : Bound World} (resolved : resolve bindings = .ok bound)
    (member : ext ∈ bound.externals) (given : ext.function = some f) :
    ∃ b ∈ bindings, b.function? = some f := by
  unfold resolve at resolved
  split at resolved
  · rename_i inner
    cases resolved
    have slot : ext ∈ (resolveFrom 0 [] bindings).1.externals := by rwa [inner]
    exact mem_of_resolveFrom slot given
  · cases resolved

end Binding

end ScalarScript
