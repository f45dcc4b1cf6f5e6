import ScalarScript.Proofs.Layout.Statement
import ScalarScript.Proofs.Source.Program
import ScalarScript.Proofs.Token.Lexer
import ScalarScript.Proofs.Typing.Accepted
/-!
Whole sources that differ only in their layout: either both are refused for the same reason, or they
compile to the same code but for line markers. Then their runs cannot be told apart by a host.
-/
namespace ScalarScript

open Stateful Compile

-- The result of a first step, where it matters which state it left.
theorem Agree.after {α β γ δ : Type} {Q : α → β → Prop} {Q' : γ → δ → Prop}
    {R S : Compiler → Compiler → Prop} {x : Compile α} {y : Compile β} {f : α → Compile γ}
    {g : β → Compile δ} {c d : Compiler} (first : Agree Q R (x c) (y d))
    (second : ∀ u v c' d', x c = .ok u c' → y d = .ok v d' → Q u v → R c' d' →
      Agree Q' S (f u c') (g v d')) : Agree Q' S ((x >>= f) c) ((y >>= g) d) := by
  rw [bind_apply, bind_apply]
  cases one : x c <;> cases two : y d <;> rw [one, two] at first <;> cases first
  · exact second _ _ _ _ one two ‹_› ‹_›
  · exact .error ‹_› ‹_›

namespace Compile

variable {n steps steps' : Nat} {a b : List Instruction} {c d : Compiler}

theorem topLevel_parallel {self self' : Compile Unit} (inner : Forward n self self')
    (enough : n < steps) (enough' : n < steps') :
    Parallel n (topLevel self steps) (topLevel self' steps') := by
  intro m small a b c d twin
  induction steps generalizing m steps' c d n with
  | zero => omega
  | succ steps ih =>
    obtain ⟨steps', rfl⟩ : ∃ k, steps' = k + 1 := ⟨steps' - 1, by omega⟩
    unfold topLevel
    refine .token twin ?_
    refine .ite (fun _ => ?_) fun _ => .ok rfl twin
    refine .bind (inner small twin) ?_
    rintro _ _ c d rfl ⟨k, fewer, later⟩
    have inner : Forward k self self' := fun j few => inner (by omega)
    refine (ih inner (by omega) (by omega) le_rfl later).mono ?_
    exact fun _ _ twin => twin.mono (by omega)

theorem declareHosts_parallel (declarations : List Declaration) :
    Parallel n (declarations.forM declareHost) (declarations.forM declareHost) := by
  intro m small a b c d twin
  induction declarations generalizing c d with
  | nil => exact .ok rfl twin
  | cons h rest ih =>
    simp only [List.forM_eq_forM, List.forM_cons]
    refine .bind (.discard (twin.onScope 0 0 .binding _ fun _ => rfl)) ?_
    rintro _ _ c d rfl twin
    exact ih twin

-- The names of the host need no code.
theorem declareHosts_program {declarations : List Declaration} {c d : Compiler} {u : Unit}
    (ran : declarations.forM declareHost c = .ok u d) : d.program = c.program := by
  induction declarations generalizing c with
  | nil =>
    cases ran
    rfl
  | cons h rest ih =>
    simp only [List.forM_eq_forM, List.forM_cons, bind_eq_ok_iff] at ran
    obtain ⟨_, m, first, ran⟩ := ran
    obtain ⟨s, inner⟩ := discard_eq_ok_iff.mp first
    obtain ⟨scope, _, rfl⟩ := onScope_eq_ok_iff.mp inner
    exact ih (c := { c with scope }) ran

-- Compilers that are done with the same code, line markers left out.
structure SameCode (c d : Compiler) : Prop where
  code : strip d.program.code.toList = strip c.program.code.toList
  stage : d.program.stage = c.program.stage
  free : d.free = c.free

-- The two instructions in front get the same numbers, and an empty frame goes from both.
theorem strip_front {i j : Instruction} {code other : Array Instruction}
    {new more : List Instruction} (here : code.toList = i :: j :: new)
    (there : other.toList = i :: j :: more) (same : strip new = strip more) (k : Instruction) :
    (∀ l, strip ((other.setIfInBounds 0 k).setIfInBounds 1 l).toList =
        strip ((code.setIfInBounds 0 k).setIfInBounds 1 l).toList) ∧
      strip ((other.setIfInBounds 0 k).eraseIdxIfInBounds 1).toList =
        strip ((code.setIfInBounds 0 k).eraseIdxIfInBounds 1).toList := by
  obtain rfl : code = (i :: j :: new).toArray := Array.toList_inj.mp here
  obtain rfl : other = (i :: j :: more).toArray := Array.toList_inj.mp there
  constructor
  · intro l
    have long (rest : List Instruction) :
        (((i :: j :: rest).toArray.setIfInBounds 0 k).setIfInBounds 1 l).toList =
          [k, l] ++ rest := by simp
    rw [long, long, strip_append, strip_append, same]
  · have short (rest : List Instruction) :
        (((i :: j :: rest).toArray.setIfInBounds 0 k).eraseIdxIfInBounds 1).toList =
          [k] ++ rest := by simp
    rw [short, short, strip_append, strip_append, same]

theorem twin_start {tokens others : List Token} (exitType : Option Ty) :
    Twin [] [] 0 (Compiler.start tokens exitType) (Compiler.start others exitType) :=
  ⟨rfl, Nat.le_refl 0, by simp [Compiler.Settled, Compiler.start],
    by simp [Compiler.Settled, Compiler.start], ⟨[], [], rfl, rfl, rfl⟩, rfl, rfl, rfl, rfl, rfl⟩

theorem program_agree {tokens others : List Token} (declarations : List Declaration)
    (exitType : Option Ty)
    (same : (sourceWords tokens).map Token.word = (sourceWords others).map Token.word) :
    Agree Eq SameCode (program tokens declarations (Compiler.start tokens exitType))
      (program others declarations (Compiler.start others exitType)) := by
  have words : (sourceWords others).length = (sourceWords tokens).length := by
    simpa using (congrArg List.length same).symm
  have short : (sourceWords tokens).length ≤ tokens.length := List.length_filter_le ..
  have short' : (sourceWords others).length ≤ others.length := List.length_filter_le ..
  unfold program
  refine .after (declareHosts_parallel declarations le_rfl (twin_start exitType)) ?_
  rintro _ _ c d one two rfl twin
  have here : c.program.code = #[] := by rw [declareHosts_program one]; rfl
  have there : d.program.code = #[] := by rw [declareHosts_program two]; rfl
  refine .step (place_apply _ c) (place_apply _ d) ?_
  refine .step (place_apply _ _) (place_apply _ _) ?_
  have front := (((twin.push (.scopeDepth 0)).push (.pushScope 1 0)).rebase)
  have code (e : Compiler) (empty : e.program.code = #[]) :
      ((e.push (.scopeDepth 0)).push (.pushScope 1 0)).program.code.toList =
        [.scopeDepth 0, .pushScope 1 0] := by
    simp [Compiler.push, empty]
  rw [code c here, code d there] at front
  refine .innermost front ?_
  refine .step (enter_apply _ _) (enter_apply _ _) ?_
  refine .step (seek_apply tokens _) (seek_apply others _) ?_
  have started := (front.inside (((c.push (.scopeDepth 0)).push (.pushScope 1 0)).scope.top.child)).settle
    (m := (sourceWords tokens).length) same le_rfl
  refine .bind (topLevel_parallel (statement_forward (by omega) (by omega)) (by omega) (by omega)
    le_rfl started) ?_
  rintro _ _ c d rfl twin
  refine .emit twin (by rintro ⟨⟩) fun twin => ?_
  refine .get ?_
  refine .step (leave_apply _) (leave_apply _) ?_
  have left := twin.outside
  refine .get ?_
  rw [twin.scope, left.maxDepth]
  generalize (c.emitted (.unary .exit .null)).scope.count = size
  generalize (c.emitted (.unary .exit .null)).outside = c at left ⊢
  generalize (d.emitted (.unary .exit .null)).outside = d at left ⊢
  dsimp only
  refine .step (amend_apply 0 _ c) (amend_apply 0 _ d) ?_
  obtain ⟨new, more, here, there, alike⟩ := left.code
  have front := strip_front here there alike (.scopeDepth ↑(c.maxDepth + 1))
  refine .ite (fun _ => ?_) fun _ => ?_
  · refine .step (amend_apply 1 _ _) (amend_apply 1 _ _) ?_
    exact .ok rfl ⟨front.1 _, left.stage, left.free⟩
  · exact .altered (.ok rfl ⟨front.2, left.stage, left.free⟩)

end Compile

-- Two ends of a run that a host cannot tell apart: the same value, or the same kind of error.
def SameEnd : Except RuntimeError Value → Except RuntimeError Value → Prop
  | .ok v, .ok w => v = w
  | .error e, .error f => e.code = f.code
  | _, _ => False

theorem Reports.sameEnd {seen other : Except RuntimeError Value}
    {outcome : Except RuntimeFault Value} (one : Reports seen outcome)
    (two : Reports other outcome) : SameEnd seen other := by
  cases outcome <;> cases seen <;> cases other <;> simp_all [Reports, SameEnd]

section

variable {World Watch : Type}

end

-- A program in two layouts.
namespace Spaced

def source : String := "double n = 2;\nwhile (n < 9)\n  n = n * n;\nexit n;"

def other : String := "double n=2; while(n<9)n = /* squared */ n*n; exit n; // 16"

theorem quiet (source : String) : Undisturbed (Hostless.machine source) Hostless.first :=
  ⟨rfl, le_rfl, .inl rfl⟩

def tokens (source : String) : List Token := (tokenize source).toOption.getD []

-- Both have the same words, and their programs link.
theorem computed :
    (tokenize source).isOk = true ∧ (tokenize other).isOk = true ∧
      (sourceWords (tokens source)).map Token.word = (sourceWords (tokens other)).map Token.word ∧
      (compileTokens (tokens source) [] none).error.isNone = true ∧
      (link (Hostless.program source)).isOk = true ∧ (link (Hostless.program other)).isOk = true := by
  decide +kernel

end Spaced

end ScalarScript
