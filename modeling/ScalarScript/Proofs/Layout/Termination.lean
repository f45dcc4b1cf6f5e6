import ScalarScript.Proofs.Layout.Program
import ScalarScript.Proofs.Source.Course
/-!
The compiler comes to an end on every list of tokens: the bound on its recursion is never what stops
it. Each statement and each expression passes a token, and the step clause of a `for`, which is
passed over and then compiled behind the body, ends at the same parenthesis both times.
-/
namespace ScalarScript

open Stateful Compile

-- What an action leaves ahead of it was ahead of it before.
def MovesOn {α : Type} (x : Compile α) : Prop :=
  ∀ ⦃c d : Compiler⦄ ⦃a : α⦄, x c = .ok a d → d.ahead <:+ c.ahead

theorem Compiler.settle_suffix (c : Compiler) (tokens : List Token) :
    (c.settle tokens).ahead <:+ tokens := by
  rw [settle_ahead]
  exact List.dropWhile_suffix _

theorem MovesOn.advance : MovesOn Compile.advance := by
  rintro c d u ⟨⟩
  exact (c.settle_suffix _).trans (List.tail_suffix _)

-- To stand among some tokens.
theorem lasting_ahead (tokens : List Token) : Lasting fun _ c => c.ahead <:+ tokens where
  weaken _ here := here
  gather here := here
  advance here := (MovesOn.advance rfl).trans here
  emit _ _ here := by rwa [Compiler.emitted_ahead]
  label _ here := here
  jump _ _ here := here
  fresh here := here
  rescope _ _ _ _ here := here
  lend _ _ _ _ here := here
  detour back _ := (Compiler.settle_suffix _ _).trans back
  amend _ here := here

theorem MovesOn.of_upholds {α : Type} {x : Compile α} {labels : List Int}
    (keeps : ∀ tokens, Upholds (fun _ c => c.ahead <:+ tokens) labels x) : MovesOn x :=
  fun c _ _ ran => (keeps c.ahead (List.Subset.refl _) (List.suffix_refl _) ran).1

namespace Compile

theorem expression_movesOn (depth : Nat) : MovesOn (expression depth) :=
  .of_upholds fun tokens => expression_upholds (lasting_ahead tokens).toUpheld depth

theorem statement_movesOn (depth : Nat) : MovesOn (statement depth) :=
  .of_upholds fun tokens => statement_upholds (lasting_ahead tokens) depth

theorem skipStep_movesOn (steps nesting : Nat) : MovesOn (skipStep steps nesting) :=
  .of_upholds fun tokens => skipStep_upholds (lasting_ahead tokens).toUpheld steps nesting

theorem loopBody_movesOn (depth : Nat) (done : Int) : MovesOn (loopBody (statement depth) done) :=
  .of_upholds fun tokens =>
    loopBody_upholds (lasting_ahead tokens) (statement_upholds (lasting_ahead tokens) depth) done

theorem forStep_movesOn (depth : Nat) : MovesOn (forStep (expression depth)) :=
  .of_upholds fun tokens => forStep_upholds (lasting_ahead tokens).toUpheld
    (expression_upholds (lasting_ahead tokens).toUpheld depth)

theorem forHead_movesOn (statement : Compile Unit) (depth steps : Nat) :
    MovesOn (forHead statement (expression depth) steps) := by
  rintro c d ⟨top, done⟩ ran
  have up := (lasting_ahead c.ahead).toUpheld
  exact (forHead_upholds up (expression_upholds up depth) (G := []) (List.suffix_refl _) ran).1

end Compile

section

variable {scope after : Scope} {words rest : List Token} {a : Stmt}

theorem ReadsTest.shorter {e : Expr} (reads : ReadsTest scope words e rest) :
    rest.length < words.length := by
  cases reads with
  | parens _ reads _ _ =>
    have := reads.parses.shorter
    simp only [List.length_cons] at this ⊢
    omega

theorem ReadsSimple.shorter (reads : ReadsSimple scope words a rest) :
    rest.length < words.length := by
  cases reads with
  | assign _ _ _ _ reads _ =>
    have := reads.parses.shorter
    simp only [List.length_cons]
    omega
  | expr reads => exact reads.parses.shorter

theorem ReadsName.shorter {type : Scalar} {s : Symbol}
    (reads : ReadsName scope type words a s rest) : rest.length < words.length := by
  cases reads with
  | plain _ => simp
  | filled _ _ reads _ =>
    have := reads.parses.shorter
    simp only [List.length_cons]
    omega

theorem ReadsNames.shorter {type : Scalar} (reads : ReadsNames type scope words a after rest) :
    rest.length < words.length := by
  induction reads with
  | last reads => exact reads.shorter
  | more reads _ _ others =>
    have := reads.shorter
    simp only [List.length_cons] at this
    omega

theorem ReadsParams.shorter {params : List Param} (reads : ReadsParams words params rest) :
    rest.length < words.length := by
  induction reads with
  | none | last => simp only [List.length_cons]; omega
  | more _ _ _ _ ih =>
    simp only [List.length_cons]
    omega

theorem ReadsInit.shorter (reads : ReadsInit scope words a after rest) :
    rest.length ≤ words.length := by
  cases reads with
  | none => exact Nat.le_refl _
  | simple reads => exact reads.shorter.le
  | names _ reads =>
    have := reads.shorter
    simp only [List.length_cons]
    omega

theorem ReadsGuard.shorter {e : Option Expr} (reads : ReadsGuard scope words e rest) :
    rest.length ≤ words.length := by
  cases reads with
  | none => exact Nat.le_refl _
  | test reads _ => exact reads.parses.shorter.le

theorem ReadsStep.shorter (reads : ReadsStep scope words a rest) :
    rest.length ≤ words.length := by
  cases reads with
  | none => exact Nat.le_refl _
  | simple reads => exact reads.shorter.le

theorem ReadsResult.shorter {wanted : Option Ty} {e : Option Expr}
    (reads : ReadsResult scope wanted words e rest) : rest.length < words.length := by
  cases reads with
  | none _ => simp
  | value reads _ _ =>
    have := reads.parses.shorter
    simp only [List.length_cons] at this
    omega

-- Words that a phrase has at least.
def Phrase.least : Phrase → Nat
  | .one => 1
  | .many => 0

-- A statement takes a word, and several statements may take none.
theorem Reads.shorter {phrase : Phrase} {S : Setting}
    (reads : Reads phrase S scope words a after rest) :
    rest.length + phrase.least ≤ words.length := by
  induction reads with
  | done => exact Nat.le_refl _
  | next _ _ first others =>
    simp only [Phrase.least] at first others ⊢
    omega
  | empty => simp [Phrase.least]
  | block _ _ _ inner =>
    simp only [Phrase.least, List.length_cons] at inner ⊢
    omega
  | ifThen _ test _ _ inner =>
    have := test.shorter
    simp only [Phrase.least, List.length_cons] at inner ⊢
    omega
  | ifElse _ test _ _ _ first second =>
    have := test.shorter
    simp only [Phrase.least, List.length_cons] at first second ⊢
    omega
  | whileLoop _ test _ inner =>
    have := test.shorter
    simp only [Phrase.least, List.length_cons] at inner ⊢
    omega
  | forLoop _ _ before _ test _ onward _ _ inner =>
    have := before.shorter
    have := test.shorter
    have := onward.shorter
    simp only [Phrase.least, List.length_cons] at *
    omega
  | loopWhile _ _ _ test _ inner =>
    have := test.shorter
    simp only [Phrase.least, List.length_cons] at *
    omega
  | leave => simp [Phrase.least]
  | yield _ _ reads | exit _ reads =>
    have := reads.shorter
    simp only [Phrase.least, List.length_cons]
    omega
  | declare _ reads _ =>
    have := reads.shorter
    simp only [Phrase.least, List.length_cons] at *
    omega
  | function _ _ _ _ _ params _ _ _ inner =>
    have := params.shorter
    simp only [Phrase.least, List.length_cons] at *
    omega
  | simple reads _ =>
    have := reads.shorter
    simp only [Phrase.least, List.length_cons] at *
    omega

end

namespace Compiler

-- The second stands strictly further on in the tokens that the first has ahead.
def Further (c d : Compiler) : Prop := ∃ passed, passed ≠ [] ∧ c.ahead = passed ++ d.ahead

theorem further_of_words {c d : Compiler} (onward : d.ahead <:+ c.ahead)
    (fewer : d.words.length < c.words.length) : c.Further d := by
  obtain ⟨passed, split⟩ := onward
  refine ⟨passed, ?_, split.symm⟩
  rintro rfl
  simp [words, ← split] at fewer

-- Places in one list of tokens, neither of them at a line mark, are told apart by the words ahead.
theorem ahead_eq_of_words {c d : Compiler} {tokens : List Token} (here : c.Settled)
    (there : d.Settled) (one : c.ahead <:+ tokens) (two : d.ahead <:+ tokens)
    (words : c.words = d.words) : c.ahead = d.ahead := by
  have equal {c d : Compiler} (there : d.Settled) (words : c.words = d.words)
      (onward : c.ahead <:+ d.ahead) : c.ahead = d.ahead := by
    obtain ⟨passed, split⟩ := onward
    cases passed with
    | nil => exact split
    | cons t passed =>
      have real : t.kind ≠ .lineMark := there t (by simp [← split])
      have longer := congrArg List.length words
      simp only [Compiler.words, ← split, List.cons_append] at longer
      rw [List.filter_cons_of_pos (by simpa using real), List.length_cons, List.filter_append,
        List.length_append] at longer
      omega
  rcases List.suffix_or_suffix_of_suffix one two with onward | onward
  · exact equal there words onward
  · exact (equal here words.symm onward).symm

end Compiler

namespace Compile

theorem expression_further {depth : Nat} {c d : Compiler} {type : Ty} (settled : c.Settled)
    (ran : expression depth c = .ok type d) : c.Further d := by
  obtain ⟨e, elaborates, _⟩ := expression_ok depth ran
  exact Compiler.further_of_words (expression_movesOn depth ran)
    (elaborates.parses settled).2.shorter

theorem statement_further {depth : Nat} {c d : Compiler} {u : Unit} (settled : c.Settled)
    (ran : statement depth c = .ok u d) : c.Further d := by
  obtain ⟨_, t, _, reads⟩ := statement_ok depth settled ran
  exact Compiler.further_of_words (statement_movesOn depth ran) reads.shorter

-- The step clause of a `for`, compiled from where the passing over started, ends at the parenthesis
-- where the passing over stopped. Whatever was compiled in between makes no difference.
theorem forStep_rewinds {depth steps : Nat} {m n p q : Compiler} {u v : Unit}
    (settled : m.Settled) (skipped : skipStep steps 0 m = .ok u n)
    (stepped : forStep (expression depth) (p.settle m.ahead) = .ok v q) :
    n.current.kind = .rightParen ∧ q.ahead = n.ahead := by
  have faithful := expression_ok depth
  obtain ⟨_, _, nSettled, closed, _⟩ := skipStep_ok settled skipped
  obtain ⟨qSettled, _⟩ := forStep_ok faithful (p.settled_settle _) stepped
  have later : q.ahead <:+ (p.settle m.ahead).ahead :=
    forStep_movesOn depth stepped
  rw [Compiler.settle_ahead] at later
  exact ⟨closed, Compiler.ahead_eq_of_words qSettled nSettled
    (later.trans (List.dropWhile_suffix _)) (skipStep_movesOn _ _ skipped)
    (forStep_stops faithful settled skipped stepped)⟩

-- The tokens of a `for`: each is passed once by the action that compiles it. The states are those of
-- a run: behind the second semicolon, at the closing parenthesis, behind the body, behind the step
-- clause, and at the end.
structure ForTokens (c m n p q d : Compiler) (head step body : List Token) : Prop where
  head : c.ahead = head ++ m.ahead
  -- passing over the clause compiles nothing
  silent : EmitsInScope m n []
  step : m.ahead = step ++ n.ahead
  closed : n.current.kind = .rightParen
  body : n.ahead = n.current :: (body ++ p.ahead)
  again : q.ahead = n.ahead
  resumes : d.ahead = p.ahead

theorem forHead_settled {statement : Compile Unit} {expr : Compile Ty} {steps : Nat}
    {c m : Compiler} {labels : Int × Int} (ran : forHead statement expr steps c = .ok labels m) :
    m.Settled := by
  simp only [forHead, bind_eq_ok_iff, expect_eq_ok_iff, pure_apply, EStateM.Result.ok.injEq,
    ↓existsAndEq, and_true] at ran
  obtain ⟨_, _, _, _, _, _, _, _, _, _, _, _, _, _, _, k, _, _, _, _, rfl⟩ := ran
  exact k.settled_advanced

theorem ForRun.tokens {depth deep steps : Nat} {c m n p q d : Compiler} {top done : Int}
    (run : ForRun (statement depth) (expression deep) steps c top done m n p q d) :
    ∃ head step body, ForTokens c m n p q d head step body := by
  have mSettled := forHead_settled run.head
  obtain ⟨silent, _, nSettled, closed, _⟩ := skipStep_ok mSettled run.skipped
  obtain ⟨pSettled, _⟩ := loopBody_ok (statement_ok depth) n.settled_advanced run.body
  have front : m.ahead <:+ c.ahead := by
    have started : c.advanced.advanced.ahead <:+ c.ahead :=
      (MovesOn.advance rfl).trans (MovesOn.advance rfl)
    have before := forHead_movesOn _ _ _ run.head
    exact before.trans started
  have behind : p.ahead <:+ n.ahead.tail := by
    have after := loopBody_movesOn depth _ run.body
    rw [Compiler.advanced, Compiler.settle_ahead] at after
    exact after.trans (List.dropWhile_suffix _)
  obtain ⟨head, before⟩ := front
  obtain ⟨step, clause⟩ := skipStep_movesOn _ _ run.skipped
  obtain ⟨body, after⟩ := behind
  refine ⟨head, step, body, before.symm, silent, clause.symm, closed, ?_,
    (forStep_rewinds mSettled run.skipped run.step).2, ?_⟩
  · rw [after]
    cases ahead : n.ahead with
    | nil => simp [Compiler.current, ahead] at closed
    | cons t rest => simp [Compiler.current, ahead]
  · rw [run.ends]
    change (q.settle p.ahead).ahead = p.ahead
    rw [Compiler.settle_ahead]
    cases ahead : p.ahead with
    | nil => rfl
    | cons t rest =>
      have real : t.kind ≠ .lineMark := pSettled t (by simp [ahead])
      rw [List.dropWhile_cons_of_neg (by simpa using real)]

end Compile

-- Compiling ends on all tokens and all declarations, with success or with an error about the source.
-- A statement or an expression that compiles passes a token. The step clause of a `for` ends at the
-- same parenthesis when it is passed over and when it is compiled, so that the tokens of the `for`
-- are compiled once each and compiling goes on behind the body.
theorem compileTokens_ends (tokens : List Token) (declarations : List Declaration)
    (exitType : Option Ty) :
    ((compileTokens tokens declarations exitType).error = none ∨
      ∃ e, (compileTokens tokens declarations exitType).error = some e ∧ e.Objects) ∧
    (∀ depth c d, c.Settled → statement depth c = .ok () d → c.Further d) ∧
    (∀ depth c d type, c.Settled → expression depth c = .ok type d → c.Further d) ∧
    (∀ depth steps (m n p q : Compiler), m.Settled → skipStep steps 0 m = .ok () n →
      forStep (expression depth) (p.settle m.ahead) = .ok () q →
      n.current.kind = .rightParen ∧ q.ahead = n.ahead) ∧
    (∀ depth deep steps c d, forLoop (statement depth) (expression deep) steps c = .ok () d →
      ∃ top done m n p q, ForRun (statement depth) (expression deep) steps c top done m n p q d ∧
        ∃ head step body, ForTokens c m n p q d head step body) := by
  refine ⟨?_, fun _ _ _ => statement_further, fun _ _ _ _ => expression_further,
    fun _ _ _ _ _ _ => forStep_rewinds, ?_⟩
  · have agree := @program_agree tokens tokens declarations exitType rfl
    unfold compileTokens
    generalize program tokens declarations (Compiler.start tokens exitType) = result at agree
    cases agree with
    | ok => exact .inl rfl
    | error _ objects => exact .inr ⟨_, rfl, objects⟩
  · intro depth deep steps c d ran
    obtain ⟨top, done, m, n, p, q, run⟩ := forLoop_run ran
    exact ⟨top, done, m, n, p, q, run, run.tokens⟩

-- The texts of the words that an action leaves ahead, if it succeeds.
def textsAhead (x : Compile Unit) (c : Compiler) : Option (List String) :=
  match x c with
  | .ok _ d => some (d.words.map (·.literal))
  | .error _ _ => none

theorem textsAhead_eq_some {x : Compile Unit} {c : Compiler} {texts : List String}
    (left : textsAhead x c = some texts) :
    ∃ d, x c = .ok () d ∧ d.words.map (·.literal) = texts := by
  unfold textsAhead at left
  cases ran : x c with
  | ok u d =>
    rw [ran] at left
    exact ⟨d, rfl, Option.some.inj left⟩
  | error e d =>
    rw [ran] at left
    cases left

-- A loop whose step clause has parentheses of its own, and a name behind it that is gone by then.
def nested : List Token :=
  (tokenize "for (double i = 0; i < 9; i = (i + (1)) * 2) \x7b i; \x7d i;").toOption.getD []

-- The compiler at the first token of the loop, on the top level of a program.
def atLoop : Compiler :=
  { Compiler.start nested none with scope := [{ depth := 1 }, {}] }.settle nested

theorem nested_ends :
    (∃ e, (compileTokens nested [] none).error = some e ∧ e.Objects) ∧
      ∃ d, forLoop (statement 12) (expression 12) 30 atLoop = .ok () d ∧
        d.words.map (·.literal) = ["i", ";"] ∧ ∃ m n p q head step body,
          ForTokens atLoop m n p q d head step body := by
  obtain ⟨ends, _, _, _, loops⟩ := compileTokens_ends nested [] none
  constructor
  · have refused : (compileTokens nested [] none).error.isSome = true := by decide +kernel
    rcases ends with none | some
    · rw [none] at refused
      cases refused
    · exact some
  · have left : textsAhead (forLoop (statement 12) (expression 12) 30) atLoop =
        some ["i", ";"] := by decide +kernel
    obtain ⟨d, ran, ahead⟩ := textsAhead_eq_some left
    obtain ⟨_, _, m, n, p, q, _, pieces⟩ := loops _ _ _ _ _ ran
    exact ⟨d, ran, ahead, m, n, p, q, pieces⟩

end ScalarScript
