import ScalarScript.ScriptTest.Trial
import ScalarScript.Proofs.ScriptTest.Journal
import ScalarScript.Proofs.Symbolic.Marks
import ScalarScript.Proofs.Source.Program
/-!
What it means that a test script passes. Both of its runs did what the directives ask for, both ended
alike, and the plain one failed no check.
-/
namespace ScalarScript

variable {World Watch : Type}

-- Codes as all errors of programs have them.
def Code.Lettered (c : Code) : Prop := ∃ rest, c.text.toList = 'E' :: rest

theorem RuntimeFault.code_lettered (f : RuntimeFault) : f.code.Lettered := by
  unfold code
  split
  · split <;> exact ⟨_, rfl⟩
  all_goals exact ⟨_, rfl⟩

theorem LinkFault.code_lettered (f : LinkFault) : f.error.code.Lettered := by
  cases f with
  | duplicate label => exact (⟨_, rfl⟩ : Code.duplicateLabel.Lettered)
  | undefined label opcode => exact (⟨_, rfl⟩ : Code.undefinedLabel.Lettered)

namespace Script

-- What becomes of a compiled program: it is linked, unless the linker refuses it.
inductive Prepared (bound : Bound World) : Except Failure Unit × Build World → Prop where
  | unlinked {f : LinkFault} {b : Build World} : Prepared bound (.error (.link f.error), b)
  | ready {b : Build World} {p : Program} (has : b.program = some p) (stage : p.stage = .ready)
      (same : b.bound = bound) : Prepared bound (.ok (), b)

theorem prepared_linkBuild {bound : Bound World} {b : Build World} {p : Program}
    (same : b.bound = bound) (stage : p.stage ≠ .ready) : Prepared bound (linkBuild b p) := by
  unfold linkBuild
  cases linked : ScalarScript.link p with
  | error f => exact .unlinked
  | ok pair =>
    obtain ⟨q, log⟩ := pair
    obtain ⟨_, _, rfl, _⟩ := (link_eq_ok_iff stage).mp linked
    exact .ready rfl rfl same

-- A program that was just compiled can be optimized.
theorem optimizeBuild_ok {b : Build World} {p : Program} (stage : p.stage = .building) :
    ∃ (b' : Build World) (q : Program), optimizeBuild b p = (.ok (), b', q) ∧
      b'.bound = b.bound ∧ q.stage = .optimized := by
  unfold optimizeBuild optimize
  rw [if_neg (not_not_intro stage)]
  exact ⟨_, _, rfl, rfl, rfl⟩

theorem prepared_buildTokens {settings : Settings Watch} {b : Build World} {exitType : Option Ty}
    {tokens : List Token} (fine : (compileTokens tokens b.bound.declarations exitType).error = none) :
    Prepared b.bound (buildTokens settings b exitType tokens) := by
  have stage : (compileTokens tokens b.bound.declarations exitType).program.stage = .building := by
    unfold compileTokens at fine ⊢
    cases ran : Compile.program tokens b.bound.declarations (Compiler.start tokens exitType) with
    | error e c => simp [ran] at fine
    | ok u c =>
      obtain ⟨_, _, _, _, _, _, stage, _⟩ := Compile.program_ok ran
      exact stage
  unfold buildTokens
  simp only [fine]
  split
  · obtain ⟨b', q, done, same, optimized⟩ := optimizeBuild_ok
      (b := { b with
        program := some (compileTokens tokens b.bound.declarations exitType).program
        log := (compileTokens tokens b.bound.declarations exitType).log }) stage
    rw [done]
    exact prepared_linkBuild same (by simp [optimized])
  · exact prepared_linkBuild rfl (by simp [stage])

-- Whether a program is to be optimized makes no difference until it is compiled.
inductive Outset (bindings : List (Binding World)) (source exitName : String) : Prop where
  | refused (f : Failure) (builds : ∀ {Watch : Type} (settings : Settings Watch),
      settings.exitType = exitName → (build settings bindings source).1 = .error f)
  | compiled {bound : Bound World} (resolved : Binding.resolve bindings = .ok bound)
      (builds : ∀ {Watch : Type} (settings : Settings Watch), settings.exitType = exitName →
        Prepared bound (build settings bindings source))

theorem outset (bindings : List (Binding World)) (source exitName : String) :
    Outset bindings source exitName := by
  cases resolved : Binding.resolve bindings with
  | error messages =>
    exact .refused (.many messages) fun settings _ => by simp only [build, resolved]
  | ok bound =>
    cases exits : exitType? exitName with
    | error e =>
      refine .refused e fun settings same => ?_
      simp only [build, resolved, same, exits]
    | ok exitType =>
      cases read : tokenize source with
      | error e =>
        refine .refused (.lex e) fun settings same => ?_
        simp only [build, resolved, same, exits, read]
      | ok tokens =>
        cases fine : (compileTokens tokens bound.declarations exitType).error with
        | some e =>
          refine .refused (.compile e) fun settings same => ?_
          simp only [build, resolved, same, exits, read, buildTokens, fine]
        | none =>
          refine .compiled resolved fun settings same => ?_
          simp only [build, resolved, same, exits, read]
          exact prepared_buildTokens (b := { bound }) fine

-- How a run of a script ends, once its program is compiled: in a value, or with a code.
inductive Finished : Except Failure Value → Prop where
  | value (v : Value) : Finished (.ok v)
  | failure {f : Failure} (coded : f.report.code.Lettered) : Finished (.error f)

theorem runFrom_of_run {m : Machine World Watch} {fuel : Nat} {around : Surroundings World Watch}
    {context : Context} {report : RunReport World Watch}
    (ran : m.run fuel around context = some report) :
    m.runFrom fuel (Machine.start around context) = some (report.outcome, report.final) := by
  have begins : (Device.new around).begin = .ok { Device.new around with running := true } := rfl
  simp only [Machine.run, Machine.use, begins, Option.bind_eq_bind, Option.bind_eq_some_iff,
    Option.pure_def, Option.some.injEq] at ran
  obtain ⟨_, ⟨⟨outcome, final⟩, driven, rfl⟩, done⟩ := ran
  cases done
  exact driven

-- A run of a compiled script ends in a value or with a code; and what its functions keep is kept.
theorem finished_of_prepared {fuel : Nat} {settings : Settings Watch}
    {bindings : List (Binding World)} {bound : Bound World} {source : String} {world : World}
    {watch : Watch} {context : Context} {r : Result World Watch} {P : World → Prop}
    (prepared : Prepared bound (build settings bindings source))
    (keep : HostsKeep P bound.externals.toArray) (holds : P world)
    (ran : run fuel settings bindings source world watch context = some r) :
    Finished r.outcome ∧ P r.around.world := by
  unfold run at ran
  generalize build settings bindings source = made at prepared ran
  cases prepared with
  | unlinked =>
    cases ran
    exact ⟨.failure (LinkFault.code_lettered _), holds⟩
  | @ready b p has stage same =>
    simp only [has, Option.getD_some, executeBound, machine, Machine.ofProgram, stage, if_true,
      Option.bind_eq_bind, Option.bind_eq_some_iff, Option.pure_def, Option.some.injEq] at ran
    obtain ⟨e, ⟨report, executed, rfl⟩, rfl⟩ := ran
    subst same
    obtain ⟨world, failed⟩ := Machine.runFrom_keeps keep holds (runFrom_of_run executed)
    refine ⟨?_, world⟩
    cases outcome : report.outcome with
    | ok v => exact .value v
    | error e =>
      obtain ⟨u, f, rfl⟩ := failed e outcome
      exact .failure (RuntimeFault.code_lettered f)

end Script

-- The text of a number consists of digits, a point and a sign.
theorem Number.mem_format {x : Float} {c : Char} (member : c ∈ (Number.format x).toList) :
    c.isDigit = true ∨ c = '.' ∨ c = '-' := by
  have digits {n : Nat} {c : Char} (member : c ∈ natDigits n) : c.isDigit = true :=
    Nat.isDigit_of_mem_toDigits (by decide) (by decide) member
  have zeros {n : Nat} {c : Char} (member : c ∈ List.replicate n '0') : c.isDigit = true := by
    rw [List.eq_of_mem_replicate member]
    rfl
  have positional {d : Decimal} {c : Char} (member : c ∈ d.positional.toList) :
      c.isDigit = true ∨ c = '.' := by
    unfold Decimal.positional at member
    dsimp only at member
    split at member
    · rw [String.toList_ofList] at member
      split at member
      · rw [List.mem_singleton.mp member]
        exact .inl rfl
      · exact .inl ((List.mem_append.mp member).elim digits zeros)
    · rw [String.toList_ofList, List.mem_append, List.mem_cons] at member
      rcases member with whole | rfl | places
      · exact .inl ((List.mem_append.mp (List.mem_of_mem_take whole)).elim zeros digits)
      · exact .inr rfl
      · exact .inl ((List.mem_append.mp (List.mem_of_mem_drop places)).elim zeros digits)
  unfold Number.format signed at member
  split at member
  · rw [String.toList_append, List.mem_append] at member
    rcases member with sign | magnitude
    · exact .inr (.inr (List.mem_singleton.mp sign))
    · exact (positional magnitude).elim .inl (.inr ∘ .inl)
  · exact (positional member).elim .inl (.inr ∘ .inl)

-- The text of a value never looks like that of an error.
theorem Value.inspect_ne (v : Value) (rest : String) : v.inspect ≠ "error " ++ rest := by
  intro same
  have first : v.inspect.toList.head? = some 'e' := by
    rw [same, String.toList_append]
    rfl
  unfold inspect at first
  split at first
  · split at first <;> cases first
  · have letter := Number.mem_format (List.mem_of_head? first)
    revert letter
    decide
  · simp [Text.quote, Text.quoteWith] at first
  · cases first

namespace Attempt

-- What the directives ask for: the error, or else a run that does not fail and the exit value.
structure Meets (a : Attempt) (d : Directives) : Prop where
  error : d.errorCode ≠ "" → a.errorCode.text = d.errorCode
  value : d.errorCode = "" → ∃ v, a.outcome = .ok v ∧ ∀ expected ∈ d.expect, v.inspect = expected

-- Runs that ended in values that look the same, or in errors with the same code.
inductive EndsLike (a b : Attempt) : Prop where
  | value {v w : Value} (one : a.outcome = .ok v) (two : b.outcome = .ok w)
      (same : v.inspect = w.inspect)
  | error {f g : Failure} (one : a.outcome = .error f) (two : b.outcome = .error g)
      (same : a.errorCode = b.errorCode)

-- Runs that printed the same lines, nothing and an empty line being taken for the same.
def PrintsLike (a b : Attempt) : Prop :=
  a.journal.output = b.journal.output ∨
    (a.journal.output = "" ∨ a.journal.output = "\n") ∧
      (b.journal.output = "" ∨ b.journal.output = "\n")

theorem errorCode_of_ok {a : Attempt} {v : Value} (ok : a.outcome = .ok v) :
    a.errorCode = .none := by
  simp only [errorCode, ok]

theorem errorCode_of_error {a : Attempt} {f : Failure} (error : a.outcome = .error f) :
    a.errorCode = f.report.code := by
  simp only [errorCode, error]

theorem text_of_ok {a : Attempt} {v : Value} (ok : a.outcome = .ok v) : a.text = v.inspect := by
  simp only [text, ok]

theorem text_of_coded {a : Attempt} {f : Failure} (error : a.outcome = .error f)
    (coded : f.report.code.Lettered) : a.text = "error " ++ a.errorCode.text := by
  have some : a.errorCode ≠ .none := by
    rw [errorCode_of_error error]
    intro none
    obtain ⟨rest, text⟩ := coded
    rw [none] at text
    cases text
  simp only [text, error, if_neg some]

-- Runs that are shown alike ended alike.
theorem endsLike_of_text {a b : Attempt} (one : Script.Finished a.outcome)
    (two : Script.Finished b.outcome) (same : a.text = b.text) : a.EndsLike b := by
  cases left : a.outcome with
  | ok v =>
    rw [text_of_ok left] at same
    cases right : b.outcome with
    | ok w => exact .value left right (same.trans (text_of_ok right))
    | error g =>
      rw [right] at two
      cases two with
      | failure coded => exact absurd (same.trans (text_of_coded right coded)) (v.inspect_ne _)
  | error f =>
    rw [left] at one
    cases one with
    | failure coded =>
      rw [text_of_coded left coded] at same
      cases right : b.outcome with
      | ok w => exact absurd (same.trans (text_of_ok right)).symm (w.inspect_ne _)
      | error g =>
        rw [right] at two
        cases two with
        | failure coded' =>
          rw [text_of_coded right coded', String.append_right_inj] at same
          refine .error left right ?_
          cases first : a.errorCode
          cases second : b.errorCode
          rw [first, second] at same
          exact congrArg Code.mk same

-- Runs that end alike do what is asked for, or neither does.
theorem EndsLike.meets {a b : Attempt} {d : Directives} (alike : a.EndsLike b) (meets : a.Meets d) :
    b.Meets d := by
  cases alike with
  | @value v w one two same =>
    refine ⟨fun asked => ?_, fun plain => ⟨w, two, ?_⟩⟩
    · rw [errorCode_of_ok two, ← errorCode_of_ok one]
      exact meets.error asked
    · obtain ⟨v', one', expected⟩ := meets.value plain
      rw [one] at one'
      cases one'
      rwa [← same]
  | error one two same =>
    refine ⟨fun asked => same ▸ meets.error asked, fun plain => ?_⟩
    obtain ⟨v, ok, _⟩ := meets.value plain
    rw [one] at ok
    cases ok

-- A verdict of success leaves nothing wrong, and no error that was not asked for.
theorem of_verdict {a b : Attempt} {d : Directives} (passed : (a.verdict b d).1 = .passed) :
    a.failures b d = [] ∧ ∀ f, a.outcome = .error f → d.errorCode ≠ "" := by
  unfold verdict at passed
  dsimp only at passed
  split at passed
  · rename_i f failed
    split at passed
    · cases passed
    · rename_i asked
      dsimp only at passed
      split at passed
      · rename_i none
        have none := List.isEmpty_iff.mp none
        refine ⟨none, fun _ _ plain => asked ?_⟩
        simp [plain, none]
      · cases passed
  · rename_i v ok
    dsimp only at passed
    split at passed
    · rename_i none
      refine ⟨List.isEmpty_iff.mp none, fun f failed => ?_⟩
      rw [ok] at failed
      cases failed
    · cases passed

-- What the check of the directives finds nothing wrong with.
theorem meets_of_check {a : Attempt} {d : Directives} (fine : a.check d = [])
    (asked : ∀ f, a.outcome = .error f → d.errorCode ≠ "") : a.Meets d := by
  unfold check at fine
  split at fine
  · rename_i code
    split at fine
    · rename_i given
      exact ⟨fun _ => given, fun plain => absurd plain code⟩
    · cases fine
  · rename_i plain
    refine ⟨fun code => absurd code plain, fun _ => ?_⟩
    cases outcome : a.outcome with
    | error f => exact absurd (asked f outcome) plain
    | ok v =>
      refine ⟨v, rfl, ?_⟩
      rintro expected given
      simp only [outcome, Option.mem_def.mp given] at fine
      split at fine
      · assumption
      · cases fine

end Attempt

namespace Trial

-- What the two runs of a script have in common from the start.
theorem attempt_pair {fuel : Nat} {limit : Int} {source : String} {plain optimized : Attempt}
    (one : attempt fuel limit false source = some plain)
    (two : attempt fuel limit true source = some optimized) :
    ((∃ f, plain.outcome = .error f ∧ optimized.outcome = .error f) ∨
      Script.Finished plain.outcome ∧ Script.Finished optimized.outcome) ∧
    Text.Whole plain.journal.output ∧ Text.Whole optimized.journal.output := by
  simp only [attempt, Option.bind_eq_bind, Option.bind_eq_some_iff, Option.pure_def,
    Option.some.injEq] at one two
  obtain ⟨r, ran, rfl⟩ := one
  obtain ⟨r', ran', rfl⟩ := two
  cases Script.outset Journal.bindings source "" with
  | refused f builds =>
    have refused {settings : Settings Unit} {r : Script.Result Journal Unit}
        (same : settings.exitType = "")
        (ran : Script.run fuel settings Journal.bindings source {} () .background = some r) :
        r.outcome = .error f ∧ r.around.world = {} := by
      have fails := builds settings same
      unfold Script.run at ran
      generalize Script.build settings Journal.bindings source = made at fails ran
      obtain ⟨_, b⟩ := made
      cases fails
      cases ran
      exact ⟨rfl, rfl⟩
    obtain ⟨outcome, world⟩ := refused rfl ran
    obtain ⟨outcome', world'⟩ := refused rfl ran'
    rw [world, world']
    exact ⟨.inl ⟨f, outcome, outcome'⟩, .inl rfl, .inl rfl⟩
  | @compiled bound resolved builds =>
    have keep : HostsKeep (fun j : Journal => Text.Whole j.output) bound.externals.toArray := by
      intro ext member f given j r whole
      obtain ⟨b, bound, offers⟩ := Binding.mem_of_resolve resolved (by simpa using member) given
      exact Journal.bindings_printLines b bound f offers j r whole
    obtain ⟨ended, whole⟩ := Script.finished_of_prepared (builds _ rfl) keep (.inl rfl) ran
    obtain ⟨ended', whole'⟩ := Script.finished_of_prepared (builds _ rfl) keep (.inl rfl) ran'
    exact ⟨.inr ⟨ended, ended'⟩, whole, whole'⟩

-- A script that passes: what is known of its two runs.
theorem passed_ok {fuel : Nat} {limit : Int} {name file source : String} {result : TestResult}
    (ran : run fuel limit name file source = some result)
    (unskipped : (Directives.ofSource source).skip = "") (passed : result.status = .passed) :
    ∃ plain optimized : Attempt, attempt fuel limit false source = some plain ∧
      attempt fuel limit true source = some optimized ∧ plain.journal.failures = [] ∧
      plain.Meets (Directives.ofSource source) ∧ optimized.Meets (Directives.ofSource source) ∧
      plain.EndsLike optimized ∧ plain.PrintsLike optimized := by
  unfold run at ran
  rw [if_neg (not_not_intro unskipped)] at ran
  simp only [Option.bind_eq_bind, Option.bind_eq_some_iff, Option.pure_def, Option.some.injEq] at ran
  obtain ⟨plain, one, optimized, two, rfl⟩ := ran
  have kept : plain.journal.skipped = none := by
    cases skipped : plain.journal.skipped with
    | none => rfl
    | some reason => simp [judge, skipped] at passed
  have verdict : (plain.verdict optimized (Directives.ofSource source)).1 = .passed := by
    simpa only [judge, kept] using passed
  obtain ⟨clean, asked⟩ := Attempt.of_verdict verdict
  unfold Attempt.failures Attempt.disagreement at clean
  obtain ⟨checks, agree⟩ := List.append_eq_nil_iff.mp clean
  obtain ⟨unfailed, checked⟩ := List.append_eq_nil_iff.mp checks
  have meets := Attempt.meets_of_check checked asked
  split at agree
  · cases agree
  rename_i same
  split at agree
  · cases agree
  rename_i printed
  obtain ⟨ends, whole, whole'⟩ := attempt_pair one two
  have alike : plain.EndsLike optimized := by
    rcases ends with ⟨f, refused, refused'⟩ | ⟨ended, ended'⟩
    · refine .error refused refused' ?_
      rw [Attempt.errorCode_of_error refused, Attempt.errorCode_of_error refused']
    · exact Attempt.endsLike_of_text ended ended' (not_not.mp same)
  exact ⟨plain, optimized, one, two, unfailed, meets, alike.meets meets, alike,
    Journal.output_of_logs whole whole' (not_not.mp printed)⟩

end Trial

-- A script that passes although its optimized run fails a check: the plain one never comes that far,
-- and both end with the error that is asked for.
namespace Lenient

def source : String :=
  "// error: E3007\nif (false) double a;\na;\nassert(false, 'late');\nif (false) double b;\nexit b;\n"

def result : Option TestResult := Trial.run 100 0 "late_test" "late_test.gpdsl" source

theorem unskipped : (Directives.ofSource source).skip = "" := by decide +kernel

-- The trial as a whole, and the checks of its optimized run.
theorem computed :
    result.map (·.status) = some .passed ∧
      (Trial.attempt 100 0 true source).map (·.journal.failures) =
        some [⟨"late", "false", "true"⟩] := by
  decide +kernel

theorem runs_agree : ∃ plain optimized : Attempt, plain.EndsLike optimized ∧
    optimized.Meets (Directives.ofSource source) := by
  obtain ⟨r, ran, passed⟩ := Option.map_eq_some_iff.mp computed.1
  obtain ⟨plain, optimized, _, _, _, _, meets, alike, _⟩ := Trial.passed_ok ran unskipped passed
  exact ⟨plain, optimized, alike, meets⟩

end Lenient

theorem passes_with_failed_check :
    (Directives.ofSource Lenient.source).skip = "" ∧
      Lenient.result.map (·.status) = some .passed ∧
      (Trial.attempt 100 0 true Lenient.source).map (·.journal.failures) =
        some [⟨"late", "false", "true"⟩] :=
  ⟨Lenient.unskipped, Lenient.computed⟩

end ScalarScript
