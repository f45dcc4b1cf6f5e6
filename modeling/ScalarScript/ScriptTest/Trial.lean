import ScalarScript.Script
import ScalarScript.ScriptTest.Directive
import ScalarScript.ScriptTest.Journal
/-!
Trials: a test script runs twice, as it is and optimized. Both runs must agree, and the plain one
must do what the directives say and fail no check.
-/
namespace ScalarScript

inductive Status where
  | passed | failed | skipped | error | unknown
  deriving DecidableEq, Repr

namespace Status

def name : Status → String
  | passed => "PASS"
  | failed => "FAIL"
  | skipped => "SKIP"
  | error => "ERROR"
  | unknown => "UNKNOWN"

def ofCode : Int → Status
  | 0 => passed
  | 1 => failed
  | 2 => skipped
  | 3 => error
  | _ => unknown

end Status

-- How the test of one file went.
structure TestResult where
  name : String
  file : String
  status : Status
  nanoseconds : Int := 0
  error : Option String := none
  failures : List FailedCheck := []
  logs : List String := []
  skipReason : String := ""
  deriving DecidableEq, Repr

-- One run of a script.
structure Attempt where
  outcome : Except Failure Value
  journal : Journal

namespace Attempt

-- The code of the error that ended the run; none where there is no error or it has no code.
def errorCode (a : Attempt) : Code :=
  match a.outcome with
  | .ok _ => .none
  | .error f => f.report.code

def text (a : Attempt) : String :=
  match a.outcome with
  | .ok v => v.inspect
  | .error f => "error " ++ if a.errorCode = .none then f.text else a.errorCode.text

-- What the directives find wrong. An error nobody asked for is no matter of theirs.
def check (a : Attempt) (d : Directives) : List FailedCheck :=
  if d.errorCode ≠ "" then
    if a.errorCode.text = d.errorCode then []
    else [⟨"wrong error", a.text, "error " ++ d.errorCode⟩]
  else match a.outcome, d.expect with
    | .ok v, some expected =>
      if v.inspect = expected then [] else [⟨"wrong exit value", v.inspect, expected⟩]
    | _, _ => []

-- How the optimized run differs from the plain one.
def disagreement (plain optimized : Attempt) : List FailedCheck :=
  if plain.text ≠ optimized.text then
    [⟨"optimized run differs", optimized.text, plain.text⟩]
  else if plain.journal.logs ≠ optimized.journal.logs then
    [{ message := "optimized run printed different output" }]
  else []

def failures (plain optimized : Attempt) (d : Directives) : List FailedCheck :=
  plain.journal.failures ++ plain.check d ++ disagreement plain optimized

-- An error is reported as such where no directive asked for it and no check failed.
def verdict (plain optimized : Attempt) (d : Directives) : Status × Option String :=
  let failures := plain.failures optimized d
  match plain.outcome with
  | .error f =>
    if d.errorCode = "" && failures.isEmpty then (.error, some f.text)
    else (if failures.isEmpty then .passed else .failed, none)
  | .ok _ => (if failures.isEmpty then .passed else .failed, none)

end Attempt

namespace Trial

def attempt (fuel : Nat) (limit : Int) (optimize : Bool) (source : String) : Option Attempt := do
  let settings : Settings Unit := { optimize, instructionLimit := limit }
  let r ← Script.run fuel settings Journal.bindings source {} () .background
  return ⟨r.outcome, r.around.world⟩

-- The result of two runs of a file.
def judge (name file : String) (d : Directives) (plain optimized : Attempt) : TestResult :=
  let logs := plain.journal.logs
  match plain.journal.skipped with
  | some reason => { name, file, status := .skipped, logs, skipReason := reason }
  | none =>
    let (status, error) := plain.verdict optimized d
    { name, file, status, error, logs, failures := plain.failures optimized d }

-- Runs the script of a file, unless its head says not to.
def run (fuel : Nat) (limit : Int) (name file source : String) : Option TestResult :=
  let d := Directives.ofSource source
  if d.skip ≠ "" then some { name, file, status := .skipped, skipReason := d.skip }
  else do
    let plain ← attempt fuel limit false source
    let optimized ← attempt fuel limit true source
    return judge name file d plain optimized

end Trial

end ScalarScript
