import ScalarScript.Builtin
import ScalarScript.Text.Cut
/-!
Journals: what a test script says about itself while it runs. It prints and logs, fails checks, and
may ask to be skipped.
-/
namespace ScalarScript

-- A check that failed. Both texts are empty where there is nothing to compare.
structure FailedCheck where
  message : String
  got : String := ""
  want : String := ""
  deriving DecidableEq, Repr

structure Journal where
  output : String := ""
  failures : List FailedCheck := []
  -- the reason for skipping, once there is one
  skipped : Option String := none
  deriving DecidableEq, Repr

namespace Journal

def print (j : Journal) (text : String) : Journal := { j with output := j.output ++ text }

def fail (j : Journal) (c : FailedCheck) : Journal := { j with failures := j.failures ++ [c] }

-- The printed lines. The line break at the end opens no further line.
def logs (j : Journal) : List String :=
  let text := Text.withoutEnding "\n" j.output
  if text.isEmpty then [] else Text.lines text

-- Every skip ends the run with this error.
def skipMessage : String := "test skipped"

def argumentText (r : HostRequest) (position : Nat) : String :=
  (Builtin.text? (Builtin.argument r position)).getD ""

def answer (j : Journal) (arity : Nat) (b : Bool) : HostReply Journal :=
  { world := j, popped := arity, result := .value (some (.truth b)) }

-- A condition that is not true fails, a null one too.
def assert : HostFunction Journal := fun j r =>
  let condition := Builtin.argument r 1
  if condition.equals (.truth true) then j.answer 2 true
  else
    let message := argumentText r 0
    let message := if message.isEmpty then "assertion failed" else message
    (j.fail ⟨message, condition.inspect, "true"⟩).answer 2 false

def failNow : HostFunction Journal := fun j r =>
  (j.fail { message := argumentText r 0 }).answer 1 false

def skip : HostFunction Journal := fun j r =>
  { world := { j with skipped := some (argumentText r 0) }
    popped := 1
    result := .failed skipMessage }

def log : HostFunction Journal := fun j r => (j.print (argumentText r 0 ++ "\n")).answer 1 true

-- The standard functions, printing into the journal, and those for tests.
def bindings : List (Binding Journal) :=
  let bool := "bool"
  let string := "string"
  Builtin.bindings (fun j text => .ok (j.print text)) ++
  [.function "assert" bool [bool, string] (some assert),
   .function "fail" bool [string] (some failNow),
   .function "skip" bool [string] (some skip),
   .function "log" bool [string] (some log)]

end Journal

end ScalarScript
