import ScalarScript.Files.Wildcard
import ScalarScript.ScriptTest.Trial
import ScalarScript.Text.Pattern
import ScalarScript.Text.Quoted
/-!
Suites: the test files that some patterns name, run one after the other.
-/
namespace ScalarScript

structure Suite where
  -- files, directories and wildcards; the current directory where there are none
  patterns : List String := []
  -- a search pattern for the names of the tests to run; all of them where empty
  only : String := ""
  instructionLimit : Int := 0

structure Summary where
  tests : List TestResult
  deriving Repr

namespace Summary

def count (s : Summary) (status : Status) : Nat := s.tests.countP (·.status == status)

def success (s : Summary) : Bool := s.count .failed = 0 && s.count .error = 0

end Summary

namespace Suite

def ending : String := ".gpdsl"

def isTestFile (path : String) : Bool := Text.endsWith ("_test" ++ ending) path

def testName (path : String) : String := Text.withoutEnding ending (Path.base path)

variable {m : Type → Type} [Monad m]

-- Three points at the end of a pattern ask for all directories below.
def recursion? (pattern : String) : Option String :=
  if Text.endsWith "..." pattern then
    let directory := Text.withoutEnding "/" (Text.withoutEnding "..." pattern)
    some (if directory.isEmpty then "." else directory)
  else none

def filesIn (files : FileAccess m) (directory : String) : m (List String) := do
  let paths := (← files.names directory).map (Path.join directory)
  paths.filterM fun path => return match ← files.look path with
    | .ok .file => true
    | _ => false

-- The paths that one pattern names.
def pathsOf (files : FileAccess m) (pattern : String) : m (Except String (List String)) := do
  if pattern.contains '*' then
    match ← files.glob pattern with
    | some paths => return .ok paths
    | none => return .error s!"invalid pattern {Text.quote pattern}: syntax error in pattern"
  else
    let directory := (recursion? pattern).getD pattern
    match ← files.look directory with
    | .error .missing => return .error s!"path not found: {directory}"
    | .error fault => return .error s!"stat {directory}: {fault.text}"
    | .ok .file => return .ok [pattern]
    | .ok .directory =>
      if (recursion? pattern).isSome then return .ok (← files.walk files.depth directory)
      else return .ok (← filesIn files directory)

-- The paths of all patterns in turn; the first bad pattern ends the search.
def pathsOfAll (files : FileAccess m) : List String → m (Except String (List String))
  | [] => return .ok []
  | pattern :: rest => do
    match ← pathsOf files pattern with
    | .error e => return .error e
    | .ok paths => return (← pathsOfAll files rest).map (paths ++ ·)

-- The test files that the patterns name, each once.
def discover (files : FileAccess m) (patterns : List String) : m (Except String (List String)) := do
  let patterns := if patterns.isEmpty then ["."] else patterns
  return (← pathsOfAll files patterns).map fun paths => (paths.filter isTestFile).eraseDups

-- Whether a test of that name is to be run.
def selector (only : String) : Except String (String → Bool) :=
  if only.isEmpty then .ok fun _ => true
  else match Pattern.parse only with
    | .ok p => .ok p.occursIn
    | .error e => .error ("invalid run pattern: " ++ e.message)

def runFile (fuel : Nat) (files : FileAccess m) (limit : Int) (path : String) :
    m (Option TestResult) := do
  match ← files.read path with
  | .error e =>
    return some { name := testName path, file := path, status := .error, error := some e }
  | .ok source => return Trial.run fuel limit (testName path) path source

-- Runs the suite. Out of fuel there is no answer.
def run (fuel : Nat) (files : FileAccess m) (s : Suite) : m (Option (Except String Summary)) := do
  match ← discover files s.patterns with
  | .error e => return some (.error e)
  | .ok paths =>
    match selector s.only with
    | .error e => return some (.error e)
    | .ok wanted =>
      let results ← (paths.filter (wanted ∘ testName)).mapM (runFile fuel files s.instructionLimit)
      return (results.mapM id).map fun tests => .ok ⟨tests⟩

end Suite

end ScalarScript
