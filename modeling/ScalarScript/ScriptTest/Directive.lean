import ScalarScript.Text.Blank
import ScalarScript.Text.Cut
/-!
Directives: what the comment lines at the head of a test script ask for.
-/
namespace ScalarScript

structure Directives where
  -- the text of the exit value
  expect : Option String := none
  -- the code of the error that the run must fail with; none where empty
  errorCode : String := ""
  -- why the script is not run at all; it is run where empty
  skip : String := ""
  deriving DecidableEq, Repr

namespace Directives

-- Takes one directive in; the last one of a kind counts.
def set (d : Directives) (key value : String) : Directives :=
  match key with
  | "expect" => { d with expect := some value }
  | "error" => { d with errorCode := value }
  | "skip" => { d with skip := value }
  | _ => d

-- A comment line, without its slashes.
def readComment (d : Directives) (comment : String) : Directives :=
  match Text.cut? ':' (Text.trim comment) with
  | none => d
  | some (key, value) => d.set (Text.trim key) (Text.trim value)

-- Blank lines are passed over; the first line of code ends the head.
def readLines (d : Directives) : List String → Directives
  | [] => d
  | line :: rest =>
    let line := Text.trim line
    if line.isEmpty then readLines d rest
    else if Text.startsWith "//" line then
      readLines (d.readComment (Text.withoutStart "//" line)) rest
    else d

def ofSource (source : String) : Directives := readLines {} (Text.lines source)

end Directives

end ScalarScript
