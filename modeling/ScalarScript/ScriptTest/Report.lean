import ScalarScript.ScriptTest.Suite
import ScalarScript.Text.Paint
/-!
Reports on script tests: a few lines for each test and the totals at the end.
-/
namespace ScalarScript.Summary

open Text

def line (s : String) : String := s ++ "\n"

def indented (s : String) : String := line ("    " ++ s)

def nanosPerSecond : Int := 1000000000

-- A time in seconds as a double: the whole seconds and the rest are converted apart.
def secondsOf (nanoseconds : Int) : Float :=
  Number.ofInt (nanoseconds.tdiv nanosPerSecond) +
    Number.ofInt (nanoseconds.tmod nanosPerSecond) / Number.ofInt nanosPerSecond

-- A time in seconds, with three places.
def seconds (nanoseconds : Int) : String := Number.fixed 3 (secondsOf nanoseconds) ++ "s"

def style? : Status → Option Style
  | .passed => some .green
  | .failed | .error => some .red
  | .skipped => some .yellow
  | .unknown => none

def paintBy (color : Bool) (style : Option Style) (s : String) : String :=
  match style with
  | some style => paint color style s
  | none => s

def failureText (color : Bool) (file : String) (c : FailedCheck) : String :=
  let got := paint color .red "got"
  let want := paint color .green "want"
  indented s!"{file}: {c.message}" ++
    (if c.got.isEmpty then "" else indented s!"    {got}:  {c.got}") ++
    (if c.want.isEmpty then "" else indented s!"    {want}: {c.want}")

-- What a test printed is shown where it failed, or on demand.
def resultText (verbose color : Bool) (t : TestResult) : String :=
  let mark := paintBy color (style? t.status) s!"--- {t.status.name}:"
  let skip := if t.status = .skipped && t.skipReason ≠ "" then indented t.skipReason else ""
  let error := if t.status = .error then (t.error.map indented).getD "" else ""
  let logs := if verbose || t.status = .failed then String.join (t.logs.map indented) else ""
  line s!"=== RUN   {t.name}" ++ line s!"{mark} {t.name} ({seconds t.nanoseconds})" ++
    skip ++ error ++ String.join (t.failures.map (failureText color t.file)) ++ logs

def totalsText (color : Bool) (s : Summary) : String :=
  let part (status : Status) (word : String) : Option String :=
    let n := s.count status
    if n = 0 then none else some (paintBy color (style? status) s!"{n} {word}")
  let parts := [part .passed "passed", part .failed "failed", part .skipped "skipped",
    part .error "errors"].filterMap id
  if parts.isEmpty then "" else line (", ".intercalate parts)

def render (verbose color : Bool) (s : Summary) : String :=
  let verdict := if s.success then paint color .green "PASS" else paint color .red "FAIL"
  String.join (s.tests.map (resultText verbose color)) ++ line "" ++ line verdict ++
    s.totalsText color

end ScalarScript.Summary
