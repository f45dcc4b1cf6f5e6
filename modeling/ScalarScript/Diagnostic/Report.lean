import ScalarScript.Diagnostic.Code
import ScalarScript.Text.Paint
/-!
Reports: errors laid out for a reader, with the place, the source text and the call trace.
-/
namespace ScalarScript

-- A call that was under way when a run failed.
structure Frame where
  function : String
  -- the address of the call
  address : Int
  -- the source line of the call, not positive where it is unknown
  line : Int
  deriving DecidableEq, Repr

def Frame.text (f : Frame) : String :=
  let name := if f.function.isEmpty then "<anonymous>" else f.function
  if 0 < f.line then s!"at {name} (address {f.address}, line {f.line})"
  else s!"at {name} (address {f.address})"

def Frame.trace (frames : List Frame) : String :=
  if frames.isEmpty then ""
  else "Stack trace:\n" ++ String.join (frames.map fun f => "  " ++ f.text ++ "\n")

structure SourceLine where
  number : Int
  text : String
  deriving DecidableEq, Repr

structure Report where
  code : Code := .none
  kind : String := ""
  message : String := ""
  -- zero where there is no place to point at
  line : Int := 0
  sources : List SourceLine := []
  hint : String := ""
  note : String := ""
  stack : List Frame := []
  deriving Repr

namespace Report

open Text

def spaces (n : Nat) : String := String.ofList (List.replicate n ' ')

def padLeft (width : Nat) (s : String) : String := spaces (width - s.length) ++ s

-- Line numbers stand in a column of this width.
def width (r : Report) : Nat := if 100 ≤ r.line then (toString r.line).length else 2

def header (color : Bool) (r : Report) : String :=
  let label := if r.kind.isEmpty then "error" else r.kind
  let code := if r.code = .none then "" else paint color .gray ("[" ++ r.code.text ++ "]")
  paint color .brightRed label ++ code ++ paint color .red ": " ++ r.message ++ "\n"

def location (color : Bool) (r : Report) : String :=
  if r.line = 0 then ""
  else
    let place := paint color .cyan s!"line {r.line}"
    spaces r.width ++ paint color .cyan "-->" ++ " " ++ place ++ "\n"

def excerpt (color : Bool) (r : Report) : String :=
  if r.sources.isEmpty then ""
  else
    let line (s : SourceLine) :=
      paint color .gray (padLeft r.width (toString s.number)) ++ paint color .gray " | " ++
        paint color .white s.text ++ "\n"
    spaces r.width ++ paint color .gray " |\n" ++ String.join (r.sources.map line)

def annotation (color : Bool) (r : Report) (style : Style) (label text : String) : String :=
  if text.isEmpty then ""
  else spaces r.width ++ paint color .gray " = " ++ paint color style label ++ text ++ "\n"

def trace (color : Bool) (r : Report) : String :=
  if r.stack.isEmpty then ""
  else
    let line (f : Frame) := spaces r.width ++ "     " ++ f.text ++ "\n"
    spaces r.width ++ paint color .gray " = " ++ paint color .brightBlue "stack trace:\n" ++
      String.join (r.stack.map line)

def render (color : Bool) (r : Report) : String :=
  r.header color ++ r.location color ++ r.excerpt color ++
    r.annotation color .brightYellow "hint: " r.hint ++
    r.annotation color .brightBlue "note: " r.note ++ r.trace color

end Report

end ScalarScript
