import ScalarScript.Diagnostic.Report
import ScalarScript.Diagnostic.Suggestion
/-!
Everything that can go wrong on the way from a source text to a result.
-/
namespace ScalarScript

structure LexError where
  code : Code
  message : String
  line : Int
  sourceLine : String
  deriving DecidableEq, Repr

structure CompileError where
  code : Code
  message : String
  -- not positive where no line is at fault
  line : Int
  sourceLine : String := ""
  suggestions : List Suggestion := []
  note : String := ""
  deriving DecidableEq, Repr

structure RuntimeError where
  code : Code
  message : String
  -- the address of the failing instruction
  address : Int
  line : Int
  -- innermost call first
  stack : List Frame
  -- the text of the failure behind this one
  cause : Option String := none
  deriving DecidableEq, Repr

structure LinkError where
  code : Code
  message : String
  branch : Int
  deriving DecidableEq, Repr

def LexError.text (e : LexError) : String := s!"lexical error: {e.message} (line {e.line})"

def CompileError.text (e : CompileError) : String :=
  "compile error: " ++ e.message ++ if 0 < e.line then s!" (line {e.line})" else ""

def RuntimeError.text (e : RuntimeError) : String :=
  let place := if 0 < e.line then s!", line {e.line}" else ""
  s!"runtime error: {e.message} (address {e.address}{place})"

def LinkError.text (e : LinkError) : String := "link error: " ++ e.message

-- The line at fault as an excerpt; an empty line shows nothing.
def excerptOf (line : Int) (text : String) : List SourceLine :=
  if text.isEmpty then [] else [⟨line, text⟩]

def LexError.report (e : LexError) : Report where
  code := e.code
  kind := "lexical error"
  message := e.message
  line := e.line
  sources := excerptOf e.line e.sourceLine

def CompileError.report (e : CompileError) : Report where
  code := e.code
  kind := "compile error"
  message := e.message
  line := e.line
  sources := excerptOf e.line e.sourceLine
  hint := Suggestion.hint e.suggestions
  note := e.note

def RuntimeError.report (e : RuntimeError) : Report where
  code := e.code
  kind := "runtime error"
  message := e.message
  line := e.line
  note := s!"at instruction {e.address}"
  stack := e.stack

def LinkError.report (e : LinkError) : Report where
  code := e.code
  kind := "link error"
  message := e.message
  note := s!"branch id {e.branch}"

inductive Failure where
  | lex (e : LexError)
  | compile (e : CompileError)
  | runtime (e : RuntimeError)
  | link (e : LinkError)
  -- several faults found together
  | many (messages : List String)
  | plain (message : String)
  deriving DecidableEq, Repr

namespace Failure

def listText (messages : List String) : String :=
  let count := messages.length
  let heading := if count = 1 then "1 error occurred:" else s!"{count} errors occurred:"
  heading ++ "\n\t" ++ "\n\t".intercalate (messages.map ("* " ++ ·)) ++ "\n\n"

def text : Failure → String
  | lex e => e.text
  | compile e => e.text
  | runtime e => e.text
  | link e => e.text
  | many messages => listText messages
  | plain message => message

def report : Failure → Report
  | lex e => e.report
  | compile e => e.report
  | runtime e => e.report
  | link e => e.report
  | many messages => { kind := "error", message := listText messages }
  | plain message => { kind := "error", message := message }

def render (color : Bool) (f : Failure) : String := f.report.render color

end Failure

end ScalarScript
