import ScalarScript.Builtin
import ScalarScript.CommandLine.Config
import ScalarScript.Script
import ScalarScript.ScriptTest.Report
import ScalarScript.Text.Json
/-!
What the commands do, as a function of the files, the environment, the input and the words of the
command line.
-/
namespace ScalarScript

structure Invocation where
  arguments : List String
  environment : List (String × String) := []
  home : Option String := none
  -- the standard input
  input : String := ""

inductive CommandError where
  -- an error of the script, shown with its place
  | reported (f : Failure)
  | plain (message : String)

namespace CommandError

def message : CommandError → String
  | reported f => f.text
  | plain message => message

-- Only errors of the script itself have a place to show.
def ofFailure (f : Failure) : CommandError :=
  match f with
  | .many _ | .plain _ => plain f.text
  | f => reported f

end CommandError

structure Response where
  output : String := ""
  trace : String := ""
  error : Option CommandError := none

namespace Response

def failed (message : String) : Response := { error := some (.plain message) }

end Response

-- Writes down each line that is reached, and calls and returns, indented by the depth of calls.
def tracer : Observer String :=
  let note (watch : String) (depth : Nat) (text : String) : String × Verdict :=
    (watch ++ String.join (List.replicate depth "  ") ++ text ++ "\n", .proceed)
  { config := { mode := .onLine }
    onStep := fun w e => note w e.frameDepth s!"[line {e.line}] {e.instruction}"
    onCall := fun w e =>
      let kind := if e.external then "excall" else "call"
      note w e.frameDepth s!"-> {kind} {e.function}"
    onReturn := fun w e => note w e.frameDepth s!"<- {e.function}" }

namespace Execute

-- The world of a script is what it has printed.
def bindings (o : Options) : List (Binding String) :=
  if o.truth "no-builtins" then [] else Builtin.bindings fun printed text => .ok (printed ++ text)

def settings (o : Options) : Settings String where
  optimize := o.truth "optimize"
  exitType := o.text "exit-type"
  instructionLimit := o.number "max-instructions"
  observer := if o.truth "trace" then some tracer else none

def jsonValue : Value → String
  | .bool (some b) => if b then "true" else "false"
  | .double (some x) => Number.formatJson x
  | .string (some s) => Text.jsonString s
  | _ => "null"

-- An exit value in the output format asked for.
def valueText (format : String) (v : Value) : Except String String :=
  match Text.lower format with
  | "" | "text" =>
    match v with
    | .string (some s) => .ok s
    | v => .ok v.inspect
  | "json" =>
    .ok (Text.jsonObject [("type", Text.jsonString v.type.name), ("value", jsonValue v)])
  | format => .error s!"unknown output format: {format}"

-- Runs a source text and shows its exit value, the listing before it where that is wanted.
def script (fuel : Nat) (o : Options) (settings : Settings String) (listing : Bool)
    (source : String) : Option Response := do
  let r ← Script.run fuel settings (bindings o) source "" "" .background
  let printed := r.around.world ++ if listing then r.listing else ""
  let trace := r.around.watch
  match r.outcome with
  | .error f => return { output := printed, trace, error := some (.ofFailure f) }
  | .ok v =>
    match valueText (o.text "output") v with
    | .ok text => return { output := printed ++ text ++ "\n", trace }
    | .error e => return { output := printed, trace, error := some (.plain e) }

def versionText : String := "dev"

def version (o : Options) : Response :=
  if Text.lower (o.text "output") = "json" then
    let members := [("commit", "unknown"), ("date", "unknown"), ("version", versionText)]
    { output := Text.jsonObject (members.map fun (k, v) => (k, Text.jsonString v)) ++ "\n" }
  else { output := versionText ++ "\n" }

def disassemble (o : Options) (source : String) : Response :=
  match Script.compile (settings o) (bindings o) source with
  | .error f => { error := some (.ofFailure f) }
  | .ok p => { output := (Listing.render false p).toOption.getD "" }

-- A command line without a command can only ask for the version.
def root (args : List String) : Response :=
  match Arguments.parse Command.rootFlags args with
  | .error e => .failed e
  | .ok a =>
    let asked (name : String) := ((a.given.lookup name).map (·.truth)).getD false
    if !asked "help" && asked "version" then
      { output := s!"{Command.programName} version {versionText}\n" }
    else {}

variable {m : Type → Type} [Monad m]

-- The source text: given as code, on the standard input or in a file, and only one of them.
def sourceOf (files : FileAccess m) (inv : Invocation) (o : Options) (a : Arguments) :
    m (Except String String) := do
  match a.has "code", a.has "stdin", a.words with
  | true, false, [] => return .ok (o.text "code")
  | false, true, [] => return .ok inv.input
  | false, false, path :: _ => files.read path
  | false, false, [] => return .error "no input provided"
  | _, _, _ => return .error "multiple input sources specified"

-- Goes on with the source text, once the log level is seen to be one.
def withSource (files : FileAccess m) (inv : Invocation) (o : Options) (a : Arguments)
    (act : String → Option Response) : m (Option Response) := do
  match ← sourceOf files inv o a, o.levelError? with
  | .error e, _ | .ok _, some e => return some (.failed e)
  | .ok source, none => return act source

def test (fuel : Nat) (files : FileAccess m) (o : Options) (patterns : List String) :
    m (Option Response) := do
  let suite : Suite :=
    { patterns, only := o.text "run", instructionLimit := o.number "max-instructions" }
  match ← suite.run fuel files with
  | none => return none
  | some (.error e) => return some (.failed e)
  | some (.ok summary) =>
    let error := if summary.success then none else some (.plain "tests failed")
    return some { output := summary.render (o.truth "verbose") false, error }

def perform (fuel : Nat) (files : FileAccess m) (inv : Invocation) (o : Options) (c : Command)
    (a : Arguments) : m (Option Response) := do
  match c with
  | .run =>
    withSource files inv o a fun source => script fuel o (settings o) (o.truth "dis") source
  | .dis => withSource files inv o a fun source => some (disassemble o source)
  | .eval =>
    match o.levelError? with
    | some e => return some (.failed e)
    | none =>
      let source := "exit " ++ " ".intercalate a.words ++ ";"
      return script fuel o { settings o with observer := none } false source
  | .test => test fuel files o a.words
  | .version => return some (version o)
  | .help | .completion => return some {}

end Execute

variable {m : Type → Type} [Monad m]

-- Flags are looked at first, then the number of words, then the configuration.
def execute (fuel : Nat) (files : FileAccess m) (inv : Invocation) : m (Option Response) := do
  match Command.select inv.arguments with
  | .error e => return some (.failed e)
  | .ok (none, args) => return some (Execute.root args)
  | .ok (some c, args) =>
    match Arguments.parse c.flags args with
    | .error e => return some (.failed e)
    | .ok a =>
      if ((a.given.lookup "help").map (·.truth)).getD false then return some {}
      match c.wordError? a.words with
      | some e => return some (.failed e)
      | none =>
        let o : Options := { given := a.given, environment := inv.environment, flags := c.flags }
        match ← o.load files inv.home with
        | .error e => return some (.failed e)
        | .ok o => Execute.perform fuel files inv o c a

end ScalarScript
