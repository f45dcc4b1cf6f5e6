import ScalarScript.CommandLine.Command
import ScalarScript.Document.Assignments
import ScalarScript.Document.Json
import ScalarScript.Document.Toml.Contents
import ScalarScript.Document.Yaml.Contents
import ScalarScript.Files.Access
/-!
Where settings come from. A flag on the command line goes before a variable of the environment,
that before the configuration file, and that before the flag's initial value.
-/
namespace ScalarScript

namespace Config

-- The endings of files that may hold settings.
def formats : List String :=
  ["json", "toml", "yaml", "yml", "properties", "props", "prop", "hcl", "tfvars", "dotenv", "env",
    "ini"]

-- The fields of a document in a format. Only some of the formats can be read.
def decode (format : String) (environment : List (String × String)) (text : String) :
    Except String (List (String × Datum)) :=
  match format with
  | "yaml" | "yml" => (Yaml.contents text).map Datum.fields |>.mapError ("yaml: " ++ ·.text)
  | "json" => (JsonDocument.contents text).map Datum.fields |>.mapError (·.text)
  | "toml" => (Toml.contents text).map Datum.fields |>.mapError (·.text)
  | "dotenv" | "env" =>
    let assigned := (Assignments.contents environment text).mapError (·.text)
    assigned.map fun vs => vs.map fun (name, value) => (name, .text value)
  | _ => .error "decoder not found for this format"

-- Names are told apart without regard to case. One that is in lower case gives way to others.
def foldNames (fields : List (String × Datum)) : List (String × Datum) :=
  let (lower, others) := fields.partition fun (name, _) => Text.lower name = name
  others.map (fun (name, d) => (Text.lower name, d)) ++ lower

def parse (format : String) (environment : List (String × String)) (text : String) :
    Except String (List (String × Datum)) :=
  ((decode format environment text).map foldNames).mapError ("While parsing config: " ++ ·)

-- The part of the last name behind its last point.
def extension (path : String) : String :=
  let name := (Path.names path).getLastD ""
  if name.contains '.' then (Text.splitText '.' name).getLastD "" else ""

-- The names that a file with settings may have in the home directory, the first one found counts.
def names : List String := formats.map (".gpdsl." ++ ·) ++ [".gpdsl"]

end Config

-- Everything that may hold a setting.
structure Options where
  given : List (String × SettingValue)
  environment : List (String × String)
  config : List (String × Datum) := []
  flags : List Flag

namespace Options

-- The variable of the environment for a setting.
def variableName (key : String) : String :=
  let upper (c : Char) := if c = '-' then '_' else c.toUpper
  "GPDSL_" ++ String.ofList (key.toList.map upper)

-- An empty variable counts as none.
def fromEnvironment? (o : Options) (key : String) : Option SettingValue :=
  match o.environment.lookup (variableName key) with
  | some s => if s.isEmpty then none else some (.text s)
  | none => none

def fromConfig? (o : Options) (key : String) : Option SettingValue :=
  (o.config.lookup key).bind SettingValue.ofDatum?

def initial? (o : Options) (key : String) : Option SettingValue :=
  (o.flags.find? (·.name == key)).map (·.initial)

def get (o : Options) (key : String) : SettingValue :=
  let found := o.given.lookup key <|> o.fromEnvironment? key <|> o.fromConfig? key <|>
    o.initial? key
  found.getD (.text "")

def truth (o : Options) (key : String) : Bool := (o.get key).truth

def number (o : Options) (key : String) : Int := (o.get key).number

def text (o : Options) (key : String) : String := (o.get key).shown

variable {m : Type → Type} [Monad m]

-- The first of the paths at which there is a file.
def firstFile (files : FileAccess m) : List String → m (Option String)
  | [] => return none
  | path :: paths => do
    match ← files.look path with
    | .ok .file => return some path
    | _ => firstFile files paths

-- Takes the settings from a file.
def loadFrom (o : Options) (files : FileAccess m) (format path : String) :
    m (Except String Options) := do
  match ← files.read path with
  | .error e => return .error e
  | .ok text => return (Config.parse format o.environment text).map fun config => { o with config }

-- A file that was named must be there, and its name tells its format. The one in the home
-- directory need not be there, and it has the same format whatever its name.
def load (o : Options) (files : FileAccess m) (home : Option String) :
    m (Except String Options) := do
  let named := o.text "config"
  if named.isEmpty then
    match home with
    | none => return .ok o
    | some home =>
      match ← firstFile files (Config.names.map (Path.join home)) with
      | some path => o.loadFrom files "yaml" path
      | none => return .ok o
  else
    let format := Config.extension named
    if Config.formats.contains format then o.loadFrom files format named
    else return .error s!"Unsupported Config Type {Text.quote format}"

def levels : List String :=
  ["trace", "debug", "info", "warn", "error", "fatal", "panic", "disabled", ""]

-- What is wrong with the log level.
def levelError? (o : Options) : Option String :=
  let level := o.text "log-level"
  if levels.any (Text.isWord · level) then none
  else match Number.parseDecimal? level with
    | none => some s!"Unknown Level String: '{level}', defaulting to NoLevel"
    | some n =>
      if -128 ≤ n && n ≤ 127 then none
      else some s!"Out-Of-Bounds Level: '{n}', defaulting to NoLevel"

end Options

end ScalarScript
