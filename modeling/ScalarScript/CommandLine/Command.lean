import ScalarScript.CommandLine.Flag
import ScalarScript.Diagnostic.Suggestion
/-!
Commands: their names, flags and words, and how a command line names one.
-/
namespace ScalarScript

inductive Command where
  | run | dis | eval | test | version | help | completion
  deriving DecidableEq, Repr

namespace Command

def programName : String := "gpdsl"

def all : List Command := [run, dis, eval, test, version, help, completion]

def name : Command → String
  | run => "run"
  | dis => "dis"
  | eval => "eval"
  | test => "test"
  | version => "version"
  | help => "help"
  | completion => "completion"

def ofName? (name : String) : Option Command := all.find? (·.name == name)

-- Flags that every command has.
def sharedFlags : List Flag :=
  [{ name := "config", initial := .text "" },
   { name := "no-color", initial := .switch false },
   { name := "log-level", initial := .text "warn" },
   { name := "no-builtins", initial := .switch false },
   { name := "optimize", initial := .switch false }]

def helpFlag : Flag := { name := "help", short := some 'h', initial := .switch false }

def versionFlag : Flag := { name := "version", short := some 'v', initial := .switch false }

def codeFlags : List Flag :=
  [{ name := "code", short := some 'c', initial := .text "" },
   { name := "stdin", initial := .switch false }]

def exitTypeFlag : Flag := { name := "exit-type", initial := .text "" }

def outputFlag : Flag := { name := "output", short := some 'o', initial := .text "text" }

def limitFlag : Flag := { name := "max-instructions", initial := .integer 0 }

def ownFlags : Command → List Flag
  | run =>
    codeFlags ++ [exitTypeFlag, { name := "dis", initial := .switch false }, outputFlag, limitFlag,
      { name := "trace", initial := .switch false }]
  | dis => codeFlags
  | eval => [outputFlag, exitTypeFlag]
  | test =>
    [{ name := "verbose", short := some 'v', initial := .switch false },
     { name := "run", short := some 'r', initial := .text "" }, limitFlag]
  | version => [outputFlag]
  | help | completion => []

def flags (c : Command) : List Flag := c.ownFlags ++ sharedFlags ++ [helpFlag]

-- The flags that stand without a command.
def rootFlags : List Flag := sharedFlags ++ [helpFlag, versionFlag]

-- Whether a word is a flag that takes the next word as its value. Flags nobody knows count too.
def takesNext (word : String) : Bool :=
  if word.contains '=' then false
  else if Text.startsWith "--" word then
    !(sharedFlags.any fun f => f.isSwitch && s!"--{f.name}" == word)
  else Text.startsWith "-" word && word.utf8ByteSize == 2

-- The words among the flags, as far as the flags shared by all commands tell. A flag that may take
-- the last word hides it.
def wordsOf : List String → List String
  | [] => []
  | word :: rest =>
    if word = "--" then []
    else if takesNext word then
      match rest with
      | _ :: value :: rest => wordsOf (value :: rest)
      | _ => []
    else if word.isEmpty || Text.startsWith "-" word then wordsOf rest
    else word :: wordsOf rest

-- The command line without the word that names the command.
def without (name : String) : List String → List String
  | [] => []
  | word :: rest =>
    if word = "--" then word :: rest
    else if takesNext word then
      match rest with
      | value :: rest => word :: value :: without name rest
      | [] => [word]
    else if word = name then rest
    else word :: without name rest

-- A text byte by byte, which is how command names are compared.
def byteChars (s : String) : List Char := s.toUTF8.toList.map fun b => Char.ofNat b.toNat

def isSuggested (typed : String) (c : Command) : Bool :=
  let typed := Text.lower typed
  c ≠ help && (Suggestion.editDistance (byteChars typed) (byteChars c.name) ≤ 2 ||
    Text.startsWith typed c.name)

def unknown (typed place : String) : String :=
  s!"unknown command {Text.quote typed} for {Text.quote place}"

def suggestions (typed : String) : String :=
  let names := (all.filter (isSuggested typed)).map name
  if names.isEmpty then ""
  else "\n\nDid you mean this?\n" ++ String.join (names.map fun n => s!"\t{n}\n")

-- The command that a command line names, if any, and the rest of the line.
def select (args : List String) : Except String (Option Command × List String) :=
  match wordsOf args with
  | [] => .ok (none, args)
  | typed :: _ =>
    match ofName? typed with
    | some c => .ok (some c, without typed args)
    | none => .error (unknown typed programName ++ suggestions typed)

-- What is wrong with the number of words.
def wordError? (c : Command) (words : List String) : Option String :=
  let count := words.length
  match c with
  | run | dis =>
    if count ≤ 1 then none else some s!"accepts at most 1 arg(s), received {count}"
  | eval =>
    if 1 ≤ count then none else some s!"requires at least 1 arg(s), only received {count}"
  | version => words.head?.map fun word => unknown word (programName ++ " " ++ c.name)
  | test | help | completion => none

end Command

end ScalarScript
