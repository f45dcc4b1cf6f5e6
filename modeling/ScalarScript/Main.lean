import ScalarScript.CommandLine.Execute
import ScalarScript.Text.Utf8
/-!
The program: it gives the commands the real files, environment and input, and prints what they
answer.
-/
namespace ScalarScript.Main

-- Paths are taken from the current directory on.
def look (path : String) : IO (Except FileFault FileKind) := do
  if let some fault := FileFault.ofPath? path then return .error fault
  let place := (← IO.currentDir) / path
  if !(← place.pathExists) then return .error .missing
  return .ok (if ← place.isDir then .directory else .file)

def names (path : String) : IO (List String) := do
  let entries ← ((← IO.currentDir) / path).readDir
  return Text.sorted (entries.toList.map (·.fileName))

def contents (path : String) : IO String := do
  return Text.decodeUtf8 (← IO.FS.readBinFile path).toList

def files : FileAccess IO where
  look := look
  names := names
  contents := contents
  depth := 4096

def environmentKeys : List String :=
  (Command.all.flatMap Command.flags).map fun f => Options.variableName f.name

def environment : IO (List (String × String)) := do
  let found ← environmentKeys.mapM fun key => do return (← IO.getEnv key).map (key, ·)
  return found.filterMap id

-- More steps than any machine can take.
def fuel : Nat := Nat.pow 2 62

def report (r : Response) : IO UInt32 := do
  IO.print r.output
  IO.eprint r.trace
  match r.error with
  | none => return 0
  | some (.reported f) =>
    IO.eprintln (f.render false)
    return 1
  | some (.plain message) =>
    IO.eprintln message
    return 1

def run (arguments : List String) : IO UInt32 := do
  let stdin ← IO.getStdin
  let input ← if arguments.any (Text.startsWith "--stdin") then
      pure (Text.decodeUtf8 (← stdin.readBinToEnd).toList)
    else pure ""
  let invocation : Invocation :=
    { arguments, environment := ← environment, home := ← IO.getEnv "HOME", input }
  match ← execute fuel files invocation with
  | none => return 1
  | some r => report r

end ScalarScript.Main

def main (arguments : List String) : IO UInt32 := ScalarScript.Main.run arguments
