import ScalarScript.Files.Access
import ScalarScript.Text.Sorted
/-!
Folders: a file tree given as a whole, seen from its root directory.
-/
namespace ScalarScript

-- Ways are lists of names, innermost first; the root has the empty way.
structure Folder where
  files : List (List String × String) := []
  directories : List (List String) := [[]]
  deriving Repr

namespace Folder

-- The way itself and the ways of all directories around it.
def around : List String → List (List String)
  | [] => [[]]
  | name :: way => (name :: way) :: around way

-- Outside the root there are the directories around it, and nothing is known of what they hold.
def kind? (f : Folder) (way : List String) : Option FileKind :=
  if !way.isEmpty && way.all (· = "..") then some .directory
  else if (f.files.lookup way).isSome then some .file
  else if f.directories.contains way then some .directory
  else none

-- Where rooted paths begin.
def outermost : List String := [".."]

-- Goes on by one name, which only a directory allows.
def enter (f : Folder) (way : List String) (name : String) : Except FileFault (List String) :=
  match f.kind? way with
  | none => .error .missing
  | some .file => .error .notDirectory
  | some .directory =>
    if Path.longestName < name.utf8ByteSize then .error .tooLong
    else .ok (Path.enter false way name)

def locate (f : Folder) (path : String) : Except FileFault (List String × FileKind) := do
  if let some fault := FileFault.ofPath? path then throw fault
  let start := if Path.isRooted path then outermost else []
  let way ← (Path.names path).foldlM f.enter start
  match f.kind? way with
  | some kind => return (way, kind)
  | none => throw .missing

-- Adds a file with its text; a path that ends in a slash is only a directory.
def insert (f : Folder) (path text : String) : Folder :=
  let way := (Path.names path).foldl (Path.enter true) []
  if Text.endsWith "/" path then { f with directories := around way ++ f.directories }
  else
    { files := (way, text) :: f.files, directories := around way.tail ++ f.directories }

def ofFiles (files : List (String × String)) : Folder :=
  files.foldl (fun f (path, text) => f.insert path text) {}

def childrenOf (way : List String) (ways : List (List String)) : List String :=
  ways.filterMap fun
    | name :: rest => if rest = way then some name else none
    | [] => none

def access (f : Folder) : FileAccess Id where
  look path := pure ((f.locate path).map (·.2))
  names path := match f.locate path with
    | .ok (way, _) => pure (Text.sorted (childrenOf way (f.files.map (·.1) ++ f.directories)))
    | .error _ => pure []
  contents path := match f.locate path with
    | .ok (way, _) => pure ((f.files.lookup way).getD "")
    | .error _ => pure ""
  depth := f.directories.length

end Folder

end ScalarScript
