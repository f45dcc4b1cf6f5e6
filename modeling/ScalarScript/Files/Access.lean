import ScalarScript.Text.Cut
/-!
Paths, which are names separated by slashes, and access to files. A file system is known by what it
says about paths.
-/
namespace ScalarScript

namespace Path

-- Adds a name to the way so far, innermost first. Two points take one name back.
def enter (rooted : Bool) (way : List String) (name : String) : List String :=
  if name = "" || name = "." then way
  else if name = ".." then
    match way with
    | [] => if rooted then [] else [name]
    | last :: rest => if last = ".." then name :: way else rest
  else name :: way

def names (path : String) : List String := Text.splitText '/' path

def isRooted (path : String) : Bool := Text.startsWith "/" path

-- The shortest path to the same place.
def clean (path : String) : String :=
  let rooted := isRooted path
  let way := "/".intercalate ((names path).foldl (enter rooted) []).reverse
  if rooted then "/" ++ way else if way.isEmpty then "." else way

def join (directory name : String) : String :=
  clean (if directory.isEmpty then name else directory ++ "/" ++ name)

-- The most bytes of a name and of a whole path.
def longestName : Nat := 255

def longestPath : Nat := 4095

-- The last name of a path.
def base (path : String) : String :=
  match ((names path).filter (!·.isEmpty)).getLast? with
  | some name => name
  | none => if path.isEmpty then "." else "/"

end Path

inductive FileKind where
  | file | directory
  deriving DecidableEq, Repr

inductive FileFault where
  | missing | notDirectory | isDirectory | malformed | tooLong
  deriving DecidableEq, Repr

def FileFault.text : FileFault → String
  | missing => "no such file or directory"
  | notDirectory => "not a directory"
  | isDirectory => "is a directory"
  | malformed => "invalid argument"
  | tooLong => "file name too long"

-- What is wrong with a path by itself, wherever it may lead.
def FileFault.ofPath? (path : String) : Option FileFault :=
  if path.contains '\x00' then some .malformed
  else if path.isEmpty then some .missing
  else if Path.longestPath < path.utf8ByteSize then some .tooLong
  else none

structure FileAccess (m : Type → Type) where
  look : String → m (Except FileFault FileKind)
  -- the names in a directory, sorted
  names : String → m (List String)
  -- the text of a file
  contents : String → m String
  -- directories are not nested deeper than this
  depth : Nat

namespace FileAccess

variable {m : Type → Type} [Monad m]

-- The text at a path, or why there is none.
def read (files : FileAccess m) (path : String) : m (Except String String) := do
  match ← files.look path with
  | .ok .file => return .ok (← files.contents path)
  | .ok .directory => return .error s!"read {path}: {FileFault.isDirectory.text}"
  | .error fault => return .error s!"open {path}: {fault.text}"

-- Every file below a directory. Directories are gone into where they stand among the names.
def walk (files : FileAccess m) : Nat → String → m (List String)
  | 0, _ => return []
  | depth + 1, directory => do
    let found ← (← files.names directory).mapM fun name => do
      let path := Path.join directory name
      match ← files.look path with
      | .ok .directory => files.walk depth path
      | .ok .file => return [path]
      | .error _ => return []
    return found.flatten

end FileAccess

end ScalarScript
