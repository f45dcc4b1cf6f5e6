import ScalarScript.Files.Access
import ScalarScript.Text.Utf8
/-!
Wildcards in file names. A star stands for any characters, a question mark for one, brackets for
one of a set, and a backslash takes the next character as it is.
-/
namespace ScalarScript

inductive WildItem where
  | byte (b : UInt8)
  | one
  | many
  | set (negated : Bool) (ranges : List (Char × Char))
  deriving DecidableEq, Repr

namespace Wildcard

def isSpecial (c : Char) : Bool := c == '*' || c == '?' || c == '[' || c == '\\'

-- Whether a text has to be matched at all, or is a plain name.
def isWild (s : String) : Bool := s.toList.any isSpecial

-- One end of a range. A set cannot end right after it.
def parseEnd : List Char → Option (Char × List Char)
  | '\\' :: c :: d :: rest => some (c, d :: rest)
  | c :: d :: rest => if c = '-' || c = ']' || c = '\\' then none else some (c, d :: rest)
  | _ => none

-- The ranges of a set up to its end; `filled` tells that there is one already.
def parseRanges : Nat → Bool → List Char → Option (List (Char × Char) × List Char)
  | 0, _, _ => none
  | steps + 1, filled, cs => do
    match filled, cs with
    | true, ']' :: rest => return ([], rest)
    | _, cs =>
      let (low, rest) ← parseEnd cs
      let (high, rest) ← match rest with
        | '-' :: rest => parseEnd rest
        | rest => some (low, rest)
      let (ranges, rest) ← parseRanges steps true rest
      return ((low, high) :: ranges, rest)

def parseSet (cs : List Char) : Option (WildItem × List Char) := do
  let (negated, cs) := match cs with
    | '^' :: rest => (true, rest)
    | cs => (false, cs)
  let (ranges, rest) ← parseRanges cs.length false cs
  return (.set negated ranges, rest)

-- A character that stands for itself, byte by byte.
def literal (c : Char) : List WildItem := (String.singleton c).toUTF8.toList.map .byte

def parseFrom : Nat → List Char → Option (List WildItem)
  | 0, _ | _, [] => some []
  | steps + 1, c :: rest => do
    match c, rest with
    | '*', rest => return .many :: (← parseFrom steps rest)
    | '?', rest => return .one :: (← parseFrom steps rest)
    | '[', rest =>
      let (item, rest) ← parseSet rest
      return item :: (← parseFrom steps rest)
    | '\\', [] => none
    | '\\', c :: rest => return literal c ++ (← parseFrom steps rest)
    | c, rest => return literal c ++ (← parseFrom steps rest)

def parse? (s : String) : Option (List WildItem) := parseFrom s.length s.toList

-- The character at the head of a name, and what follows it.
def splitHead (bytes : List UInt8) : Char × List UInt8 :=
  match Text.headChar? bytes with
  | some (c, width) => (c, bytes.drop width)
  | none => (Text.replacement, bytes.drop 1)

def slash : UInt8 := 47

def inRanges (ranges : List (Char × Char)) (c : Char) : Bool :=
  ranges.any fun (low, high) => low ≤ c && c ≤ high

-- What is left of a name whose beginning matches items without a star.
def matchItems : List WildItem → List UInt8 → Option (List UInt8)
  | [], bytes => some bytes
  | item :: items, b :: bytes =>
    let (c, rest) := splitHead (b :: bytes)
    match item with
    | .byte a => if a == b then matchItems items bytes else none
    | .one | .many => if b == slash then none else matchItems items rest
    | .set negated ranges => if inRanges ranges c != negated then matchItems items rest else none
  | _ :: _, [] => none

-- A stretch of items without a star, perhaps behind one.
structure Stretch where
  starred : Bool
  items : List WildItem

-- The stretches between the stars; several stars in a row count as one.
def stretches : List WildItem → List Stretch
  | [] => []
  | .many :: items =>
    match stretches items with
    | ⟨false, head⟩ :: rest => ⟨true, head⟩ :: rest
    | rest => if rest.isEmpty then [⟨true, []⟩] else rest
  | item :: items =>
    match stretches items with
    | ⟨false, head⟩ :: rest => ⟨false, item :: head⟩ :: rest
    | rest => ⟨false, [item]⟩ :: rest

-- What is left behind the first place where a stretch matches. The last stretch has to match to
-- the end. A star skips bytes, so a match may begin inside a character.
def matchStretch (s : Stretch) (last : Bool) : List UInt8 → Option (List UInt8)
  | [] => matchItems s.items []
  | b :: bytes =>
    match matchItems s.items (b :: bytes) with
    | some rest =>
      if rest.isEmpty || !last then some rest
      else if s.starred && b != slash then matchStretch s last bytes
      else none
    | none => if s.starred && b != slash then matchStretch s last bytes else none

def matchStretches : List Stretch → List UInt8 → Bool
  | [], bytes => bytes.isEmpty
  | s :: rest, bytes =>
    if s.starred && s.items.isEmpty then !bytes.contains slash
    else match matchStretch s rest.isEmpty bytes with
      | some bytes => matchStretches rest bytes
      | none => false

-- Whether the items match a whole name.
def matchName (items : List WildItem) (name : String) : Bool :=
  matchStretches (stretches items) name.toUTF8.toList

end Wildcard

namespace FileAccess

variable {m : Type → Type} [Monad m]

-- The paths in a directory whose names match.
def matching (files : FileAccess m) (items : List WildItem) (directory : String) :
    m (List String) := do
  match ← files.look directory with
  | .ok .directory =>
    let names := (← files.names directory).filter (Wildcard.matchName items)
    return names.map (Path.join directory)
  | _ => return []

-- The path of the names given, the last first.
def pathOf (names : List String) : String :=
  match names with
  | [] => "."
  | [""] => "/"
  | names => "/".intercalate names.reverse

-- The paths that match names with wildcards, the last name first; none where one is malformed.
def expand (files : FileAccess m) : List String → m (Option (List String))
  | [] => return some []
  | name :: outer => do
    match Wildcard.parse? (pathOf (name :: outer)), Wildcard.parse? name with
    | some _, some items =>
      if Wildcard.isWild (pathOf outer) then
        match ← files.expand outer with
        | none => return none
        | some directories => return some (← directories.mapM (files.matching items)).flatten
      else return some (← files.matching items (pathOf outer))
    | _, _ => return none

def glob (files : FileAccess m) (pattern : String) : m (Option (List String)) :=
  files.expand (Path.names pattern).reverse

end FileAccess

end ScalarScript
