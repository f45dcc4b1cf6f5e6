import ScalarScript.Document.Yaml.Scalar
import ScalarScript.Document.Yaml.Cursor
import ScalarScript.Text.Utf8
/-!
Names and tags in a YAML text: anchors, references, tags and directives.
-/
namespace ScalarScript.Yaml

-- Which of two constructs a tag stands in.
inductive TagPlace where
  | node | directive
  deriving DecidableEq

namespace Property

def takeName (c : Cursor) : String × Cursor :=
  let (name, c) := c.takeWhile isWordChar
  (String.ofList name, c)

-- The name of an anchor or a reference. The cursor is at its sign.
def readName (c : Cursor) : Except Fault (String × Cursor) :=
  let (name, behind) := takeName (c.skip 1)
  let ended := Cursor.wordEnds behind.rest ||
    behind.rest.head?.any ['?', ':', ',', ']', '\x7d', '%', '@', '`'].contains
  if name.isEmpty || !ended then
    .error (.scanning c.mark behind.mark "did not find expected alphabetic or numeric character")
  else .ok (name, behind)

def isUriChar (c : Char) : Bool :=
  isWordChar c || [';', '/', '?', ':', '@', '&', '=', '+', '$', '.', ',', '!', '~', '*', '\'', '(',
    ')', '[', ']', '%'].contains c

-- One octet, written as a percent sign and two digits.
def readOctet (start : Mark) (c : Cursor) : Except Fault (Nat × Cursor) :=
  match c.rest with
  | '%' :: a :: b :: _ =>
    match Quotation.hexNumber? [a, b] with
    | some n => .ok (n, c.skip 3)
    | none => .error (.scanning start c.mark "did not find URI escaped octet")
  | _ => .error (.scanning start c.mark "did not find URI escaped octet")

-- How many octets a character takes whose first octet is given.
def octetsOf? (first : Nat) : Option Nat :=
  if first < 0x80 then some 1
  else if first / 32 = 6 then some 2
  else if first / 16 = 14 then some 3
  else if first / 8 = 30 then some 4
  else none

def readTail (start : Mark) : Nat → Cursor → Except Fault (List UInt8 × Cursor)
  | 0, c => .ok ([], c)
  | count + 1, c => do
    let (octet, behind) ← readOctet start c
    if octet / 64 ≠ 2 then
      throw (.scanning start c.mark "found an incorrect trailing UTF-8 octet")
    let (octets, behind) ← readTail start count behind
    return (octet.toUInt8 :: octets, behind)

-- A character written as octets.
def readEscape (start : Mark) (c : Cursor) : Except Fault (List Char × Cursor) := do
  let (first, behind) ← readOctet start c
  match octetsOf? first with
  | none => throw (.scanning start c.mark "found an incorrect leading UTF-8 octet")
  | some count =>
    let (tail, behind) ← readTail start (count - 1) behind
    return ((Text.decodeUtf8 (first.toUInt8 :: tail)).toList, behind)

def readUriFrom (start : Mark) : Nat → List Char → Cursor → Except Fault (List Char × Cursor)
  | 0, uri, c => .ok (uri, c)
  | steps + 1, uri, c =>
    match c.rest with
    | [] => .ok (uri, c)
    | x :: _ =>
      if x == '%' then do
        let (escaped, c) ← readEscape start c
        readUriFrom start steps (uri ++ escaped) c
      else if isUriChar x then readUriFrom start steps (uri ++ [x]) (c.skip 1)
      else .ok (uri, c)

-- The rest of a tag of which some characters were read already.
def readUri (start : Mark) (read : List Char) (c : Cursor) : Except Fault (String × Cursor) := do
  let (uri, behind) ← readUriFrom start (c.rest.length + 1) (read.drop 1) c
  if read.isEmpty && behind.mark.index = c.mark.index then
    throw (.scanning start c.mark "did not find expected tag URI")
  return (String.ofList uri, behind)

-- A handle: a name between two exclamation marks, or what may be the beginning of a tag.
def readHandle (place : TagPlace) (start : Mark) (c : Cursor) :
    Except Fault (List Char × Cursor) := do
  if !c.atChar '!' then throw (.scanning start c.mark "did not find expected '!'")
  let (name, behind) := (c.skip 1).takeWhile isWordChar
  if behind.atChar '!' then return ('!' :: name ++ ['!'], behind.skip 1)
  if place = .directive && !name.isEmpty then
    throw (.scanning start behind.mark "did not find expected '!'")
  return ('!' :: name, behind)

-- The handle and the suffix of a tag that is not written out.
def readShortTag (c : Cursor) : Except Fault (String × String × Cursor) := do
  let (handle, behind) ← readHandle .node c.mark c
  if 1 < handle.length && handle.getLast? = some '!' then
    let (suffix, behind) ← readUri c.mark [] behind
    return (String.ofList handle, suffix, behind)
  else
    let (suffix, behind) ← readUri c.mark handle behind
    return if suffix.isEmpty then ("", "!", behind) else ("!", suffix, behind)

def readFullTag (c : Cursor) : Except Fault (String × String × Cursor) := do
  let (uri, behind) ← readUri c.mark [] (c.skip 2)
  if !behind.atChar '>' then
    throw (.scanning c.mark behind.mark "did not find the expected '>'")
  return ("", uri, behind.skip 1)

-- The handle and the suffix of a tag. The cursor is at its sign.
def readTag (c : Cursor) : Except Fault (String × String × Cursor) := do
  let (handle, suffix, behind) ←
    if (c.rest.drop 1).head? == some '<' then readFullTag c else readShortTag c
  if !Cursor.wordEnds behind.rest then
    throw (.scanning c.mark behind.mark "did not find expected whitespace or line break")
  return (handle, suffix, behind)

-- One part of a version number.
def readVersionPart (start : Mark) (c : Cursor) : Except Fault (Nat × Cursor) :=
  let (digits, behind) := c.takeWhile Char.isDigit
  if 2 < digits.length then
    .error (.scanning start (c.skip 2).mark "found extremely long version number")
  else if digits.isEmpty then
    .error (.scanning start c.mark "did not find expected version number")
  else .ok (digits.foldl (fun n d => n * 10 + (d.toNat - 48)) 0, behind)

def readVersion (start : Mark) (c : Cursor) : Except Fault (TokenKind × Cursor) := do
  let (major, c) ← readVersionPart start c.skipBlanks
  if !c.atChar '.' then
    throw (.scanning start c.mark "did not find expected digit or '.' character")
  let (minor, c) ← readVersionPart start (c.skip 1)
  return (.version major minor, c)

def readTagDirective (start : Mark) (c : Cursor) : Except Fault (TokenKind × Cursor) := do
  let (handle, c) ← readHandle .directive start c.skipBlanks
  if !c.atBlank then throw (.scanning start c.mark "did not find expected whitespace")
  let (expansion, c) ← readUri start [] c.skipBlanks
  if !Cursor.wordEnds c.rest then
    throw (.scanning start c.mark "did not find expected whitespace or line break")
  return (.tagDirective (String.ofList handle) expansion, c)

-- A directive to the end of its line. The cursor is at its sign.
def readDirective (c : Cursor) : Except Fault (TokenKind × Cursor) := do
  let start := c.mark
  let (name, c) := takeName (c.skip 1)
  if name.isEmpty then throw (.scanning start c.mark "could not find expected directive name")
  if !Cursor.wordEnds c.rest then
    throw (.scanning start c.mark "found unexpected non-alphabetical character")
  let (kind, c) ← match name with
    | "YAML" => readVersion start c
    | "TAG" => readTagDirective start c
    | _ => throw (.scanning start c.mark "found unknown directive name")
  return (kind, ← Block.endHeader start c)

end Property

end ScalarScript.Yaml
