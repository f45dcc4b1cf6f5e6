import ScalarScript.Text.Blank
import ScalarScript.Text.Cut
/-!
Documents of assignments to variables, one on each line: a name, an equals sign or a colon, and a
value, which may be in quotes and may refer to other variables.
-/
namespace ScalarScript.Assignments

inductive Fault where
  | missingQuotes
  | unset (line : String)
  | malformed (line : String)
  deriving DecidableEq, Repr

def Fault.text : Fault → String
  | missingQuotes => "missing quotes"
  | unset line => s!"line `{line}` has an unset variable"
  | malformed line => s!"line `{line}` doesn't match format"

-- The variables that were assigned, the newest first.
abbrev Variables := List (String × String)

-- Lines end with a line feed, a carriage return or both.
def lines : List Char → List Char → List (List Char)
  | read, [] => if read.isEmpty then [] else [read.reverse]
  | read, '\r' :: '\n' :: rest => read.reverse :: lines [] rest
  | read, c :: rest =>
    if c = '\n' || c = '\r' then read.reverse :: lines [] rest else lines (c :: read) rest

def isSpace (c : Char) : Bool := [' ', '\t', '\n', '\r', '\x0c'].contains c

def isNameChar (c : Char) : Bool := c.isAlphanum || c == '_' || c == '.'

-- What stands before the last quote and what behind it.
def splitLast (quote : Char) (cs : List Char) : Option (List Char × List Char) :=
  match cs.reverse.dropWhile (· ≠ quote) with
  | [] => none
  | _ :: before => some (before.reverse, (cs.reverse.takeWhile (· ≠ quote)).reverse)

-- The quote that a line opens and does not close. A quote behind a backslash closes nothing.
def openQuote? (line : List Char) : Option Char := do
  let mark := if line.contains '=' then '=' else ':'
  guard (line.contains mark && line.head? ≠ some mark && (line.dropWhile (· ≠ mark)).length ≠ 1)
  let value := Text.trimChars ((line.dropWhile (· ≠ mark)).drop 1)
  let quote ← value.head?
  guard (quote = '"' || quote = '\'')
  match splitLast quote (Text.trimChars (value.drop 1)) with
  | none => return quote
  | some (before, _) =>
    guard (value.getD before.length ' ' = '\\')
    return quote

-- Whether a further line closes a quote.
def closes (quote : Char) (line : List Char) : Bool :=
  match splitLast quote line with
  | none => false
  | some (before, _) => before.getLast? ≠ some '\\'

-- Takes further lines until the quote is closed.
def joinLines (quote : Char) (line : List Char) :
    List (List Char) → Except Fault (List Char × List (List Char))
  | [] => .error .missingQuotes
  | next :: rest =>
    let line := line ++ '\n' :: next
    if closes quote next then .ok (line, rest) else joinLines quote line rest

-- Whether nothing but a comment follows.
def isOver (cs : List Char) : Bool :=
  match cs.dropWhile isSpace with
  | [] => true
  | '#' :: rest => !rest.contains '\n'
  | _ => false

-- The longest text that ends with the quote and has nothing but a comment behind it. The
-- characters are given from the last one on.
def quoted? (quote : Char) (behind : List Char) : List Char → Option (List Char)
  | [] => none
  | c :: before =>
    if c = quote && !before.isEmpty && isOver behind then some (c :: before).reverse
    else quoted? quote (c :: behind) before

-- The value at the head of the characters, where nothing but a comment follows it.
def value? (cs : List Char) : Option (List Char) :=
  let inQuotes := match cs with
    | '\'' :: _ => quoted? '\'' [] cs.reverse
    | '"' :: _ => quoted? '"' [] cs.reverse
    | _ => none
  let plain := cs.takeWhile fun c => c ≠ '#' && c ≠ '\n'
  inQuotes <|> (if isOver (cs.drop plain.length) then some plain else none)

-- The value behind a name.
def assigned? (cs : List Char) : Option (List Char) :=
  match cs.dropWhile isSpace with
  | '=' :: rest => value? (rest.dropWhile isSpace)
  | _ =>
    match cs with
    | ':' :: c :: rest => if isSpace c then value? rest else none
    | _ => none

-- The name at the head of the characters and its value.
def named? (cs : List Char) : Option (String × List Char) := do
  let name := cs.takeWhile isNameChar
  guard !name.isEmpty
  return (String.ofList name, ← assigned? (cs.drop name.length))

-- A line with an assignment, perhaps with a word before it that has no meaning here.
def split? (line : List Char) : Option (String × List Char) :=
  let cs := line.dropWhile isSpace
  let word := "export".toList
  let behind := cs.drop word.length
  let marked := if word.isPrefixOf cs && behind.head?.any isSpace then
      named? (behind.dropWhile isSpace)
    else none
  marked <|> named? cs

-- Replaces a backslash and a letter by one character.
def replacePair (letter replacement : Char) : List Char → List Char
  | '\\' :: c :: rest =>
    if c = letter then replacement :: replacePair letter replacement rest
    else '\\' :: replacePair letter replacement (c :: rest)
  | c :: rest => c :: replacePair letter replacement rest
  | [] => []

-- Takes backslashes away, except before a dollar sign.
def unescape : List Char → List Char
  | '\\' :: c :: rest => if c = '$' then '\\' :: unescape (c :: rest) else c :: unescape rest
  | c :: rest => c :: unescape rest
  | [] => []

def isVariableChar (c : Char) : Bool := c.isUpper || c.isDigit || c == '_'

-- What stands behind a dollar sign: the whole reference, the name in it and the rest.
def reference (cs : List Char) : List Char × List Char × List Char :=
  let (opening, cs) := match cs with
    | '\x7b' :: rest => (['\x7b'], rest)
    | cs => ([], cs)
  let name := cs.takeWhile isVariableChar
  let cs := cs.drop name.length
  match cs with
  | '\x7d' :: rest => (opening ++ name ++ ['\x7d'], name, rest)
  | cs => (opening ++ name, name, cs)

-- Replaces references to variables by their values. A backslash protects a dollar sign.
def expand (lookup : String → String) : Nat → List Char → List Char
  | 0, cs => cs
  | _, [] => []
  | steps + 1, '\\' :: '$' :: rest =>
    let (whole, _, rest) := reference rest
    '$' :: whole ++ expand lookup steps rest
  | steps + 1, '$' :: rest =>
    let (whole, name, rest) := reference rest
    let value := if name.isEmpty then '$' :: whole else (lookup (String.ofList name)).toList
    value ++ expand lookup steps rest
  | steps + 1, c :: rest => c :: expand lookup steps rest

-- The characters between quotes of a kind, if there are such quotes.
def within? (quote : Char) (cs : List Char) : Option (List Char) :=
  if 2 ≤ cs.length && cs.head? = some quote && cs.getLast? = some quote then
    some (cs.drop 1).dropLast
  else none

-- What a written value stands for. The environment goes before the document's own variables.
def meaning (environment : List (String × String)) (vars : Variables) (written : List Char) :
    String :=
  let lookup (name : String) : String :=
    (environment.lookup name <|> vars.lookup name).getD ""
  let value := Text.trimChars written
  match within? '\'' value, within? '"' value with
  | some inner, _ => String.ofList inner
  | none, some inner =>
    let inner := unescape (replacePair 'r' '\r' (replacePair 'n' '\n' inner))
    String.ofList (expand lookup inner.length inner)
  | none, none => String.ofList (expand lookup value.length value)

-- Why a line is no assignment.
def faultOf (vars : Variables) (line : List Char) : Fault :=
  let s := String.ofList line
  let unknown := match Text.cut? ' ' s with
    | some (_, name) => (vars.lookup name).isNone
    | none => false
  if Text.startsWith "export" s && unknown then .unset s else .malformed s

def readLines (environment : List (String × String)) (vars : Variables) :
    Nat → List (List Char) → Except Fault Variables
  | 0, _ | _, [] => .ok vars
  | steps + 1, line :: rest => do
    let line := Text.trimChars line
    if line.isEmpty || line.head? = some '#' then readLines environment vars steps rest
    else
      let (line, rest) ← match openQuote? line with
        | some quote => joinLines quote line rest
        | none => pure (line, rest)
      match split? line with
      | none => throw (faultOf vars line)
      | some (name, value) =>
        readLines environment ((name, meaning environment vars value) :: vars) steps rest

-- The variables that a text assigns to.
def contents (environment : List (String × String)) (text : String) : Except Fault Variables :=
  let cs := match text.toList with
    | c :: rest => if c.toNat = 0xFEFF then rest else c :: rest
    | [] => []
  let lines := lines [] cs
  readLines environment [] lines.length lines

end ScalarScript.Assignments
