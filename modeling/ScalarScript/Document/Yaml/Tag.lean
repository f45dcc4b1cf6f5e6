import ScalarScript.Document.Datum
import ScalarScript.Document.Moment
import ScalarScript.Document.Yaml.Cursor
import ScalarScript.Number.Integer
import ScalarScript.Text.Base64
import ScalarScript.Text.Utf8
/-!
Tags: the kinds of YAML nodes, and what a scalar denotes under each of them.
-/
namespace ScalarScript.Yaml

namespace Tag

def text : String := "!!str"

def bool : String := "!!bool"

def integer : String := "!!int"

def float : String := "!!float"

def null : String := "!!null"

def timestamp : String := "!!timestamp"

def binary : String := "!!binary"

def merge : String := "!!merge"

def list : String := "!!seq"

def table : String := "!!map"

-- The names that the standard tags have in common.
def standard : String := "tag:yaml.org,2002:"

def short (tag : String) : String :=
  if Text.startsWith standard tag then "!!" ++ Text.withoutStart standard tag else tag

-- Whether a scalar with the tag is looked at. Others are the texts they are.
def isResolved (tag : String) : Bool :=
  ["", text, bool, integer, float, null, timestamp].contains tag

end Tag

namespace Timestamp

-- A number of one or two digits.
def number : List Char → Option (Nat × List Char)
  | a :: b :: rest =>
    if !a.isDigit then none
    else if b.isDigit then some ((a.toNat - 48) * 10 + (b.toNat - 48), rest)
    else some (a.toNat - 48, b :: rest)
  | [a] => if a.isDigit then some (a.toNat - 48, []) else none
  | [] => none

def sign (c : Char) : List Char → Option (List Char)
  | x :: rest => if x = c then some rest else none
  | [] => none

def date? (cs : List Char) : Option (Date × List Char) := do
  let digits := cs.takeWhile Char.isDigit
  guard (digits.length = 4)
  let year := digits.foldl (fun n d => n * 10 + (d.toNat - 48)) 0
  let (month, rest) ← number (← sign '-' (cs.drop 4))
  let (day, rest) ← number (← sign '-' rest)
  let date : Date := ⟨year, month, day⟩
  guard date.isValid
  return (date, rest)

-- The digits behind a point or a comma, where there are some.
def fraction (cs : List Char) : List Char × List Char :=
  match cs with
  | mark :: rest =>
    let digits := rest.takeWhile Char.isDigit
    if (mark = '.' || mark = ',') && !digits.isEmpty then (digits, rest.drop digits.length)
    else ([], cs)
  | [] => ([], [])

def clock? (cs : List Char) : Option (Clock × List Char) := do
  let (hour, rest) ← number cs
  let (minute, rest) ← number (← sign ':' rest)
  let (second, rest) ← number (← sign ':' rest)
  let (digits, rest) := fraction rest
  let clock : Clock := ⟨hour, minute, second, Clock.nanoseconds digits⟩
  guard clock.isValid
  return (clock, rest)

-- How many minutes ahead of the universal time: a sign, two digits, a colon and two digits.
def zone? : List Char → Option Int
  | ['Z'] => some 0
  | [direction, a, b, ':', c, d] => do
    guard (direction = '+' || direction = '-')
    guard ([a, b, c, d].all Char.isDigit)
    let (hours, _) ← number [a, b]
    let (minutes, _) ← number [c, d]
    guard (hours ≤ 24 && minutes ≤ 60)
    let ahead : Int := hours * 60 + minutes
    return if direction = '-' then -ahead else ahead
  | _ => none

def parse? (s : String) : Option Moment := do
  let (date, rest) ← date? s.toList
  match rest with
  | [] => return { date }
  | mark :: rest =>
    if mark = 'T' || mark = 't' then
      let (clock, rest) ← clock? rest
      return { date, clock, ahead := ← zone? rest }
    else
      guard (mark = ' ')
      let (clock, rest) ← clock? (rest.dropWhile (· = ' '))
      guard rest.isEmpty
      return { date, clock }

end Timestamp

namespace Scalar

def infinity : Float := 1.0 / 0.0

def words : List (String × String × Datum) :=
  ["true", "True", "TRUE"].map (·, Tag.bool, Datum.bool true) ++
  ["false", "False", "FALSE"].map (·, Tag.bool, Datum.bool false) ++
  ["", "~", "null", "Null", "NULL"].map (·, Tag.null, Datum.null) ++
  [".nan", ".NaN", ".NAN"].map (·, Tag.float, Datum.float (0.0 / 0.0)) ++
  [".inf", ".Inf", ".INF", "+.inf", "+.Inf", "+.INF"].map (·, Tag.float, Datum.float infinity) ++
  ["-.inf", "-.Inf", "-.INF"].map (·, Tag.float, Datum.float (-infinity))

-- A whole number whose base is marked by two characters, perhaps behind a minus sign.
def marked? (mark : String) (base : Nat) (s : String) : Option Int :=
  if Text.startsWith mark s then
    let digits := Text.withoutStart mark s
    Number.parseIn? base digits <|> (Number.magnitudeIn? base digits.toList).map Int.ofNat
  else if Text.startsWith ("-" ++ mark) s then
    Number.parseIn? base ("-" ++ Text.withoutStart ("-" ++ mark) s)
  else none

def integer? (s : String) : Option Int :=
  (Number.parseInteger s).toOption <|> (Number.parseNatural? s).map Int.ofNat

def decimal? (s : String) : Option Float := do
  let n ← Number.Numeral.parse? s
  guard !n.binary
  n.toFloat?

-- A number, underscores aside.
def number? (s : String) : Option (String × Datum) :=
  let plain := String.ofList (s.toList.filter (· ≠ '_'))
  let whole (n : Int) := (Tag.integer, Datum.integer n)
  (integer? plain).map whole <|>
  (decimal? plain).map (fun x => (Tag.float, .float x)) <|>
  (marked? "0b" 2 plain <|> marked? "0o" 8 plain).map whole

-- The tag of an untagged word and what it denotes. The first character tells what it may be.
def denoted (timed : Bool) (s : String) : String × Datum :=
  let found : Option (String × Datum) := match s.toList.head? with
    | none => words.lookup s
    | some c =>
      if c.isDigit || c = '+' || c = '-' then
        let moment := if timed then Timestamp.parse? s else none
        words.lookup s <|> moment.map (fun m => (Tag.timestamp, .moment m.shown)) <|> number? s
      else if c = '.' then
        words.lookup s <|> (Number.parse? s).map fun x => (Tag.float, .float x)
      else words.lookup s
  found.getD (Tag.text, .text s)

-- What a scalar with a tag denotes, and the tag it turns out to have.
def resolve (tag s : String) : Except Fault (String × Datum) :=
  if !Tag.isResolved tag then .ok (tag, .text s)
  else if tag = Tag.text then .ok (tag, .text s)
  else
    let (found, datum) := denoted (tag = "" || tag = Tag.timestamp) s
    let refused := .error (.other s!"cannot decode {found} `{s}` as a {tag}")
    if tag = "" || tag = found then .ok (found, datum)
    else match datum with
      | .integer n =>
        if tag = Tag.float && n < Nat.pow 2 63 then .ok (tag, .float (Number.ofInt n)) else refused
      | _ => refused

-- The datum of a scalar. Bytes that are written as letters make a text.
def datum (tag s : String) : Except Fault Datum := do
  let (found, datum) ← resolve tag s
  if found = Tag.binary then
    match Text.decodeBase64? s with
    | some bytes => return .text (Text.decodeUtf8 bytes)
    | none => throw (.other "!!binary value contains invalid base64 data")
  return datum

end Scalar

end ScalarScript.Yaml
