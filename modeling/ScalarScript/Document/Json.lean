import ScalarScript.Document.Datum
import ScalarScript.Number.Numeral
import ScalarScript.Text.Utf8
/-!
Reading JSON documents.
-/
namespace ScalarScript.JsonDocument

inductive Fault where
  | unexpected (c : Char) (context : String)
  | ended
  -- the whole text is well-formed, but not what it should be
  | unfit (kind wanted : String)
  deriving DecidableEq, Repr

namespace Fault

-- A character between single quotes. Of a character with several bytes only the first one counts.
def quoted (c : Char) : String :=
  Text.quoteChar (Text.leadByte c)

def text : Fault → String
  | unexpected c context => s!"invalid character {quoted c} {context}"
  | ended => "unexpected end of JSON input"
  | unfit kind wanted => s!"json: cannot unmarshal {kind} into Go value of type {wanted}"

end Fault

structure Source where
  rest : List Char
  -- the first number that no double can hold
  tooLarge : Option String := none

abbrev Parse := EStateM Fault Source

def unexpected {α : Type} (c : Char) (context : String) : Parse α := throw (.unexpected c context)

def advance : Parse Unit := modify fun s => { s with rest := s.rest.tail }

-- The next character inside a word or a number. The end counts as a blank there.
def peek : Parse Char := return (← get).rest.headD ' '

def isBlank (c : Char) : Bool := c == ' ' || c == '\t' || c == '\r' || c == '\n'

-- The next character behind blanks.
def peekPast : Parse Char := do
  modify fun s => { s with rest := s.rest.dropWhile isBlank }
  match (← get).rest with
  | c :: _ => return c
  | [] => throw .ended

-- A word whose first letter was seen.
def word (whole : String) (d : Datum) : List Char → Parse Datum
  | [] => return d
  | c :: expected => do
    let found ← peek
    if found ≠ c then unexpected found s!"in literal {whole} (expecting '{c}')"
    advance
    word whole d expected

def takeDigits : Parse (List Char) := do
  let digits := (← get).rest.takeWhile Char.isDigit
  modify fun s => { s with rest := s.rest.drop digits.length }
  return digits

-- Digits, of which there has to be one.
def someDigits (context : String) : Parse (List Char) := do
  let c ← peek
  if c.isDigit then takeDigits else unexpected c context

-- A character that may be there or not.
def option (test : Char → Bool) : Parse (List Char) := do
  let c ← peek
  if test c && !(← get).rest.isEmpty then
    advance
    return [c]
  else return []

-- The digits before the point. A zero stands alone.
def wholeDigits : Parse (List Char) := do
  if (← peek) = '0' then
    advance
    return ['0']
  else someDigits "in numeric literal"

def fraction : Parse (List Char) := do
  let point ← option (· == '.')
  if point.isEmpty then return []
  return point ++ (← someDigits "after decimal point in numeric literal")

def power : Parse (List Char) := do
  let mark ← option fun c => c == 'e' || c == 'E'
  if mark.isEmpty then return []
  let sign ← option fun c => c == '+' || c == '-'
  return mark ++ sign ++ (← someDigits "in exponent of numeric literal")

def number : Parse Datum := do
  let sign ← option (· == '-')
  let whole ← wholeDigits
  let fraction ← fraction
  let s := String.ofList (sign ++ whole ++ fraction ++ (← power))
  match Number.parse? s with
  | some x => return .float x
  | none =>
    modify fun source => { source with tooLarge := source.tooLarge <|> some s }
    return .null

def named (c : Char) : Option Nat :=
  [('b', 8), ('f', 12), ('n', 10), ('r', 13), ('t', 9), ('\\', 92), ('/', 47), ('"', 34)].lookup c

-- Four hexadecimal digits.
def unit : Nat → Nat → Parse Nat
  | 0, n => return n
  | count + 1, n => do
    let c ← peek
    match Number.digitValue? true c with
    | some d =>
      advance
      unit count (n * 16 + d)
    | none => unexpected c "in \\u hexadecimal character escape"

-- The units of a text: characters, and halves of characters that are written as two escapes.
def joinUnits : List Nat → List Char
  | [] => []
  | high :: low :: rest =>
    if 0xD800 ≤ high && high < 0xDC00 && 0xDC00 ≤ low && low < 0xE000 then
      Char.ofNat (0x10000 + (high - 0xD800) * 1024 + (low - 0xDC00)) :: joinUnits rest
    else joinUnit high :: joinUnits (low :: rest)
  | [one] => [joinUnit one]
where
  -- a half alone has no meaning
  joinUnit (n : Nat) : Char := if n.isValidChar then Char.ofNat n else Char.ofNat 0xFFFD

-- The units of a text up to its closing quote, the last first.
def units (read : List Nat) : Nat → Parse (List Nat)
  | 0 => throw .ended
  | steps + 1 => do
    match (← get).rest with
    | [] => throw .ended
    | '"' :: _ =>
      advance
      return read
    | '\\' :: _ =>
      advance
      let c ← peek
      if c = 'u' then
        advance
        units ((← unit 4 0) :: read) steps
      else match named c with
        | some n =>
          advance
          units (n :: read) steps
        | none => unexpected c "in string escape code"
    | c :: _ =>
      if c < ' ' then unexpected c "in string literal"
      advance
      units (c.toNat :: read) steps

-- A text whose first quote is next.
def text : Parse String := do
  advance
  let read ← units [] ((← get).rest.length + 1)
  return String.ofList (joinUnits read.reverse)

def deepest : Nat := 10000

mutual

-- A value inside that many collections.
def value (depth : Nat) : Nat → Parse Datum
  | 0 => throw .ended
  | steps + 1 => do
    let c ← peekPast
    let enter : Parse Char := do
      if deepest ≤ depth then unexpected c "exceeded max depth"
      advance
      peekPast
    match c with
    | '\x7b' =>
      if (← enter) = '\x7d' then
        advance
        return .table true []
      return .table true (← members depth [] steps)
    | '[' =>
      if (← enter) = ']' then
        advance
        return .list []
      return .list (← items depth [] steps)
    | '"' => return .text (← text)
    | 't' => word "true" (.bool true) "true".toList
    | 'f' => word "false" (.bool false) "false".toList
    | 'n' => word "null" .null "null".toList
    | c => if c = '-' || c.isDigit then number else unexpected c "looking for beginning of value"

def items (depth : Nat) (read : List Datum) : Nat → Parse (List Datum)
  | 0 => throw .ended
  | steps + 1 => do
    let item ← value (depth + 1) steps
    let read := item :: read
    match ← peekPast with
    | ',' =>
      advance
      items depth read steps
    | ']' =>
      advance
      return read.reverse
    | c => unexpected c "after array element"

-- The members of an object. Of several with the same name the last one counts.
def members (depth : Nat) (read : List (Datum × Datum)) : Nat → Parse (List (Datum × Datum))
  | 0 => throw .ended
  | steps + 1 => do
    let c ← peekPast
    if c ≠ '"' then unexpected c "looking for beginning of object key string"
    let key ← text
    let c ← peekPast
    if c ≠ ':' then unexpected c "after object key"
    advance
    let read := Datum.put read (.text key) (← value (depth + 1) steps)
    match ← peekPast with
    | ',' =>
      advance
      members depth read steps
    | '\x7d' =>
      advance
      return read
    | c => unexpected c "after object key:value pair"

end

-- The only value of a text.
def whole (steps : Nat) : Parse Datum := do
  let d ← value 0 steps
  match (← get).rest.dropWhile isBlank with
  | [] => return d
  | c :: _ => unexpected c "after top-level value"

-- What a value is called that is no object.
def kind : Datum → String
  | .bool _ => "bool"
  | .float _ => "number"
  | .text _ => "string"
  | .list _ => "array"
  | _ => "object"

-- The members of the object that a text holds. Null counts as an empty one.
def contents (s : String) : Except Fault (List (Datum × Datum)) :=
  match (whole (4 * (s.length + 4))).run { rest := s.toList } with
  | .error f _ => .error f
  | .ok (.table _ members) source =>
    match source.tooLarge with
    | some n => .error (.unfit s!"number {n}" "float64")
    | none => .ok members
  | .ok .null source =>
    if source.tooLarge.isSome then .error (.unfit "number" "map[string]interface \x7b\x7d")
    else .ok []
  | .ok d _ => .error (.unfit (kind d) "map[string]interface \x7b\x7d")

end ScalarScript.JsonDocument
