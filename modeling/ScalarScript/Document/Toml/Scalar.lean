import ScalarScript.Document.Datum
import ScalarScript.Document.Moment
import ScalarScript.Document.Toml.Quoted
import ScalarScript.Number.Integer
/-!
Numbers, dates and times in a TOML document: where they end, and what they denote.
-/
namespace ScalarScript.Toml

-- What a scalar without quotes looks like.
inductive ScalarKind where
  | integer | float | offsetDateTime | localDateTime | localDate | localTime
  deriving DecidableEq, Repr

structure Scalar where
  kind : ScalarKind
  text : List Char
  deriving Repr

namespace Scalar

-- A number in a base other than ten begins with a zero and the mark of the base.
def baseOf? (mark : Char) : Option (Nat × String) :=
  [('x', (16, "hexadecimal")), ('o', (8, "octal")), ('b', (2, "binary"))].lookup mark

def isDigitIn (base : Nat) (c : Char) : Bool :=
  c = '_' || (Number.digitValue? true c).any (· < base)

def scanNumber (read : List Char) (point : Bool) :
    List Char → Except Fault (Scalar × List Char)
  | [] => finish []
  | c :: rest =>
    if c.isDigit || ['+', '-', '_'].contains c then scanNumber (c :: read) point rest
    else if ['.', 'e', 'E'].contains c then scanNumber (c :: read) true rest
    else if c = 'i' || c = 'n' then
      let word := if c = 'i' then "nf" else "an"
      if word.toList.isPrefixOf rest then
        .ok (⟨.float, read.reverse ++ c :: word.toList⟩, rest.drop 2)
      else refuse s!"unexpected character '{c}' while scanning for a number"
    else finish (c :: rest)
where
  finish (rest : List Char) : Except Fault (Scalar × List Char) :=
    if read.isEmpty then refuse "incomplete number"
    else .ok (⟨if point then .float else .integer, read.reverse⟩, rest)

-- A number. Behind a zero only a point, an exponent or the mark of a base can follow.
def scanIntOrFloat (cs : List Char) : Except Fault (Scalar × List Char) :=
  match cs with
  | '0' :: mark :: _ :: _ =>
    if ['.', 'e', 'E'].contains mark then scanNumber [] false cs
    else match baseOf? mark with
      | some (base, _) =>
        let digits := (cs.drop 2).takeWhile (isDigitIn base)
        .ok (⟨.integer, '0' :: mark :: digits⟩, cs.drop (2 + digits.length))
      | none => .ok (⟨.integer, ['0']⟩, cs.drop 1)
  | _ => scanNumber [] false cs

-- What was seen of a date and a time.
structure Signs where
  date : Bool := false
  time : Bool := false
  zone : Bool := false
  space : Bool := false

def Signs.kind (s : Signs) : ScalarKind :=
  if !s.time then .localDate
  else if !s.date then .localTime
  else if s.zone then .offsetDateTime
  else .localDateTime

-- The signs of a date or a time, and how many characters it has. A minus sign may belong to the
-- zone from the ninth character on. One blank may stand between a date and a time.
def scanMoment (s : Signs) (length : Nat) : Nat → List Char → Signs × Nat
  | 0, _ | _, [] => (s, length)
  | steps + 1, c :: rest =>
    if c.isDigit then scanMoment s (length + 1) steps rest
    else if c = '-' then
      scanMoment { s with date := true, zone := s.zone || 8 ≤ length } (length + 1) steps rest
    else if ['T', 't', ':', '.'].contains c then
      scanMoment { s with time := true } (length + 1) steps rest
    else if ['+', 'Z', 'z'].contains c then
      scanMoment { s with zone := true } (length + 1) steps rest
    else if c = ' ' && !s.space && rest.head?.any Char.isDigit then
      let width := min 3 (1 + rest.length)
      scanMoment { s with time := true, space := true } (length + width) steps (rest.drop 2)
    else (s, length)

-- Whether a date or a time begins: two digits and a colon, or four digits and a minus sign.
def startsMoment (cs : List Char) : Bool :=
  match (cs.takeWhile Char.isDigit).length, (cs.dropWhile Char.isDigit).head? with
  | 2, some ':' | 4, some '-' => true
  | _, _ => false

-- A scalar without quotes.
def scan (cs : List Char) : Except Fault (Scalar × List Char) :=
  let special (word : String) : Except Fault (Scalar × List Char) :=
    if word.toList.isPrefixOf cs then .ok (⟨.float, word.toList⟩, cs.drop 3)
    else refuse s!"expected '{word}'"
  match cs.head? with
  | some 'i' => special "inf"
  | some 'n' => special "nan"
  | _ =>
    if startsMoment cs then
      let (signs, length) := scanMoment {} 0 cs.length cs
      .ok (⟨signs.kind, cs.take length⟩, cs.drop length)
    else scanIntOrFloat cs

def startsWithSign (cs : List Char) : Bool := cs.head?.any ['+', '-'].contains

-- Every underscore between others needs a digit before it. `before` tells that there is one.
def underscored (before : Bool) : List Char → Except Fault (List Char)
  | [] => .ok []
  | '_' :: rest =>
    if before then underscored false rest
    else refuse "number must have at least one digit between underscores"
  | c :: rest => do return c :: (← underscored true rest)

-- Underscores cannot stand at either end of a number.
def checkEnds (cs : List Char) : Except Fault Unit := do
  if cs.head? = some '_' then refuse "number cannot start with underscore"
  if cs.getLast? = some '_' then refuse "number cannot end with underscore"

-- The digits of a whole number without underscores, behind its sign.
def cleanInteger (cs : List Char) : Except Fault (List Char) := do
  let sign := if startsWithSign cs then cs.take 1 else []
  let digits := cs.drop sign.length
  checkEnds digits
  return sign ++ (← underscored true digits)

def integerError {α : Type} (base : String) (cs : List Char) (fault : Number.IntegerFault) :
    Except Fault α :=
  let quoted := Text.quote (String.ofList cs)
  refuse s!"couldn't parse {base} number: strconv.ParseInt: parsing {quoted}: {fault.text}"

-- A whole number of 64 bits from cleaned characters.
def wholeIn (base : Nat) (name : String) (cs : List Char) : Except Fault Int :=
  let (negative, digits) := Number.splitSign cs
  let n := if digits.isEmpty then .error .malformed else Number.digitsIn base 0 digits
  match n >>= Number.withSign negative with
  | .ok n => .ok n
  | .error fault => integerError name cs fault

def integer (cs : List Char) : Except Fault Int := do
  match cs with
  | '0' :: mark :: d :: rest =>
    match baseOf? mark with
    | some (base, name) => wholeIn base name (← cleanInteger (d :: rest))
    | none => refuse "leading zero not allowed on decimal number"
  | _ =>
    let cleaned ← cleanInteger cs
    match if startsWithSign cleaned then cleaned.drop 1 else cleaned with
    | '0' :: _ :: _ => refuse "leading zero not allowed on decimal number"
    | _ => wholeIn 10 "decimal" cleaned

-- The characters of a number with a point without underscores. `last` is the character before.
def cleanFloat (before : Bool) (last : Char) : List Char → Except Fault (List Char)
  | [] => .ok []
  | c :: rest => do
    let next := rest.headD ' '
    match c with
    | '_' =>
      if !before then refuse "number must have at least one digit between underscores"
      if next = 'e' || next = 'E' then refuse "cannot have underscore before exponent"
      cleanFloat false c rest
    | '+' | '-' => return c :: (← cleanFloat false c rest)
    | 'e' | 'E' =>
      if next = '_' then refuse "cannot have underscore after exponent"
      return c :: (← cleanFloat before c rest)
    | '.' =>
      if next = '_' then refuse "cannot have underscore after decimal point"
      if last = '_' then refuse "cannot have underscore before decimal point"
      return c :: (← cleanFloat before c rest)
    | c => return c :: (← cleanFloat true c rest)

-- Every point stands between digits, and there is only one.
def checkPoint (last : Char) (seen : Bool) : List Char → Except Fault Unit
  | [] => .ok ()
  | c :: rest => do
    if c = '.' then
      if seen then refuse "float can have at most one decimal point"
      if !last.isDigit then refuse "float decimal point must be preceded by a digit"
      if !rest.head?.any Char.isDigit then
        refuse "float decimal point must be followed by a digit"
    checkPoint c (seen || c = '.') rest

def infinity : Float := 1.0 / 0.0

-- A double from cleaned characters.
def double (cs : List Char) : Except Fault Float :=
  let s := String.ofList cs
  let failed (fault : Number.IntegerFault) : Except Fault Float :=
    refuse s!"unable to parse float: strconv.ParseFloat: parsing {Text.quote s}: {fault.text}"
  match s with
  | "inf" | "+inf" => .ok infinity
  | "-inf" => .ok (-infinity)
  | "nan" => .ok (0.0 / 0.0)
  | s =>
    match Number.Numeral.parse? s with
    | none => failed .malformed
    | some n => match n.toFloat? with
      | some x => .ok x
      | none => failed .outOfRange

def float (cs : List Char) : Except Fault Float := do
  if startsWithSign cs && cs.drop 1 = "nan".toList then return 0.0 / 0.0
  checkEnds cs
  let cleaned ← if cs.contains '_' then cleanFloat false ' ' cs else pure cs
  if cleaned.head? = some '.' then refuse "float cannot start with a dot"
  if cleaned.getLast? = some '.' then refuse "float cannot end with a dot"
  checkPoint ' ' false cleaned
  match if startsWithSign cleaned then cleaned.drop 1 else cleaned with
  | '0' :: d :: _ => if d.isDigit then refuse "float integer part cannot have leading zeroes"
  | _ => pure ()
  double cleaned

def decimalDigits (cs : List Char) : Except Fault Nat :=
  if cs.all Char.isDigit then .ok (cs.foldl (fun n d => n * 10 + (d.toNat - 48)) 0)
  else refuse "expected digit (0-9)"

def charAt (cs : List Char) (place : Nat) : Char := cs.getD place ' '

def date (cs : List Char) : Except Fault Date := do
  if cs.length ≠ 10 || charAt cs 4 ≠ '-' || charAt cs 7 ≠ '-' then
    refuse "dates are expected to have the format YYYY-MM-DD"
  let year ← decimalDigits (cs.take 4)
  let month ← decimalDigits ((cs.drop 5).take 2)
  let day ← decimalDigits ((cs.drop 8).take 2)
  let date : Date := ⟨year, month, day⟩
  if !date.isValid then refuse "impossible date"
  return date

-- A time of day, how many places its seconds have, and what follows it.
def clock (cs : List Char) : Except Fault (Clock × Nat × List Char) := do
  if cs.length < 8 then refuse "times are expected to have the format HH:MM:SS[.NNNNNN]"
  let hour ← decimalDigits (cs.take 2)
  if 23 < hour then refuse "hour cannot be greater 23"
  if charAt cs 2 ≠ ':' then refuse "expecting colon between hours and minutes"
  let minute ← decimalDigits ((cs.drop 3).take 2)
  if 59 < minute then refuse "minutes cannot be greater 59"
  if charAt cs 5 ≠ ':' then refuse "expecting colon between minutes and seconds"
  let second ← decimalDigits ((cs.drop 6).take 2)
  if 59 < second then refuse "seconds cannot be greater than 59"
  match cs.drop 8 with
  | '.' :: rest =>
    let digits := rest.takeWhile Char.isDigit
    if digits.isEmpty then
      refuse (if rest.isEmpty then "nanoseconds need at least one digit"
        else "need at least one digit after fraction point")
    return (⟨hour, minute, second, Clock.nanoseconds digits⟩, min 9 digits.length,
      rest.drop digits.length)
  | rest => return (⟨hour, minute, second, 0⟩, 0, rest)

def dateAndClock (cs : List Char) : Except Fault (Date × Clock × Nat × List Char) := do
  if cs.length < 11 then
    refuse "local datetimes are expected to have the format YYYY-MM-DDTHH:MM:SS[.NNNNNNNNN]"
  let date ← date (cs.take 10)
  if !(['T', 't', ' '].contains (charAt cs 10)) then
    refuse "datetime separator is expected to be T or a space"
  let (clock, places, rest) ← clock (cs.drop 11)
  return (date, clock, places, rest)

-- How many minutes ahead of the universal time.
def zone (cs : List Char) : Except Fault Int := do
  match cs with
  | 'Z' :: rest | 'z' :: rest =>
    if !rest.isEmpty then refuse "extra bytes at the end of the timezone"
    return 0
  | cs =>
    if cs.length ≠ 6 then refuse "invalid date-time timezone"
    if !startsWithSign cs then refuse "invalid timezone offset character"
    if charAt cs 3 ≠ ':' then refuse "expected a : separator"
    let hours ← decimalDigits ((cs.drop 1).take 2)
    if 23 < hours then refuse "invalid timezone offset hours"
    let minutes ← decimalDigits (cs.drop 4)
    if 59 < minutes then refuse "invalid timezone offset minutes"
    let ahead : Int := hours * 60 + minutes
    return if charAt cs 0 = '-' then -ahead else ahead

-- What a scalar denotes.
def denoted (s : Scalar) : Except Fault Datum := do
  match s.kind with
  | .integer => return .integer (← integer s.text)
  | .float => return .float (← float s.text)
  | .localDate => return .moment (← date s.text).shown
  | .localTime =>
    let (clock, places, rest) ← clock s.text
    if !rest.isEmpty then refuse "extra characters at the end of a local time"
    return .moment (clock.shownTo places)
  | .localDateTime =>
    let (date, clock, places, rest) ← dateAndClock s.text
    if !rest.isEmpty then refuse "extra characters at the end of a local date time"
    return .moment s!"{date.shown}T{clock.shownTo places}"
  | .offsetDateTime =>
    let (date, clock, _, rest) ← dateAndClock s.text
    let ahead ← zone rest
    return .moment (Moment.shown { date, clock, ahead })

end Scalar

end ScalarScript.Toml
