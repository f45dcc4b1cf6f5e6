import ScalarScript.Number.Binary
/-!
Numerals: the written forms of a number that can be read. Decimal and hexadecimal floats with an
optional sign, an exponent (compulsory in hexadecimal), and single underscores between digits.
-/
namespace ScalarScript.Number

-- `mantissa * 10 ^ exponent`, or `mantissa * 2 ^ exponent` where `binary` holds.
structure Numeral where
  negative : Bool
  mantissa : Nat
  binary : Bool
  exponent : Int
  deriving DecidableEq, Repr

def digitValue? (hexadecimal : Bool) (c : Char) : Option Nat :=
  if c.isDigit then some (c.toNat - 48)
  else if hexadecimal && 'a' ≤ c && c ≤ 'f' then some (c.toNat - 87)
  else if hexadecimal && 'A' ≤ c && c ≤ 'F' then some (c.toNat - 55)
  else none

-- What has been read of the digits before an exponent.
structure Digits where
  mantissa : Nat := 0
  seen : Bool := false
  point : Bool := false
  -- digits after the point
  places : Nat := 0

-- Reads digits, underscores and at most one point, and returns what follows.
def readDigits (hexadecimal : Bool) (acc : Digits) : List Char → Digits × List Char
  | [] => (acc, [])
  | c :: rest =>
    if c = '_' then readDigits hexadecimal acc rest
    else if c = '.' then
      if acc.point then (acc, c :: rest)
      else readDigits hexadecimal { acc with point := true } rest
    else match digitValue? hexadecimal c with
      | some d =>
        readDigits hexadecimal
          { acc with
            mantissa := acc.mantissa * (if hexadecimal then 16 else 10) + d
            seen := true
            places := if acc.point then acc.places + 1 else acc.places } rest
      | none => (acc, c :: rest)

-- The digits of an exponent. Beyond ten thousand its exact size no longer matters.
def readExponent (acc : Nat) : List Char → Nat × List Char
  | [] => (acc, [])
  | c :: rest =>
    if c = '_' then readExponent acc rest
    else if c.isDigit then
      readExponent (if acc < 10000 then acc * 10 + (c.toNat - 48) else acc) rest
    else (acc, c :: rest)

def splitSign : List Char → Bool × List Char
  | '-' :: rest => (true, rest)
  | '+' :: rest => (false, rest)
  | cs => (false, cs)

-- The last character seen, as far as underscores care.
inductive Seen where
  | start | digit | underscore | other
  deriving DecidableEq

def underscoresFrom (hexadecimal : Bool) : Seen → List Char → Bool
  | seen, [] => seen != .underscore
  | seen, c :: rest =>
    if (digitValue? hexadecimal c).isSome then underscoresFrom hexadecimal .digit rest
    else if c = '_' then seen == .digit && underscoresFrom hexadecimal .underscore rest
    else seen != .underscore && underscoresFrom hexadecimal .other rest

def isHexMark (c : Char) : Bool := c == 'x' || c == 'X'

-- Every underscore stands between two digits; a base mark counts as a digit.
def underscoresOk (unsigned : List Char) : Bool :=
  match unsigned with
  | '0' :: c :: rest =>
    if isHexMark c then underscoresFrom true .digit rest
    else if c == 'b' || c == 'B' || c == 'o' || c == 'O' then underscoresFrom false .digit rest
    else underscoresFrom false .start unsigned
  | _ => underscoresFrom false .start unsigned

-- The exponent part, if the text goes on with one: its value and what follows.
def readExponentPart (mark : Char) : List Char → Option (Option Int × List Char)
  | [] => some (none, [])
  | c :: rest =>
    if c.toLower = mark then
      let (negative, digits) := splitSign rest
      match digits with
      | d :: _ =>
        if d.isDigit then
          let (e, rest) := readExponent 0 digits
          some (some (if negative then -(e : Int) else e), rest)
        else none
      | [] => none
    else some (none, c :: rest)

def Numeral.parse? (s : String) : Option Numeral := do
  let (negative, body) := splitSign s.toList
  let (hexadecimal, digits) := match body with
    | '0' :: c :: d :: rest => if isHexMark c then (true, d :: rest) else (false, body)
    | _ => (false, body)
  let (read, rest) := readDigits hexadecimal {} digits
  guard read.seen
  let (exponent, rest) ← readExponentPart (if hexadecimal then 'p' else 'e') rest
  guard (exponent.isSome || !hexadecimal)
  guard rest.isEmpty
  guard (!body.contains '_' || underscoresOk body)
  let places : Int := if hexadecimal then 4 * read.places else read.places
  return ⟨negative, read.mantissa, hexadecimal, exponent.getD 0 - places⟩

-- The nearest double; none beyond the finite ones. A number far outside every double's range is
-- settled by its size alone.
def Numeral.toFloat? (n : Numeral) : Option Float :=
  let width : Int := if n.binary then n.mantissa.log2 else (Nat.toDigits 10 n.mantissa).length
  let bound : Int := if n.binary then 2000 else 400
  let bits := if n.mantissa = 0 || width + n.exponent < -bound then some 0
    else if bound < width + n.exponent then none
    else
      let base := if n.binary then 2 else 10
      nearestBits? (n.mantissa * Nat.pow base n.exponent.toNat)
        (Nat.pow base (-n.exponent).toNat)
  bits.map (ofMagnitudeBits n.negative)

-- The number that a text denotes; none where it is no numeral or too large.
def parse? (s : String) : Option Float := do (← Numeral.parse? s).toFloat?

end ScalarScript.Number
