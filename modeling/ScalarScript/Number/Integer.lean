import ScalarScript.Number.Numeral
/-!
Whole numbers as they are written in options: a sign, a mark for the base, digits with single
underscores between them.
-/
namespace ScalarScript.Number

inductive IntegerFault where
  | malformed | outOfRange
  deriving DecidableEq, Repr

def IntegerFault.text : IntegerFault → String
  | malformed => "invalid syntax"
  | outOfRange => "value out of range"

-- The base and the digits. A zero in front of the digits alone marks base 8.
def splitBase (unsigned : List Char) : Nat × List Char :=
  match unsigned with
  | '0' :: mark :: d :: rest =>
    match mark.toLower with
    | 'b' => (2, d :: rest)
    | 'o' => (8, d :: rest)
    | 'x' => (16, d :: rest)
    | _ => (8, mark :: d :: rest)
  | '0' :: rest => (8, rest)
  | digits => (10, digits)

-- The number that some digits denote. Past 64 bits the digits that follow no longer matter.
def digitsIn (base : Nat) : Nat → List Char → Except IntegerFault Nat
  | value, [] => .ok value
  | value, c :: rest =>
    if c = '_' then digitsIn base value rest
    else match digitValue? true c with
      | some d =>
        if base ≤ d then .error .malformed
        else if Nat.pow 2 64 ≤ value * base + d then .error .outOfRange
        else digitsIn base (value * base + d) rest
      | none => .error .malformed

-- A magnitude with its sign, within 64 bits.
def withSign (negative : Bool) (n : Nat) : Except IntegerFault Int :=
  let value : Int := if negative then -(n : Int) else n
  if -Nat.pow 2 63 ≤ value && value < Nat.pow 2 63 then .ok value else .error .outOfRange

-- The size that digits after a mark for their base denote, within 64 bits.
def magnitude (unsigned : List Char) : Except IntegerFault Nat := do
  let (base, digits) := splitBase unsigned
  if unsigned.isEmpty then throw .malformed
  let n ← digitsIn base 0 digits
  if unsigned.contains '_' && !underscoresOk unsigned then throw .malformed
  return n

-- A whole number of 64 bits.
def parseInteger (s : String) : Except IntegerFault Int := do
  let (negative, unsigned) := splitSign s.toList
  withSign negative (← magnitude unsigned)

-- A whole number of 64 bits without a sign.
def parseNatural? (s : String) : Option Nat := (magnitude s.toList).toOption

-- The size that digits without any marks denote in a base.
def magnitudeIn? (base : Nat) (digits : List Char) : Option Nat :=
  if digits.isEmpty || digits.contains '_' then none else (digitsIn base 0 digits).toOption

-- A whole number in a base, without any marks.
def parseIn? (base : Nat) (s : String) : Option Int := do
  let (negative, digits) := splitSign s.toList
  (withSign negative (← magnitudeIn? base digits)).toOption

-- A whole number in base 10, without any marks.
def parseDecimal? (s : String) : Option Int := parseIn? 10 s

end ScalarScript.Number
