import ScalarScript.Number.Binary
/-!
Decimal texts of doubles: the fewest digits that read back as the same double, the nearest such
decimal where there are several.
-/
namespace ScalarScript.Number

-- The decimal `digits * 10 ^ exponent`.
structure Decimal where
  digits : Nat
  exponent : Int
  deriving DecidableEq, Repr

-- The reals that round to a magnitude, in units of a quarter of its last place. A power of two
-- has a closer lower neighbour. The ends round to it exactly when its mantissa is even.
structure Interval where
  low : Nat
  value : Nat
  high : Nat
  ends : Bool

def interval (p : Parts) : Interval :=
  let closer := p.mantissa == mantissaSpan && leastExponent < p.exponent
  ⟨4 * p.mantissa - (if closer then 1 else 2), 4 * p.mantissa, 4 * p.mantissa + 2,
    p.mantissa % 2 == 0⟩

-- Whether the point `n / den` of the scaled line lies in the interval.
def Interval.holds (i : Interval) (scale den n : Nat) : Bool :=
  if i.ends then i.low * scale ≤ n * den && n * den ≤ i.high * scale
  else i.low * scale < n * den && n * den < i.high * scale

-- The point of one decimal grid that reads back, if any: of the value's two neighbours on the
-- grid the nearer one, a tie going to the even digit. Here the value is `value * scale` and the
-- grid step is `step`.
def Interval.gridPoint? (i : Interval) (scale step : Nat) : Option Nat :=
  let below := i.value * scale / step
  let gap := i.value * scale % step
  let lower := i.holds scale step below
  let upper := i.holds scale step (below + 1)
  if lower && upper then
    if 2 * gap < step then some below
    else if step < 2 * gap then some (below + 1)
    else some (below + below % 2)
  else if lower then some below
  else if upper then some (below + 1)
  else none

-- Tries the grids `10 ^ k`, `10 ^ (k - 1)`, and so on. The seventeenth digit always suffices.
def firstGrid (i : Interval) (exponent : Int) : Nat → Int → Decimal
  | 0, k => ⟨0, k⟩
  | steps + 1, k =>
    let binary := exponent - 2
    let scale := Nat.pow 2 binary.toNat * Nat.pow 10 (-k).toNat
    let step := Nat.pow 2 (-binary).toNat * Nat.pow 10 k.toNat
    match i.gridPoint? scale step with
    | some digits => ⟨digits, k⟩
    | none => firstGrid i exponent steps (k - 1)

-- The shortest decimal of a finite double's magnitude. The first grid lies just above it.
def shortest (x : Float) : Decimal :=
  let p := parts x
  if p.mantissa = 0 then ⟨0, 0⟩
  else
    let top := (p.exponent + p.mantissa.log2 + 1) * 30103 / 100000 + 1
    firstGrid (interval p) p.exponent 24 top

def natDigits (n : Nat) : List Char := Nat.toDigits 10 n

-- Without an exponent: zeros after the digits, or a point among or before them.
def Decimal.positional (d : Decimal) : String :=
  let digits := natDigits d.digits
  if 0 ≤ d.exponent then
    String.ofList (if d.digits = 0 then ['0'] else digits ++ List.replicate d.exponent.toNat '0')
  else
    let places := (-d.exponent).toNat
    let padded := List.replicate (places + 1 - digits.length) '0' ++ digits
    let whole := padded.length - places
    String.ofList (padded.take whole ++ '.' :: padded.drop whole)

def signed (x : Float) (text : String) : String := if isNegative x then "-" ++ text else text

-- How scripts see a number: never with an exponent.
def format (x : Float) : String := signed x (shortest x).positional

-- With that many places, the last one rounded; a half goes to the even digit.
def fixed (places : Nat) (x : Float) : String :=
  let p := parts x
  let scaled := p.mantissa * Nat.pow 10 places * Nat.pow 2 p.exponent.toNat
  signed x (Decimal.positional ⟨roundRatio scaled (Nat.pow 2 (-p.exponent).toNat), -(places : Int)⟩)

-- With an exponent of at least that many digits: one digit before the point, the sign always
-- written.
def Decimal.scientific (width : Nat) (d : Decimal) : String :=
  let digits := natDigits d.digits
  let e := d.exponent + (digits.length - 1 : Nat)
  let fraction := digits.drop 1
  let point := if fraction.isEmpty then [] else '.' :: fraction
  let sign := if e < 0 then '-' else '+'
  let power := natDigits e.natAbs
  String.ofList (digits.take 1 ++ point ++ 'e' :: sign ::
    List.replicate (width - power.length) '0' ++ power)

-- How a JSON document shows a number: with an exponent below 1e-6 and from 1e21 on.
def formatJson (x : Float) : String :=
  let d := shortest x
  if x != 0 && (x.abs < 1e-6 || x.abs ≥ 1e21) then signed x (d.scientific 1)
  else signed x d.positional

end ScalarScript.Number
