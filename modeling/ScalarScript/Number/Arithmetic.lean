import ScalarScript.Number.Binary
/-!
Arithmetic on doubles beyond the four basic operations. Remainders and whole parts are exact;
a power with a whole exponent is repeated squaring on the fraction, its binary exponent kept apart
so that nothing overflows before the last step.
-/
namespace ScalarScript.Number

-- The remainder of `x` by `y`, with the sign of `x`.
def remainder (x y : Float) : Float :=
  if y == 0 || !isFinite x || y.isNaN then 0.0 / 0.0
  else if !isFinite y then x
  else
    let a := parts x
    let b := parts y
    let e := min a.exponent b.exponent
    let m := a.mantissa * Nat.pow 2 (a.exponent - e).toNat
    let n := b.mantissa * Nat.pow 2 (b.exponent - e).toNat
    scale (nearest a.negative (m % n) 1) e

-- Replaces the magnitude `num / den` of a double with a fractional part by a whole number.
def wholeBy (pick : Bool → Nat → Nat → Nat) (x : Float) : Float :=
  let p := parts x
  if 0 ≤ p.exponent || !isFinite x then x
  else nearest p.negative (pick p.negative p.mantissa (Nat.pow 2 (-p.exponent).toNat)) 1

def truncate (x : Float) : Float := wholeBy (fun _ num den => num / den) x

def floor (x : Float) : Float :=
  wholeBy (fun negative num den => if negative then (num + den - 1) / den else num / den) x

def ceiling (x : Float) : Float :=
  wholeBy (fun negative num den => if negative then num / den else (num + den - 1) / den) x

-- The nearest whole number, a half going away from zero.
def roundAway (x : Float) : Float := wholeBy (fun _ num den => (2 * num + den) / (2 * den)) x

-- The smaller of two numbers; minus zero counts as smaller than zero.
def minimum (x y : Float) : Float :=
  if x == 0 && y == 0 then (if isNegative x then x else y) else if x < y then x else y

-- The larger of two numbers; zero counts as larger than minus zero.
def maximum (x y : Float) : Float :=
  if x == 0 && y == 0 then (if isNegative x then y else x) else if y < x then x else y

-- Divisors below this distance from zero count as zero.
def aboutZero (x : Float) : Bool := x.abs < 1e-7

def isOddWhole (y : Float) : Bool :=
  let p := parts y
  if 0 ≤ p.exponent then p.exponent == 0 && p.mantissa % 2 == 1
  else
    let den := Nat.pow 2 (-p.exponent).toNat
    p.mantissa % den == 0 && p.mantissa / den % 2 == 1

-- Repeated squaring: `acc * 2 ^ accExp` collects the factors, `base * 2 ^ baseExp` is the base
-- raised to the power of two that belongs to the lowest remaining bit of `n`. A base whose
-- exponent has left every double's range settles the answer at once.
def powWhole : Nat → Nat → Float → Int → Float → Int → Float × Int
  | 0, _, _, _, acc, accExp => (acc, accExp)
  | steps + 1, n, base, baseExp, acc, accExp =>
    if n = 0 then (acc, accExp)
    else if baseExp < -4096 || 4096 < baseExp then (acc, accExp + baseExp)
    else
      let (acc, accExp) := if n % 2 = 1 then (acc * base, accExp + baseExp) else (acc, accExp)
      let square := base * base
      let squareExp := baseExp * 2
      if square < 0.5 then powWhole steps (n / 2) (square + square) (squareExp - 1) acc accExp
      else powWhole steps (n / 2) square squareExp acc accExp

-- A whole number below 2 ^ 63.
def wholeNat (x : Float) : Nat :=
  let p := parts x
  if 0 ≤ p.exponent then p.mantissa * Nat.pow 2 p.exponent.toNat
  else p.mantissa / Nat.pow 2 (-p.exponent).toNat

-- The power of finite numbers that no special case settles.
def powFinite (x y : Float) : Float :=
  let whole := truncate y.abs
  let part := y.abs - whole
  if part != 0 && x < 0 then 0.0 / 0.0
  else if whole ≥ 9223372036854775808.0 then
    if x == -1 then 1
    else if (x.abs < 1) == (y > 0) then 0
    else infinity false
  else
    let (whole, part) := if part > 0.5 then (whole + 1, part - 1) else (whole, part)
    let start := if part != 0 then Float.exp (part * Float.log x) else 1
    let (base, baseExp) := fractionExponent x
    let (acc, accExp) := powWhole 64 (wholeNat whole) base baseExp start 0
    if y < 0 then scale (1 / acc) (-accExp) else scale acc accExp

-- `x` to the power `y`, for finite numbers.
def power (x y : Float) : Float :=
  if y == 0 || x == 1 then 1
  else if y == 1 then x
  else if x == 0 then
    if y < 0 then infinity (isNegative x && isOddWhole y)
    else if isNegative x && isOddWhole y then x else 0
  else if y == 0.5 then x.sqrt
  else if y == -0.5 then 1 / x.sqrt
  else powFinite x y

end ScalarScript.Number
