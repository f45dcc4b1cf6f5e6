/-!
Doubles as exact numbers: a finite double is a sign and a magnitude `mantissa * 2 ^ exponent`, and
every ratio of naturals has a nearest double.
-/
namespace ScalarScript.Number

structure Parts where
  negative : Bool
  mantissa : Nat
  exponent : Int
  deriving DecidableEq, Repr

-- The least exponent a double can have; its mantissa has at most 53 bits.
def leastExponent : Int := -1074

def mantissaSpan : Nat := Nat.pow 2 52

def isNegative (x : Float) : Bool := Nat.pow 2 63 ≤ x.toBits.toNat

-- The bits of the magnitude: the biased exponent above 52 bits of fraction.
def magnitudeBits (x : Float) : Nat := x.toBits.toNat % Nat.pow 2 63

-- Meaningful for finite doubles only.
def parts (x : Float) : Parts :=
  let biased := magnitudeBits x / mantissaSpan
  let fraction := magnitudeBits x % mantissaSpan
  if biased = 0 then ⟨isNegative x, fraction, leastExponent⟩
  else ⟨isNegative x, mantissaSpan + fraction, leastExponent + (biased - 1 : Nat)⟩

def isFinite (x : Float) : Bool := magnitudeBits x / mantissaSpan < 2047

def ofMagnitudeBits (negative : Bool) (bits : Nat) : Float :=
  Float.ofBits (UInt64.ofNat (bits + if negative then Nat.pow 2 63 else 0))

def infinity (negative : Bool) : Float := ofMagnitudeBits negative (2047 * mantissaSpan)

-- The nearest integer to a ratio, a half going to the even neighbour.
def roundRatio (num den : Nat) : Nat :=
  let q := num / den
  let r := num % den
  if 2 * r < den then q else if den < 2 * r then q + 1 else q + q % 2

-- The ratio `num / den` times `2 ^ k`, rounded as above.
def roundScaled (num den : Nat) (k : Int) : Nat :=
  if 0 ≤ k then roundRatio (num * Nat.pow 2 k.toNat) den else roundRatio num (den * Nat.pow 2 (-k).toNat)

-- The floor of the binary logarithm of a positive ratio.
def log2Ratio (num den : Nat) : Int :=
  let e : Int := (num.log2 : Int) - den.log2
  let reached := if 0 ≤ e then den * Nat.pow 2 e.toNat ≤ num else den ≤ num * Nat.pow 2 (-e).toNat
  if reached then e else e - 1

-- The bits of the double nearest to a ratio, none where it lies beyond every finite double.
-- A mantissa that rounds up to the next power of two carries into the exponent by itself.
def nearestBits? (num den : Nat) : Option Nat :=
  if num = 0 then some 0
  else
    let q := max (log2Ratio num den - 52) leastExponent
    let bits := (q - leastExponent).toNat * mantissaSpan + roundScaled num den (-q)
    if bits < 2047 * mantissaSpan then some bits else none

-- The double nearest to a signed ratio; beyond the finite ones, an infinity.
def nearest (negative : Bool) (num den : Nat) : Float :=
  match nearestBits? num den with
  | some bits => ofMagnitudeBits negative bits
  | none => infinity negative

def ofInt (n : Int) : Float := nearest (decide (n < 0)) n.natAbs 1

-- The double nearest to `x * 2 ^ k`.
def scale (x : Float) (k : Int) : Float :=
  let p := parts x
  let e := p.exponent + k
  if p.mantissa = 0 || !isFinite x then x
  else if 0 ≤ e then nearest p.negative (p.mantissa * Nat.pow 2 e.toNat) 1
  else nearest p.negative p.mantissa (Nat.pow 2 (-e).toNat)

-- A finite double as a fraction in [1/2, 1) and a power of two.
def fractionExponent (x : Float) : Float × Int :=
  let p := parts x
  if p.mantissa = 0 then (x, 0)
  else
    let width := p.mantissa.log2 + 1
    (nearest p.negative p.mantissa (Nat.pow 2 width), p.exponent + width)

end ScalarScript.Number
