import ScalarScript.Number.Numeral
import Mathlib.Algebra.Group.Nat.Defs
/-!
Doubles that stay finite: the negative of a finite number is finite, and so is every number that a
numeral denotes.
-/
namespace ScalarScript.Number

open Float.Model (Format UnpackedFloat)
open Float.Model.UnpackedFloat (unpackExponent unpackExponent_packComponents packedZero)

-- The exponent field of a word.
abbrev exponentField (b : BitVec 64) : BitVec 11 := @unpackExponent Format.binary64 b

theorem exponentField_toNat (b : BitVec 64) :
    (exponentField b).toNat = b.toNat % 2 ^ 63 / 2 ^ 52 := by
  simp [unpackExponent, BitVec.extractLsb, BitVec.extractLsb', Nat.shiftRight_eq_div_pow]
  omega

theorem exponentField_ne_iff (b : BitVec 64) :
    exponentField b ≠ -1#11 ↔ b.toNat % 2 ^ 63 / 2 ^ 52 < 2047 := by
  have full : (-1#11).toNat = 2047 := rfl
  rw [ne_eq, ← BitVec.toNat_inj, exponentField_toNat, full]
  omega

-- A double is finite unless all bits of its exponent are set.
theorem isFinite_iff_exponentField (x : Float) :
    isFinite x = true ↔ exponentField x.toBits.toBitVec ≠ -1#11 := by
  rw [exponentField_ne_iff]
  unfold isFinite magnitudeBits mantissaSpan
  exact decide_eq_true_iff

-- A float that a finite word can hold.
def Packable : UnpackedFloat → Prop
  | .zero _ => True
  | .finite _ _ e _ => (e + 1075).toNat < 2047
  | _ => False

theorem packable_finite {s : UnpackedFloat.Sign} {mantissa : Nat} {e : Int} {positive} :
    Packable (.finite s mantissa e positive) ↔ (e + 1075).toNat < 2047 := Iff.rfl

theorem packable_unpack {b : BitVec 64} (finite : exponentField b ≠ -1#11) :
    Packable (UnpackedFloat.unpack Format.binary64 b) := by
  have bound : (@unpackExponent Format.binary64 b).toNat < 2047 := by
    rw [exponentField_toNat]
    exact (exponentField_ne_iff b).mp finite
  have bias : ((Format.binary64.exponentBias : Nat) : Int) = 1023 := rfl
  have width : ((Format.binary64.mantissaBitsWithoutImplicit : Nat) : Int) = 52 := rfl
  unfold UnpackedFloat.unpack
  dsimp only
  rw [if_neg finite]
  by_cases zero : @unpackExponent Format.binary64 b = BitVec.ofNat _ 0
  · rw [if_pos zero]
    by_cases whole : @UnpackedFloat.unpackMantissa Format.binary64 b = BitVec.ofNat _ 0
    · rw [dif_pos whole]
      trivial
    · rw [dif_neg whole]
      have none : (@unpackExponent Format.binary64 b).toNat = 0 := by rw [zero]; rfl
      rw [packable_finite, bias, width, none]
      omega
  · rw [if_neg zero, packable_finite, bias, width]
    omega

theorem exponentField_pack {f : UnpackedFloat} (fits : Packable f) :
    exponentField (UnpackedFloat.pack Format.binary64 f) ≠ -1#11 := by
  cases f with
  | notANumber => cases fits
  | infinity s => cases fits
  | zero s =>
    change exponentField (packedZero Format.binary64 s) ≠ -1#11
    simp [packedZero]
  | finite s m e positive =>
    rw [packable_finite] at fits
    have biased : (e + (Format.binary64.exponentBias : Nat) +
        (Format.binary64.mantissaBitsWithoutImplicit : Nat)).toNat = (e + 1075).toNat := by
      have bias : ((Format.binary64.exponentBias : Nat) : Int) = 1023 := rfl
      have width : ((Format.binary64.mantissaBitsWithoutImplicit : Nat) : Int) = 52 := rfl
      rw [bias, width]
      omega
    have size : 2 ^ Format.binary64.exponentBits = 2048 := rfl
    delta UnpackedFloat.pack
    dsimp only
    rw [biased, if_neg (by rw [size]; omega)]
    split
    · simp only [exponentField, unpackExponent_packComponents]
      rw [ne_eq, ← BitVec.toNat_inj, BitVec.toNat_ofNat, Nat.mod_eq_of_lt (by rw [size]; omega)]
      have full : (-1#11).toNat = 2047 := rfl
      rw [full]
      omega
    · simp

theorem Packable.neg {f : UnpackedFloat} (fits : Packable f) : Packable f.neg := by
  cases f <;> exact fits

theorem isFinite_neg {x : Float} (finite : isFinite x = true) : isFinite (-x) = true := by
  rw [isFinite_iff_exponentField] at finite ⊢
  exact exponentField_pack (packable_unpack finite).neg

theorem isFinite_ofMagnitudeBits (negative : Bool) {bits : Nat} (bound : bits < 2047 * 2 ^ 52) :
    isFinite (ofMagnitudeBits negative bits) = true := by
  rw [isFinite_iff_exponentField]
  refine exponentField_pack (packable_unpack ?_)
  rw [exponentField_ne_iff, UInt64.toNat_toBitVec, UInt64.toNat_ofNat']
  have sign : Nat.pow 2 63 = 2 ^ 63 := rfl
  cases negative
  · simp only [Bool.false_eq_true, if_false]
    omega
  · simp only [if_true, sign]
    omega

theorem nearestBits?_lt {num den bits : Nat} (found : nearestBits? num den = some bits) :
    bits < 2047 * 2 ^ 52 := by
  unfold nearestBits? at found
  split at found
  · cases found
    omega
  · simp only at found
    split at found
    · cases found
      assumption
    · cases found

-- Too large a number is no number.
theorem isFinite_of_parse? {s : String} {x : Float} (read : parse? s = some x) :
    isFinite x = true := by
  obtain ⟨n, _, given⟩ := Option.bind_eq_some_iff.mp read
  unfold Numeral.toFloat? at given
  obtain ⟨bits, found, rfl⟩ := Option.map_eq_some_iff.mp given
  refine isFinite_ofMagnitudeBits _ ?_
  generalize (if n.binary then _ else _ : Int) = width at found
  generalize (if n.binary then _ else _ : Int) = bound at found
  simp only at found
  split at found
  · cases found
    omega
  · split at found
    · cases found
    · exact nearestBits?_lt found

end ScalarScript.Number
