import Mathlib
import Calculator.Binary64

/-! Numbers and their bits.

A number is its sign and its magnitude (`eq_of_magnitude_eq`). The finite ones are those
with a magnitude below `infinity` (`isFinite_iff`), each such magnitude is the one of a
number (`magnitude_ofMagnitude`), and a minus sign changes nothing but the sign bit
(`magnitude_neg`, `negative_neg`). -/
namespace Calculator.Binary64
open Float.Model (Format UnpackedFloat)
open Float.Model.UnpackedFloat (Sign unpack unpackSign unpackExponent unpackMantissa packComponents)

/-! ### Fields

The bits of a number are its sign, its exponent and its mantissa. It is finite unless all
bits of the exponent are set. -/

section Fields
variable {spec : Format}

theorem isFinite_unpack (b : BitVec spec.numBits) :
    (unpack spec b).isFinite = true ↔ unpackExponent b ≠ -1#(spec.exponentBits) := by
  unfold unpack
  dsimp only
  by_cases h : unpackExponent b = -1#(spec.exponentBits)
  · rw [if_pos h]
    split <;> simp [UnpackedFloat.isFinite, h]
  · rw [if_neg h]
    split
    · split <;> simp only [UnpackedFloat.isFinite, ne_eq, h, not_false_eq_true]
    · simp only [UnpackedFloat.isFinite, ne_eq, h, not_false_eq_true]

theorem unpack_packComponents_neg (s : Sign) {e : BitVec spec.exponentBits}
    (he : e ≠ -1#(spec.exponentBits)) (m : BitVec spec.mantissaBitsWithoutImplicit) :
    unpack spec (packComponents spec (-s) e m) = (unpack spec (packComponents spec s e m)).neg := by
  unfold unpack
  simp only [UnpackedFloat.unpackExponent_packComponents,
    UnpackedFloat.unpackMantissa_packComponents, UnpackedFloat.unpackSign_packComponents,
    Sign.ofBitVec_toBitVec, if_neg he]
  split
  · split <;> rfl
  · rfl

/-- Packing gives back the bits of a finite number. -/
theorem pack_unpack_of_ne {b : BitVec spec.numBits} (h : unpackExponent b ≠ -1#(spec.exponentBits))
    (hbits : 2 ≤ spec.exponentBits) : UnpackedFloat.pack spec (unpack spec b) = b :=
  UnpackedFloat.pack_unpack_of_valid ⟨fun hones => absurd hones h⟩ hbits

/-- Negating a finite number changes its sign bit alone. -/
theorem pack_neg_unpack {b : BitVec spec.numBits} (h : unpackExponent b ≠ -1#(spec.exponentBits))
    (hbits : 2 ≤ spec.exponentBits) :
    UnpackedFloat.pack spec (unpack spec b).neg =
      packComponents spec (-Sign.ofBitVec (unpackSign b)) (unpackExponent b) (unpackMantissa b) := by
  have hneg := unpack_packComponents_neg (Sign.ofBitVec (unpackSign b)) h (unpackMantissa b)
  rw [UnpackedFloat.packComponents_unpackSign_unpackExponent_unpackMantissa] at hneg
  rw [← hneg, pack_unpack_of_ne (by rwa [UnpackedFloat.unpackExponent_packComponents]) hbits]

end Fields

/-! ### Magnitudes -/

/-- The bits of a number, to be read as three fields. -/
def bits (x : Float) : BitVec Format.binary64.numBits := x.toBits.toBitVec

theorem toNat_unpackMantissa (b : BitVec Format.binary64.numBits) :
    (unpackMantissa b).toNat = b.toNat % 2 ^ 52 := by
  rw [UnpackedFloat.unpackMantissa_def, BitVec.extractLsb'_toNat, Nat.shiftRight_zero]

theorem toNat_unpackExponent (b : BitVec Format.binary64.numBits) :
    (unpackExponent b).toNat = b.toNat / 2 ^ 52 % 2 ^ 11 := by
  rw [UnpackedFloat.unpackExponent_def, BitVec.extractLsb'_toNat, Nat.shiftRight_eq_div_pow]

theorem toNat_unpackSign (b : BitVec Format.binary64.numBits) :
    (unpackSign b).toNat = b.toNat / 2 ^ 63 % 2 ^ 1 := by
  rw [UnpackedFloat.unpackSign_def, BitVec.extractLsb'_toNat, Nat.shiftRight_eq_div_pow]
  rfl

theorem unpackExponent_ne_iff (b : BitVec Format.binary64.numBits) :
    unpackExponent b ≠ -1#(Format.binary64.exponentBits) ↔ b.toNat % 2 ^ 63 < infinity := by
  have hones : (-1#11 : BitVec 11).toNat = 2047 := rfl
  have hinfinity : infinity = 2047 * 2 ^ 52 := rfl
  rw [ne_eq, ← BitVec.toNat_inj, toNat_unpackExponent, hones, hinfinity]
  omega

/-- **A number is finite if its magnitude is below that of infinity.** -/
theorem isFinite_iff (x : Float) : x.isFinite = true ↔ magnitude x < infinity :=
  (isFinite_unpack (bits x)).trans (unpackExponent_ne_iff (bits x))

theorem negative_iff (x : Float) : negative x = true ↔ 2 ^ 63 ≤ x.toBits.toNat := decide_eq_true_iff

theorem magnitude_eq (x : Float) : magnitude x = x.toBits.toNat % 2 ^ 63 := rfl

/-- **A number is its sign and its magnitude.** -/
theorem eq_of_magnitude_eq {x y : Float} (hn : negative x = negative y)
    (hm : magnitude x = magnitude y) : x = y := by
  have hx := x.toBits.toNat_lt
  have hy := y.toBits.toNat_lt
  have hn : 2 ^ 63 ≤ x.toBits.toNat ↔ 2 ^ 63 ≤ y.toBits.toNat := by
    rw [← negative_iff, ← negative_iff, hn]
  rw [magnitude_eq, magnitude_eq] at hm
  rw [← Float.toBits_inj, ← UInt64.toNat_inj]
  omega

theorem infinity_lt : infinity < 2 ^ 63 := by decide

/-- Every magnitude below that of infinity is the magnitude of a number. -/
theorem toNat_ofMagnitude {n : Nat} (h : n < infinity) : (ofMagnitude n).toBits.toNat = n := by
  have hlt := h.trans infinity_lt
  have hn : (UInt64.ofNat n).toNat = n := UInt64.toNat_ofNat_of_lt' (hlt.trans (by decide))
  have hbits : (ofMagnitude n).toBits = UInt64.ofNat n := by
    refine congrArg UInt64.ofBitVec (pack_unpack_of_ne ?_ (by decide))
    rw [unpackExponent_ne_iff]
    show (UInt64.ofNat n).toNat % 2 ^ 63 < infinity
    omega
  rw [hbits, hn]

theorem magnitude_ofMagnitude {n : Nat} (h : n < infinity) : magnitude (ofMagnitude n) = n := by
  have hlt := h.trans infinity_lt
  rw [magnitude_eq, toNat_ofMagnitude h]
  omega

theorem negative_ofMagnitude {n : Nat} (h : n < infinity) : negative (ofMagnitude n) = false := by
  have hlt := h.trans infinity_lt
  rw [← Bool.not_eq_true, negative_iff, toNat_ofMagnitude h]
  omega

theorem isFinite_ofMagnitude {n : Nat} (h : n < infinity) : (ofMagnitude n).isFinite = true := by
  rw [isFinite_iff, magnitude_ofMagnitude h]
  exact h

/-- A finite number with a clear sign is given back by its magnitude. -/
theorem ofMagnitude_magnitude {x : Float} (hx : x.isFinite = true) (hn : negative x = false) :
    ofMagnitude (magnitude x) = x := by
  have hlt := (isFinite_iff x).mp hx
  exact eq_of_magnitude_eq (by rw [negative_ofMagnitude hlt, hn]) (magnitude_ofMagnitude hlt)

/-! ### The minus sign -/

section Minus
variable {x : Float}

theorem bits_neg (hx : x.isFinite = true) :
    bits (-x) = packComponents .binary64 (-Sign.ofBitVec (unpackSign (bits x)))
      (unpackExponent (bits x)) (unpackMantissa (bits x)) :=
  pack_neg_unpack ((isFinite_unpack (bits x)).mp hx) (by decide)

theorem magnitude_neg (hx : x.isFinite = true) : magnitude (-x) = magnitude x := by
  have hexponent := toNat_unpackExponent (bits (-x))
  have hmantissa := toNat_unpackMantissa (bits (-x))
  rw [bits_neg hx, UnpackedFloat.unpackExponent_packComponents, toNat_unpackExponent] at hexponent
  rw [bits_neg hx, UnpackedFloat.unpackMantissa_packComponents, toNat_unpackMantissa] at hmantissa
  rw [← bits_neg hx] at hexponent hmantissa
  show (bits (-x)).toNat % 2 ^ 63 = (bits x).toNat % 2 ^ 63
  omega

theorem negative_eq (x : Float) : negative x = (unpackSign (bits x) == 1#1) := by
  have hlt := x.toBits.toNat_lt
  have hsign : unpackSign (bits x) = 1#1 ↔ (bits x).toNat / 2 ^ 63 % 2 ^ 1 = 1 := by
    rw [← BitVec.toNat_inj, toNat_unpackSign]
    rfl
  have hbits : (bits x).toNat = x.toBits.toNat := rfl
  rw [Bool.eq_iff_iff, negative_iff, beq_iff_eq, hsign, hbits]
  omega

theorem negative_neg (hx : x.isFinite = true) : negative (-x) = !negative x := by
  have hflip : ∀ s : BitVec 1, ((-Sign.ofBitVec s).toBitVec == 1#1) = !(s == 1#1) := by decide
  rw [negative_eq, bits_neg hx, UnpackedFloat.unpackSign_packComponents, negative_eq]
  exact hflip _

theorem eq_of_neg_eq {y : Float} (hx : x.isFinite = true) (hy : y.isFinite = true)
    (h : -x = -y) : x = y := by
  refine eq_of_magnitude_eq ?_ ?_
  · have hsign := congrArg negative h
    rw [negative_neg hx, negative_neg hy] at hsign
    exact Bool.not_inj hsign
  · rw [← magnitude_neg hx, ← magnitude_neg hy, h]

theorem isFinite_neg (hx : x.isFinite = true) : (-x).isFinite = true := by
  rw [isFinite_iff, magnitude_neg hx, ← isFinite_iff]
  exact hx

/-- What a finite number is without its sign bit. -/
theorem ofMagnitude_eq_neg (hx : x.isFinite = true) (hn : negative x = true) :
    ofMagnitude (magnitude x) = -x := by
  rw [← magnitude_neg hx]
  exact ofMagnitude_magnitude (isFinite_neg hx) (by rw [negative_neg hx, hn]; rfl)

end Minus

end Calculator.Binary64
