import Calculator.Proofs.Bits
import Calculator.Proofs.Running

/-! Opposite numbers.

A minus sign goes through products and quotients, so that a product or quotient is finite
if and only if that of the opposite number is (`isFinite_neg_mul`, `isFinite_neg_div`).
Both operators therefore fail at opposite numbers for the same reason
(`Operator.apply_neg_bind`). -/
namespace Calculator.Binary64
open Float.Model (Format UnpackedFloat)
open Float.Model.UnpackedFloat (Accuracy Sign pack packComponents roundWithAccuracy unpack
  unpackExponent)

/-! ### Signs -/

theorem neg_mul_sign (s t : Sign) : -s * t = -(s * t) := by
  cases s <;> cases t <;> rfl

theorem neg_div_sign (s t : Sign) : -s / t = -(s / t) := by
  cases s <;> cases t <;> rfl

section Unpacked
variable (spec : Format)

/-- Rounding does not look at the sign. -/
theorem roundWithAccuracy_neg (s : Sign) (m : Nat) (e : Int) (accuracy : Accuracy) :
    roundWithAccuracy spec (-s) m e accuracy = (roundWithAccuracy spec s m e accuracy).neg := by
  unfold roundWithAccuracy
  dsimp only
  split <;> rfl

theorem mul_neg_unpacked (a b : UnpackedFloat) :
    UnpackedFloat.mul spec a.neg b = (UnpackedFloat.mul spec a b).neg := by
  cases a <;> cases b <;>
    simp only [UnpackedFloat.mul, UnpackedFloat.neg, neg_mul_sign, roundWithAccuracy_neg]

theorem div_neg_unpacked (a b : UnpackedFloat) :
    UnpackedFloat.div spec a.neg b = (UnpackedFloat.div spec a b).neg := by
  cases a <;> cases b <;>
    simp only [UnpackedFloat.div, UnpackedFloat.neg, neg_div_sign, roundWithAccuracy_neg]

theorem unpackExponent_pack_neg (a : UnpackedFloat) :
    unpackExponent (pack spec a.neg) = unpackExponent (pack spec a) := by
  cases a with
  | finite s m e hm =>
    simp only [UnpackedFloat.neg, pack]
    split
    · simp [UnpackedFloat.packedInfinity]
    · split <;> simp
  | _ => simp [UnpackedFloat.neg, pack, UnpackedFloat.packedInfinity, UnpackedFloat.packedZero]

end Unpacked

/-! ### Numbers -/

variable {x : Float}

theorem unpack_bits_neg (hx : x.isFinite = true) :
    unpack .binary64 (bits (-x)) = (unpack .binary64 (bits x)).neg := by
  rw [bits_neg hx, unpack_packComponents_neg _ ((isFinite_unpack (bits x)).mp hx),
    UnpackedFloat.packComponents_unpackSign_unpackExponent_unpackMantissa]

theorem bits_mul (x y : Float) :
    bits (x * y) =
      pack .binary64 (UnpackedFloat.mul .binary64 (unpack .binary64 (bits x)) (unpack .binary64 (bits y))) :=
  rfl

theorem bits_div (x y : Float) :
    bits (x / y) =
      pack .binary64 (UnpackedFloat.div .binary64 (unpack .binary64 (bits x)) (unpack .binary64 (bits y))) :=
  rfl

theorem isFinite_congr {x y : Float} (h : unpackExponent (bits x) = unpackExponent (bits y)) :
    x.isFinite = y.isFinite := by
  rw [Bool.eq_iff_iff]
  refine (isFinite_unpack (bits x)).trans (Iff.trans ?_ (isFinite_unpack (bits y)).symm)
  rw [h]

theorem isFinite_neg_mul (hx : x.isFinite = true) (y : Float) :
    (-x * y).isFinite = (x * y).isFinite :=
  isFinite_congr (by
    rw [bits_mul, bits_mul, unpack_bits_neg hx, mul_neg_unpacked, unpackExponent_pack_neg])

theorem isFinite_neg_div (hx : x.isFinite = true) (y : Float) :
    (-x / y).isFinite = (x / y).isFinite :=
  isFinite_congr (by
    rw [bits_div, bits_div, unpack_bits_neg hx, div_neg_unpacked, unpackExponent_pack_neg])

end Calculator.Binary64

namespace Calculator

theorem finite_bind_congr {x y : Float} (h : x.isFinite = y.isFinite) {α : Type}
    (next : Except EvalError α) (i : Nat) :
    (Engine.located i (finite x) >>= fun _ => next) =
      (Engine.located i (finite y) >>= fun _ => next) := by
  unfold finite
  rw [h]
  split <;> rfl

/-- The operators that bind tightly fail at opposite left operands alike. -/
theorem Operator.apply_neg_bind {op : Operator} (hop : op.precedence ≠ Engine.loosest) {x : Float}
    (hx : x.isFinite = true) (y : Float) {α : Type} (next : Except EvalError α) (i : Nat) :
    (Engine.located i (op.apply (-x) y) >>= fun _ => next) =
      (Engine.located i (op.apply x y) >>= fun _ => next) := by
  cases op with
  | add | sub => exact absurd rfl hop
  | mul => exact finite_bind_congr (Binary64.isFinite_neg_mul hx y) next i
  | div =>
    simp only [apply]
    split
    · rfl
    · exact finite_bind_congr (Binary64.isFinite_neg_div hx y) next i

end Calculator
