import Mathlib
import MipPump.Number.Binary64
import MipPump.Proofs.ExactNumbers

/-!
# The orders of the numbers

Both arithmetics compare numbers by a linear order, in which values that are no number have no
place, and a minus turns the order around.

* `NumberOrder`: a key of a linear order that the comparison of an arithmetic goes by.
* `ExtRat.numberOrder`: the key of an exact number is its value between the infinities.
* `Binary64.numberOrder`: the key of a floating-point number is its sign, its exponent and its
  mantissa.  A minus flips the sign, which `unpack_pack_neg` shows of the bits.

The library's lemmas on the bits of a number are re-exported by no smaller module than the whole, so
this one imports it.
-/

namespace MipPump

/-- A number that is not infinite. -/
def Arith.IsFinite {R : Type} [Arith R] (x : R) : Prop :=
  Arith.isNaN x = false ∧ Arith.isInf x = false

instance Arith.instDecidableIsFinite {R : Type} [Arith R] (x : R) : Decidable (Arith.IsFinite x) :=
  inferInstanceAs (Decidable (_ ∧ _))

/-- The numbers are compared by their keys. -/
structure NumberOrder (R Key : Type) [Arith R] [LinearOrder Key] where
  key : R → Key
  lt_iff : ∀ x y : R, x < y ↔ Arith.isNaN x = false ∧ Arith.isNaN y = false ∧ key x < key y
  neg_lt_neg_iff : ∀ x y : R, -x < -y ↔ y < x

namespace ExtRat

@[simp] theorem neg_nan : (-nan : ExtRat) = nan := rfl

@[simp] theorem neg_negInf : (-negInf : ExtRat) = posInf := rfl

@[simp] theorem neg_posInf : (-posInf : ExtRat) = negInf := rfl

theorem isFinite_iff {x : ExtRat} : Arith.IsFinite x ↔ ∃ q, x = fin q := by
  cases x <;> simp [Arith.IsFinite, Arith.isNaN, Arith.isInf]

/-- The value of a number between the infinities. -/
def orderKey : ExtRat → ℤ ×ₗ ℚ
  | nan => toLex (0, 0)
  | negInf => toLex (-1, 0)
  | fin q => toLex (0, q)
  | posInf => toLex (1, 0)

/-- The order of the exact numbers. -/
def numberOrder : NumberOrder ExtRat (ℤ ×ₗ ℚ) where
  key := orderKey
  lt_iff x y := by
    cases x <;> cases y <;> simp [orderKey, Prod.Lex.toLex_lt_toLex, Arith.isNaN]
  neg_lt_neg_iff x y := by
    cases x <;> cases y <;> simp

end ExtRat

namespace Binary64

open Float.Model Float.Model.UnpackedFloat

section Parts

/-- Sign, exponent and mantissa of a number, so that their lexical order is that of the numbers. -/
def orderKey : UnpackedFloat → ℤ ×ₗ ℤ ×ₗ ℤ
  | .notANumber => toLex (0, toLex (0, 0))
  | .zero _ => toLex (0, toLex (0, 0))
  | .infinity .negative => toLex (-2, toLex (0, 0))
  | .infinity .positive => toLex (2, toLex (0, 0))
  | .finite .negative m e _ => toLex (-1, toLex (-e, -m))
  | .finite .positive m e _ => toLex (1, toLex (e, m))

theorem unpacked_lt_iff (a b : UnpackedFloat) :
    a.lt b = true ↔ a.isNaN = false ∧ b.isNaN = false ∧ orderKey a < orderKey b := by
  rcases a with (_ | _) | _ | (_ | _) | ⟨_ | _, m, e, hm⟩ <;>
  rcases b with (_ | _) | _ | (_ | _) | ⟨_ | _, m', e', hm'⟩ <;>
  simp [UnpackedFloat.lt, UnpackedFloat.compare, UnpackedFloat.isNaN, orderKey,
    Prod.Lex.toLex_lt_toLex, Ordering.then_eq_gt, Ordering.then_eq_lt, compare_gt_iff_gt,
    compare_lt_iff_lt]
  rfl

/-- A minus turns every comparison around. -/
theorem compare_neg (a b : UnpackedFloat) : a.neg.compare b.neg = b.compare a := by
  rcases a with (_ | _) | _ | (_ | _) | ⟨_ | _, m, e, hm⟩ <;>
  rcases b with (_ | _) | _ | (_ | _) | ⟨_ | _, m', e', hm'⟩ <;>
  simp [UnpackedFloat.neg, UnpackedFloat.compare, Ordering.swap_then, ← Std.OrientedCmp.eq_swap]
  all_goals rfl

end Parts

section Bits

/-- The parts of a number that was negated are those of the number but for the sign: what is packed
are the bits of the number with the other sign. -/
theorem unpack_pack_neg (spec : Float.Model.Format) (hspec : 2 ≤ spec.exponentBits)
    (b : BitVec spec.numBits) :
    UnpackedFloat.unpack spec (UnpackedFloat.pack spec (UnpackedFloat.unpack spec b).neg) =
      (UnpackedFloat.unpack spec b).neg := by
  let flipped := packComponents spec (-Sign.ofBitVec (unpackSign b)) (unpackExponent b)
    (unpackMantissa b)
  have hflipped : UnpackedFloat.unpack spec flipped = (UnpackedFloat.unpack spec b).neg := by
    simp only [UnpackedFloat.unpack, flipped, unpackSign_packComponents,
      unpackExponent_packComponents, unpackMantissa_packComponents, Sign.ofBitVec_toBitVec]
    split_ifs <;> rfl
  by_cases hnan : UnpackedFloat.unpack spec b = notANumber
  · rw [hnan]
    exact unpack_packedNaN
  · have hvalid : spec.Valid flipped := by
      constructor
      intro hexponent hmantissa
      rw [unpackExponent_packComponents] at hexponent
      rw [unpackMantissa_packComponents] at hmantissa
      refine absurd ?_ hnan
      simp only [UnpackedFloat.unpack, hexponent, hmantissa, if_true, if_false]
    rw [← hflipped, pack_unpack_of_valid hvalid hspec]

theorem lt_iff_unpacked (x y : Float) :
    x < y ↔ x.toModel.unpack.lt y.toModel.unpack = true := by
  show Float.lt x y = true ↔ _
  unfold Float.lt
  rw [decide_eq_true_iff]
  rfl

theorem unpack_neg (x : Float) : (-x).toModel.unpack = x.toModel.unpack.neg :=
  unpack_pack_neg .binary64 (by decide) x.toModel.toBits.toBitVec

/-- The order of the floating-point numbers. -/
def numberOrder : NumberOrder Float (ℤ ×ₗ ℤ ×ₗ ℤ) where
  key x := orderKey x.toModel.unpack
  lt_iff x y := (lt_iff_unpacked x y).trans (unpacked_lt_iff _ _)
  neg_lt_neg_iff x y := by
    rw [lt_iff_unpacked, lt_iff_unpacked, unpack_neg, unpack_neg, UnpackedFloat.lt,
      UnpackedFloat.lt, compare_neg]

end Bits

end Binary64

end MipPump
