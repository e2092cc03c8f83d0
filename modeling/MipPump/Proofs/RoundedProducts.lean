import MipPump.Proofs.SumOrders

/-!
# Rounded products of floating-point numbers

The product of two finite floating-point numbers is the rounded product of their values.  One is
`2 ^ 1074` units, so a product of values in units is counted in parts of a unit.

* `units_mul`: the value of a product of finite numbers.
* `share_mul`: a share of a number that is not negative is not negative and not greater.
* `ShareOrder`: that is so in both arithmetics.
-/

namespace MipPump
namespace Binary64

open Float.Model Float.Model.UnpackedFloat

section Products

theorem apply_mul_apply (s s' : Sign) (m m' : ℤ) :
    s.apply m * s'.apply m' = (s * s').apply (m * m') := by
  cases s <;> cases s'
  · exact neg_mul_neg m m'
  · exact neg_mul m m'
  · exact mul_neg m m'
  · rfl

/-- The value of a product, as its factors are stored. -/
theorem units_mul {x y : Float} (hx : Bounded x.toModel.unpack) (hy : Bounded y.toModel.unpack) :
    units (x * y).toModel.unpack =
      roundedInt fractionBits (units x.toModel.unpack * units y.toModel.unpack) := by
  have hsx := stored x
  have hsy := stored y
  rw [unpack_mul]
  generalize x.toModel.unpack = u at *
  generalize y.toModel.unpack = v at *
  have hzero (s : Sign) : units (UnpackedFloat.unpack .binary64
      (UnpackedFloat.pack .binary64 (.zero s))) = roundedInt fractionBits 0 := by
    rw [roundedInt_zero]
    cases s <;> rfl
  rcases u with _ | _ | s | ⟨s, m, e, hm⟩ <;> rcases v with _ | _ | s' | ⟨s', m', e', hm'⟩ <;>
    try contradiction
  case zero.zero => exact hzero (s * s')
  case zero.finite => exact (hzero (s * s')).trans (congrArg _ (zero_mul _).symm)
  case finite.zero => exact (hzero (s * s')).trans (congrArg _ (mul_zero _).symm)
  case finite.finite =>
    obtain ⟨-, hlow, -, hfull⟩ := hsx
    obtain ⟨-, hlow', -, hfull'⟩ := hsy
    -- a factor with 53 bits makes a product with 53 bits; two others are far below a unit
    have htarget : e + e' ≤ max (((m * m').log2 : ℤ) + (e + e') - 52) (-1074) := by
      have hlog (h : 2 ^ 52 ≤ m * m') : 52 ≤ (m * m').log2 :=
        (Nat.le_log2 (Nat.mul_pos hm hm').ne').mpr h
      rcases hfull with hfull | rfl
      · have := hlog (hfull.trans (Nat.le_mul_of_pos_right m hm'))
        omega
      · rcases hfull' with hfull' | rfl
        · have := hlog (hfull'.trans (Nat.le_mul_of_pos_left m' hm))
          omega
        · omega
    have hbits := fractionBits_eq
    have hvalue : m * 2 ^ (e + 1074).toNat * (m' * 2 ^ (e' + 1074).toNat) =
        m * m' * 2 ^ (e + e' + fractionBits + 1074).toNat := by
      have hexponent : (e + e' + fractionBits + 1074).toNat =
          (e + 1074).toNat + (e' + 1074).toNat := by omega
      rw [hexponent, pow_add]
      ring
    have hmul : UnpackedFloat.mul .binary64 (.finite s m e hm) (.finite s' m' e' hm') =
        roundWithAccuracy .binary64 (s * s') (m * m') (e + e') .exact := rfl
    rw [hmul, units_roundWithAccuracy (Nat.mul_pos hm hm') (j := fractionBits) (by omega) htarget,
      units, units, apply_mul_apply, ← Nat.cast_mul, hvalue, roundedInt_apply]

theorem mul_ne_notANumber {x y : Float} (hx : Bounded x.toModel.unpack)
    (hy : Bounded y.toModel.unpack) : (x * y).toModel.unpack ≠ .notANumber := by
  rw [unpack_mul, ne_eq, unpack_pack_eq_notANumber_iff]
  generalize x.toModel.unpack = u at *
  generalize y.toModel.unpack = v at *
  rcases u with _ | _ | s | ⟨s, m, e, hm⟩ <;> rcases v with _ | _ | s' | ⟨s', m', e', hm'⟩ <;>
    try contradiction
  case finite.finite => exact roundWithAccuracy_ne_notANumber _ _ _ _
  all_goals nofun

end Products

section Shares

variable {x d : Float}

theorem bounded_one : Bounded (1 : Float).toModel.unpack := by
  rw [unpack_one]
  trivial

theorem units_one : units (1 : Float).toModel.unpack = unity := by
  have hbits : fractionBits = 52 + (-52 + 1074 : ℤ).toNat := by
    rw [fractionBits_eq]
    rfl
  rw [unpack_one, units, Sign.apply, unity, hbits, pow_add]

/-- A value that is counted in parts of a unit is rounded as it is in units. -/
theorem roundedInt_unity (hx : Bounded x.toModel.unpack) :
    roundedInt fractionBits (units x.toModel.unpack * unity) = units x.toModel.unpack :=
  roundedInt_units fractionBits (stored x) fun s hs => by
    rw [hs] at hx
    exact hx

/-- A number between zero and one is finite. -/
theorem bounded_of_share (hx : 0 ≤ x) (hx1 : x ≤ 1) : Bounded x.toModel.unpack := by
  obtain ⟨-, hnumber, hlow⟩ := le_iff_units.mp hx
  obtain ⟨-, -, hhigh⟩ := le_iff_units.mp hx1
  have htop := unity_lt_beyond
  rw [units_one] at hhigh
  rw [units_zero] at hlow
  exact bounded_of_units hnumber (by omega) (by omega)

/-- A share of a number is not negative and not greater, also if it is rounded. -/
theorem share_mul (hx : 0 ≤ x) (hx1 : x ≤ 1) (hd : 0 ≤ d) (hd1 : d ≤ 1) :
    0 ≤ x * d ∧ x * d ≤ x := by
  have hbx := bounded_of_share hx hx1
  have hbd := bounded_of_share hd hd1
  have hproduct := mul_ne_notANumber hbx hbd
  have hvalue := units_mul hbx hbd
  obtain ⟨hnumber, hnx, hlow⟩ := le_iff_units.mp hx
  obtain ⟨-, -, hlow'⟩ := le_iff_units.mp hd
  obtain ⟨-, -, hhigh'⟩ := le_iff_units.mp hd1
  rw [units_one] at hhigh'
  rw [units_zero] at hlow hlow'
  rw [le_iff_units, le_iff_units, units_zero, hvalue]
  refine ⟨⟨hnumber, hproduct, ?_⟩, hproduct, hnx, ?_⟩
  · rw [← roundedInt_zero fractionBits]
    exact roundedInt_mono fractionBits (mul_nonneg hlow hlow')
  · calc roundedInt fractionBits (units x.toModel.unpack * units d.toModel.unpack)
        ≤ roundedInt fractionBits (units x.toModel.unpack * unity) :=
          roundedInt_mono fractionBits (mul_le_mul_of_nonneg_left hhigh' hlow)
      _ = units x.toModel.unpack := roundedInt_unity hbx

end Shares

end Binary64

/-- A share of a number between zero and one is between zero and the number. -/
structure ShareOrder (R Key : Type) [Arith R] [LinearOrder Key] extends SumOrder R Key where
  share_mul : ∀ {x d : R}, 0 ≤ x → x ≤ 1 → 0 ≤ d → d ≤ 1 → 0 ≤ x * d ∧ x * d ≤ x

/-- Shares of rounded numbers. -/
def Binary64.shareOrder : ShareOrder Float (ℤ ×ₗ ℤ ×ₗ ℤ) where
  toSumOrder := sumOrder
  share_mul := share_mul

namespace ExtRat

theorem share_mul {x d : ExtRat} (hx : 0 ≤ x) (hx1 : x ≤ 1) (hd : 0 ≤ d) (hd1 : d ≤ 1) :
    0 ≤ x * d ∧ x * d ≤ x := by
  obtain ⟨a, rfl⟩ := exists_fin_of_le hx hx1
  obtain ⟨b, rfl⟩ := exists_fin_of_le hd hd1
  rw [zero_eq, fin_le_fin] at hx hd
  rw [one_eq, fin_le_fin] at hx1 hd1
  rw [fin_mul, zero_eq, fin_le_fin, fin_le_fin]
  exact ⟨mul_nonneg hx hd, mul_le_of_le_one_right hx hd1⟩

/-- Shares of exact numbers. -/
def shareOrder : ShareOrder ExtRat (ℤ ×ₗ ℚ) where
  toSumOrder := sumOrder
  share_mul := share_mul

end ExtRat

end MipPump
