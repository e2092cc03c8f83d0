import MipPump.Proofs.RoundedSums

/-!
# Orders and sums

Propagation compares a bound with another one that was moved by a tolerance.  All that it takes of
the sum is its order: when the terms move the sum does not move the other way.  Exact sums have that
property, and so have the rounded ones.

* `SumOrder`: comparisons with sums and differences go by the order of the numbers.
* `MarginOrder`: margins that are finite are taken from every number.
* `ExtRat.sumOrder`, `Binary64.sumOrder`, `ExtRat.marginOrder`, `Binary64.marginOrder`: so it is in
  both arithmetics.
* `SumOrder.lt_of_lt_sub`, `SumOrder.lt_of_add_lt`: what is beyond a bound and a margin is beyond
  the bound.
-/

namespace MipPump

/-- Comparisons with sums and differences go by the order of the numbers.  Nothing is said of how
large a sum is, so the laws hold of sums that are rounded. -/
structure SumOrder (R Key : Type) [Arith R] [LinearOrder Key] extends NumberOrder R Key where
  le_iff : ∀ x y : R, x ≤ y ↔ Arith.isNaN x = false ∧ Arith.isNaN y = false ∧ key x ≤ key y
  beq_iff : ∀ x y : R,
    (x == y) = true ↔ Arith.isNaN x = false ∧ Arith.isNaN y = false ∧ key x = key y
  lt_sub_of_le : ∀ {b x x' y y' : R}, x ≤ x' → y' ≤ y → b < x - y → b < x' - y'
  add_lt_of_le : ∀ {b x x' y y' : R}, x' ≤ x → y' ≤ y → x + y < b → x' + y' < b
  lt_of_lt_sub_zero : ∀ {b x : R}, b < x - 0 → b < x
  lt_of_add_zero_lt : ∀ {b x : R}, x + 0 < b → x < b
  numbers_of_lt_sub : ∀ {b x y : R}, b < x - y → Arith.isNaN x = false ∧ Arith.isNaN y = false
  numbers_of_add_lt : ∀ {b x y : R}, x + y < b → Arith.isNaN x = false ∧ Arith.isNaN y = false

/-- Finite margins besides: they can be taken from every number and lead from infinity not back to
the finite numbers. -/
structure MarginOrder (R Key : Type) [Arith R] [LinearOrder Key] extends SumOrder R Key where
  number_sub : ∀ {x y : R}, Arith.isNaN x = false → Arith.IsFinite y → Arith.isNaN (x - y) = false
  lt_infinity_sub : ∀ {x y : R}, Arith.IsFinite x → Arith.IsFinite y → x < Arith.infinity - y
  finite_of_between : ∀ {x y z : R}, x < y → y < z → Arith.IsFinite y

namespace SumOrder

section Numbers

variable {R Key : Type} [Arith R] [LinearOrder Key] (o : SumOrder R Key) {b m x y z : R}
include o

theorem not_lt_self (x : R) : ¬ x < x := fun h => lt_irrefl _ ((o.lt_iff x x).mp h).2.2

theorem numbers_of_le (h : x ≤ y) : Arith.isNaN x = false ∧ Arith.isNaN y = false :=
  ((o.le_iff x y).mp h).imp_right And.left

theorem le_of_number (hx : Arith.isNaN x = false) : x ≤ x := (o.le_iff x x).mpr ⟨hx, hx, le_rfl⟩

theorem le_of_lt (h : x < y) : x ≤ y :=
  (o.le_iff x y).mpr (((o.lt_iff x y).mp h).imp_right (And.imp_right LT.lt.le))

theorem le_trans (h : x ≤ y) (h' : y ≤ z) : x ≤ z := by
  obtain ⟨hx, -, hxy⟩ := (o.le_iff x y).mp h
  obtain ⟨-, hz, hyz⟩ := (o.le_iff y z).mp h'
  exact (o.le_iff x z).mpr ⟨hx, hz, hxy.trans hyz⟩

theorem lt_of_lt_of_le (h : x < y) (h' : y ≤ z) : x < z := by
  obtain ⟨hx, -, hxy⟩ := (o.lt_iff x y).mp h
  obtain ⟨-, hz, hyz⟩ := (o.le_iff y z).mp h'
  exact (o.lt_iff x z).mpr ⟨hx, hz, hxy.trans_le hyz⟩

theorem lt_of_le_of_lt (h : x ≤ y) (h' : y < z) : x < z := by
  obtain ⟨hx, -, hxy⟩ := (o.le_iff x y).mp h
  obtain ⟨-, hz, hyz⟩ := (o.lt_iff y z).mp h'
  exact (o.lt_iff x z).mpr ⟨hx, hz, hxy.trans_lt hyz⟩

theorem not_lt_of_le (h : x ≤ y) : ¬ y < x := fun h' => o.not_lt_self y (o.lt_of_lt_of_le h' h)

theorem le_of_not_lt (hx : Arith.isNaN x = false) (hy : Arith.isNaN y = false) (h : ¬ x < y) :
    y ≤ x :=
  (o.le_iff y x).mpr ⟨hy, hx, le_of_not_gt fun hlt => h ((o.lt_iff x y).mpr ⟨hx, hy, hlt⟩)⟩

/-- Equal numbers are not below each other. -/
theorem le_of_beq (h : (x == y) = true) : y ≤ x := by
  obtain ⟨hx, hy, heq⟩ := (o.beq_iff x y).mp h
  exact (o.le_iff y x).mpr ⟨hy, hx, heq.ge⟩

/-- What is below a bound by more than a margin is below the bound. -/
theorem lt_of_lt_sub (hm : 0 ≤ m) (h : b < x - m) : b < x :=
  o.lt_of_lt_sub_zero (o.lt_sub_of_le (o.le_of_number (o.numbers_of_lt_sub h).1) hm h)

/-- What is above a bound by more than a margin is above the bound. -/
theorem lt_of_add_lt (hm : 0 ≤ m) (h : x + m < b) : x < b :=
  o.lt_of_add_zero_lt (o.add_lt_of_le (o.le_of_number (o.numbers_of_add_lt h).1) hm h)

/-- A margin does not raise a number. -/
theorem sub_le (hm : 0 ≤ m) (hx : Arith.isNaN x = false) (hsub : Arith.isNaN (x - m) = false) :
    x - m ≤ x := o.le_of_not_lt hx hsub fun h => o.not_lt_self x (o.lt_of_lt_sub hm h)

theorem le_larger (hx : Arith.isNaN x = false) (y : R) : x ≤ Arith.larger x y := by
  unfold Arith.larger
  split_ifs with h
  · exact o.le_of_lt h
  · exact o.le_of_number hx

end Numbers

end SumOrder

/-- Infinity is a number. -/
theorem MarginOrder.isNaN_infinity {R Key : Type} [Arith R] [LinearOrder Key]
    (o : MarginOrder R Key) {x : R} (hx : Arith.IsFinite x) :
    Arith.isNaN (Arith.infinity : R) = false :=
  (o.numbers_of_lt_sub (o.lt_infinity_sub hx hx)).1

namespace ExtRat

section Sums

variable {b x x' y y' : ExtRat}

theorem minus_le_minus_iff : -x ≤ -y ↔ y ≤ x := by
  cases x <;> cases y <;> simp

theorem minus_add (x y : ExtRat) : -(x + y) = -x + -y := by
  cases x <;> cases y <;> first | rfl | exact congrArg fin (neg_add _ _)

theorem lt_posInf_of_lt (h : b < x) : b < posInf := by
  cases b <;> simp at h ⊢

theorem not_lt_negInf_add : ¬ b < negInf + y := by
  cases y <;> first | exact not_lt_negInf | exact not_lt_nan

theorem not_lt_add_negInf : ¬ b < x + negInf := by
  cases x <;> first | exact not_lt_negInf | exact not_lt_nan

/-- Numbers in order are finite, unless the lower one is below or the upper one above all
others. -/
theorem cases_of_le (h : x ≤ y) :
    x = negInf ∨ y = posInf ∨ ∃ p q, x = fin p ∧ y = fin q ∧ p ≤ q := by
  cases x <;> cases y <;> simp at h ⊢
  exact h

/-- What is below a sum is below the sum of greater numbers. -/
theorem lt_add_of_le (hx : x ≤ x') (hy : y ≤ y') (h : b < x + y) : b < x' + y' := by
  have hb := lt_posInf_of_lt h
  rcases cases_of_le hx with rfl | rfl | ⟨p, p', rfl, rfl, hp⟩
  · exact absurd h not_lt_negInf_add
  · rcases cases_of_le hy with rfl | rfl | ⟨q, q', rfl, rfl, hq⟩
    · exact absurd h not_lt_add_negInf
    · exact hb
    · exact hb
  · rcases cases_of_le hy with rfl | rfl | ⟨q, q', rfl, rfl, hq⟩
    · exact absurd h not_lt_add_negInf
    · exact hb
    · rw [fin_add] at h ⊢
      cases b <;> simp at h ⊢
      linarith

theorem add_lt_of_le (hx : x' ≤ x) (hy : y' ≤ y) (h : x + y < b) : x' + y' < b := by
  rw [← numberOrder.neg_lt_neg_iff, minus_add] at h ⊢
  exact lt_add_of_le (minus_le_minus_iff.mpr hx) (minus_le_minus_iff.mpr hy) h

theorem add_fin_zero (x : ExtRat) : x + 0 = x := by
  cases x
  case fin q => simp
  all_goals rfl

theorem sub_fin_zero (x : ExtRat) : x - 0 = x := by
  cases x
  case fin q => simp
  all_goals rfl

theorem numbers_of_add (h : x + y ≠ nan) : Arith.isNaN x = false ∧ Arith.isNaN y = false := by
  cases x <;> cases y <;> first | exact ⟨rfl, rfl⟩ | exact absurd rfl h

end Sums

/-- The order of exact sums. -/
def sumOrder : SumOrder ExtRat (ℤ ×ₗ ℚ) where
  toNumberOrder := numberOrder
  le_iff x y := by
    cases x <;> cases y <;> simp [numberOrder, orderKey, Prod.Lex.toLex_le_toLex, Arith.isNaN]
  beq_iff x y := by
    cases x <;> cases y <;> simp [numberOrder, orderKey, Arith.isNaN] <;> rfl
  lt_sub_of_le hx hy := lt_add_of_le hx (minus_le_minus_iff.mpr hy)
  add_lt_of_le := add_lt_of_le
  lt_of_lt_sub_zero {b x} h := by rwa [sub_fin_zero] at h
  lt_of_add_zero_lt {b x} h := by rwa [add_fin_zero] at h
  numbers_of_lt_sub {b x y} h := by
    change b < x + -y at h
    have hneg := numbers_of_add fun hnan => not_lt_nan (hnan ▸ h)
    refine ⟨hneg.1, ?_⟩
    cases y <;> first | rfl | exact absurd hneg.2 (by decide)
  numbers_of_add_lt h := numbers_of_add fun hnan => not_nan_lt (hnan ▸ h)

/-- Margins of exact numbers. -/
def marginOrder : MarginOrder ExtRat (ℤ ×ₗ ℚ) where
  toSumOrder := sumOrder
  number_sub {x y} hx hy := by
    obtain ⟨q, rfl⟩ := isFinite_iff.mp hy
    cases x <;> first | rfl | cases hx
  lt_infinity_sub {x y} hx hy := by
    obtain ⟨q, rfl⟩ := isFinite_iff.mp hx
    obtain ⟨r, rfl⟩ := isFinite_iff.mp hy
    exact fin_lt_posInf q
  finite_of_between {x y z} hxy hyz := by
    rw [isFinite_iff]
    cases y with
    | fin q => exact ⟨q, rfl⟩
    | nan => exact absurd hxy not_lt_nan
    | negInf => exact absurd hxy not_lt_negInf
    | posInf => exact absurd hyz not_posInf_lt

end ExtRat

namespace Binary64

open Float.Model Float.Model.UnpackedFloat

section Differences

variable {b x x' y y' : Float}

theorem units_neg (u : UnpackedFloat) : units u.neg = -units u := by
  have happly (s : Sign) (n : ℤ) : (-s).apply n = -s.apply n := by
    cases s
    · exact (neg_neg n).symm
    · rfl
  cases u
  · exact happly _ _
  · rfl
  · rfl
  · exact happly _ _

theorem neg_eq_notANumber_iff {u : UnpackedFloat} : u.neg = .notANumber ↔ u = .notANumber := by
  cases u <;> simp [UnpackedFloat.neg]

theorem neg_le_neg_of_le (h : y' ≤ y) : -y ≤ -y' := by
  obtain ⟨hy', hy, hle⟩ := le_iff_units.mp h
  rw [le_iff_units, unpack_neg, unpack_neg, units_neg, units_neg, ne_eq, ne_eq,
    neg_eq_notANumber_iff, neg_eq_notANumber_iff]
  exact ⟨hy, hy', Int.neg_le_neg hle⟩

theorem lt_sub_of_le (hx : x ≤ x') (hy : y' ≤ y) (h : b < x - y) : b < x' - y' := by
  rw [sub_eq_add_minus] at h ⊢
  exact lt_add_of_le hx (neg_le_neg_of_le hy) h

theorem lt_of_lt_sub_zero (h : b < x - 0) : b < x := by
  rw [sub_eq_add_minus, lt_iff_units] at h
  obtain ⟨hb, hsum, hlt⟩ := h
  have hzero : units (-0 : Float).toModel.unpack = 0 := by rw [unpack_negZero]; rfl
  rw [units_add_zero hzero hsum] at hlt
  exact lt_iff_units.mpr ⟨hb, (numbers_of_add hsum).1, hlt⟩

theorem units_zero : units (0 : Float).toModel.unpack = 0 := by
  rw [unpack_zero]
  rfl

theorem lt_of_add_zero_lt (h : x + 0 < b) : x < b := by
  obtain ⟨hsum, hb, hlt⟩ := lt_iff_units.mp h
  rw [units_add_zero units_zero hsum] at hlt
  exact lt_iff_units.mpr ⟨(numbers_of_add hsum).1, hb, hlt⟩

theorem numbers_of_add_lt (h : x + y < b) : Arith.isNaN x = false ∧ Arith.isNaN y = false := by
  rw [isNaN_eq_false_iff, isNaN_eq_false_iff]
  exact numbers_of_add (lt_iff_units.mp h).1

theorem numbers_of_lt_sub (h : b < x - y) : Arith.isNaN x = false ∧ Arith.isNaN y = false := by
  rw [sub_eq_add_minus, lt_iff_units] at h
  have hterms := numbers_of_add h.2.1
  rw [unpack_neg, ne_eq, ne_eq, neg_eq_notANumber_iff] at hterms
  rwa [isNaN_eq_false_iff, isNaN_eq_false_iff]

theorem le_iff_key : x ≤ y ↔ Arith.isNaN x = false ∧ Arith.isNaN y = false ∧
    numberOrder.key x ≤ numberOrder.key y :=
  (le_iff_unpacked x y).trans (unpacked_le_iff _ _)

theorem beq_iff_key : (x == y) = true ↔ Arith.isNaN x = false ∧ Arith.isNaN y = false ∧
    numberOrder.key x = numberOrder.key y :=
  unpacked_beq_iff _ _

end Differences

/-- The order of rounded sums. -/
def sumOrder : SumOrder Float (ℤ ×ₗ ℤ ×ₗ ℤ) where
  toNumberOrder := numberOrder
  le_iff _ _ := le_iff_key
  beq_iff _ _ := beq_iff_key
  lt_sub_of_le := lt_sub_of_le
  add_lt_of_le := add_lt_of_le
  lt_of_lt_sub_zero := lt_of_lt_sub_zero
  lt_of_add_zero_lt := lt_of_add_zero_lt
  numbers_of_lt_sub := numbers_of_lt_sub
  numbers_of_add_lt := numbers_of_add_lt

section Margins

variable {x y z : Float}

theorem isFinite_iff : Arith.IsFinite x ↔
    x.toModel.unpack ≠ .notANumber ∧ ∀ s, x.toModel.unpack ≠ .infinity s := by
  show _ ∧ x.toModel.unpack.isInf = false ↔ _
  rw [isNaN_eq_false_iff]
  cases x.toModel.unpack <;> simp [UnpackedFloat.isInf]

theorem isFinite_neg (hx : Arith.IsFinite x) : Arith.IsFinite (-x) := by
  rw [isFinite_iff] at hx ⊢
  rw [unpack_neg]
  cases hu : x.toModel.unpack <;> simp_all [UnpackedFloat.neg]

theorem isNaN_sub (hx : Arith.isNaN x = false) (hy : Arith.IsFinite y) :
    Arith.isNaN (x - y) = false := by
  rw [sub_eq_add_minus]
  exact isNaN_add hx (isFinite_neg hy).1 (isFinite_neg hy).2

theorem unpack_infinity : (Arith.infinity : Float).toModel.unpack = .infinity .positive := rfl

/-- Infinity stays where it is when a finite number is taken from it. -/
theorem lt_infinity_sub (hx : Arith.IsFinite x) (hy : Arith.IsFinite y) :
    x < Arith.infinity - y := by
  have hnumber : Arith.isNaN (Arith.infinity - y) = false := isNaN_sub rfl hy
  rw [sub_eq_add_minus, isNaN_eq_false_iff] at hnumber
  have htop := unpack_add_infinity hnumber (.inl unpack_infinity)
  rw [sub_eq_add_minus, lt_iff_units, htop]
  refine ⟨(isFinite_iff.mp hx).1, nofun, lt_of_not_ge fun hle => ?_⟩
  exact (isFinite_iff.mp hx).2 _ ((infinity_of_units x).1 hle)

/-- What lies between two numbers is finite. -/
theorem isFinite_of_between (hxy : x < y) (hyz : y < z) : Arith.IsFinite y := by
  obtain ⟨-, hy, hlow⟩ := lt_iff_units.mp hxy
  obtain ⟨-, -, hhigh⟩ := lt_iff_units.mp hyz
  refine isFinite_iff.mpr ⟨hy, fun s hs => ?_⟩
  rw [hs] at hlow hhigh
  cases s with
  | negative => exact absurd (units_bounds x).1 (not_le_of_gt hlow)
  | positive => exact absurd (units_bounds z).2 (not_le_of_gt hhigh)

end Margins

/-- Margins of rounded numbers. -/
def marginOrder : MarginOrder Float (ℤ ×ₗ ℤ ×ₗ ℤ) where
  toSumOrder := sumOrder
  number_sub := isNaN_sub
  lt_infinity_sub := lt_infinity_sub
  finite_of_between := isFinite_of_between

end Binary64

end MipPump
