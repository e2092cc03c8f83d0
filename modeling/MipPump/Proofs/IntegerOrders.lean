import MipPump.Proofs.Candidates
import MipPump.Proofs.FloatIntegers

/-!
# Integers in both arithmetics

The candidates of a run are integral, and what a perturbation makes of them is, too.  Both hold in
floating point as they do in exact arithmetic: an integer that is too large for a sum or a product is
rounded to another integer.  Two integers are never near one number.

* `Arith.Integral`: rounding to an integer leaves the value.
* `IntegerOrder`: what the proofs take of integers, in an arithmetic where numbers are ordered.
* `Binary64.integerOrder`, `ExtRat.integerOrder`: so it is in both arithmetics.
* `IntegerOrder.moveValue_between`: a move stays inside bounds that are in order.
* `IntegerOrder.none_of_isZero`, `IntegerOrder.near_of_isZero`: at distance zero no entry of a
  candidate is displaced, so every one is near the entry of the point.
-/

namespace MipPump

/-- Rounding to an integer leaves the value, if it is a number. -/
def Arith.Integral {R : Type} [Arith R] (x : R) : Prop :=
  Arith.isNaN x = false → (x == Arith.rint x) = true

/-- Integers among ordered numbers. -/
structure IntegerOrder (R Key : Type) [Arith R] [LinearOrder Key] extends MarginOrder R Key,
    ShareOrder R Key where
  integers : Arith.Integers (Arith.Integral : R → Prop)
  number_ofInt : ∀ n : ℤ, Arith.isNaN (Arith.ofInt n : R) = false
  number_add : ∀ {x y : R}, Arith.isNaN x = false → Arith.IsFinite y → Arith.isNaN (x + y) = false
  number_sub_of_finite : ∀ {x y : R}, Arith.IsFinite x → Arith.isNaN y = false →
    Arith.isNaN (x - y) = false
  finite_mul : ∀ {x : R}, Arith.IsFinite x → Arith.IsFinite (1 * x) ∧ Arith.IsFinite (-1 * x)
  lt_of_zero_add_lt : ∀ {b x : R}, 0 + x < b → x < b
  abs_nonneg : ∀ {x : R}, Arith.isNaN (Arith.abs x) = false → 0 ≤ Arith.abs x
  /-- Integers less than one half from one number are equal. -/
  beq_of_near : ∀ {x c d : R}, Arith.Integral c → Arith.Integral d →
    Arith.abs (x - c) < Arith.ratio 1 2 → Arith.abs (x - d) < Arith.ratio 1 2 → (c == d) = true

namespace IntegerOrder

variable {R Key : Type} [Arith R] [LinearOrder Key] (o : IntegerOrder R Key)
include o

theorem number_zero : Arith.isNaN (0 : R) = false := o.number_ofInt 0

section Moves

variable {lo hi x y : R}

/-- Numbers that are not ordered otherwise are equal. -/
theorem beq_of_not_lt (hx : Arith.isNaN x = false) (hy : Arith.isNaN y = false) (h : ¬ x < y)
    (h' : ¬ y < x) : (x == y) = true := by
  obtain ⟨-, -, hle⟩ := (o.le_iff y x).mp (o.le_of_not_lt hx hy h)
  obtain ⟨-, -, hle'⟩ := (o.le_iff x y).mp (o.le_of_not_lt hy hx h')
  exact (o.beq_iff x y).mpr ⟨hx, hy, le_antisymm hle' hle⟩

theorem clampBound_between (h : lo ≤ hi) (hx : Arith.isNaN x = false) :
    lo ≤ Arith.clampBound lo hi x ∧ Arith.clampBound lo hi x ≤ hi := by
  obtain ⟨hlo, hhi⟩ := o.numbers_of_le h
  unfold Arith.clampBound
  rw [hx, if_neg Bool.false_ne_true]
  dsimp only
  have hraised : lo ≤ if lo < x then x else lo := by
    split
    · exact o.le_of_lt ‹_›
    · exact o.le_of_number hlo
  generalize (if lo < x then x else lo) = z at hraised
  rw [(o.numbers_of_le hraised).2, if_neg Bool.false_ne_true]
  split
  · exact ⟨hraised, o.le_of_lt ‹_›⟩
  · exact ⟨h, o.le_of_number hhi⟩

/-- A move goes up or down. -/
theorem moveDirection_cases {current : R} (hx : Arith.IsFinite x)
    (hcurrent : Arith.isNaN current = false) (lb ub : R) :
    moveDirection x current lb ub = 1 ∨ moveDirection x current lb ub = -1 := by
  have hgap := o.number_sub_of_finite hx hcurrent
  unfold moveDirection
  dsimp only
  split_ifs with hzero
  · exact .inl rfl
  · exact .inr rfl
  · unfold Arith.sign at hzero ⊢
    split_ifs at hzero ⊢ with hpos hneg hsame
    · exact .inl rfl
    · exact .inr rfl
    · exact absurd ((o.beq_iff 0 0).mpr ⟨o.number_zero, o.number_zero, rfl⟩) hzero
    · exact absurd (o.beq_of_not_lt hgap o.number_zero hneg hpos) hsame

/-- A move of a number towards a finite one stays inside bounds that are in order. -/
theorem moveValue_between {lb ub current step : R} (hbounds : lb ≤ ub)
    (hcurrent : Arith.isNaN current = false) (hx : Arith.IsFinite x) (hstep : Arith.IsFinite step) :
    lb ≤ moveValue step x current lb ub ∧ moveValue step x current lb ub ≤ ub := by
  have hmove : Arith.IsFinite (moveDirection x current lb ub * step) := by
    rcases o.moveDirection_cases hx hcurrent lb ub with hd | hd <;> rw [hd]
    · exact (o.finite_mul hstep).1
    · exact (o.finite_mul hstep).2
  unfold moveValue
  dsimp only
  split_ifs
  · exact o.clampBound_between hbounds (o.number_sub hcurrent hmove)
  · exact o.clampBound_between hbounds (o.number_add hcurrent hmove)

end Moves

section Distances

variable {b : R} {t : Table R} {eps : R} {point candidate : List R} {d : Distance R}

/-- A sum of terms that are not negative is zero only if they are. -/
theorem splits_zero (hb : 0 < b) :
    Vec.Splits (fun x : R => Arith.isNaN x = false → 0 ≤ x) (fun x => (x == 0) = true) where
  zero _ := o.le_of_number o.number_zero
  add {x y} hx hy hnumber := by
    refine o.le_of_not_lt hnumber o.number_zero fun hlt => ?_
    obtain ⟨hnx, hny⟩ := o.numbers_of_add_lt hlt
    exact o.not_lt_self 0 (o.lt_of_add_zero_lt (o.add_lt_of_le (hx hnx) (hy hny) hlt))
  split {x y} hx hy hsum := by
    obtain ⟨hnumber, hzero, hkey⟩ := (o.beq_iff (x + y) 0).mp hsum
    have hle : x + y ≤ 0 := (o.le_iff _ _).mpr ⟨hnumber, hzero, hkey.le⟩
    obtain ⟨hnx, hny⟩ := o.numbers_of_add_lt (o.lt_of_le_of_lt hle hb)
    have hsame {z : R} (hz : 0 ≤ z) (hlow : ¬ 0 < z) : (z == 0) = true :=
      o.beq_of_not_lt (o.numbers_of_le hz).2 hzero (o.not_lt_of_le hz) hlow
    refine ⟨hsame (hx hnx) fun hpos => ?_, hsame (hy hny) fun hpos => ?_⟩
    · have hlt : x + y < x := o.lt_of_le_of_lt hle hpos
      exact o.not_lt_self x (o.lt_of_add_zero_lt
        (o.add_lt_of_le (o.le_of_number hnx) (hy hny) hlt))
    · have hlt : x + y < y := o.lt_of_le_of_lt hle hpos
      exact o.not_lt_self y (o.lt_of_zero_add_lt
        (o.add_lt_of_le (hx hnx) (o.le_of_number hny) hlt))

/-- At distance zero no entry of a candidate is displaced. -/
theorem none_of_isZero (hb : 0 < b) (hcandidate : candidate.length = t.numIntegers)
    (hmeasure : Distance.measure t eps point candidate = .ok d) (hzero : d.isZero = true) :
    ∀ w ∈ t.integers.zip candidate, ∃ x, Vec.at? point w.1 = some x ∧
      (Arith.abs (Distance.difference eps x w.2) == 0) = true := by
  obtain ⟨hvalue, habs, hgap⟩ := Distance.gaps_of_measure hcandidate hmeasure
  have hterms : ∀ g ∈ d.gaps, Arith.isNaN g = false → 0 ≤ g := fun g hg hnumber => by
    obtain ⟨z, rfl⟩ := habs g hg
    exact o.abs_nonneg hnumber
  have hgaps := (o.splits_zero hb).pairedSum hterms (hvalue ▸ hzero)
  intro w hw
  obtain ⟨x, hx, hmem⟩ := hgap w hw
  exact ⟨x, hx, hgaps _ hmem⟩

/-- An entry that is not displaced is near the entry of the point. -/
theorem near_of_isZero (hpos : 0 < eps) (hsmall : eps < Arith.ratio 1 2)
    (hcandidate : candidate.length = t.numIntegers)
    (hmeasure : Distance.measure t eps point candidate = .ok d) (hzero : d.isZero = true) :
    ∀ w ∈ t.integers.zip candidate, ∃ x, Vec.at? point w.1 = some x ∧
      Arith.abs (x - w.2) < Arith.ratio 1 2 := by
  intro w hw
  obtain ⟨x, hx, hnone⟩ := o.none_of_isZero hpos hcandidate hmeasure hzero w hw
  refine ⟨x, hx, ?_⟩
  unfold Distance.difference at hnone
  dsimp only at hnone
  split_ifs at hnone with hle
  · exact o.lt_of_le_of_lt hle hsmall
  · obtain ⟨hnumber, hzero, hkey⟩ := (o.beq_iff _ 0).mp hnone
    have hhalf : (0 : R) < Arith.ratio 1 2 := o.lt_of_lt_of_le hpos (o.le_of_lt hsmall)
    exact o.lt_of_le_of_lt ((o.le_iff _ _).mpr ⟨hnumber, hzero, hkey.le⟩) hhalf

end Distances

end IntegerOrder

namespace ExtRat

section Integers

variable {b x y c d : ExtRat}

/-- The integers and the values that are no number. -/
theorem integral_iff : Arith.Integral x ↔ NoFraction x := by
  refine ⟨fun h q hq => ?_, fun h hx => beq_rint_of_noFraction h (of_decide_eq_false hx)⟩
  subst hq
  exact noFraction_of_beq_rint (h rfl) q rfl

theorem integers : Arith.Integers (Arith.Integral : ExtRat → Prop) := by
  rw [show (Arith.Integral : ExtRat → Prop) = NoFraction from
    funext fun _ => propext integral_iff]
  exact integers_noFraction

theorem number_sub_of_finite (hx : Arith.IsFinite x) (hy : Arith.isNaN y = false) :
    Arith.isNaN (x - y) = false := by
  obtain ⟨q, rfl⟩ := isFinite_iff.mp hx
  cases y <;> first | rfl | cases hy

theorem exists_fin_of_near (h : Arith.abs (x - c) < Arith.ratio 1 2) :
    ∃ q r : ℚ, x = fin q ∧ c = fin r ∧ |q - r| < 1 / 2 := by
  have hhalf : (Arith.ratio 1 2 : ExtRat) = fin (1 / 2) := by decide +kernel
  rw [hhalf] at h
  cases x <;> cases c <;> try cases h
  rename_i q r
  rw [fin_sub, abs_fin, fin_lt_fin] at h
  exact ⟨q, r, rfl, rfl, h⟩

/-- Integers that are near one number are one integer. -/
theorem beq_of_near (hc : Arith.Integral c) (hd : Arith.Integral d)
    (hxc : Arith.abs (x - c) < Arith.ratio 1 2) (hxd : Arith.abs (x - d) < Arith.ratio 1 2) :
    (c == d) = true := by
  obtain ⟨q, r, rfl, rfl, hnear⟩ := exists_fin_of_near hxc
  obtain ⟨q', r', hq, rfl, hnear'⟩ := exists_fin_of_near hxd
  obtain rfl := fin.inj hq
  obtain ⟨m, rfl⟩ := integral_iff.mp hc r rfl
  obtain ⟨n, rfl⟩ := integral_iff.mp hd r' rfl
  have hlt : |(m : ℚ) - n| < 1 := by
    calc |(m : ℚ) - n| = |(q - n) - (q - m)| := by ring_nf
      _ ≤ |q - n| + |q - m| := abs_sub _ _
      _ < 1 := by linarith
  have hint : |m - n| < 1 := by exact_mod_cast hlt
  rw [fin_beq_fin, sub_eq_zero.mp (Int.abs_lt_one_iff.mp hint)]
  exact decide_eq_true rfl

theorem number_ofInt (n : ℤ) : Arith.isNaN (Arith.ofInt n : ExtRat) = false := rfl

theorem number_add_of_finite (hx : Arith.isNaN x = false) (hy : Arith.IsFinite y) :
    Arith.isNaN (x + y) = false := by
  obtain ⟨q, rfl⟩ := isFinite_iff.mp hy
  cases x <;> first | rfl | cases hx

theorem isFinite_mul (hx : Arith.IsFinite x) :
    Arith.IsFinite (1 * x) ∧ Arith.IsFinite (-1 * x) := by
  obtain ⟨q, rfl⟩ := isFinite_iff.mp hx
  exact ⟨isFinite_iff.mpr ⟨_, rfl⟩, isFinite_iff.mpr ⟨_, rfl⟩⟩

theorem lt_of_zero_add_lt (h : 0 + x < b) : x < b := by
  cases x with
  | fin q => rwa [zero_eq, fin_add, zero_add] at h
  | _ => exact h

theorem le_abs_of_number (hx : Arith.isNaN (Arith.abs x) = false) : 0 ≤ Arith.abs x := by
  cases x with
  | fin q =>
      rw [abs_fin, zero_eq, fin_le_fin]
      exact abs_nonneg q
  | nan => cases hx
  | _ => exact le_posInf_iff.mpr (fin_ne_nan 0)

end Integers

/-- Integers among the exact numbers. -/
def integerOrder : IntegerOrder ExtRat (ℤ ×ₗ ℚ) where
  toMarginOrder := marginOrder
  share_mul := share_mul
  integers := integers
  number_ofInt := number_ofInt
  number_add := number_add_of_finite
  number_sub_of_finite := number_sub_of_finite
  finite_mul := isFinite_mul
  lt_of_zero_add_lt := lt_of_zero_add_lt
  abs_nonneg := le_abs_of_number
  beq_of_near := beq_of_near

section Distances

variable {t : Table ExtRat} {eps : ℚ} {point candidate : List ExtRat} {d : Distance ExtRat}

/-- A value that is not displaced is finite. -/
theorem exists_fin_of_difference {x y : ExtRat}
    (h : (Arith.abs (Distance.difference (fin eps) x y) == 0) = true) : ∃ q, y = fin q := by
  unfold Distance.difference at h
  cases x <;> cases y <;> first | exact ⟨_, rfl⟩ | cases h

/-- A candidate at distance zero from a point is finite. -/
theorem exists_map_fin_of_isZero (hcandidate : candidate.length = t.numIntegers)
    (hmeasure : Distance.measure t (fin eps) point candidate = .ok d)
    (hzero : d.isZero = true) : ∃ c : List ℚ, candidate = c.map fin := by
  refine exists_map_fin fun y hy => ?_
  rw [← List.map_snd_zip (Nat.le_of_eq hcandidate)] at hy
  obtain ⟨w, hw, rfl⟩ := List.mem_map.mp hy
  have hone : (0 : ExtRat) < 1 := by decide +kernel
  obtain ⟨x, -, hnone⟩ := integerOrder.none_of_isZero hone hcandidate hmeasure hzero w hw
  exact exists_fin_of_difference hnone

end Distances

end ExtRat

namespace Binary64

open Float.Model Float.Model.UnpackedFloat

section Integers

variable {b x y : Float}

/-- The integers and the values that are no number. -/
theorem integral_iff : Arith.Integral x ↔ (unity : ℤ) ∣ units x.toModel.unpack := by
  unfold Arith.Integral
  rw [isNaN_eq_false_iff, beq_rint_iff]
  refine ⟨fun h => ?_, fun h hx => ⟨hx, h⟩⟩
  by_cases hx : x.toModel.unpack = .notANumber
  · rw [hx]
    exact dvd_zero _
  · exact (h hx).2

theorem ofInt_integral (n : ℤ) : (Arith.ofInt n : Float).toModel.unpack ≠ .notANumber ∧
    (unity : ℤ) ∣ units (Arith.ofInt n : Float).toModel.unpack := by
  cases n with
  | ofNat n => exact unity_dvd_ofNat n
  | negSucc n =>
      obtain ⟨hnumber, hdvd⟩ := unity_dvd_ofNat (n + 1)
      refine ⟨minus_ne_notANumber hnumber, ?_⟩
      have hunits : units (Arith.ofInt (Int.negSucc n) : Float).toModel.unpack =
          -units (Float.ofNat (n + 1)).toModel.unpack := units_minus _
      exact hunits ▸ hdvd.neg_right

theorem integral_floor (x : Float) : Arith.Integral (Arith.floor x) := by
  show Arith.Integral (floor x)
  unfold floor
  exact integral_iff.mpr (unity_dvd_integral _ x).2

theorem integral_ceil (x : Float) : Arith.Integral (Arith.ceil x) := by
  show Arith.Integral (ceil x)
  unfold ceil
  exact integral_iff.mpr (unity_dvd_integral _ x).2

/-- What is neither above nor below zero, nor equal to it, is no number. -/
theorem integral_sign (x : Float) : Arith.Integral (Arith.sign x) := by
  unfold Arith.sign
  have hone : (unity : ℤ) ∣ units (-(Arith.ofInt 1 : Float)).toModel.unpack := by
    rw [units_minus]
    exact (ofInt_integral 1).2.neg_right
  split_ifs with hpos hneg hzero
  · exact integral_iff.mpr (ofInt_integral 1).2
  · exact integral_iff.mpr hone
  · exact integral_iff.mpr (ofInt_integral 0).2
  · intro hnumber
    obtain ⟨h0, -⟩ := ofInt_integral 0
    rw [isNaN_eq_false_iff] at hnumber
    rcases lt_trichotomy (units x.toModel.unpack) (units (0 : Float).toModel.unpack) with h | h | h
    · exact absurd (lt_iff_units.mpr ⟨hnumber, h0, h⟩) hneg
    · exact absurd (beq_iff_units.mpr ⟨hnumber, h0, h⟩) hzero
    · exact absurd (lt_iff_units.mpr ⟨h0, hnumber, h⟩) hpos

/-- The integers among the floating-point numbers are closed under the operations of a move. -/
theorem integers : Arith.Integers (Arith.Integral : Float → Prop) where
  ofInt n := integral_iff.mpr (ofInt_integral n).2
  floor := integral_floor
  ceil := integral_ceil
  sign := integral_sign
  neg {x} hx := integral_iff.mpr (units_minus x ▸ (integral_iff.mp hx).neg_right)
  add hx hy := integral_iff.mpr (unity_dvd_add (integral_iff.mp hx) (integral_iff.mp hy))
  sub {x y} hx hy := by
    rw [sub_eq_add_minus]
    refine integral_iff.mpr (unity_dvd_add (integral_iff.mp hx) ?_)
    exact units_minus y ▸ (integral_iff.mp hy).neg_right
  mul hx hy := integral_iff.mpr (unity_dvd_mul (integral_iff.mp hx) (integral_iff.mp hy))

theorem bounded_iff : Bounded x.toModel.unpack ↔ Arith.IsFinite x := by
  rw [isFinite_iff]
  cases x.toModel.unpack <;> simp [Bounded]

theorem isNaN_sub_of_finite (hx : Arith.IsFinite x) (hy : Arith.isNaN y = false) :
    Arith.isNaN (x - y) = false := by
  rw [isNaN_eq_false_iff] at hy ⊢
  obtain ⟨hnx, hfinite⟩ := isFinite_iff.mp hx
  rw [sub_eq_add_minus]
  intro hnan
  rcases infinities_of_add hnx (minus_ne_notANumber hy) hnan with ⟨h, -⟩ | ⟨h, -⟩
  · exact hfinite _ h
  · exact hfinite _ h

/-- A number with the value of a finite one is finite. -/
theorem bounded_of_same (hx : x.toModel.unpack ≠ .notANumber) (hy : Bounded y.toModel.unpack)
    (h : units x.toModel.unpack = units y.toModel.unpack) : Bounded x.toModel.unpack := by
  refine bounded_of_units hx (h ▸ lt_of_not_ge fun hlow => ?_) (h ▸ lt_of_not_ge fun hhigh => ?_)
  · rwa [(infinity_of_units y).2 hlow] at hy
  · rwa [(infinity_of_units y).1 hhigh] at hy

/-- One and minus one leave a number finite. -/
theorem isFinite_mul (hx : Arith.IsFinite x) :
    Arith.IsFinite (1 * x) ∧ Arith.IsFinite (-1 * x) := by
  have hneg := bounded_iff.mpr (isFinite_neg hx)
  have hone := bounded_one
  have hminus : Bounded (-1 : Float).toModel.unpack := by
    rw [unpack_neg, unpack_one]
    trivial
  rw [← bounded_iff] at hx
  have hunits : units (1 * x).toModel.unpack = units x.toModel.unpack := by
    rw [units_mul hone hx, units_one, mul_comm, roundedInt_unity hx]
  have hunits' : units (-1 * x).toModel.unpack = units (-x).toModel.unpack := by
    rw [units_mul hminus hx, units_minus, units_one, neg_mul, mul_comm, ← neg_mul, ← units_minus,
      roundedInt_unity hneg]
  exact ⟨bounded_iff.mp (bounded_of_same (mul_ne_notANumber hone hx) hx hunits),
    bounded_iff.mp (bounded_of_same (mul_ne_notANumber hminus hx) hneg hunits')⟩

theorem sum_comm (x y : Float) : x + y = y + x := by
  refine unpack_inj ?_
  rw [unpack_add, unpack_add]
  generalize x.toModel.unpack = u
  generalize y.toModel.unpack = v
  congr 2
  rcases u with s | _ | s | ⟨s, m, e, hm⟩ <;> rcases v with s' | _ | s' | ⟨s', m', e', hm'⟩ <;>
    try rfl
  · cases s <;> cases s' <;> rfl
  · cases s <;> cases s' <;> rfl
  · show UnpackedFloat.normalize .binary64 _ (min e e') _ =
      UnpackedFloat.normalize .binary64 _ (min e' e) _
    rw [min_comm, Int.add_comm]

theorem lt_of_zero_add_lt (h : 0 + x < b) : x < b :=
  lt_of_add_zero_lt (sum_comm 0 x ▸ h)

theorem le_abs_of_number (hx : Arith.isNaN (Arith.abs x) = false) : 0 ≤ Arith.abs x := by
  refine le_iff_units.mpr ⟨(ofInt_integral 0).1, isNaN_eq_false_iff.mp hx, ?_⟩
  exact (units_abs x).symm ▸ units_zero.trans_le (abs_nonneg _)

end Integers

/-- Integers among the floating-point numbers. -/
def integerOrder : IntegerOrder Float (ℤ ×ₗ ℤ ×ₗ ℤ) where
  toMarginOrder := marginOrder
  share_mul := share_mul
  integers := integers
  number_ofInt n := isNaN_eq_false_iff.mpr (ofInt_integral n).1
  number_add hx hy := isNaN_add hx hy.1 hy.2
  number_sub_of_finite := isNaN_sub_of_finite
  finite_mul := isFinite_mul
  lt_of_zero_add_lt := lt_of_zero_add_lt
  abs_nonneg := le_abs_of_number
  beq_of_near hc hd := beq_of_near (integral_iff.mp hc) (integral_iff.mp hd)

end Binary64

end MipPump
