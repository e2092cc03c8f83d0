import MipPump.Proofs.RoundedValues

/-!
# Rounded sums of floating-point numbers

The sum of two floating-point numbers is the rounded sum of their values.  Rounding is monotone, so
sums keep the order of their terms, also where they overflow and where terms are infinite.

* `key_lt_iff`, `key_le_iff`: numbers are ordered as their values in units are.
* `roundedInt`: an integer rounded to the units of a number; `roundedInt_mono`.
* `units_add`: the value of a sum of finite numbers; `unpack_add_infinity`: a sum with an infinity.
* `units_add_mono`: the sum of greater numbers is not less.
* `lt_add_of_le`, `add_lt_of_le`: comparisons with a sum when its terms move.
* `units_add_zero`: adding a zero leaves the value; `sub_eq_add_minus`: a difference is a sum.
-/

namespace MipPump
namespace Binary64

open Float.Model Float.Model.UnpackedFloat

section Orders

theorem units_finite_bounds {s : Sign} {m : ℕ} {e : ℤ} {hm : 0 < m}
    (h : Stored (.finite s m e hm)) :
    0 < m * 2 ^ (e + 1074).toNat ∧ m * 2 ^ (e + 1074).toNat < beyond :=
  ⟨Nat.mul_pos hm (Nat.two_pow_pos _), mul_lt_beyond h.1 h.2.2.1⟩

theorem beyond_pos : 0 < beyond := by
  unfold beyond
  exact pow_pos two_pos _

/-- A greater exponent, or the same one with a greater mantissa, gives a greater number. -/
theorem mul_lt_mul_of_exponent {m m' : ℕ} {e e' : ℤ} {hm : 0 < m} {hm' : 0 < m'} {s s' : Sign}
    (h : Stored (.finite s m e hm)) (h' : Stored (.finite s' m' e' hm'))
    (hlt : e < e' ∨ e = e' ∧ m < m') :
    m * 2 ^ (e + 1074).toNat < m' * 2 ^ (e' + 1074).toNat := by
  obtain ⟨hbits, hlow, -, -⟩ := h
  obtain ⟨-, -, -, hfull⟩ := h'
  rcases hlt with hlt | ⟨rfl, hlt⟩
  · calc m * 2 ^ (e + 1074).toNat < 2 ^ 53 * 2 ^ (e + 1074).toNat :=
          Nat.mul_lt_mul_of_pos_right hbits (Nat.two_pow_pos _)
      _ = 2 ^ 52 * 2 ^ ((e + 1074).toNat + 1) := by ring
      _ ≤ 2 ^ 52 * 2 ^ (e' + 1074).toNat :=
          Nat.mul_le_mul_left _ (Nat.pow_le_pow_right (by decide) (by omega))
      _ ≤ m' * 2 ^ (e' + 1074).toNat := Nat.mul_le_mul_right _ (hfull.resolve_right (by omega))
  · exact Nat.mul_lt_mul_of_pos_right hlt (Nat.two_pow_pos _)

/-- On which side of zero a number lies, and whether it is an infinity. -/
def side (u : UnpackedFloat) : ℤ := (ofLex (orderKey u)).1

theorem units_side {u : UnpackedFloat} (h : Stored u) :
    side u = -2 ∧ units u = -beyond ∨ side u = -1 ∧ -beyond < units u ∧ units u < 0 ∨
      side u = 0 ∧ units u = 0 ∨ side u = 1 ∧ 0 < units u ∧ units u < beyond ∨
      side u = 2 ∧ units u = beyond := by
  rcases u with (_ | _) | _ | _ | ⟨_ | _, m, e, hm⟩
  case infinity.negative => exact .inl ⟨rfl, rfl⟩
  case infinity.positive => exact .inr (.inr (.inr (.inr ⟨rfl, rfl⟩)))
  case notANumber => exact .inr (.inr (.inl ⟨rfl, rfl⟩))
  case zero => exact .inr (.inr (.inl ⟨rfl, rfl⟩))
  case finite.negative =>
    obtain ⟨hpos, hlt⟩ := units_finite_bounds h
    exact .inr (.inl ⟨rfl, Int.neg_lt_neg (Int.ofNat_lt.mpr hlt),
      Int.neg_neg_of_pos (Int.natCast_pos.mpr hpos)⟩)
  case finite.positive =>
    obtain ⟨hpos, hlt⟩ := units_finite_bounds h
    exact .inr (.inr (.inr (.inl ⟨rfl, Int.natCast_pos.mpr hpos, Int.ofNat_lt.mpr hlt⟩)))

theorem units_lt_of_key {u v : UnpackedFloat} (hu : Stored u) (hv : Stored v)
    (h : orderKey u < orderKey v) : units u < units v := by
  have hsides := units_side hu
  have hsides' := units_side hv
  have htop := beyond_pos
  rcases Prod.Lex.lt_iff.mp h with hside | ⟨hside, hrest⟩
  · change side u < side v at hside
    omega
  · -- two numbers on one side of zero
    rcases u with (_ | _) | _ | _ | ⟨_ | _, m, e, hm⟩ <;>
    rcases v with (_ | _) | _ | _ | ⟨_ | _, m', e', hm'⟩ <;>
    simp [orderKey, Prod.Lex.toLex_lt_toLex] at hside hrest
    · have hlt := mul_lt_mul_of_exponent hv hu (by omega)
      simp only [units, Sign.apply]
      omega
    · have hlt := mul_lt_mul_of_exponent hu hv hrest
      simp only [units, Sign.apply]
      omega

theorem units_eq_of_key {u v : UnpackedFloat} (h : orderKey u = orderKey v) :
    units u = units v := by
  rcases u with (_ | _) | _ | _ | ⟨_ | _, m, e, hm⟩ <;>
  rcases v with (_ | _) | _ | _ | ⟨_ | _, m', e', hm'⟩ <;>
  simp [orderKey] at h <;> simp [units, h]

/-- Numbers are ordered as their values are. -/
theorem key_lt_iff {u v : UnpackedFloat} (hu : Stored u) (hv : Stored v) :
    orderKey u < orderKey v ↔ units u < units v := by
  refine ⟨units_lt_of_key hu hv, fun h => ?_⟩
  rcases lt_trichotomy (orderKey u) (orderKey v) with hlt | heq | hgt
  · exact hlt
  · exact absurd (units_eq_of_key heq) h.ne
  · exact absurd (units_lt_of_key hv hu hgt) h.not_gt

theorem key_le_iff {u v : UnpackedFloat} (hu : Stored u) (hv : Stored v) :
    orderKey u ≤ orderKey v ↔ units u ≤ units v := by
  rw [← not_lt, key_lt_iff hv hu, not_lt]

end Orders

section Sums

/-- The value of `z / 2 ^ j` units, rounded to that of a number. -/
def roundedInt (j : ℕ) (z : ℤ) : ℤ :=
  if 0 ≤ z then (min beyond (rounded j z.toNat) : ℕ) else -(min beyond (rounded j (-z).toNat) : ℕ)

theorem roundedInt_mono (j : ℕ) {y z : ℤ} (h : y ≤ z) : roundedInt j y ≤ roundedInt j z := by
  have hpos : rounded j y.toNat ≤ rounded j z.toNat := rounded_mono j (by omega)
  have hneg : rounded j (-z).toNat ≤ rounded j (-y).toNat := rounded_mono j (by omega)
  unfold roundedInt
  split_ifs <;> omega

theorem rounded_zero (j : ℕ) : rounded j 0 = 0 := by
  have hleading : leading j 0 = 0 := by
    show (exactly 0 >>> lost j 0).roundedMantissa = 0
    have hshift (k : ℕ) : exactly 0 >>> k = exactly 0 := by
      induction k with
      | zero => rfl
      | succ k ih => exact (congrArg ExtendedMantissa.shiftRightOne ih).trans rfl
    rw [hshift]
    rfl
  rw [rounded, hleading, Nat.zero_mul]

theorem roundedInt_zero (j : ℕ) : roundedInt j 0 = 0 := by
  simp [roundedInt, rounded_zero]

theorem roundedInt_natCast (j n : ℕ) : roundedInt j n = (min beyond (rounded j n) : ℕ) := by
  rw [roundedInt, if_pos (Int.natCast_nonneg n), Int.toNat_natCast]

theorem roundedInt_neg_natCast (j n : ℕ) :
    roundedInt j (-(n : ℤ)) = -(min beyond (rounded j n) : ℕ) := by
  rcases Nat.eq_zero_or_pos n with rfl | hn
  · simp [roundedInt_zero, rounded_zero]
  · rw [roundedInt, if_neg (by omega), neg_neg, Int.toNat_natCast]

/-- With its sign, a value is rounded as without. -/
theorem roundedInt_apply (s : Sign) (j n : ℕ) :
    roundedInt j (s.apply n) = s.apply (min beyond (rounded j n) : ℕ) := by
  cases s with
  | positive => exact roundedInt_natCast j n
  | negative => exact roundedInt_neg_natCast j n

theorem apply_mul_natCast (s : Sign) (m n : ℕ) : s.apply m * n = s.apply (m * n : ℕ) := by
  cases s <;> push_cast [Sign.apply] <;> ring

/-- The value of a number is rounded already. -/
theorem roundedInt_units (j : ℕ) {u : UnpackedFloat} (h : Stored u)
    (hfinite : ∀ s, u ≠ .infinity s) : roundedInt j (units u * (2 ^ j : ℕ)) = units u := by
  rcases u with s | _ | _ | ⟨s, m, e, hm⟩
  · exact absurd rfl (hfinite s)
  · exact (congrArg _ (zero_mul _)).trans (roundedInt_zero j)
  · exact (congrArg _ (zero_mul _)).trans (roundedInt_zero j)
  · obtain ⟨hpos, htop⟩ := units_finite_bounds h
    have hrounded : rounded j (m * 2 ^ (e + 1074).toNat * 2 ^ j) = m * 2 ^ (e + 1074).toNat :=
      rounded_mul_two_pow hm h.1 (h.2.2.2.imp_right (by rintro rfl; rfl))
    rw [units, apply_mul_natCast, roundedInt_apply, hrounded, min_eq_right htop.le]

theorem roundedInt_stored {u : UnpackedFloat} (h : Stored u) (hfinite : ∀ s, u ≠ .infinity s) :
    roundedInt 0 (units u) = units u := by
  simpa using roundedInt_units 0 h hfinite

/-- A sum of mantissas is rounded as its value is. -/
theorem units_normalize {n e : ℤ} (he : -1074 ≤ e) (s : Sign) :
    units (UnpackedFloat.unpack .binary64 (UnpackedFloat.pack .binary64
      (UnpackedFloat.normalize .binary64 n e s))) = roundedInt 0 (n * 2 ^ (e + 1074).toNat) := by
  unfold UnpackedFloat.normalize
  rcases lt_trichotomy n 0 with hneg | rfl | hpos
  · obtain ⟨a, rfl⟩ : ∃ a : ℕ, n = -a := ⟨(-n).toNat, by omega⟩
    rw [compare_lt_iff_lt.mpr hneg]
    dsimp only
    have hvalue : -(a : ℤ) * 2 ^ (e + 1074).toNat =
        Sign.negative.apply (a * 2 ^ (e + 1074).toNat : ℕ) := by
      push_cast [Sign.apply]
      ring
    rw [neg_neg, Int.toNat_natCast, units_round (by omega) he, hvalue, roundedInt_apply]
  · show units (UnpackedFloat.unpack .binary64 (packedZero .binary64 s)) = _
    rw [unpack_packedZero, zero_mul, roundedInt_zero]
    rfl
  · obtain ⟨a, rfl⟩ : ∃ a : ℕ, n = a := ⟨n.toNat, by omega⟩
    rw [compare_gt_iff_gt.mpr hpos]
    dsimp only
    have hvalue : (a : ℤ) * 2 ^ (e + 1074).toNat =
        Sign.positive.apply (a * 2 ^ (e + 1074).toNat : ℕ) := by
      push_cast [Sign.apply]
      rfl
    rw [Int.toNat_natCast, units_round (by omega) he, hvalue, roundedInt_apply]

theorem apply_shiftLeft_mul (s : Sign) (m : ℕ) {e d : ℤ} (hde : d ≤ e) (hd : -1074 ≤ d) :
    s.apply (m <<< (e - d).toNat : ℕ) * 2 ^ (d + 1074).toNat =
      s.apply (m * 2 ^ (e + 1074).toNat : ℕ) := by
  have hexponent : (e + 1074).toNat = (e - d).toNat + (d + 1074).toNat := by omega
  rw [Nat.shiftLeft_eq, hexponent, pow_add]
  cases s <;> push_cast [Sign.apply] <;> ring

/-- A number that is finite. -/
def Bounded : UnpackedFloat → Prop
  | .zero _ => True
  | .finite .. => True
  | _ => False

theorem unpack_pack_unpack {b : BitVec Float.Model.Format.binary64.numBits}
    (h : Float.Model.Format.binary64.Valid b) :
    UnpackedFloat.unpack .binary64
        (UnpackedFloat.pack .binary64 (UnpackedFloat.unpack .binary64 b)) =
      UnpackedFloat.unpack .binary64 b := by
  rw [pack_unpack_of_valid h]

theorem units_add {x y : Float} (hx : Bounded x.toModel.unpack) (hy : Bounded y.toModel.unpack) :
    units (x + y).toModel.unpack =
      roundedInt 0 (units x.toModel.unpack + units y.toModel.unpack) := by
  have hsx : Stored x.toModel.unpack := stored_unpack _
  have hsy : Stored y.toModel.unpack := stored_unpack _
  have hwx : UnpackedFloat.unpack .binary64 (UnpackedFloat.pack .binary64 x.toModel.unpack) =
    x.toModel.unpack := unpack_pack_unpack x.toModel.valid
  have hwy : UnpackedFloat.unpack .binary64 (UnpackedFloat.pack .binary64 y.toModel.unpack) =
    y.toModel.unpack := unpack_pack_unpack y.toModel.valid
  rw [unpack_add]
  generalize x.toModel.unpack = u at *
  generalize y.toModel.unpack = v at *
  rcases u with _ | _ | s | ⟨s, m, e, hm⟩ <;> rcases v with _ | _ | s' | ⟨s', m', e', hm'⟩ <;>
    try contradiction
  case zero.zero =>
    rw [show units (.zero s) + units (.zero s') = 0 from rfl, roundedInt_zero]
    cases s <;> cases s' <;> rfl
  case zero.finite =>
    rw [show units (.zero s) = 0 from rfl, zero_add, roundedInt_stored hsy nofun]
    exact congrArg units hwy
  case finite.zero =>
    rw [show units (.zero s') = 0 from rfl, add_zero, roundedInt_stored hsx nofun]
    exact congrArg units hwx
  case finite.finite =>
    have hadd : UnpackedFloat.add .binary64 (.finite s m e hm) (.finite s' m' e' hm') =
        UnpackedFloat.normalize .binary64 (s.apply (m <<< (e - min e e').toNat : ℕ) +
          s'.apply (m' <<< (e' - min e e').toNat : ℕ)) (min e e') .positive := rfl
    have hlow := le_min hsx.2.1 hsy.2.1
    rw [hadd, units_normalize hlow, add_mul, apply_shiftLeft_mul s m (min_le_left e e') hlow,
      apply_shiftLeft_mul s' m' (min_le_right e e') hlow]
    rfl

theorem stored (x : Float) : Stored x.toModel.unpack := stored_unpack _

theorem units_bounds (x : Float) :
    -beyond ≤ units x.toModel.unpack ∧ units x.toModel.unpack ≤ beyond := by
  have hsides := units_side (stored x)
  have htop := beyond_pos
  omega

theorem infinity_of_side {u : UnpackedFloat} :
    (side u = 2 → u = .infinity .positive) ∧ (side u = -2 → u = .infinity .negative) := by
  rcases u with (_ | _) | _ | _ | ⟨_ | _, m, e, hm⟩ <;> simp [side, orderKey]

/-- Where the numbers end there are infinities only. -/
theorem infinity_of_units (x : Float) :
    (beyond ≤ units x.toModel.unpack → x.toModel.unpack = .infinity .positive) ∧
      (units x.toModel.unpack ≤ -beyond → x.toModel.unpack = .infinity .negative) := by
  have hsides := units_side (stored x)
  have htop := beyond_pos
  exact ⟨fun h => infinity_of_side.1 (by omega), fun h => infinity_of_side.2 (by omega)⟩

theorem bounded_of_units {u : UnpackedFloat} (hnumber : u ≠ .notANumber)
    (hlow : -beyond < units u) (hhigh : units u < beyond) : Bounded u := by
  rcases u with (_ | _) | _ | _ | _
  · exact absurd hlow (lt_irrefl _)
  · exact absurd hhigh (lt_irrefl _)
  · exact absurd rfl hnumber
  · trivial
  · trivial

/-- A sum with an infinity is that infinity, or no number. -/
theorem add_infinity {u v : UnpackedFloat} {s : Sign} (hsum : u.add .binary64 v ≠ .notANumber)
    (h : u = .infinity s ∨ v = .infinity s) : u.add .binary64 v = .infinity s := by
  rcases h with rfl | rfl
  · rcases v with (_ | _) | _ | _ | _ <;> cases s <;> first | rfl | exact absurd rfl hsum
  · rcases u with (_ | _) | _ | _ | _ <;> cases s <;> first | rfl | exact absurd rfl hsum

theorem unpack_add_infinity {x y : Float} {s : Sign} (hsum : (x + y).toModel.unpack ≠ .notANumber)
    (h : x.toModel.unpack = .infinity s ∨ y.toModel.unpack = .infinity s) :
    (x + y).toModel.unpack = .infinity s := by
  rw [unpack_add, ne_eq, unpack_pack_eq_notANumber_iff] at hsum
  rw [unpack_add, add_infinity hsum h]
  cases s <;> rfl

/-- A sum that is a number has numbers for its terms. -/
theorem numbers_of_add {x y : Float} (hsum : (x + y).toModel.unpack ≠ .notANumber) :
    x.toModel.unpack ≠ .notANumber ∧ y.toModel.unpack ≠ .notANumber := by
  rw [unpack_add, ne_eq, unpack_pack_eq_notANumber_iff] at hsum
  refine ⟨fun h => hsum (by rw [h]; rfl), fun h => hsum ?_⟩
  rw [h]
  cases x.toModel.unpack <;> rfl

/-- Only opposite infinities have no sum. -/
theorem infinities_of_add {x y : Float} (hx : x.toModel.unpack ≠ .notANumber)
    (hy : y.toModel.unpack ≠ .notANumber) (hsum : (x + y).toModel.unpack = .notANumber) :
    x.toModel.unpack = .infinity .positive ∧ y.toModel.unpack = .infinity .negative ∨
      x.toModel.unpack = .infinity .negative ∧ y.toModel.unpack = .infinity .positive := by
  rw [unpack_add, unpack_pack_eq_notANumber_iff] at hsum
  generalize x.toModel.unpack = u at *
  generalize y.toModel.unpack = v at *
  by_cases hv : ∀ s, v ≠ .infinity s
  · exact absurd hsum (add_ne_notANumber hx hy hv)
  · push Not at hv
    obtain ⟨s, rfl⟩ := hv
    rcases u with (_ | _) | _ | _ | _ <;> cases s <;> simp_all [UnpackedFloat.add]

/-- The sum of greater numbers is not less. -/
theorem units_add_mono {x x' y y' : Float} (hx : units x.toModel.unpack ≤ units x'.toModel.unpack)
    (hy : units y.toModel.unpack ≤ units y'.toModel.unpack)
    (hsum : (x + y).toModel.unpack ≠ .notANumber) (hsum' : (x' + y').toModel.unpack ≠ .notANumber) :
    units (x + y).toModel.unpack ≤ units (x' + y').toModel.unpack := by
  by_cases hlow : x.toModel.unpack = .infinity .negative ∨ y.toModel.unpack = .infinity .negative
  · rw [unpack_add_infinity hsum hlow]
    exact (units_bounds _).1
  by_cases hhigh : x'.toModel.unpack = .infinity .positive ∨ y'.toModel.unpack = .infinity .positive
  · rw [unpack_add_infinity hsum' hhigh]
    exact (units_bounds _).2
  simp only [not_or] at hlow hhigh
  -- no term is infinite: each sum is rounded as its value is
  have hnx := lt_of_not_ge fun h => hlow.1 ((infinity_of_units x).2 h)
  have hny := lt_of_not_ge fun h => hlow.2 ((infinity_of_units y).2 h)
  have hnx' := lt_of_not_ge fun h => hhigh.1 ((infinity_of_units x').1 h)
  have hny' := lt_of_not_ge fun h => hhigh.2 ((infinity_of_units y').1 h)
  obtain ⟨hfx, hfy⟩ := numbers_of_add hsum
  obtain ⟨hfx', hfy'⟩ := numbers_of_add hsum'
  rw [units_add (bounded_of_units hfx (by omega) (by omega))
      (bounded_of_units hfy (by omega) (by omega)),
    units_add (bounded_of_units hfx' (by omega) (by omega))
      (bounded_of_units hfy' (by omega) (by omega))]
  exact roundedInt_mono 0 (add_le_add hx hy)

theorem isNaN_eq_false_iff {x : Float} :
    Arith.isNaN x = false ↔ x.toModel.unpack ≠ .notANumber := by
  rw [← Bool.not_eq_true, isNaN_iff_unpack]

theorem lt_iff_units {x y : Float} : x < y ↔ x.toModel.unpack ≠ .notANumber ∧
    y.toModel.unpack ≠ .notANumber ∧ units x.toModel.unpack < units y.toModel.unpack := by
  rw [numberOrder.lt_iff, isNaN_eq_false_iff, isNaN_eq_false_iff,
    ← key_lt_iff (stored x) (stored y)]
  rfl

theorem le_iff_unpacked (x y : Float) :
    x ≤ y ↔ x.toModel.unpack.le y.toModel.unpack = true := by
  show Float.le x y = true ↔ _
  unfold Float.le
  rw [decide_eq_true_iff]
  rfl

theorem unpacked_le_iff (a b : UnpackedFloat) :
    a.le b = true ↔ a.isNaN = false ∧ b.isNaN = false ∧ orderKey a ≤ orderKey b := by
  have hcases : a.le b = true ↔ a.lt b = true ∨ a.beq b = true := by
    unfold UnpackedFloat.le UnpackedFloat.lt UnpackedFloat.beq
    cases a.compare b with
    | none => decide
    | some o => cases o <;> decide
  rw [hcases, unpacked_lt_iff, unpacked_beq_iff, le_iff_lt_or_eq]
  tauto

theorem le_iff_units {x y : Float} : x ≤ y ↔ x.toModel.unpack ≠ .notANumber ∧
    y.toModel.unpack ≠ .notANumber ∧ units x.toModel.unpack ≤ units y.toModel.unpack := by
  rw [le_iff_unpacked, unpacked_le_iff, key_le_iff (stored x) (stored y)]
  exact and_congr isNaN_eq_false_iff (and_congr_left fun _ => isNaN_eq_false_iff)

theorem lt_add_of_le {b x x' y y' : Float} (hx : x ≤ x') (hy : y ≤ y') (h : b < x + y) :
    b < x' + y' := by
  obtain ⟨-, hnx, hux⟩ := le_iff_units.mp hx
  obtain ⟨-, hny, huy⟩ := le_iff_units.mp hy
  obtain ⟨hb, hsum, hlt⟩ := lt_iff_units.mp h
  have hsum' : (x' + y').toModel.unpack ≠ .notANumber := fun hnan => by
    have hbottom : x.toModel.unpack = .infinity .negative ∨
        y.toModel.unpack = .infinity .negative := by
      rcases infinities_of_add hnx hny hnan with ⟨-, hy'⟩ | ⟨hx', -⟩
      · exact .inr ((infinity_of_units y).2 (huy.trans (by rw [hy']; rfl)))
      · exact .inl ((infinity_of_units x).2 (hux.trans (by rw [hx']; rfl)))
    rw [unpack_add_infinity hsum hbottom] at hlt
    exact hlt.not_ge (units_bounds b).1
  exact lt_iff_units.mpr ⟨hb, hsum', hlt.trans_le (units_add_mono hux huy hsum hsum')⟩

theorem add_lt_of_le {b x x' y y' : Float} (hx : x' ≤ x) (hy : y' ≤ y) (h : x + y < b) :
    x' + y' < b := by
  obtain ⟨hnx, -, hux⟩ := le_iff_units.mp hx
  obtain ⟨hny, -, huy⟩ := le_iff_units.mp hy
  obtain ⟨hsum, hb, hlt⟩ := lt_iff_units.mp h
  have hsum' : (x' + y').toModel.unpack ≠ .notANumber := fun hnan => by
    have htop : x.toModel.unpack = .infinity .positive ∨
        y.toModel.unpack = .infinity .positive := by
      rcases infinities_of_add hnx hny hnan with ⟨hx', -⟩ | ⟨-, hy'⟩
      · exact .inl ((infinity_of_units x).1 (le_trans (by rw [hx']; rfl) hux))
      · exact .inr ((infinity_of_units y).1 (le_trans (by rw [hy']; rfl) huy))
    rw [unpack_add_infinity hsum htop] at hlt
    exact hlt.not_ge (units_bounds b).2
  exact lt_iff_units.mpr ⟨hsum', hb, (units_add_mono hux huy hsum' hsum).trans_lt hlt⟩

theorem units_add_zero {x z : Float} (h : units z.toModel.unpack = 0)
    (hsum : (x + z).toModel.unpack ≠ .notANumber) :
    units (x + z).toModel.unpack = units x.toModel.unpack := by
  obtain ⟨hx, hz⟩ := numbers_of_add hsum
  have htop := beyond_pos
  by_cases hinf : ∃ s, x.toModel.unpack = .infinity s
  · obtain ⟨s, hs⟩ := hinf
    rw [unpack_add_infinity hsum (.inl hs), hs]
  · have hfinite (s : Sign) : x.toModel.unpack ≠ .infinity s := fun hs => hinf ⟨s, hs⟩
    have hlow := lt_of_not_ge fun h => hfinite _ ((infinity_of_units x).2 h)
    have hhigh := lt_of_not_ge fun h => hfinite _ ((infinity_of_units x).1 h)
    rw [units_add (bounded_of_units hx hlow hhigh) (bounded_of_units hz (by omega) (by omega)), h,
      add_zero, roundedInt_stored (stored x) hfinite]

theorem sub_eq_add_minus (x y : Float) : x - y = x + -y := by
  have hsub : (x - y).toModel.unpack = UnpackedFloat.unpack .binary64 (UnpackedFloat.pack .binary64
      (UnpackedFloat.sub .binary64 x.toModel.unpack y.toModel.unpack)) := rfl
  refine unpack_inj ?_
  rw [hsub, unpack_add, unpack_neg]
  congr 2
  generalize x.toModel.unpack = u
  generalize y.toModel.unpack = v
  rcases u with s | _ | s | ⟨s, m, e, hm⟩ <;>
  rcases v with s' | _ | s' | ⟨s', m', e', hm'⟩ <;>
  try rfl
  have happly (t : Sign) (a b : ℤ) : a - t.apply b = a + (-t).apply b := by
    cases t
    · exact sub_neg_eq_add a b
    · exact Int.sub_eq_add_neg
  show UnpackedFloat.normalize .binary64 (_ - s'.apply _) _ _ =
    UnpackedFloat.normalize .binary64 (_ + (-s').apply _) _ _
  rw [happly]

end Sums

end Binary64
end MipPump
