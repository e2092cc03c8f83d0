import MipPump.Proofs.RoundedProducts

/-!
# Integers among the floating-point numbers

A number is an integer if its value in units is a multiple of one; an infinity counts as one, too.
Rounding to integers makes such numbers and leaves them as they are, and sums of them are rounded to
such numbers.

* `units_of_decode`: the value of a number, read off its parts.
* `rounded_of_dvd`, `dvd_rounded`: rounding to 53 bits keeps the zeros at the end of a value.
* `units_ofNat`, `unity_dvd_ofNat`: the value of an integer, which may be rounded to another integer.
* `unity_dvd_integral`, `units_integral`: rounding to integers makes integers, and keeps them.
* `unity_dvd_add`, `unity_dvd_mul`: sums and products of integers.
* `beq_rint_iff`: which numbers are integers.
* `beq_of_near`: integers less than one half from one number are equal.
-/

namespace MipPump
namespace Binary64

open Float.Model Float.Model.UnpackedFloat

section Bits

/-- The sign that a bit stands for. -/
def signOf (negative : Bool) : Sign := if negative then .negative else .positive

variable {x : Float} {negative : Bool} {m : ℕ} {e : ℤ}

theorem toNat_unpackExponent (b : BitVec Float.Model.Format.binary64.numBits) :
    (unpackExponent b).toNat = b.toNat / 2 ^ 52 % 2 ^ 11 := by
  show (b.toNat >>> 52) % 2 ^ 11 = _
  rw [Nat.shiftRight_eq_div_pow]

theorem toNat_unpackMantissa (b : BitVec Float.Model.Format.binary64.numBits) :
    (unpackMantissa b).toNat = b.toNat % 2 ^ 52 := by
  show (b.toNat >>> 0) % 2 ^ 52 = _
  rw [Nat.shiftRight_zero]

theorem ofBitVec_unpackSign (b : BitVec Float.Model.Format.binary64.numBits) :
    Sign.ofBitVec (unpackSign b) = signOf (decide (2 ^ 63 ≤ b.toNat)) := by
  have hlt : b.toNat < 2 ^ 64 := b.isLt
  have hsign : (unpackSign b).toNat = b.toNat / 2 ^ 63 := by
    show (b.toNat >>> 63) % 2 ^ 1 = _
    rw [Nat.shiftRight_eq_div_pow]
    omega
  unfold Sign.ofBitVec signOf
  by_cases h : 2 ^ 63 ≤ b.toNat
  · have hone : unpackSign b ≠ 0#1 := fun hzero => by
      have hnat : b.toNat / 2 ^ 63 = 0 := hsign.symm.trans (congrArg BitVec.toNat hzero)
      omega
    rw [if_neg hone, if_pos (decide_eq_true h)]
  · have hzero : unpackSign b = 0#1 := BitVec.eq_of_toNat_eq (hsign.trans (by
      show b.toNat / 2 ^ 63 = 0
      omega))
    rw [if_pos hzero, decide_eq_false h, if_neg Bool.false_ne_true]

/-- What is taken apart are the words. -/
theorem decode_eq (x : Float) : ∃ b : BitVec Float.Model.Format.binary64.numBits,
    x.toModel.unpack = UnpackedFloat.unpack .binary64 b ∧
      decode x = if (unpackExponent b).toNat = 2047 then
          if (unpackMantissa b).toNat = 0 then .inf (decide (2 ^ 63 ≤ b.toNat)) else .nan
        else if (unpackExponent b).toNat = 0 then
          .finite (decide (2 ^ 63 ≤ b.toNat)) (unpackMantissa b).toNat (-1074)
        else .finite (decide (2 ^ 63 ≤ b.toNat)) (2 ^ 52 + (unpackMantissa b).toNat)
          ((unpackExponent b).toNat - 1075) := by
  refine ⟨x.toModel.toBits.toBitVec, rfl, ?_⟩
  rw [toNat_unpackExponent, toNat_unpackMantissa]
  rfl

/-- The value of a number, read off its parts. -/
theorem units_of_decode (h : decode x = finite negative m e) :
    x.toModel.unpack ≠ .notANumber ∧
      units x.toModel.unpack = (signOf negative).apply (m * 2 ^ (e + 1074).toNat : ℕ) ∧
      m < 2 ^ 53 ∧ -1074 ≤ e := by
  obtain ⟨b, hunpack, hdecode⟩ := decode_eq x
  have hsign := ofBitVec_unpackSign b
  have hlt : (unpackMantissa b).toNat < 2 ^ 52 := (unpackMantissa b).isLt
  rw [hdecode] at h
  rw [hunpack]
  unfold UnpackedFloat.unpack
  dsimp only
  split_ifs at h with htop hinf hleast
  · obtain ⟨rfl, rfl, rfl⟩ := finite.inj h
    rw [if_neg fun heq => htop (congrArg BitVec.toNat heq), if_pos (BitVec.eq_of_toNat_eq hleast)]
    by_cases hzero : unpackMantissa b = 0#52
    · rw [dif_pos hzero, hzero]
      refine ⟨fun h => (by cases h), ?_, Nat.two_pow_pos 53, le_rfl⟩
      cases signOf (decide (2 ^ 63 ≤ b.toNat)) <;> simp [units, Sign.apply]
    · rw [dif_neg hzero, hsign, units, bias_eq, hleast]
      exact ⟨fun h => (by cases h), rfl, by omega, le_rfl⟩
  · obtain ⟨rfl, rfl, rfl⟩ := finite.inj h
    have hexponent : ((unpackExponent b).toNat : ℤ) -
        (Float.Model.Format.binary64.exponentBias + (52 : ℕ)) = (unpackExponent b).toNat - 1075 := by
      rw [bias_eq]
      omega
    rw [if_neg fun heq => htop (congrArg BitVec.toNat heq),
      if_neg fun heq => hleast (congrArg BitVec.toNat heq), hsign, units]
    refine ⟨fun h => (by cases h), ?_, by omega, by omega⟩
    rw [toNat_one_append, hexponent]

/-- What has no mantissa is an infinity or no number. -/
theorem unpack_of_special (h : ∀ negative m e, decode x ≠ finite negative m e) :
    x.toModel.unpack = .notANumber ∨ ∃ s, x.toModel.unpack = .infinity s := by
  obtain ⟨b, hunpack, hdecode⟩ := decode_eq x
  rw [hunpack]
  unfold UnpackedFloat.unpack
  dsimp only
  split_ifs at hdecode with htop hinf hleast
  · rw [if_pos (BitVec.eq_of_toNat_eq htop), if_pos (BitVec.eq_of_toNat_eq hinf)]
    exact .inr ⟨_, rfl⟩
  · rw [if_pos (BitVec.eq_of_toNat_eq htop), if_neg fun heq => hinf (congrArg BitVec.toNat heq)]
    exact .inl rfl
  · exact absurd hdecode (h _ _ _)
  · exact absurd hdecode (h _ _ _)

end Bits

section Zeros

/-- A value that loses zeros only is not changed. -/
theorem rounded_of_dvd {j n : ℕ} (h : 2 ^ lost j n ∣ n) : rounded j n * 2 ^ j = n := by
  obtain ⟨m, hm⟩ := h
  have hleading : leading j n = m := by
    have hshift := exactly_shiftRight m (lost j n) 0
    rw [Nat.mul_comm, ← hm] at hshift
    exact congrArg ExtendedMantissa.roundedMantissa hshift
  have hbits : lost j n - j + j = lost j n := Nat.sub_add_cancel (le_max_right _ _)
  rw [rounded, hleading, Nat.mul_assoc, ← pow_add, hbits, Nat.mul_comm, ← hm]

/-- Zeros at the end of a value are zeros at the end of the rounded one. -/
theorem dvd_rounded {i j n : ℕ} (h : 2 ^ (i + j) ∣ n) : 2 ^ i ∣ rounded j n := by
  rcases Nat.le_total (i + j) (lost j n) with hle | hle
  · exact (pow_dvd_pow 2 (Nat.le_sub_of_add_le hle)).trans (Nat.dvd_mul_left _ _)
  · have hsame := rounded_of_dvd ((pow_dvd_pow 2 hle).trans h)
    rw [pow_add, ← hsame] at h
    exact Nat.dvd_of_mul_dvd_mul_right (Nat.two_pow_pos j) h

theorem unity_dvd_beyond : unity ∣ beyond := by
  unfold unity beyond
  exact pow_dvd_pow 2 (by rw [fractionBits_eq]; decide)

/-- An integer is rounded to an integer, also if it is counted in parts of a unit. -/
theorem unity_dvd_roundedInt (j : ℕ) {z : ℤ} (h : ((unity * 2 ^ j : ℕ) : ℤ) ∣ z) :
    (unity : ℤ) ∣ roundedInt j z := by
  have hrounded {n : ℕ} (hn : unity * 2 ^ j ∣ n) :
      (unity : ℤ) ∣ (min beyond (rounded j n) : ℕ) := by
    rw [Int.natCast_dvd_natCast]
    rcases min_choice beyond (rounded j n) with hmin | hmin
    · rw [hmin]
      exact unity_dvd_beyond
    · rw [hmin]
      exact dvd_rounded (by rwa [pow_add])
  unfold roundedInt
  split_ifs with hz
  · exact hrounded (Int.natCast_dvd_natCast.mp (by rwa [Int.toNat_of_nonneg hz]))
  · refine (hrounded (Int.natCast_dvd_natCast.mp ?_)).neg_right
    rw [Int.toNat_of_nonneg (by omega)]
    exact h.neg_right

end Zeros

section Integers

variable {x : Float} {n : ℕ}

theorem mul_unity_lt_beyond (hn : n < 2 ^ 53) : n * unity < beyond :=
  calc n * unity < 2 ^ 53 * unity := Nat.mul_lt_mul_of_pos_right hn (Nat.two_pow_pos _)
    _ = 2 ^ (53 + fractionBits) := (pow_add ..).symm
    _ ≤ beyond := by
        unfold beyond
        exact pow_le_pow_right₀ one_le_two (by rw [fractionBits_eq]; decide)

/-- An integer with 53 bits is not changed by rounding. -/
theorem roundedInt_mul_unity (hn : n < 2 ^ 53) :
    roundedInt 0 (n * unity : ℕ) = (n * unity : ℕ) := by
  have hrounded : rounded 0 (n * unity) = n * unity := by
    have hlost : lost 0 (n * unity) ≤ fractionBits := by
      rcases Nat.eq_zero_or_pos n with rfl | hpos
      · rw [Nat.zero_mul]
        exact Nat.zero_le _
      · have hlog := (Nat.log2_lt hpos.ne').mpr hn
        rw [lost, unity, log2_mul_two_pow hpos.ne']
        omega
    have hsame := rounded_of_dvd ((pow_dvd_pow 2 hlost).trans (Nat.dvd_mul_left unity n))
    rwa [pow_zero, Nat.mul_one] at hsame
  rw [roundedInt_natCast, hrounded, min_eq_right (mul_unity_lt_beyond hn).le]

theorem unity_eq : unity = 2 ^ ((0 : ℤ) + 1074).toNat := by
  have hbits : ((0 : ℤ) + 1074).toNat = fractionBits := by
    rw [fractionBits_eq]
    rfl
  rw [unity, hbits]

theorem units_toFloat (w : UInt64) : w.toFloat.toModel.unpack ≠ .notANumber ∧
    units w.toFloat.toModel.unpack = roundedInt 0 (w.toNat * unity : ℕ) := by
  have hnormalize := units_normalize (n := w.toNat) (e := 0) (by decide) .positive
  refine ⟨fun h => normalize_ne_notANumber _ _ _ (unpack_pack_eq_notANumber_iff.mp h), ?_⟩
  rw [unity_eq, Nat.cast_mul, Nat.cast_pow]
  exact hnormalize

/-- An integer with 53 bits is exact. -/
theorem units_ofNat (hn : n < 2 ^ 53) : (Float.ofNat n).toModel.unpack ≠ .notANumber ∧
    units (Float.ofNat n).toModel.unpack = (n * unity : ℕ) := by
  have hword : n.toUInt64.toNat = n := by
    rw [Nat.toUInt64, UInt64.toNat_ofNat']
    omega
  obtain ⟨hnumber, hunits⟩ := units_toFloat n.toUInt64
  rw [hword, roundedInt_mul_unity hn] at hunits
  have hfinite : Bounded n.toUInt64.toFloat.toModel.unpack := by
    have htop := mul_unity_lt_beyond hn
    exact bounded_of_units hnumber (by omega) (by omega)
  rw [ofNat_of_lt hn]
  refine ⟨mul_ne_notANumber hfinite bounded_one, ?_⟩
  rw [units_mul hfinite bounded_one, units_one, roundedInt_unity hfinite, hunits]

/-- A longer one is rounded. -/
theorem units_ofNat_of_not_lt (hn : ¬ n < 2 ^ 53) : (Float.ofNat n).toModel.unpack ≠ .notANumber ∧
    units (Float.ofNat n).toModel.unpack = roundedInt 0 (n * unity : ℕ) := by
  have hpos : 0 < n := (Nat.two_pow_pos 53).trans_le (Nat.le_of_not_lt hn)
  have hexponent : 53 + (-53 + (0 : ℕ) + 1074 : ℤ).toNat = fractionBits := by
    rw [fractionBits_eq]
    rfl
  rw [unpack_ofNat_of_not_lt hn]
  refine ⟨fun h => roundWithAccuracy_ne_notANumber _ _ _ _ (unpack_pack_eq_notANumber_iff.mp h), ?_⟩
  rw [units_roundWithAccuracy (Nat.mul_pos hpos (Nat.two_pow_pos 53)) (j := 0) (by omega)
    (by rw [log2_mul_two_pow hpos.ne']; omega), Nat.mul_assoc, ← pow_add, hexponent,
    roundedInt_natCast]
  rfl

/-- An integer is a number without a fraction, also if it is rounded. -/
theorem unity_dvd_ofNat (n : ℕ) : (Float.ofNat n).toModel.unpack ≠ .notANumber ∧
    (unity : ℤ) ∣ units (Float.ofNat n).toModel.unpack := by
  by_cases hn : n < 2 ^ 53
  · obtain ⟨hnumber, hunits⟩ := units_ofNat hn
    exact ⟨hnumber, hunits ▸ Int.natCast_dvd_natCast.mpr (Nat.dvd_mul_left unity n)⟩
  · obtain ⟨hnumber, hunits⟩ := units_ofNat_of_not_lt hn
    refine ⟨hnumber, hunits ▸ unity_dvd_roundedInt 0 ?_⟩
    rw [pow_zero, Nat.mul_one]
    exact Int.natCast_dvd_natCast.mpr (Nat.dvd_mul_left unity n)

end Integers

section Rounding

variable {x y : Float} {rule : Bool → ℕ → ℕ → ℕ → ℕ}

theorem units_minus (x : Float) : units (-x).toModel.unpack = -units x.toModel.unpack := by
  rw [unpack_neg, units_neg]

theorem minus_ne_notANumber (hx : x.toModel.unpack ≠ .notANumber) :
    (-x).toModel.unpack ≠ .notANumber := by
  rwa [unpack_neg, ne_eq, neg_eq_notANumber_iff]

theorem unity_dvd_apply (s : Sign) {n : ℕ} (h : unity ∣ n) : (unity : ℤ) ∣ s.apply n := by
  cases s with
  | positive => exact Int.natCast_dvd_natCast.mpr h
  | negative => exact (Int.natCast_dvd_natCast.mpr h).neg_right

theorem unity_dvd_infinity (s : Sign) : (unity : ℤ) ∣ units (.infinity s) :=
  unity_dvd_apply s unity_dvd_beyond

/-- A number with a fraction is rounded by the rule. -/
theorem integral_of_decode (rule : Bool → ℕ → ℕ → ℕ → ℕ) {negative : Bool} {m : ℕ} {e : ℤ}
    (h : decode x = finite negative m e) (he : ¬ 0 ≤ e) :
    units (integral rule x).toModel.unpack = (signOf negative).apply
        (units (Float.ofNat (rule negative (m / 2 ^ (-e).toNat) (m % 2 ^ (-e).toNat)
          (2 ^ (-e).toNat))).toModel.unpack) ∧
      (integral rule x).toModel.unpack ≠ .notANumber := by
  have hrounded : integral rule x = if negative then
      -Float.ofNat (rule negative (m / 2 ^ (-e).toNat) (m % 2 ^ (-e).toNat) (2 ^ (-e).toNat))
      else Float.ofNat (rule negative (m / 2 ^ (-e).toNat) (m % 2 ^ (-e).toNat)
        (2 ^ (-e).toNat)) := by
    unfold integral
    rw [h]
    exact if_neg he
  rw [hrounded]
  have hnumber := (unity_dvd_ofNat (rule negative (m / 2 ^ (-e).toNat) (m % 2 ^ (-e).toNat)
    (2 ^ (-e).toNat))).1
  cases negative with
  | true => exact ⟨units_minus _, minus_ne_notANumber hnumber⟩
  | false => exact ⟨rfl, hnumber⟩

/-- Anything else is an integer already. -/
theorem unity_dvd_of_integral (rule : Bool → ℕ → ℕ → ℕ → ℕ)
    (h : ∀ negative m e, decode x = finite negative m e → 0 ≤ e) :
    integral rule x = x ∧ (unity : ℤ) ∣ units x.toModel.unpack := by
  unfold integral
  cases hdecode : decode x with
  | finite negative m e =>
      have he := h _ _ _ hdecode
      obtain ⟨-, hunits, -, -⟩ := units_of_decode hdecode
      refine ⟨if_pos he, hunits ▸ unity_dvd_apply _ (Dvd.dvd.mul_left ?_ m)⟩
      rw [unity, fractionBits_eq]
      exact pow_dvd_pow 2 (by omega)
  | nan | inf =>
      refine ⟨rfl, ?_⟩
      have hspecial : ∀ negative m e, decode x ≠ finite negative m e := fun _ _ _ h => by
        cases hdecode.symm.trans h
      rcases unpack_of_special hspecial with hx | ⟨s, hx⟩
      · rw [hx]
        exact dvd_zero _
      · rw [hx]
        exact unity_dvd_infinity s

/-- Rounding to an integer leaves no fraction, and a number stays a number. -/
theorem unity_dvd_integral (rule : Bool → ℕ → ℕ → ℕ → ℕ) (x : Float) :
    (x.toModel.unpack ≠ .notANumber → (integral rule x).toModel.unpack ≠ .notANumber) ∧
      (unity : ℤ) ∣ units (integral rule x).toModel.unpack := by
  by_cases h : ∀ negative m e, decode x = finite negative m e → 0 ≤ e
  · obtain ⟨hsame, hwhole⟩ := unity_dvd_of_integral rule h
    rw [hsame]
    exact ⟨id, hwhole⟩
  · push Not at h
    obtain ⟨negative, m, e, hdecode, he⟩ := h
    obtain ⟨hunits, hnumber⟩ := integral_of_decode rule hdecode (not_le.mpr he)
    refine ⟨fun _ => hnumber, ?_⟩
    obtain ⟨-, hwhole⟩ := unity_dvd_ofNat (rule negative (m / 2 ^ (-e).toNat)
      (m % 2 ^ (-e).toNat) (2 ^ (-e).toNat))
    rw [hunits]
    cases signOf negative with
    | positive => exact hwhole
    | negative => exact hwhole.neg_right

/-- A rule that keeps what has no fraction keeps the value of an integer. -/
theorem units_integral
    (hrule : ∀ negative whole scale, 0 < scale → rule negative whole 0 scale = whole)
    (h : (unity : ℤ) ∣ units x.toModel.unpack) :
    units (integral rule x).toModel.unpack = units x.toModel.unpack := by
  by_cases hexact : ∀ negative m e, decode x = finite negative m e → 0 ≤ e
  · rw [(unity_dvd_of_integral rule hexact).1]
  · push Not at hexact
    obtain ⟨negative, m, e, hdecode, he⟩ := hexact
    obtain ⟨-, hvalue, hlt, hlow⟩ := units_of_decode hdecode
    have hbits : fractionBits = (-e).toNat + (e + 1074).toNat := by
      rw [fractionBits_eq]
      omega
    have hdvd : 2 ^ (-e).toNat ∣ m := by
      have hwhole : unity ∣ m * 2 ^ (e + 1074).toNat := by
        rw [hvalue] at h
        cases hs : signOf negative <;> rw [hs] at h
        · exact Int.natCast_dvd_natCast.mp (Int.dvd_neg.mp h)
        · exact Int.natCast_dvd_natCast.mp h
      rw [unity, hbits, pow_add] at hwhole
      exact Nat.dvd_of_mul_dvd_mul_right (Nat.two_pow_pos _) hwhole
    have hsame : m / 2 ^ (-e).toNat * unity = m * 2 ^ (e + 1074).toNat := by
      rw [unity, hbits, pow_add, ← Nat.mul_assoc, Nat.div_mul_cancel hdvd]
    rw [(integral_of_decode rule hdecode (not_le.mpr he)).1, Nat.mod_eq_zero_of_dvd hdvd,
      hrule _ _ _ (Nat.two_pow_pos _),
      (units_ofNat ((Nat.div_le_self m (2 ^ (-e).toNat)).trans_lt hlt)).2, hsame, hvalue]

end Rounding

section Closure

variable {x y : Float}

theorem unity_dvd_of_not_bounded {u : UnpackedFloat} (h : ¬ Bounded u) : (unity : ℤ) ∣ units u := by
  rcases u with s | _ | _ | _
  · exact unity_dvd_infinity s
  · exact dvd_zero _
  · exact absurd trivial h
  · exact absurd trivial h

theorem not_bounded {u : UnpackedFloat} (h : ¬ Bounded u) :
    u = .notANumber ∨ ∃ s, u = .infinity s := by
  rcases u with s | _ | _ | _
  · exact .inr ⟨s, rfl⟩
  · exact .inl rfl
  · exact absurd trivial h
  · exact absurd trivial h

/-- A sum with a term that is not finite is not finite. -/
theorem not_bounded_add (h : ¬ (Bounded x.toModel.unpack ∧ Bounded y.toModel.unpack)) :
    ¬ Bounded (x + y).toModel.unpack := fun hsum => by
  have hnumber : (x + y).toModel.unpack ≠ .notANumber := fun hnan => by rwa [hnan] at hsum
  obtain ⟨hx, hy⟩ := numbers_of_add hnumber
  have hinfinity : ∃ s, x.toModel.unpack = .infinity s ∨ y.toModel.unpack = .infinity s := by
    rcases not_and_or.mp h with hnot | hnot
    · obtain ⟨s, hs⟩ := (not_bounded hnot).resolve_left hx
      exact ⟨s, .inl hs⟩
    · obtain ⟨s, hs⟩ := (not_bounded hnot).resolve_left hy
      exact ⟨s, .inr hs⟩
  obtain ⟨s, hs⟩ := hinfinity
  rwa [unpack_add_infinity hnumber hs] at hsum

theorem mul_special {u v : UnpackedFloat} (h : ¬ (Bounded u ∧ Bounded v)) :
    u.mul .binary64 v = .notANumber ∨ ∃ s, u.mul .binary64 v = .infinity s := by
  rcases u with _ | _ | _ | _ <;> rcases v with _ | _ | _ | _
  all_goals first | exact .inl rfl | exact .inr ⟨_, rfl⟩ | exact absurd ⟨trivial, trivial⟩ h

/-- So is a product with such a factor. -/
theorem not_bounded_mul (h : ¬ (Bounded x.toModel.unpack ∧ Bounded y.toModel.unpack)) :
    ¬ Bounded (x * y).toModel.unpack := by
  rw [unpack_mul]
  rcases mul_special h with hnan | ⟨s, hs⟩
  · rw [hnan, unpack_pack_eq_notANumber_iff.mpr rfl]
    exact id
  · rw [hs]
    cases s <;> exact id

/-- The sum of integers is an integer. -/
theorem unity_dvd_add (hx : (unity : ℤ) ∣ units x.toModel.unpack)
    (hy : (unity : ℤ) ∣ units y.toModel.unpack) : (unity : ℤ) ∣ units (x + y).toModel.unpack := by
  by_cases h : Bounded x.toModel.unpack ∧ Bounded y.toModel.unpack
  · rw [units_add h.1 h.2]
    exact unity_dvd_roundedInt 0 (by simpa using dvd_add hx hy)
  · exact unity_dvd_of_not_bounded (not_bounded_add h)

/-- The product of integers is an integer. -/
theorem unity_dvd_mul (hx : (unity : ℤ) ∣ units x.toModel.unpack)
    (hy : (unity : ℤ) ∣ units y.toModel.unpack) : (unity : ℤ) ∣ units (x * y).toModel.unpack := by
  by_cases h : Bounded x.toModel.unpack ∧ Bounded y.toModel.unpack
  · rw [units_mul h.1 h.2]
    refine unity_dvd_roundedInt fractionBits ?_
    rw [← unity, Nat.cast_mul]
    exact mul_dvd_mul hx hy
  · exact unity_dvd_of_not_bounded (not_bounded_mul h)

end Closure

section Values

variable {x y c d : Float}

theorem beq_iff_units : (x == y) = true ↔ x.toModel.unpack ≠ .notANumber ∧
    y.toModel.unpack ≠ .notANumber ∧ units x.toModel.unpack = units y.toModel.unpack := by
  have hkey : numberOrder.key x = numberOrder.key y ↔
      units x.toModel.unpack = units y.toModel.unpack :=
    ⟨units_eq_of_key, fun h => le_antisymm ((key_le_iff (stored x) (stored y)).mpr h.le)
      ((key_le_iff (stored y) (stored x)).mpr h.ge)⟩
  rw [beq_iff_key, isNaN_eq_false_iff, isNaN_eq_false_iff, hkey]

/-- The nearest integer, a half going to the even neighbour. -/
def nearestRule (_ : Bool) (whole part scale : ℕ) : ℕ :=
  if 2 * part < scale then whole
  else if scale < 2 * part then whole + 1
  else if whole % 2 = 0 then whole else whole + 1

theorem rint_eq (x : Float) : Arith.rint x = integral nearestRule x := by
  show rint x = _
  unfold rint
  rfl

/-- The integers are the multiples of one. -/
theorem beq_rint_iff : (x == Arith.rint x) = true ↔
    x.toModel.unpack ≠ .notANumber ∧ (unity : ℤ) ∣ units x.toModel.unpack := by
  obtain ⟨hnumber, hwhole⟩ := unity_dvd_integral nearestRule x
  rw [rint_eq, beq_iff_units]
  constructor
  · rintro ⟨hx, -, hunits⟩
    exact ⟨hx, hunits ▸ hwhole⟩
  · rintro ⟨hx, hdvd⟩
    refine ⟨hx, hnumber hx, (units_integral (fun _ _ _ hscale => ?_) hdvd).symm⟩
    exact if_pos hscale

theorem unpack_abs (x : Float) : x.abs.toModel.unpack = x.toModel.unpack.abs := by
  have hsame : UnpackedFloat.unpack .binary64 (UnpackedFloat.pack .binary64 x.toModel.unpack) =
      x.toModel.unpack := unpack_pack_unpack x.toModel.valid
  have hminus : UnpackedFloat.unpack .binary64 (UnpackedFloat.pack .binary64 x.toModel.unpack.neg) =
      x.toModel.unpack.neg := unpack_neg x
  have hpack : x.abs.toModel.unpack = UnpackedFloat.unpack .binary64
      (UnpackedFloat.pack .binary64 x.toModel.unpack.abs) := rfl
  have hcases : x.toModel.unpack.abs = x.toModel.unpack ∨
      x.toModel.unpack.abs = x.toModel.unpack.neg := by
    generalize x.toModel.unpack = u
    rcases u with (_ | _) | _ | (_ | _) | ⟨_ | _, m, e, hm⟩ <;>
      first | exact .inl rfl | exact .inr rfl
  rw [hpack]
  rcases hcases with h | h <;> rw [h]
  · exact hsame
  · exact hminus

theorem units_abs (x : Float) : units x.abs.toModel.unpack = |units x.toModel.unpack| := by
  rw [unpack_abs]
  rcases x.toModel.unpack with (_ | _) | _ | (_ | _) | ⟨_ | _, m, e, hm⟩ <;>
    simp [UnpackedFloat.abs, units, Sign.apply]

theorem abs_eq_notANumber_iff :
    x.abs.toModel.unpack = .notANumber ↔ x.toModel.unpack = .notANumber := by
  rw [unpack_abs]
  cases x.toModel.unpack <;> simp [UnpackedFloat.abs]

/-- One half, in units of the least positive number. -/
def half : ℕ := 2 ^ (fractionBits - 1)

theorem unity_eq_half_add : unity = half + half := by
  rw [half, ← Nat.two_mul, ← pow_succ', unity,
    Nat.sub_add_cancel (by rw [fractionBits_eq]; decide)]

theorem units_half : units (Arith.ratio 1 2 : Float).toModel.unpack = half := by
  have hbits : (Arith.ratio 1 2 : Float) = Float.ofBits 0x3FE0000000000000 := by decide +kernel
  have hunpack : (Float.ofBits 0x3FE0000000000000).toModel.unpack =
      .finite .positive (2 ^ 52) (-53) (by decide) := rfl
  have hexponent : fractionBits - 1 = 52 + (-53 + 1074 : ℤ).toNat := by
    rw [fractionBits_eq]
    rfl
  rw [hbits, hunpack, units, half, hexponent, pow_add]
  rfl

/-- One half is not changed by rounding, and neither is minus one half. -/
theorem roundedInt_half : roundedInt 0 half = half ∧ roundedInt 0 (-half) = -half := by
  have htop : half ≤ beyond := by
    have hone := unity_lt_beyond
    rw [unity_eq_half_add] at hone
    omega
  have hlost : lost 0 half ≤ fractionBits - 1 := by
    rw [lost, half, Nat.log2_two_pow]
    omega
  have hsame := rounded_of_dvd (n := half) (pow_dvd_pow 2 hlost)
  rw [pow_zero, Nat.mul_one] at hsame
  rw [roundedInt_natCast, roundedInt_neg_natCast, hsame, min_eq_right htop]
  exact ⟨rfl, rfl⟩

/-- Numbers are less than one half apart if their difference is. -/
theorem near_of_abs_lt (h : Arith.abs (x - c) < Arith.ratio 1 2) :
    x.toModel.unpack ≠ .notANumber ∧ c.toModel.unpack ≠ .notANumber ∧
      |units x.toModel.unpack - units c.toModel.unpack| < half := by
  obtain ⟨hnumber, -, hlt⟩ := lt_iff_units.mp h
  rw [show Arith.abs (x - c) = (x - c).abs from rfl, ne_eq, abs_eq_notANumber_iff] at hnumber
  rw [show Arith.abs (x - c) = (x - c).abs from rfl, units_abs, units_half, abs_lt] at hlt
  have hone := unity_lt_beyond
  rw [unity_eq_half_add] at hone
  have hbounded : Bounded (x - c).toModel.unpack :=
    bounded_of_units hnumber (by omega) (by omega)
  rw [sub_eq_add_minus] at hnumber hlt hbounded
  obtain ⟨hx, hc⟩ := numbers_of_add hnumber
  obtain ⟨hbx, hbc⟩ := Classical.not_not.mp fun hnot => not_bounded_add hnot hbounded
  rw [units_add hbx hbc, units_minus, ← sub_eq_add_neg] at hlt
  rw [unpack_neg, ne_eq, neg_eq_notANumber_iff] at hc
  -- what is one half apart is still so after rounding
  obtain ⟨hhalf, hhalf'⟩ := roundedInt_half
  refine ⟨hx, hc, abs_lt.mpr ⟨lt_of_not_ge fun hle => ?_, lt_of_not_ge fun hle => ?_⟩⟩
  · have hround := roundedInt_mono 0 hle
    omega
  · have hround := roundedInt_mono 0 hle
    omega

/-- Integers that are near one number are one integer. -/
theorem beq_of_near (hc : (unity : ℤ) ∣ units c.toModel.unpack)
    (hd : (unity : ℤ) ∣ units d.toModel.unpack) (hxc : Arith.abs (x - c) < Arith.ratio 1 2)
    (hxd : Arith.abs (x - d) < Arith.ratio 1 2) : (c == d) = true := by
  obtain ⟨-, hnumber, hnear⟩ := near_of_abs_lt hxc
  obtain ⟨-, hnumber', hnear'⟩ := near_of_abs_lt hxd
  have hone := unity_eq_half_add
  rw [abs_lt] at hnear hnear'
  refine beq_iff_units.mpr ⟨hnumber, hnumber', sub_eq_zero.mp ?_⟩
  exact Int.eq_zero_of_abs_lt_dvd (dvd_sub hc hd) (abs_lt.mpr ⟨by omega, by omega⟩)

end Values

end Binary64
end MipPump
