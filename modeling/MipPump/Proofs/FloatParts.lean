import MipPump.Proofs.NumberOrders

/-!
# Zeros and special values of floating-point results

The result of an operation is rounded to 53 bits and packed into a word.  Rounding never makes a zero
of another number, since no result lies below the least positive number, and packing keeps apart what
is zero, what is no number and what is neither.

* `Fits`: what a word can hold; `unpack_pack_eq_zero_iff`: packing keeps the zeros of what fits.
* `Apart`: what fits and is no zero; `apart_roundWithAccuracy`: a positive magnitude stays so when it
  is rounded.
* `add_eq_negZero_iff`: a sum is minus zero only if both terms are.
* `ofNat_ne_negZero`, `floor_eq_negZero_iff`: the zeros of integers.
* `isNaN_add`: the sum of a number and a finite one is a number.
* `lt_or_beq_or_gt`: two numbers are less, equal or greater.
-/

namespace MipPump
namespace Binary64

open Float.Model Float.Model.UnpackedFloat

/-- A number that a word can hold: if it is finite, it has 53 bits at most, and none of them is below
the least positive number. -/
def Fits : UnpackedFloat → Prop
  | .finite _ m e _ => m < 2 ^ 53 ∧ -1074 ≤ e
  | _ => True

/-- A number that a word can hold and that is not zero. -/
structure Apart (u : UnpackedFloat) : Prop where
  fits : Fits u
  ne_zero : ∀ s, u ≠ .zero s

theorem apart_finite {s : Sign} {m : ℕ} {e : ℤ} {hm : 0 < m} (hlt : m < 2 ^ 53)
    (he : -1074 ≤ e) : Apart (.finite s m e hm) := ⟨⟨hlt, he⟩, nofun⟩

section Shifts

theorem mantissa_shiftRight (em : ExtendedMantissa) (k : ℕ) :
    (em >>> k).mantissa = em.mantissa / 2 ^ k := by
  induction k with
  | zero => simp [HShiftRight.hShiftRight, Nat.repeat]
  | succ k ih =>
      show (ExtendedMantissa.shiftRightOne (em >>> k)).mantissa = _
      rw [ExtendedMantissa.shiftRightOne, ih, Nat.div_div_eq_div_mul, pow_succ]

theorem mantissa_ofMantissaAndAccuracy (m : ℕ) (accuracy : Accuracy) :
    (ExtendedMantissa.ofMantissaAndAccuracy m accuracy).mantissa = m := by
  rcases accuracy with _ | (_ | _ | _) <;> rfl

theorem mantissa_le_roundedMantissa (em : ExtendedMantissa) :
    em.mantissa ≤ em.roundedMantissa := by
  rcases em with ⟨m, _ | _, _ | _⟩ <;>
    simp [ExtendedMantissa.roundedMantissa, ExtendedMantissa.accuracy,
      Accuracy.roundToNearestEven]

variable {m : ℕ} {e : ℤ}

/-- Number of bits that a rounding drops. -/
def dropped (m : ℕ) (e : ℤ) : ℕ :=
  (Float.Model.Format.binary64.targetExponent (totalExponent m e) - e).toNat

theorem targetExponent_eq (t : ℤ) :
    Float.Model.Format.binary64.targetExponent t = max (t - 53) (-1074) := rfl

/-- A rounding keeps some of the bits of a number that is not below the least one, and 53 of them at
most. -/
theorem dropped_bounds (hm : 0 < m) (he : -1074 ≤ (m.log2 : ℤ) + e) :
    0 < m / 2 ^ dropped m e ∧ m / 2 ^ dropped m e < 2 ^ 53 ∧ -1074 ≤ e + dropped m e := by
  have hdropped : dropped m e = (max ((m.log2 : ℤ) + 1 + e - 53) (-1074) - e).toNat := by
    rw [dropped, targetExponent_eq, totalExponent]
  have hlow : dropped m e ≤ m.log2 := by omega
  have hhigh : m.log2 + 1 ≤ 53 + dropped m e := by omega
  refine ⟨Nat.div_pos ?_ (Nat.two_pow_pos _), ?_, by omega⟩
  · exact (Nat.pow_le_pow_right (by decide) hlow).trans (Nat.log2_self_le hm.ne')
  · rw [Nat.div_lt_iff_lt_mul (Nat.two_pow_pos _), ← pow_add]
    exact Nat.lt_log2_self.trans_le (Nat.pow_le_pow_right (by decide) hhigh)

/-- A positive magnitude that is not below the least one is not rounded to zero. -/
theorem apart_roundWithAccuracy (s : Sign) (hm : 0 < m) (he : -1074 ≤ (m.log2 : ℤ) + e)
    (accuracy : Accuracy) : Apart (roundWithAccuracy .binary64 s m e accuracy) := by
  obtain ⟨hpos, -, hexponent⟩ := dropped_bounds hm he
  let first := ExtendedMantissa.ofMantissaAndAccuracy m accuracy >>> dropped m e
  have hfirst : 0 < first.roundedMantissa := by
    refine Nat.lt_of_lt_of_le ?_ (mantissa_le_roundedMantissa first)
    rwa [mantissa_shiftRight, mantissa_ofMantissaAndAccuracy]
  obtain ⟨hpos', hlt, hexponent'⟩ := dropped_bounds (e := e + dropped m e) hfirst (by omega)
  let second := ExtendedMantissa.ofMantissaAndAccuracy first.roundedMantissa .exact >>>
    dropped first.roundedMantissa (e + dropped m e)
  have hsecond : second.mantissa =
      first.roundedMantissa / 2 ^ dropped first.roundedMantissa (e + dropped m e) := by
    rw [mantissa_shiftRight, mantissa_ofMantissaAndAccuracy]
  rw [← hsecond] at hpos' hlt
  have hround : roundWithAccuracy .binary64 s m e accuracy = .finite s second.mantissa
      (e + dropped m e + dropped first.roundedMantissa (e + dropped m e)) hpos' :=
    dif_neg hpos'.ne'
  exact hround ▸ apart_finite hlt hexponent'

theorem apart_round (s : Sign) (hm : 0 < m) (he : -1074 ≤ e) :
    Apart (UnpackedFloat.round .binary64 s m e) := by
  have hshifted : 0 < m <<< (e - Float.Model.Format.binary64.targetExponent
      (totalExponent m e)).toNat := by
    rw [Nat.shiftLeft_eq]
    exact Nat.mul_pos hm (Nat.two_pow_pos _)
  refine apart_roundWithAccuracy s hshifted ?_ .exact
  rw [targetExponent_eq]
  omega

/-- A sum is rounded to zero only if it is zero. -/
theorem apart_normalize {n : ℤ} (hn : n ≠ 0) (he : -1074 ≤ e) (s : Sign) :
    Apart (UnpackedFloat.normalize .binary64 n e s) := by
  unfold UnpackedFloat.normalize
  rcases lt_or_gt_of_ne hn with hneg | hpos
  · rw [compare_lt_iff_lt.mpr hneg]
    exact apart_round _ (by omega) he
  · rw [compare_gt_iff_gt.mpr hpos]
    exact apart_round _ (by omega) he

end Shifts

section Words

theorem fits_unpack (b : BitVec Float.Model.Format.binary64.numBits) :
    Fits (UnpackedFloat.unpack .binary64 b) := by
  have hbias : (Float.Model.Format.binary64.exponentBias : ℤ) = 1023 := rfl
  unfold UnpackedFloat.unpack
  dsimp only
  split_ifs with hspecial hzero hzero
  · trivial
  · trivial
  · trivial
  · refine ⟨(unpackMantissa b).isLt.trans (by decide), ?_⟩
    rw [hbias]
    omega
  · refine ⟨(1#1 ++ unpackMantissa b).isLt, ?_⟩
    have hpos : (unpackExponent b).toNat ≠ 0 := fun h => hzero (BitVec.eq_of_toNat_eq h)
    rw [hbias]
    omega

/-- A finite number that fits is not packed into a zero. -/
theorem pack_ne_packedZero {s s' : Sign} {m : ℕ} {e : ℤ} {hm : 0 < m}
    (h : Fits (.finite s m e hm)) :
    UnpackedFloat.pack .binary64 (.finite s m e hm) ≠ packedZero .binary64 s' := by
  obtain ⟨hlt, hexponent⟩ := h
  have hbias : (Float.Model.Format.binary64.exponentBias : ℤ) = 1023 := rfl
  have hbits : Float.Model.Format.binary64.mantissaBits = 53 := rfl
  intro heq
  unfold UnpackedFloat.pack at heq
  dsimp only at heq
  rw [hbits] at heq
  split_ifs at heq with hinf hnormal
  · have hfield := congrArg unpackExponent heq
    simp [packedInfinity, packedZero] at hfield
  · have hfield := congrArg (fun b => (unpackExponent b).toNat) heq
    simp only [packedZero, unpackExponent_packComponents, BitVec.toNat_ofNat] at hfield
    rw [hbias] at hfield hinf
    have hzero : BitVec.toNat (0 : BitVec 11) = 0 := rfl
    norm_num [hzero] at hfield hinf
    omega
  · have hfield := congrArg (fun b => (unpackMantissa b).toNat) heq
    simp only [packedZero, unpackMantissa_packComponents, BitVec.toNat_ofNat] at hfield
    have hlog : m.log2 < 53 := (Nat.log2_lt hm.ne').mpr hlt
    have hsmall : m < 2 ^ 52 := (Nat.log2_lt hm.ne').mp (by omega)
    rw [Nat.mod_eq_of_lt hsmall] at hfield
    exact hm.ne' hfield

/-- Packing keeps the zeros of what fits. -/
theorem unpack_pack_eq_zero_iff {u : UnpackedFloat} (h : Fits u) {s : Sign} :
    UnpackedFloat.unpack .binary64 (UnpackedFloat.pack .binary64 u) = .zero s ↔ u = .zero s := by
  rw [unpack_eq_zero_iff_of_valid valid_pack]
  cases u with
  | zero s' =>
      refine ⟨fun heq => ?_, fun heq => by rw [heq]; rfl⟩
      have hunpacked := congrArg (UnpackedFloat.unpack .binary64) heq
      rwa [UnpackedFloat.pack, unpack_packedZero, unpack_packedZero] at hunpacked
  | infinity s' => cases s' <;> cases s <;> exact iff_of_false (by decide) nofun
  | notANumber => cases s <;> exact iff_of_false (by decide) nofun
  | finite s' m e hm => exact iff_of_false (pack_ne_packedZero h) nofun

theorem Apart.unpack_pack {u : UnpackedFloat} (h : Apart u) (s : Sign) :
    UnpackedFloat.unpack .binary64 (UnpackedFloat.pack .binary64 u) ≠ .zero s :=
  fun heq => h.ne_zero s ((unpack_pack_eq_zero_iff h.fits).mp heq)

/-- Packing a finite number does not give the word of what is no number. -/
theorem pack_ne_packedNaN {s : Sign} {m : ℕ} {e : ℤ} {hm : 0 < m} :
    UnpackedFloat.pack .binary64 (.finite s m e hm) ≠ packedNaN .binary64 := by
  intro heq
  unfold UnpackedFloat.pack at heq
  dsimp only at heq
  split_ifs at heq with hinf hnormal
  · have hfield := congrArg unpackMantissa heq
    simp [packedInfinity, packedNaN] at hfield
  · have hfield := congrArg (fun b => (unpackExponent b).toNat) heq
    simp only [packedNaN, unpackExponent_packComponents, BitVec.toNat_ofNat] at hfield
    norm_num at hfield hinf
    omega
  · have hfield := congrArg unpackExponent heq
    simp [packedNaN] at hfield

/-- Packing keeps what is no number. -/
theorem unpack_pack_eq_notANumber_iff {u : UnpackedFloat} :
    UnpackedFloat.unpack .binary64 (UnpackedFloat.pack .binary64 u) = .notANumber ↔
      u = .notANumber := by
  rw [unpack_eq_notANumber_iff_of_valid valid_pack]
  cases u with
  | zero s => cases s <;> exact iff_of_false (by decide) nofun
  | infinity s => cases s <;> exact iff_of_false (by decide) nofun
  | notANumber => exact iff_of_true rfl rfl
  | finite s m e hm => exact iff_of_false pack_ne_packedNaN nofun

end Words

section Zeros

theorem unpack_add (x y : Float) :
    (x + y).toModel.unpack = UnpackedFloat.unpack .binary64 (UnpackedFloat.pack .binary64
      (UnpackedFloat.add .binary64 x.toModel.unpack y.toModel.unpack)) := rfl

theorem unpack_mul (x y : Float) :
    (x * y).toModel.unpack = UnpackedFloat.unpack .binary64 (UnpackedFloat.pack .binary64
      (UnpackedFloat.mul .binary64 x.toModel.unpack y.toModel.unpack)) := rfl

theorem fits (x : Float) : Fits x.toModel.unpack := fits_unpack x.toModel.toBits.toBitVec

theorem unpack_inj {x y : Float} (h : x.toModel.unpack = y.toModel.unpack) : x = y :=
  Float.toBits_inj.mp (UInt64.toBitVec_inj.mp
    ((unpack_inj_of_valid x.toModel.valid y.toModel.valid).mp h))

theorem unpack_zero : (0 : Float).toModel.unpack = .zero .positive :=
  (unpack_eq_zero_iff_of_valid (0 : Float).toModel.valid).mpr (by decide +kernel)

theorem unpack_negZero : (-0 : Float).toModel.unpack = .zero .negative := by
  rw [unpack_neg, unpack_zero]
  rfl

theorem unpack_eq_negZero_iff {x : Float} : x.toModel.unpack = .zero .negative ↔ x = -0 :=
  ⟨fun h => unpack_inj (h.trans unpack_negZero.symm), fun h => h ▸ unpack_negZero⟩

theorem finite_add_cases {s s' : Sign} {m m' : ℕ} {e e' : ℤ} {hm : 0 < m} {hm' : 0 < m'}
    (h : Fits (.finite s m e hm)) (h' : Fits (.finite s' m' e' hm')) :
    Fits (UnpackedFloat.add .binary64 (.finite s m e hm) (.finite s' m' e' hm')) ∧
      UnpackedFloat.add .binary64 (.finite s m e hm) (.finite s' m' e' hm') ≠ .zero .negative := by
  let total : ℤ := s.apply (m <<< (e - min e e').toNat : ℕ) +
    s'.apply (m' <<< (e' - min e e').toNat : ℕ)
  have hadd : UnpackedFloat.add .binary64 (.finite s m e hm) (.finite s' m' e' hm') =
      UnpackedFloat.normalize .binary64 total (min e e') .positive := rfl
  rw [hadd]
  by_cases htotal : total = 0
  · rw [htotal]
    exact ⟨trivial, nofun⟩
  · have hapart := apart_normalize htotal (le_min h.2 h'.2) .positive
    exact ⟨hapart.fits, hapart.ne_zero _⟩

/-- The sum of two numbers that fit is minus zero only if both are; and it fits. -/
theorem add_cases {u v : UnpackedFloat} (hu : Fits u) (hv : Fits v) :
    Fits (u.add .binary64 v) ∧
      (u.add .binary64 v = .zero .negative ↔ u = .zero .negative ∧ v = .zero .negative) := by
  rcases u with s | _ | s | ⟨s, m, e, hm⟩ <;> rcases v with s' | _ | s' | ⟨s', m', e', hm'⟩
  case finite.finite =>
    have hsum := finite_add_cases hu hv
    exact ⟨hsum.1, iff_of_false hsum.2 nofun⟩
  case zero.finite => exact ⟨hv, by simp [UnpackedFloat.add]⟩
  case finite.zero => exact ⟨hu, by simp [UnpackedFloat.add]⟩
  case infinity.infinity => cases s <;> cases s' <;> exact ⟨trivial, by simp [UnpackedFloat.add]⟩
  case zero.zero => cases s <;> cases s' <;> exact ⟨trivial, by simp [UnpackedFloat.add]⟩
  all_goals exact ⟨trivial, by simp [UnpackedFloat.add]⟩

/-- A sum is minus zero only if both terms are. -/
theorem add_eq_negZero_iff {x y : Float} : x + y = -0 ↔ x = -0 ∧ y = -0 := by
  obtain ⟨hfits, hzero⟩ := add_cases (fits x) (fits y)
  simp only [← unpack_eq_negZero_iff]
  rw [unpack_add, unpack_pack_eq_zero_iff hfits, hzero]

end Zeros

section Integers

theorem unpack_toFloat_ne_zero {n : UInt64} (hn : n.toNat ≠ 0) (s : Sign) :
    n.toFloat.toModel.unpack ≠ .zero s :=
  (apart_normalize (n := n.toNat) (by omega) (by decide) .positive).unpack_pack s

theorem apart_mul {s s' : Sign} {m m' : ℕ} {e e' : ℤ} {hm : 0 < m} {hm' : 0 < m'}
    (he : -1074 ≤ ((m * m').log2 : ℤ) + (e + e')) :
    Apart (UnpackedFloat.mul .binary64 (.finite s m e hm) (.finite s' m' e' hm')) :=
  apart_roundWithAccuracy _ (Nat.mul_pos hm hm') he .exact

/-- A product with one is zero only if the other factor is. -/
theorem apart_mul_one {u : UnpackedFloat} (hu : Apart u) (hm : 0 < 2 ^ 52) :
    Apart (u.mul .binary64 (.finite .positive (2 ^ 52) (-52) hm)) := by
  rcases u with s | _ | s | ⟨s, m, e, hpos⟩
  · exact ⟨trivial, nofun⟩
  · exact ⟨trivial, nofun⟩
  · exact absurd rfl (hu.ne_zero s)
  · have hlog : 52 ≤ (m * 2 ^ 52).log2 :=
      (Nat.le_log2 (Nat.mul_pos hpos hm).ne').mpr (Nat.le_mul_of_pos_left _ hpos)
    have he : -1074 ≤ e := hu.fits.2
    exact apart_mul (by omega)

theorem unpack_one : (1 : Float).toModel.unpack = .finite .positive (2 ^ 52) (-52) (by decide) := by
  have hbits : (1 : Float) = Float.ofBits 0x3FF0000000000000 := by decide +kernel
  rw [hbits]
  rfl

/-- An integer that is read from its digits is rounded. -/
theorem ofScientific_eq {n : ℕ} (hn : n ≠ 0) : UnpackedFloat.ofScientific .binary64 n 0 =
    roundWithAccuracy .binary64 .positive (n * 2 ^ 53) (-53) .exact := by
  have hsafe : ¬(0 : ℤ) < -(2 ^ Float.Model.Format.binary64.exponentBits + n.log2) := by
    have hpower : (0 : ℤ) ≤ 2 ^ Float.Model.Format.binary64.exponentBits := by positivity
    omega
  have hvalue : n <<< 53 * 10 ^ (0 : ℤ).toNat = n * 2 ^ 53 := by
    rw [Nat.shiftLeft_eq, Int.toNat_zero, pow_zero, Nat.mul_one]
  unfold UnpackedFloat.ofScientific
  rw [dif_neg hn, if_neg (by decide), if_neg hsafe, if_pos le_rfl]
  show roundWithAccuracy .binary64 .positive (n <<< 53 * 10 ^ (0 : ℤ).toNat) (-53 + 0) .exact = _
  rw [hvalue, add_zero]

/-- An integer with 53 bits is converted by a machine word. -/
theorem ofNat_of_lt {n : ℕ} (hn : n < 2 ^ 53) : Float.ofNat n = n.toUInt64.toFloat * 1 := by
  have hone : Float.ofBits 0x3FF0000000000000 = (1 : Float) := by decide +kernel
  have hofNat : Float.ofNat n = n.toUInt64.toFloat * Float.ofBits 0x3FF0000000000000 :=
    dif_pos ⟨hn, by decide⟩
  rw [hofNat, hone]

/-- A longer one is read from its digits. -/
theorem unpack_ofNat_of_not_lt {n : ℕ} (hn : ¬ n < 2 ^ 53) : (Float.ofNat n).toModel.unpack =
    UnpackedFloat.unpack .binary64 (UnpackedFloat.pack .binary64
      (roundWithAccuracy .binary64 .positive (n * 2 ^ 53) (-53) .exact)) := by
  have hofNat : Float.ofNat n = Float.ofModel (Float.Model.ofScientific n 0) :=
    dif_neg fun h => hn h.1
  rw [hofNat, ← ofScientific_eq (by omega)]
  rfl

/-- A positive integer is neither zero. -/
theorem unpack_ofNat_ne_zero {n : ℕ} (hn : n ≠ 0) (s : Sign) :
    (Float.ofNat n).toModel.unpack ≠ .zero s := by
  by_cases hsmall : n < 2 ^ 53
  · have hword : n.toUInt64.toNat ≠ 0 := by
      rw [Nat.toUInt64, UInt64.toNat_ofNat']
      omega
    rw [ofNat_of_lt hsmall, unpack_mul, unpack_one]
    exact (apart_mul_one ⟨fits _, unpack_toFloat_ne_zero hword⟩ _).unpack_pack s
  · rw [unpack_ofNat_of_not_lt hsmall]
    exact (apart_roundWithAccuracy .positive (by omega) (by omega) .exact).unpack_pack s

theorem ofNat_ne_negZero (n : ℕ) : Float.ofNat n ≠ -0 := by
  by_cases hn : n = 0
  · subst hn
    decide +kernel
  · exact fun h => unpack_ofNat_ne_zero hn .negative (unpack_eq_negZero_iff.mpr h)

theorem eq_zero_of_neg {u : UnpackedFloat} (h : u.neg = .zero .negative) :
    u = .zero .positive := by
  rcases u with s | _ | (_ | _) | s
  case zero.positive => rfl
  all_goals cases h

theorem neg_ofNat_eq_negZero {n : ℕ} (h : -Float.ofNat n = -0) : n = 0 := by
  by_contra hn
  have hunpack := unpack_eq_negZero_iff.mpr h
  rw [unpack_neg] at hunpack
  exact unpack_ofNat_ne_zero hn .positive (eq_zero_of_neg hunpack)

/-- Minus zero is the number whose only bit is that of the sign. -/
theorem eq_negZero_of_toBits {x : Float} (h : x.toBits.toNat = 2 ^ 63) : x = -0 := by
  have hbits : x.toBits.toNat = (-0 : Float).toBits.toNat := h.trans (by decide +kernel)
  exact Float.toBits_inj.mp (UInt64.toNat_inj.mp hbits)

theorem eq_negZero_of_decode {x : Float} {e : ℤ} (h : decode x = finite true 0 e) : x = -0 := by
  have hword : x.toBits.toNat < 2 ^ 64 := x.toBits.toNat_lt
  have h63 : Power.two 63 = 2 ^ 63 := rfl
  have h52 : Power.two 52 = 2 ^ 52 := rfl
  have h11 : Power.two 11 = 2 ^ 11 := rfl
  unfold decode at h
  dsimp only at h
  split_ifs at h with hspecial hinf hexponent
  · obtain ⟨hsign, hfraction, -⟩ := finite.inj h
    replace hsign := of_decide_eq_true hsign
    rw [h52, h11] at hexponent
    rw [h52] at hfraction
    rw [h63] at hsign
    exact eq_negZero_of_toBits (by omega)
  · obtain ⟨-, hfraction, -⟩ := finite.inj h
    rw [h52] at hfraction
    omega

/-- The floor of a number is minus zero only if the number is. -/
theorem floor_eq_negZero_iff {x : Float} : floor x = -0 ↔ x = -0 := by
  refine ⟨fun h => ?_, fun h => by rw [h]; decide +kernel⟩
  unfold floor integral at h
  split at h
  · next negative m e hdecode =>
      split_ifs at h with hexponent hnegative
      · exact h
      · subst hnegative
        have hmagnitude := neg_ofNat_eq_negZero h
        have hmantissa : m = 0 := by
          simp only [Bool.true_and, bne_iff_ne, ne_eq] at hmagnitude
          split_ifs at hmagnitude with hpart
          rw [← Nat.div_add_mod m (Power.two (-e).toNat), hmagnitude, hpart]
          simp
        exact eq_negZero_of_decode (hmantissa ▸ hdecode)
      · exact absurd h (ofNat_ne_negZero _)
  · exact h

end Integers

section Numbers

theorem isNaN_iff_unpack {x : Float} :
    Arith.isNaN x = true ↔ x.toModel.unpack = .notANumber := UnpackedFloat.isNaN_iff

theorem isInf_of_unpack {x : Float} {s : Sign} (h : x.toModel.unpack = .infinity s) :
    Arith.isInf x = true := by
  show x.toModel.unpack.isInf = true
  rw [h]
  rfl

theorem roundWithAccuracy_ne_notANumber (s : Sign) (m : ℕ) (e : ℤ) (accuracy : Accuracy) :
    roundWithAccuracy .binary64 s m e accuracy ≠ .notANumber := by
  unfold roundWithAccuracy
  dsimp only
  split_ifs <;> nofun

theorem normalize_ne_notANumber (n e : ℤ) (s : Sign) :
    UnpackedFloat.normalize .binary64 n e s ≠ .notANumber := by
  unfold UnpackedFloat.normalize
  split
  · exact roundWithAccuracy_ne_notANumber _ _ _ _
  · nofun
  · exact roundWithAccuracy_ne_notANumber _ _ _ _

theorem add_ne_notANumber {u v : UnpackedFloat} (hu : u ≠ .notANumber) (hv : v ≠ .notANumber)
    (h : ∀ s, v ≠ .infinity s) : u.add .binary64 v ≠ .notANumber := by
  rcases u with s | _ | s | ⟨s, m, e, hm⟩ <;> rcases v with s' | _ | s' | ⟨s', m', e', hm'⟩
  case finite.finite => exact normalize_ne_notANumber _ _ _
  case zero.zero => cases s <;> cases s' <;> nofun
  all_goals simp_all [UnpackedFloat.add]

/-- A number plus a finite one is a number, even if it overflows. -/
theorem isNaN_add {x y : Float} (hx : Arith.isNaN x = false) (hy : Arith.isNaN y = false)
    (hfinite : Arith.isInf y = false) : Arith.isNaN (x + y) = false := by
  rw [← Bool.not_eq_true, isNaN_iff_unpack] at hx hy ⊢
  rw [unpack_add, unpack_pack_eq_notANumber_iff]
  refine add_ne_notANumber hx hy fun s hs => ?_
  rw [isInf_of_unpack hs] at hfinite
  cases hfinite

theorem unpacked_beq_iff (a b : UnpackedFloat) :
    a.beq b = true ↔ a.isNaN = false ∧ b.isNaN = false ∧ orderKey a = orderKey b := by
  rcases a with (_ | _) | _ | (_ | _) | ⟨_ | _, m, e, hm⟩ <;>
  rcases b with (_ | _) | _ | (_ | _) | ⟨_ | _, m', e', hm'⟩ <;>
  simp [UnpackedFloat.beq, UnpackedFloat.compare, UnpackedFloat.isNaN, orderKey]
  all_goals rfl

/-- Two numbers are less, equal or greater. -/
theorem lt_or_beq_or_gt {x y : Float} (hx : Arith.isNaN x = false) (hy : Arith.isNaN y = false) :
    x < y ∨ (x == y) = true ∨ y < x := by
  rcases lt_trichotomy (numberOrder.key x) (numberOrder.key y) with hlt | heq | hgt
  · exact .inl ((numberOrder.lt_iff x y).mpr ⟨hx, hy, hlt⟩)
  · exact .inr (.inl ((unpacked_beq_iff _ _).mpr ⟨hx, hy, heq⟩))
  · exact .inr (.inr ((numberOrder.lt_iff y x).mpr ⟨hy, hx, hgt⟩))

end Numbers

end Binary64
end MipPump
