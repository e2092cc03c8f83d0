import MipPump.Proofs.FloatParts

/-!
# Rounded values of floating-point numbers

Every floating-point number is a whole multiple of the least positive one.  Counted in these units,
a finite number is an integer, and an operation that is exact up to rounding rounds to an integer of
53 bits.  The exact value may be a fraction, which is then counted in smaller parts of a unit.

* `rounded j n`: the number `n / 2 ^ j` rounded to an integer of 53 bits; `rounded_mono`: rounding is
  monotone.  The bits that are dropped one after the other are read as one number, `place`, whose
  order they keep.
* `rounded_mul_two_pow`: an integer with 53 bits is not changed.
* `Stored`: what a word holds; `unpack_pack_full`, `unpack_pack_least`, `unpack_pack_beyond`: what
  is stored of a finite number.
* `units`: the value of a number in units of the least positive one.
* `units_roundWithAccuracy`, `units_round`: the floating-point rounding is that of the value.
-/

namespace MipPump
namespace Binary64

open Float.Model Float.Model.UnpackedFloat

section Rounding

/-- An extended mantissa read as one number, in quarters of its last bit. -/
def place (em : ExtendedMantissa) : ℕ :=
  4 * em.mantissa + 2 * em.roundBit.toNat + em.stickyBit.toNat

theorem place_shiftRightOne (em : ExtendedMantissa) :
    place em.shiftRightOne = 2 * (place em / 4) + min 1 (place em % 4) := by
  obtain ⟨m, r, s⟩ := em
  rcases Nat.mod_two_eq_zero_or_one m with hm | hm <;> cases r <;> cases s <;>
    simp [place, ExtendedMantissa.shiftRightOne, hm] <;> omega

theorem place_shiftRight_mono {em em' : ExtendedMantissa} (h : place em ≤ place em') (k : ℕ) :
    place (em >>> k) ≤ place (em' >>> k) := by
  induction k with
  | zero => exact h
  | succ k ih =>
      show place (ExtendedMantissa.shiftRightOne (em >>> k)) ≤
        place (ExtendedMantissa.shiftRightOne (em' >>> k))
      rw [place_shiftRightOne, place_shiftRightOne]
      omega

theorem roundedMantissa_mono {em em' : ExtendedMantissa} (h : place em ≤ place em') :
    em.roundedMantissa ≤ em'.roundedMantissa := by
  obtain ⟨m, r, s⟩ := em
  obtain ⟨m', r', s'⟩ := em'
  cases r <;> cases s <;> cases r' <;> cases s' <;>
    (simp [place, ExtendedMantissa.roundedMantissa, ExtendedMantissa.accuracy,
      Accuracy.roundToNearestEven] at h ⊢; omega)

theorem roundedMantissa_le (em : ExtendedMantissa) : em.roundedMantissa ≤ em.mantissa + 1 := by
  unfold ExtendedMantissa.roundedMantissa
  rcases em.accuracy with _ | (_ | _ | _) <;> simp only [Accuracy.roundToNearestEven] <;> omega

/-- A mantissa without further bits. -/
abbrev exactly (m : ℕ) : ExtendedMantissa := .ofMantissaAndAccuracy m .exact

/-- Bits that are zero are dropped without a trace. -/
theorem exactly_shiftRight (m j i : ℕ) : exactly (m * 2 ^ j) >>> (j + i) = exactly m >>> i := by
  induction i with
  | zero =>
      induction j generalizing m with
      | zero => rw [pow_zero, Nat.mul_one]
      | succ j ih =>
          show ExtendedMantissa.shiftRightOne (exactly (m * 2 ^ (j + 1)) >>> (j + 0)) = exactly m
          rw [pow_succ', ← Nat.mul_assoc, ih (m * 2)]
          show ExtendedMantissa.shiftRightOne ⟨m * 2, false, false⟩ = ⟨m, false, false⟩
          simp [ExtendedMantissa.shiftRightOne]
  | succ i ih =>
      show ExtendedMantissa.shiftRightOne (exactly (m * 2 ^ j) >>> (j + i)) =
        ExtendedMantissa.shiftRightOne (exactly m >>> i)
      rw [ih]

theorem log2_mul_two_pow {m : ℕ} (hm : m ≠ 0) (j : ℕ) : (m * 2 ^ j).log2 = m.log2 + j := by
  induction j with
  | zero => rw [pow_zero, Nat.mul_one, Nat.add_zero]
  | succ j ih =>
      have hne : m * 2 ^ j ≠ 0 := Nat.mul_ne_zero hm (Nat.two_pow_pos j).ne'
      rw [pow_succ, ← Nat.mul_assoc, Nat.mul_comm, Nat.log2_two_mul hne, ih, Nat.add_assoc]

theorem log2_mono {n n' : ℕ} (h : n ≤ n') : n.log2 ≤ n'.log2 := by
  rcases Nat.eq_zero_or_pos n with rfl | hn
  · exact Nat.zero_le _
  · exact (Nat.le_log2 (by omega)).mpr ((Nat.log2_self_le hn.ne').trans h)

/-- Number of last bits that `n / 2 ^ j` loses when it is rounded to an integer of 53 bits. -/
def lost (j n : ℕ) : ℕ := max (n.log2 - 52) j

/-- The bits that are left, rounded to the nearest; they may come to one bit more than 53. -/
def leading (j n : ℕ) : ℕ := (exactly n >>> lost j n).roundedMantissa

/-- The number `n / 2 ^ j` rounded to an integer of 53 bits. -/
def rounded (j n : ℕ) : ℕ := leading j n * 2 ^ (lost j n - j)

variable {j n n' : ℕ}

theorem leading_le : leading j n ≤ 2 ^ 53 := by
  refine (roundedMantissa_le _).trans ?_
  rw [mantissa_shiftRight, mantissa_ofMantissaAndAccuracy, Nat.succ_le_iff,
    Nat.div_lt_iff_lt_mul (Nat.two_pow_pos _), ← pow_add]
  refine Nat.lt_log2_self.trans_le (Nat.pow_le_pow_right (by decide) ?_)
  unfold lost
  omega

theorem le_leading (hn : n ≠ 0) (h : j + 52 ≤ n.log2) : 2 ^ 52 ≤ leading j n := by
  refine le_trans ?_ (mantissa_le_roundedMantissa _)
  rw [mantissa_shiftRight, mantissa_ofMantissaAndAccuracy,
    Nat.le_div_iff_mul_le (Nat.two_pow_pos _), ← pow_add]
  refine (Nat.pow_le_pow_right (by decide) ?_).trans (Nat.log2_self_le hn)
  unfold lost
  omega

/-- **Rounding is monotone.**  Numbers with the same number of bits lose the same bits; of two
others the longer one is rounded to 53 bits at least, and the shorter one to no more than it can
have. -/
theorem rounded_mono (j : ℕ) (h : n ≤ n') : rounded j n ≤ rounded j n' := by
  have hlog := log2_mono h
  rcases Nat.lt_or_ge (lost j n) (lost j n') with hlt | hge
  · have hlost : lost j n' = n'.log2 - 52 ∧ j < n'.log2 - 52 := by unfold lost at *; omega
    have hj : j ≤ lost j n := le_max_right _ _
    have hne : n' ≠ 0 := by
      rintro rfl
      exact absurd hlost.2 (by simp)
    calc rounded j n ≤ 2 ^ 53 * 2 ^ (lost j n - j) := Nat.mul_le_mul_right _ leading_le
      _ = 2 ^ 52 * 2 ^ (lost j n - j + 1) := by ring
      _ ≤ 2 ^ 52 * 2 ^ (lost j n' - j) :=
          Nat.mul_le_mul_left _ (Nat.pow_le_pow_right (by decide) (by omega))
      _ ≤ rounded j n' := Nat.mul_le_mul_right _ (le_leading hne (by omega))
  · have hsame : lost j n = lost j n' := by unfold lost at *; omega
    unfold rounded leading
    rw [hsame]
    refine Nat.mul_le_mul_right _ (roundedMantissa_mono (place_shiftRight_mono ?_ _))
    simpa [place, ExtendedMantissa.ofMantissaAndAccuracy] using h

/-- An integer with 53 bits at most and zeros behind them is not changed. -/
theorem rounded_mul_two_pow {m i : ℕ} (hm : 0 < m) (hlt : m < 2 ^ 53) (h : 2 ^ 52 ≤ m ∨ i = 0) :
    rounded j (m * 2 ^ i * 2 ^ j) = m * 2 ^ i := by
  have hlog : m.log2 < 53 := (Nat.log2_lt hm.ne').mpr hlt
  have hvalue : m * 2 ^ i * 2 ^ j = m * 2 ^ (i + j) := by rw [Nat.mul_assoc, ← pow_add]
  have hlost : lost j (m * 2 ^ i * 2 ^ j) = i + j := by
    rw [lost, hvalue, log2_mul_two_pow hm.ne']
    rcases h with hlarge | rfl
    · have hfirst := (Nat.le_log2 hm.ne').mpr hlarge
      omega
    · omega
  unfold rounded leading
  rw [hlost, hvalue, Nat.add_sub_cancel]
  exact congrArg (fun em : ExtendedMantissa => em.roundedMantissa * 2 ^ i)
    (exactly_shiftRight m (i + j) 0)

end Rounding

section Words

theorem bias_eq : (Float.Model.Format.binary64.exponentBias : ℤ) = 1023 := rfl

theorem mantissaBits_eq : Float.Model.Format.binary64.mantissaBits = 53 := rfl

theorem toNat_one_append (v : BitVec 52) : (1#1 ++ v).toNat = 2 ^ 52 + v.toNat := by
  rw [BitVec.toNat_append, ← Nat.shiftLeft_add_eq_or_of_lt v.isLt]
  rfl

/-- A number that a word holds: one in the least binade, or one with 53 bits. -/
def Stored : UnpackedFloat → Prop
  | .finite _ m e _ => m < 2 ^ 53 ∧ -1074 ≤ e ∧ e ≤ 971 ∧ (2 ^ 52 ≤ m ∨ e = -1074)
  | _ => True

theorem stored_unpack (b : BitVec Float.Model.Format.binary64.numBits) :
    Stored (UnpackedFloat.unpack .binary64 b) := by
  unfold UnpackedFloat.unpack
  dsimp only
  split_ifs with hspecial hzero hleast hnone
  · trivial
  · trivial
  · trivial
  · refine ⟨(unpackMantissa b).isLt.trans (by decide), ?_, ?_, .inr ?_⟩ <;>
      rw [bias_eq, hleast] <;> decide
  · have hpos : (unpackExponent b).toNat ≠ 0 := fun h => hleast (BitVec.eq_of_toNat_eq h)
    have htop : (unpackExponent b).toNat ≠ 2047 := fun h => hspecial (BitVec.eq_of_toNat_eq h)
    have hexponent : (unpackExponent b).toNat < 2 ^ 11 := (unpackExponent b).isLt
    have hmantissa : (unpackMantissa b).toNat < 2 ^ 52 := (unpackMantissa b).isLt
    have hbits := toNat_one_append (unpackMantissa b)
    refine ⟨?_, ?_, ?_, .inl ?_⟩
    · rw [hbits]; omega
    · rw [bias_eq]; omega
    · rw [bias_eq]; omega
    · rw [hbits]; omega

variable {s : Sign} {m : ℕ} {e : ℤ} {hm : 0 < m}

/-- A number with 53 bits and an exponent that is not too large is stored as it is. -/
theorem unpack_pack_full (hlow : 2 ^ 52 ≤ m) (hlt : m < 2 ^ 53) (he : -1074 ≤ e) (htop : e ≤ 971) :
    UnpackedFloat.unpack .binary64 (UnpackedFloat.pack .binary64 (.finite s m e hm)) =
      .finite s m e hm := by
  have hlog : m.log2 + 1 = 53 := by
    have hfirst := (Nat.le_log2 hm.ne').mpr hlow
    have hlast := (Nat.log2_lt hm.ne').mpr hlt
    omega
  have hexponent : (BitVec.ofNat 11 (e + 1023 + (52 : ℕ)).toNat).toNat = (e + 1075).toNat := by
    rw [BitVec.toNat_ofNat, Nat.mod_eq_of_lt] <;> omega
  have hspecial : BitVec.ofNat 11 (e + 1023 + (52 : ℕ)).toNat ≠ -1#11 := fun h => by
    have hvalue : (e + 1075).toNat = 2047 := hexponent.symm.trans (congrArg BitVec.toNat h)
    omega
  have hleast : BitVec.ofNat 11 (e + 1023 + (52 : ℕ)).toNat ≠ 0#11 := fun h => by
    have hvalue : (e + 1075).toNat = 0 := hexponent.symm.trans (congrArg BitVec.toNat h)
    omega
  have hmantissa : (1#1 ++ BitVec.ofNat 52 m).toNat = m := by
    rw [toNat_one_append, BitVec.toNat_ofNat]
    omega
  unfold UnpackedFloat.pack
  dsimp only
  rw [mantissaBits_eq, bias_eq, if_neg (by omega), if_pos hlog]
  unfold UnpackedFloat.unpack
  simp only [unpackSign_packComponents, unpackExponent_packComponents,
    unpackMantissa_packComponents, Sign.ofBitVec_toBitVec]
  rw [if_neg hspecial, if_neg hleast]
  congr 1
  rw [hexponent, bias_eq]
  omega

/-- So is a number in the least binade. -/
theorem unpack_pack_least (hlt : m < 2 ^ 52) :
    UnpackedFloat.unpack .binary64 (UnpackedFloat.pack .binary64 (.finite s m (-1074) hm)) =
      .finite s m (-1074) hm := by
  have hlog : m.log2 < 52 := (Nat.log2_lt hm.ne').mpr hlt
  have hmantissa : (BitVec.ofNat 52 m).toNat = m := by
    rw [BitVec.toNat_ofNat, Nat.mod_eq_of_lt hlt]
  have hnonzero : BitVec.ofNat 52 m ≠ 0#52 := fun h =>
    hm.ne' (hmantissa.symm.trans (congrArg BitVec.toNat h))
  unfold UnpackedFloat.pack
  dsimp only
  rw [mantissaBits_eq, bias_eq, if_neg (by decide), if_neg (by omega)]
  unfold UnpackedFloat.unpack
  simp only [unpackSign_packComponents, unpackExponent_packComponents,
    unpackMantissa_packComponents, Sign.ofBitVec_toBitVec]
  rw [if_neg (by decide), if_pos trivial, dif_neg hnonzero]
  congr 1

/-- A number whose exponent is too large is stored as an infinity. -/
theorem unpack_pack_beyond (htop : 971 < e) :
    UnpackedFloat.unpack .binary64 (UnpackedFloat.pack .binary64 (.finite s m e hm)) =
      .infinity s := by
  unfold UnpackedFloat.pack
  dsimp only
  rw [bias_eq, if_pos (by omega)]
  unfold packedInfinity UnpackedFloat.unpack
  simp only [unpackSign_packComponents, unpackExponent_packComponents,
    unpackMantissa_packComponents, Sign.ofBitVec_toBitVec]
  rfl

end Words

section Values

/-- The least power of two beyond all numbers, in units of the least positive number. -/
@[irreducible] def beyond : ℕ := 2 ^ 2098

/-- Number of bits behind the point. -/
@[irreducible] def fractionBits : ℕ := 1074

theorem fractionBits_eq : fractionBits = 1074 := by
  unfold fractionBits
  rfl

/-- One, in units of the least positive number. -/
def unity : ℕ := 2 ^ fractionBits

theorem unity_lt_beyond : unity < beyond := by
  unfold unity beyond
  exact pow_lt_pow_right₀ one_lt_two (by rw [fractionBits_eq]; decide)

/-- The value of a number in units of the least positive one; an infinity stands where the numbers
end. -/
def units : UnpackedFloat → ℤ
  | .infinity s => s.apply beyond
  | .finite s m e _ => s.apply (m * 2 ^ (e + 1074).toNat : ℕ)
  | _ => 0

theorem mul_lt_beyond {m : ℕ} {e : ℤ} (hlt : m < 2 ^ 53) (htop : e ≤ 971) :
    m * 2 ^ (e + 1074).toNat < beyond :=
  calc m * 2 ^ (e + 1074).toNat < 2 ^ 53 * 2 ^ (e + 1074).toNat :=
        Nat.mul_lt_mul_of_pos_right hlt (Nat.two_pow_pos _)
    _ = 2 ^ (53 + (e + 1074).toNat) := (pow_add ..).symm
    _ ≤ beyond := by
        unfold beyond
        exact pow_le_pow_right₀ one_le_two (by omega)

theorem beyond_le_mul {m : ℕ} {e : ℤ} (hlow : 2 ^ 52 ≤ m) (htop : 971 < e) :
    beyond ≤ m * 2 ^ (e + 1074).toNat :=
  calc beyond ≤ 2 ^ (52 + (e + 1074).toNat) := by
        unfold beyond
        exact pow_le_pow_right₀ one_le_two (by omega)
    _ = 2 ^ 52 * 2 ^ (e + 1074).toNat := pow_add ..
    _ ≤ m * 2 ^ (e + 1074).toNat := Nat.mul_le_mul_right _ hlow

/-- What is stored of a number with 53 bits, or in the least binade. -/
theorem units_pack {s : Sign} {m : ℕ} {e : ℤ} {hm : 0 < m} (hlt : m < 2 ^ 53) (he : -1074 ≤ e)
    (hfull : 2 ^ 52 ≤ m ∨ e = -1074) :
    units (UnpackedFloat.unpack .binary64 (UnpackedFloat.pack .binary64 (.finite s m e hm))) =
      s.apply (min beyond (m * 2 ^ (e + 1074).toNat) : ℕ) := by
  by_cases hlow : 2 ^ 52 ≤ m
  · rcases le_or_gt e 971 with htop | htop
    · rw [unpack_pack_full hlow hlt he htop, min_eq_right (mul_lt_beyond hlt htop).le, units]
    · rw [unpack_pack_beyond htop, min_eq_left (beyond_le_mul hlow htop), units]
  · obtain rfl := hfull.resolve_left hlow
    rw [unpack_pack_least (Nat.lt_of_not_le hlow),
      min_eq_right (mul_lt_beyond hlt (by decide)).le, units]

/-- A number none of whose bits are missing is rounded as its value is.  Its exponent may be less
than that of a unit by `j`. -/
theorem units_roundWithAccuracy {s : Sign} {m j : ℕ} {e : ℤ} (hm : 0 < m) (he : -1074 ≤ e + j)
    (htarget : e ≤ max (m.log2 + e - 52) (-1074)) :
    units (UnpackedFloat.unpack .binary64 (UnpackedFloat.pack .binary64
      (roundWithAccuracy .binary64 s m e .exact))) =
      s.apply (min beyond (rounded j (m * 2 ^ (e + j + 1074).toNat)) : ℕ) := by
  have hdropped (r : ℕ) (t : ℤ) :
      dropped r t = (max ((r.log2 : ℤ) + 1 + t - 53) (-1074) - t).toNat := by
    rw [dropped, targetExponent_eq, totalExponent]
  obtain ⟨n, hn⟩ : ∃ n, n = m * 2 ^ (e + j + 1074).toNat := ⟨_, rfl⟩
  -- the value loses `k` bits: those that it has more than the mantissa, which are zeros, and those
  -- that the mantissa loses
  obtain ⟨k, hk⟩ : ∃ k, k = lost j n := ⟨_, rfl⟩
  have hlost : k = max (n.log2 - 52) j := hk
  have hpos : n ≠ 0 := hn ▸ (Nat.mul_pos hm (Nat.two_pow_pos _)).ne'
  have hlog : n.log2 = m.log2 + (e + j + 1074).toNat := by rw [hn, log2_mul_two_pow hm.ne']
  have hsum : k = (e + j + 1074).toNat + dropped m e := by
    rw [hlost, hlog, hdropped]
    omega
  have hfirst : (exactly m >>> dropped m e).roundedMantissa = leading j n := by
    rw [leading, ← hk, hsum, hn, exactly_shiftRight]
  have hexponent : e + dropped m e = k - j - 1074 := by omega
  have hround : roundWithAccuracy .binary64 s m e .exact =
      if h : (exactly (leading j n) >>> dropped (leading j n) (k - j - 1074)).mantissa = 0 then
        .zero s
      else .finite s (exactly (leading j n) >>> dropped (leading j n) (k - j - 1074)).mantissa
        (k - j - 1074 + dropped (leading j n) (k - j - 1074)) (Nat.pos_of_ne_zero h) := by
    rw [← hfirst, ← hexponent]
    rfl
  rw [hround, ← hn, rounded, ← hk]
  rcases (leading_le (j := j) (n := n)).lt_or_eq with hlt | heq
  · have hbits : (leading j n).log2 < 53 := by
      rcases Nat.eq_zero_or_pos (leading j n) with hzero | hleading
      · rw [hzero]
        decide
      · exact (Nat.log2_lt hleading.ne').mpr hlt
    have hnone : dropped (leading j n) (k - j - 1074) = 0 := by
      rw [hdropped]
      omega
    have hsecond :
        (exactly (leading j n) >>> dropped (leading j n) (k - j - 1074)).mantissa =
          leading j n := by
      rw [hnone]
      rfl
    by_cases hzero : leading j n = 0
    · rw [dif_pos (hsecond.trans hzero), hzero, Nat.zero_mul, Nat.min_zero]
      cases s <;> rfl
    · have hunits : ((k : ℤ) - j - 1074 + (0 : ℕ) + 1074).toNat = k - j := by omega
      rw [dif_neg (by rwa [hsecond]), units_pack (by rwa [hsecond]) (by omega) ?_, hsecond, hnone,
        hunits]
      · by_cases hlow : j + 52 ≤ n.log2
        · left
          rw [hsecond]
          exact le_leading hpos hlow
        · right; omega
  · -- the rounded bits are one too many: the last one is zero, and it is dropped
    have hone : dropped (leading j n) (k - j - 1074) = 1 := by
      rw [hdropped, heq, Nat.log2_two_pow]
      omega
    have hsecond :
        (exactly (leading j n) >>> dropped (leading j n) (k - j - 1074)).mantissa = 2 ^ 52 := by
      rw [hone, mantissa_shiftRight, mantissa_ofMantissaAndAccuracy, heq]
      rfl
    have htop : ((k : ℤ) - j - 1074 + (dropped (leading j n) (k - j - 1074) : ℤ) + 1074).toNat =
        k - j + 1 := by omega
    rw [dif_neg (by rw [hsecond]; decide), units_pack (by rw [hsecond]; decide) (by omega)
      (.inl hsecond.ge), hsecond, htop, heq]
    congr 3
    ring

/-- What is stored of a rounded number has the rounded value. -/
theorem units_round {s : Sign} {m : ℕ} {e : ℤ} (hm : 0 < m) (he : -1074 ≤ e) :
    units (UnpackedFloat.unpack .binary64 (UnpackedFloat.pack .binary64
      (UnpackedFloat.round .binary64 s m e))) =
      s.apply (min beyond (rounded 0 (m * 2 ^ (e + 1074).toNat)) : ℕ) := by
  obtain ⟨d, hd⟩ : ∃ d, d = (e - Float.Model.Format.binary64.targetExponent
    (totalExponent m e)).toNat := ⟨_, rfl⟩
  have hround : UnpackedFloat.round .binary64 s m e =
      roundWithAccuracy .binary64 s (m * 2 ^ d) (e - d) .exact := by
    rw [← Nat.shiftLeft_eq, hd]
    rfl
  rw [targetExponent_eq, totalExponent] at hd
  have hvalue : m * 2 ^ d * 2 ^ (e - d + (0 : ℕ) + 1074).toNat = m * 2 ^ (e + 1074).toNat := by
    rw [Nat.mul_assoc, ← pow_add]
    congr
    omega
  rw [hround, units_roundWithAccuracy (Nat.mul_pos hm (Nat.two_pow_pos d)) (j := 0) (by omega)
    (by rw [log2_mul_two_pow hm.ne']; omega), hvalue]

end Values

end Binary64
end MipPump
