import MipPump.Proofs.Candidates

/-!
# Rounding to the nearest integer of a box

A value is clipped into a box of integral or infinite bounds and rounded there.

* `IntegralBounds lo hi`: the bounds are integers or infinite and in order.
* `IntegralBox lo hi`: an integer lies between them besides.
* `clip lo hi x`: the value moved into the box; both clamps of the arithmetic compute it.
* `roundedClip`: the integer that a clipped value is rounded to, and `roundedInBox` from the value.
* `RoundsTo`: what is asked of a rounding.  It is as near as any integer but for twice the
  tolerance, it is the nearest integer away from a half, and it follows the tie break near one.
* `RoundsInto`: a rounding of all values, which keeps their order and rounds an integer to itself.
* `roundedClip_mono`: the rounding keeps the order, across the edges of the tie band as well.
* `integralBox_or_single`: bounds in order that have no integer between them are one infinity.

**Result.**  `nearest_rounds_into_box`, for single values, vectors and the points of a table.
-/

namespace MipPump
namespace Rounding

open ExtRat

/-- Integral or infinite bounds in order. -/
structure IntegralBounds (lo hi : ExtRat) : Prop where
  lower : Whole lo ∨ Arith.isInf lo = true
  upper : Whole hi ∨ Arith.isInf hi = true
  ordered : lo ≤ hi

/-- Bounds that are integers or infinite, with an integer between them. -/
structure IntegralBox (lo hi : ExtRat) : Prop where
  lower : Whole lo ∨ Arith.isInf lo = true
  upper : Whole hi ∨ Arith.isInf hi = true
  inhabited : ∃ m : ℤ, lo ≤ fin m ∧ fin m ≤ hi

/-- A finite value moved up to a finite lower bound. -/
def raised : ExtRat → ℚ → ℚ
  | fin a, q => max a q
  | _, q => q

/-- A finite value moved down to a finite upper bound. -/
def lowered : ExtRat → ℚ → ℚ
  | fin b, q => min b q
  | _, q => q

/-- A finite value moved into a box. -/
def clip (lo hi : ExtRat) (q : ℚ) : ℚ := lowered hi (raised lo q)

/-- Whether a value inside the box is rounded up. -/
def goesUp (tieBreak : TieBreak) (eps : ℚ) (lo hi : ExtRat) (w : ℚ) : Bool :=
  if |Int.fract w - 1 / 2| ≤ eps then tieGoesUp tieBreak lo hi (fin ⌊w⌋)
  else decide (1 / 2 < Int.fract w)

/-- The integer that a value inside the box is rounded to. -/
def roundedClip (tieBreak : TieBreak) (eps : ℚ) (lo hi : ExtRat) (w : ℚ) : ℤ :=
  if goesUp tieBreak eps lo hi w then ⌊w⌋ + 1 else ⌊w⌋

/-- The integer that a value is rounded to in the box. -/
def roundedInBox (tieBreak : TieBreak) (eps : ℚ) (lo hi : ExtRat) (q : ℚ) : ℤ :=
  roundedClip tieBreak eps lo hi (clip lo hi q)

/-- The integer `r` is a rounding of the clipped value `w`. -/
structure RoundsTo (tieBreak : TieBreak) (eps : ℚ) (lo hi : ExtRat) (w : ℚ) (r : ℤ) : Prop where
  inside : lo ≤ fin r ∧ fin r ≤ hi
  near : ∀ m : ℤ, |(r : ℚ) - w| ≤ |(m : ℚ) - w| + 2 * eps
  nearest : eps < |Int.fract w - 1 / 2| → ∀ m : ℤ, m ≠ r → |(r : ℚ) - w| < |(m : ℚ) - w|
  tie : |Int.fract w - 1 / 2| ≤ eps → r =
    match tieBreak with
    | .down => ⌊w⌋
    | .up => ⌊w⌋ + 1
    | .range => if fin ⌊w⌋ - lo < hi - (fin ⌊w⌋ + 1) then ⌊w⌋ + 1 else ⌊w⌋

section Clips

variable {lo hi : ExtRat} {q q' : ℚ}

theorem IntegralBox.lower_cases (h : IntegralBox lo hi) : Whole lo ∨ lo = negInf := by
  obtain ⟨m, hm, -⟩ := h.inhabited
  rcases h.lower with hlo | hlo
  · exact .inl hlo
  · cases lo <;> simp_all

theorem IntegralBox.upper_cases (h : IntegralBox lo hi) : Whole hi ∨ hi = posInf := by
  obtain ⟨m, -, hm⟩ := h.inhabited
  rcases h.upper with hhi | hhi
  · exact .inl hhi
  · cases hi <;> simp_all

theorem IntegralBox.ordered (h : IntegralBox lo hi) : lo ≤ hi := by
  obtain ⟨m, hlo, hhi⟩ := h.inhabited
  exact ExtRat.le_trans hlo hhi

theorem raised_mono (h : q ≤ q') : raised lo q ≤ raised lo q' := by
  cases lo with
  | fin a => exact max_le_max_left a h
  | _ => exact h

theorem lowered_mono (h : q ≤ q') : lowered hi q ≤ lowered hi q' := by
  cases hi with
  | fin b => exact min_le_min_left b h
  | _ => exact h

theorem clip_mono (h : q ≤ q') : clip lo hi q ≤ clip lo hi q' := lowered_mono (raised_mono h)

theorem clip_of_between (hlo : lo ≤ fin q) (hhi : fin q ≤ hi) : clip lo hi q = q := by
  have hraised : raised lo q = q := by
    cases lo with
    | fin a => exact max_eq_right ((fin_le_fin a q).mp hlo)
    | _ => rfl
  unfold clip
  rw [hraised]
  cases hi with
  | fin b => exact min_eq_right ((fin_le_fin q b).mp hhi)
  | _ => rfl

theorem clampBound_eq_clip (h : IntegralBox lo hi) :
    Arith.clampBound lo hi (fin q) = fin (clip lo hi q) := by
  have hraised : (if lo < fin q then fin q else lo) = fin (raised lo q) := by
    rcases h.lower_cases with ⟨a, rfl⟩ | rfl
    · simp only [raised, fin_lt_fin, max_def, apply_ite fin]
      split_ifs <;> grind
    · rfl
  unfold Arith.clampBound
  simp only [isNaN_fin, hraised, if_neg Bool.false_ne_true]
  rcases h.upper_cases with ⟨b, rfl⟩ | rfl
  · simp only [clip, lowered, fin_lt_fin, min_def, apply_ite fin]
    split_ifs <;> grind
  · rfl

theorem clampKeep_eq_clip (h : IntegralBox lo hi) :
    Arith.clampKeep lo hi (fin q) = fin (clip lo hi q) := by
  have hnan := ne_nan_of_le h.ordered
  have hraised : (if fin q < lo then lo else fin q) = fin (raised lo q) := by
    rcases h.lower_cases with ⟨a, rfl⟩ | rfl
    · simp only [raised, fin_lt_fin, max_def, apply_ite fin]
      split_ifs <;> grind
    · rfl
  unfold Arith.clampKeep
  simp only [isNaN_eq_false hnan.1, isNaN_eq_false hnan.2, hraised, if_neg Bool.false_ne_true]
  rcases h.upper_cases with ⟨b, rfl⟩ | rfl
  · simp only [clip, lowered, fin_lt_fin, min_def, apply_ite fin]
    split_ifs <;> grind
  · rfl

/-- A clipped value lies in the box. -/
theorem clip_between (h : IntegralBox lo hi) (q : ℚ) :
    lo ≤ fin (clip lo hi q) ∧ fin (clip lo hi q) ≤ hi := by
  rw [← clampBound_eq_clip h]
  exact clampBound_between h.ordered (fin_ne_nan q)

end Clips

section Directions

variable {tieBreak : TieBreak} {eps : ℚ} {lo hi : ExtRat} {w w' : ℚ}

theorem goesUp_iff_of_away (h : eps < |Int.fract w - 1 / 2|) :
    goesUp tieBreak eps lo hi w = true ↔ 1 / 2 < Int.fract w := by
  unfold goesUp
  rw [if_neg (not_le.mpr h), decide_eq_true_iff]

/-- Only a fraction that is not far below a half is rounded up. -/
theorem le_fract_of_goesUp (heps : 0 < eps) (h : goesUp tieBreak eps lo hi w = true) :
    1 / 2 - eps ≤ Int.fract w := by
  rcases le_or_gt |Int.fract w - 1 / 2| eps with htie | haway
  · linarith [(abs_le.mp htie).1]
  · linarith [(goesUp_iff_of_away haway).mp h]

/-- Only a fraction that is not far above a half is rounded down. -/
theorem fract_le_of_not_goesUp (heps : 0 < eps) (h : ¬ goesUp tieBreak eps lo hi w = true) :
    Int.fract w ≤ 1 / 2 + eps := by
  rcases le_or_gt |Int.fract w - 1 / 2| eps with htie | haway
  · linarith [(abs_le.mp htie).2]
  · linarith [not_lt.mp (mt (goesUp_iff_of_away haway).mpr h)]

/-- Between two integers the fraction grows with the value. -/
theorem fract_le_fract (hfloor : ⌊w⌋ = ⌊w'⌋) (h : w ≤ w') : Int.fract w ≤ Int.fract w' := by
  unfold Int.fract
  rw [hfloor]
  linarith

/-- Between two integers a greater value goes up whenever a smaller one does: the tie break decides
both or none, and below the ties nothing goes up, above them everything. -/
theorem goesUp_mono (heps : 0 < eps) (hfloor : ⌊w⌋ = ⌊w'⌋) (h : w ≤ w')
    (hup : goesUp tieBreak eps lo hi w = true) : goesUp tieBreak eps lo hi w' = true := by
  have hfract := fract_le_fract hfloor h
  have hlow := le_fract_of_goesUp heps hup
  rcases le_or_gt |Int.fract w' - 1 / 2| eps with htie' | haway'
  · rcases le_or_gt |Int.fract w - 1 / 2| eps with htie | haway
    · unfold goesUp at hup ⊢
      rw [if_pos htie] at hup
      rwa [if_pos htie', ← hfloor]
    · have hhalf := (goesUp_iff_of_away haway).mp hup
      rw [abs_of_pos (by linarith)] at haway
      linarith [(abs_le.mp htie').2]
  · refine (goesUp_iff_of_away haway').mpr (not_le.mp fun hle => ?_)
    rw [abs_of_nonpos (by linarith)] at haway'
    linarith

end Directions

section Integers

variable {tieBreak : TieBreak} {eps : ℚ} {lo hi : ExtRat} {w w' : ℚ} {m : ℤ}

theorem fract_le_abs_sub (h : m ≤ ⌊w⌋) : Int.fract w ≤ |(m : ℚ) - w| := by
  have hm : (m : ℚ) ≤ ⌊w⌋ := by exact_mod_cast h
  have hw := Int.floor_add_fract w
  linarith [neg_le_abs ((m : ℚ) - w)]

theorem one_sub_fract_le_abs_sub (h : ⌊w⌋ < m) : 1 - Int.fract w ≤ |(m : ℚ) - w| := by
  have hm : (⌊w⌋ : ℚ) + 1 ≤ m := by exact_mod_cast h
  have hw := Int.floor_add_fract w
  linarith [le_abs_self ((m : ℚ) - w)]

theorem abs_floor_sub (w : ℚ) : |(⌊w⌋ : ℚ) - w| = Int.fract w := by
  rw [abs_sub_comm, Int.self_sub_floor, Int.abs_fract]

theorem abs_floor_add_one_sub (w : ℚ) : |((⌊w⌋ + 1 : ℤ) : ℚ) - w| = 1 - Int.fract w := by
  have hw := Int.floor_add_fract w
  push_cast
  rw [abs_of_nonneg (by linarith [Int.fract_lt_one w])]
  linarith

/-- No integer is nearer than the rounding by more than twice the tolerance. -/
theorem roundedClip_near (heps : 0 < eps) (m : ℤ) :
    |((roundedClip tieBreak eps lo hi w : ℤ) : ℚ) - w| ≤ |(m : ℚ) - w| + 2 * eps := by
  unfold roundedClip
  split
  case isTrue hup =>
    have hlow := le_fract_of_goesUp heps hup
    rw [abs_floor_add_one_sub]
    rcases le_or_gt m ⌊w⌋ with hm | hm
    · linarith [fract_le_abs_sub hm]
    · linarith [one_sub_fract_le_abs_sub hm]
  case isFalse hdown =>
    have hhigh := fract_le_of_not_goesUp heps hdown
    rw [abs_floor_sub]
    rcases le_or_gt m ⌊w⌋ with hm | hm
    · linarith [fract_le_abs_sub hm]
    · linarith [one_sub_fract_le_abs_sub hm]

/-- Away from a half every other integer is farther. -/
theorem roundedClip_nearest (heps : 0 < eps) (haway : eps < |Int.fract w - 1 / 2|)
    (hm : m ≠ roundedClip tieBreak eps lo hi w) :
    |((roundedClip tieBreak eps lo hi w : ℤ) : ℚ) - w| < |(m : ℚ) - w| := by
  have hup : goesUp tieBreak eps lo hi w = true ↔ _ := goesUp_iff_of_away haway
  unfold roundedClip at hm ⊢
  split_ifs at hm ⊢ with hgoes
  · have hhalf := hup.mp hgoes
    rw [abs_floor_add_one_sub]
    rcases le_or_gt m ⌊w⌋ with hle | hlt
    · linarith [fract_le_abs_sub hle]
    · have hnext : ((⌊w⌋ : ℤ) : ℚ) + 2 ≤ m := by exact_mod_cast (by omega : ⌊w⌋ + 2 ≤ m)
      linarith [Int.floor_add_fract w, le_abs_self ((m : ℚ) - w)]
  · have hhalf := not_lt.mp (mt hup.mpr hgoes)
    rw [abs_of_nonpos (by linarith)] at haway
    rw [abs_floor_sub]
    rcases lt_or_ge m ⌊w⌋ with hlt | hle
    · have hnext : (m : ℚ) + 1 ≤ ⌊w⌋ := by exact_mod_cast hlt
      linarith [Int.floor_add_fract w, neg_le_abs ((m : ℚ) - w)]
    · linarith [one_sub_fract_le_abs_sub (lt_of_le_of_ne hle hm.symm)]

theorem roundedClip_tie (htie : |Int.fract w - 1 / 2| ≤ eps) :
    roundedClip tieBreak eps lo hi w =
      match tieBreak with
      | .down => ⌊w⌋
      | .up => ⌊w⌋ + 1
      | .range => if fin ⌊w⌋ - lo < hi - (fin ⌊w⌋ + 1) then ⌊w⌋ + 1 else ⌊w⌋ := by
  unfold roundedClip goesUp
  rw [if_pos htie]
  cases tieBreak with
  | down => rfl
  | up => rfl
  | range => simp only [tieGoesUp, decide_eq_true_eq]

/-- The floor or the integer above it keeps the order if, between two integers, a greater value goes
up whenever a smaller one does. -/
theorem floorOrNext_mono {up : ℚ → Bool}
    (hup : ∀ w w', ⌊w⌋ = ⌊w'⌋ → w ≤ w' → up w = true → up w' = true) (h : w ≤ w') :
    (if up w then ⌊w⌋ + 1 else ⌊w⌋) ≤ if up w' then ⌊w'⌋ + 1 else ⌊w'⌋ := by
  rcases lt_or_eq_of_le (Int.floor_le_floor h) with hlt | hfloor
  · have hnext : ⌊w⌋ + 1 ≤ ⌊w'⌋ := Int.add_one_le_of_lt hlt
    split_ifs <;> omega
  · rw [hfloor]
    split_ifs with hgoes hgoes'
    · exact le_rfl
    · exact absurd (hup w w' hfloor h hgoes) hgoes'
    · omega
    · exact le_rfl

theorem roundedClip_mono (heps : 0 < eps) (h : w ≤ w') :
    roundedClip tieBreak eps lo hi w ≤ roundedClip tieBreak eps lo hi w' :=
  floorOrNext_mono (fun _ _ hfloor hle => goesUp_mono heps hfloor hle) h

/-- An integer is its own rounding: it is away from every half. -/
theorem roundedClip_intCast (hhalf : eps < 1 / 2) (n : ℤ) :
    roundedClip tieBreak eps lo hi n = n := by
  have hfract : Int.fract (n : ℚ) = 0 := Int.fract_intCast n
  have haway : eps < |Int.fract (n : ℚ) - 1 / 2| := by
    rw [hfract]
    norm_num
    exact hhalf
  have hdown : ¬ goesUp tieBreak eps lo hi (n : ℚ) = true := by
    rw [goesUp_iff_of_away haway, hfract]
    norm_num
  unfold roundedClip
  rw [if_neg hdown, Int.floor_intCast]

/-- A rounding that keeps the order and the integers stays in the box. -/
theorem between_of_mono {r : ℚ → ℤ} (hmono : ∀ w w', w ≤ w' → r w ≤ r w')
    (hint : ∀ n : ℤ, r n = n) (h : IntegralBox lo hi) (hlo : lo ≤ fin w) (hhi : fin w ≤ hi) :
    lo ≤ fin (r w) ∧ fin (r w) ≤ hi := by
  constructor
  · rcases h.lower_cases with ⟨a, rfl⟩ | rfl
    · have hr := hmono a w ((fin_le_fin _ _).mp hlo)
      rw [hint] at hr
      exact (fin_le_fin _ _).mpr (by exact_mod_cast hr)
    · exact negInf_le_iff.mpr (fin_ne_nan _)
  · rcases h.upper_cases with ⟨b, rfl⟩ | rfl
    · have hr := hmono w b ((fin_le_fin _ _).mp hhi)
      rw [hint] at hr
      exact (fin_le_fin _ _).mpr (by exact_mod_cast hr)
    · exact le_posInf_iff.mpr (fin_ne_nan _)

/-- The rounding of a value in the box stays in the box. -/
theorem roundedClip_between (h : IntegralBox lo hi) (heps : 0 < eps) (hhalf : eps < 1 / 2)
    (hlo : lo ≤ fin w) (hhi : fin w ≤ hi) :
    lo ≤ fin (roundedClip tieBreak eps lo hi w) ∧ fin (roundedClip tieBreak eps lo hi w) ≤ hi :=
  between_of_mono (fun _ _ => roundedClip_mono heps) (roundedClip_intCast hhalf) h hlo hhi

/-- What is asked of a rounding holds of the rounding of a value in the box. -/
theorem roundsTo_roundedClip (h : IntegralBox lo hi) (heps : 0 < eps) (hhalf : eps < 1 / 2)
    (hlo : lo ≤ fin w) (hhi : fin w ≤ hi) :
    RoundsTo tieBreak eps lo hi w (roundedClip tieBreak eps lo hi w) where
  inside := roundedClip_between h heps hhalf hlo hhi
  near := roundedClip_near heps
  nearest haway _ hm := roundedClip_nearest heps haway hm
  tie := roundedClip_tie

end Integers

section Values

variable {tieBreak : TieBreak} {eps : ℚ} {lo hi : ExtRat}

theorem roundedInBox_between (h : IntegralBox lo hi) (heps : 0 < eps) (hhalf : eps < 1 / 2)
    (tieBreak : TieBreak) (q : ℚ) : lo ≤ fin (roundedInBox tieBreak eps lo hi q) ∧
      fin (roundedInBox tieBreak eps lo hi q) ≤ hi :=
  roundedClip_between h heps hhalf (clip_between h q).1 (clip_between h q).2

/-- The comparisons of the program are those of the fraction with a half. -/
theorem rounded_eq (tieBreak : TieBreak) (eps : ℚ) (lo hi : ExtRat) (w : ℚ) :
    (if Arith.abs (fin w - Arith.floor (fin w) - Arith.ratio 1 2) ≤ fin eps then
      if tieGoesUp tieBreak lo hi (Arith.floor (fin w)) then Arith.floor (fin w) + 1
      else Arith.floor (fin w)
    else if (Arith.ratio 1 2 : ExtRat) < fin w - Arith.floor (fin w) then Arith.floor (fin w) + 1
    else Arith.floor (fin w)) = fin (roundedClip tieBreak eps lo hi w) := by
  have hfloor : (w.floor : ℤ) = ⌊w⌋ := rfl
  have hhalf : (Arith.ratio 1 2 : ExtRat) = fin (1 / 2) := ratio_eq 1 2 two_ne_zero
  simp only [floor_fin, hfloor, hhalf, fin_sub, abs_fin, fin_le_fin, fin_lt_fin,
    Int.self_sub_floor, one_eq, fin_add]
  unfold roundedClip goesUp
  split_ifs <;> grind

/-- The program rounds a finite value as the box says. -/
theorem nearestValue_eq {clamp : ExtRat → ExtRat → ExtRat → ExtRat}
    (hclamp : ∀ q, clamp lo hi (fin q) = fin (clip lo hi q)) (h : IntegralBox lo hi)
    (heps : 0 < eps) (hhalf : eps < 1 / 2) (q : ℚ) :
    nearestValue clamp tieBreak (fin eps) lo hi (fin q) =
      fin (roundedInBox tieBreak eps lo hi q) := by
  obtain ⟨hlo, hhi⟩ := roundedInBox_between h heps hhalf tieBreak q
  unfold nearestValue
  dsimp only
  -- the second clamp finds the rounded value in the box
  rw [hclamp q, rounded_eq, hclamp, ← roundedInBox, clip_of_between hlo hhi]

/-- A rounded value is its own rounding. -/
theorem roundedInBox_roundedInBox (h : IntegralBox lo hi) (heps : 0 < eps) (hhalf : eps < 1 / 2)
    (q : ℚ) : roundedInBox tieBreak eps lo hi (roundedInBox tieBreak eps lo hi q) =
      roundedInBox tieBreak eps lo hi q := by
  obtain ⟨hlo, hhi⟩ := roundedInBox_between h heps hhalf tieBreak q
  generalize roundedInBox tieBreak eps lo hi q = r at hlo hhi
  unfold roundedInBox
  rw [clip_of_between hlo hhi, roundedClip_intCast hhalf]

end Values

section Points

variable {tieBreak : TieBreak} {eps : ℚ} {lo hi : ExtRat}

/-- The function `r` rounds the finite values into a box: it keeps their order, and a rounded value
is its own rounding. -/
structure RoundsInto (tieBreak : TieBreak) (eps : ℚ) (lo hi : ExtRat) (r : ℚ → ℤ) : Prop where
  rounds : ∀ q, RoundsTo tieBreak eps lo hi (clip lo hi q) (r q)
  mono : ∀ q q', q ≤ q' → r q ≤ r q'
  again : ∀ q, r (r q) = r q

theorem roundsInto_roundedInBox (tieBreak : TieBreak) (h : IntegralBox lo hi) (heps : 0 < eps)
    (hhalf : eps < 1 / 2) :
    RoundsInto tieBreak eps lo hi (roundedInBox tieBreak eps lo hi) where
  rounds q := roundsTo_roundedClip h heps hhalf (clip_between h q).1 (clip_between h q).2
  mono _ _ hle := roundedClip_mono heps (clip_mono hle)
  again q := roundedInBox_roundedInBox h heps hhalf q

/-- Bounds that are integers or infinite have an integer between them, or they are one infinity. -/
theorem integralBox_or_single (hlo : Whole lo ∨ Arith.isInf lo = true)
    (hhi : Whole hi ∨ Arith.isInf hi = true) (h : lo ≤ hi) :
    IntegralBox lo hi ∨ lo = hi ∧ Arith.isInf lo = true := by
  rcases hlo with ⟨a, rfl⟩ | hlow
  · exact .inl ⟨.inl ⟨a, rfl⟩, hhi, a, by simp, h⟩
  · rcases hhi with ⟨b, rfl⟩ | hhigh
    · exact .inl ⟨.inr hlow, .inl ⟨b, rfl⟩, b, h, by simp⟩
    · cases lo <;> cases hi <;> simp_all
      exact ⟨.inr rfl, .inr rfl, 0, by simp, by simp⟩

/-- A value is rounded to the infinity that both bounds are. -/
theorem nearestValue_single (h : Arith.isInf lo = true) (tieBreak : TieBreak) (eps q : ℚ) :
    nearestValue Arith.clampBound tieBreak (fin eps) lo lo (fin q) = lo ∧
      nearestValue Arith.clampKeep tieBreak (fin eps) lo lo (fin q) = lo := by
  cases lo with
  | fin a => cases h
  | nan => cases h
  | negInf => exact ⟨rfl, rfl⟩
  | posInf => exact ⟨rfl, rfl⟩

/-- A vector is rounded entry by entry. -/
theorem nearest_map_fin {lb ub : List ExtRat} {values : List ℚ} (hbounds : lb.length = ub.length)
    (hlen : values.length = lb.length) :
    nearest tieBreak (fin eps) (values.map fin) lb ub =
      .ok (List.zipWith (fun q (b : ExtRat × ExtRat) =>
        nearestValue Arith.clampBound tieBreak (fin eps) b.1 b.2 (fin q)) values (lb.zip ub)) := by
  have hzip : values.length = (lb.zip ub).length := by
    rw [List.length_zip, hbounds, min_self, ← hbounds, hlen]
  unfold nearest
  rw [Act.exceptBind_of_ok (Vec.map2_of_length _ hbounds), ← List.zip,
    Vec.map2_of_length _ (by rw [List.length_map, hzip]), List.zipWith_map_left]

/-- The integer variables of a point are rounded into their integral bounds. -/
theorem nearestPoint_map_fin {vars : List (Variable ExtRat)} {t : Table ExtRat} {x : List ℚ}
    (h : t.Lists vars) (horder : InOrder vars) (hx : x.length = vars.length) :
    nearestPoint tieBreak (fin eps) t (x.map fin) =
      .ok (List.zipWith (fun q (v : Variable ExtRat) =>
          nearestValue Arith.clampBound tieBreak (fin eps) (Table.integralLower v.lb)
            (Table.integralUpper v.ub) (fin q))
        (chosen vars x) (vars.filter (·.kind.isIntegral))) := by
  unfold nearestPoint
  rw [Act.exceptBind_of_ok (integerValues_map_fin h horder hx), h.intLb_eq horder,
    h.intUb_eq horder,
    nearest_map_fin (by rw [List.length_map, List.length_map])
      (by rw [List.length_map, length_chosen hx]),
    List.zip_map', List.zipWith_map_right]

end Points

/-- **Rounding is nearest rounding into a box.**  A finite value is rounded into a box of integral
or infinite bounds, with either clamp, and `RoundsInto` says what this means: the nearest integer
or, near a half, the one of the tie break.  The only boxes without an integer are a single infinity,
which is what a value is rounded to there.  Vectors are rounded entry by entry, and so are the
integer variables of a point, each into the integral bounds that the table has for it. -/
theorem nearest_rounds_into_box {eps : ℚ} (heps : 0 < eps) (hhalf : eps < 1 / 2)
    (tieBreak : TieBreak) :
    (∀ lo hi, Whole lo ∨ Arith.isInf lo = true → Whole hi ∨ Arith.isInf hi = true → lo ≤ hi →
      (∃ r : ℚ → ℤ, RoundsInto tieBreak eps lo hi r ∧ ∀ q,
        nearestValue Arith.clampBound tieBreak (fin eps) lo hi (fin q) = fin (r q) ∧
        nearestValue Arith.clampKeep tieBreak (fin eps) lo hi (fin q) = fin (r q)) ∨
      lo = hi ∧ Arith.isInf lo = true ∧ ∀ q,
        nearestValue Arith.clampBound tieBreak (fin eps) lo hi (fin q) = lo ∧
        nearestValue Arith.clampKeep tieBreak (fin eps) lo hi (fin q) = lo) ∧
    (∀ (lb ub : List ExtRat) (values : List ℚ), lb.length = ub.length →
      values.length = lb.length →
      nearest tieBreak (fin eps) (values.map fin) lb ub =
        .ok (List.zipWith (fun q (b : ExtRat × ExtRat) =>
          nearestValue Arith.clampBound tieBreak (fin eps) b.1 b.2 (fin q)) values
            (lb.zip ub))) ∧
    ∀ (vars : List (Variable ExtRat)) (t : Table ExtRat) (x : List ℚ),
      Table.ofVariables vars = .ok t → InOrder vars → x.length = vars.length →
      nearestPoint tieBreak (fin eps) t (x.map fin) =
        .ok (List.zipWith (fun q (v : Variable ExtRat) =>
            nearestValue Arith.clampBound tieBreak (fin eps) (Table.integralLower v.lb)
              (Table.integralUpper v.ub) (fin q))
          (chosen vars x) (vars.filter (·.kind.isIntegral))) := by
  refine ⟨fun lo hi hlo hhi hle => ?_, fun _ _ _ hbounds hlen => nearest_map_fin hbounds hlen,
    fun _ _ _ ht horder hx => nearestPoint_map_fin (Table.lists_of_ofVariables ht) horder hx⟩
  rcases integralBox_or_single hlo hhi hle with h | ⟨rfl, hinf⟩
  · exact .inl ⟨roundedInBox tieBreak eps lo hi, roundsInto_roundedInBox tieBreak h heps hhalf,
      fun q => ⟨nearestValue_eq (fun _ => clampBound_eq_clip h) h heps hhalf q,
        nearestValue_eq (fun _ => clampKeep_eq_clip h) h heps hhalf q⟩⟩
  · exact .inr ⟨rfl, hinf, nearestValue_single hinf tieBreak eps⟩

/-- Integer variables with the bounds `[1/2, ∞)` and `[0, 3]` around a continuous one. -/
def roomy : List (Variable ExtRat) :=
  [ { index := 0, lb := .fin (1 / 2), ub := .posInf, kind := .integer, cost := .fin 1 }
  , { index := 1, lb := .negInf, ub := .posInf, kind := .continuous, cost := .fin 0 }
  , { index := 2, lb := .fin 0, ub := .fin 3, kind := .integer, cost := .fin 1 } ]

/-- The ties `5/2` go up below `∞` and down below `3`. -/
theorem nearest_rounds_into_box_roomy :
    (0 : ℚ) < 1 / 1000000 ∧ (1 / 1000000 : ℚ) < 1 / 2 ∧
    ∃ t, Table.ofVariables roomy = .ok t ∧ InOrder roomy ∧
      (∃ r, RoundsInto .range (1 / 1000000) (fin 1) posInf r ∧ r (5 / 2) = 3) ∧
      (∃ r, RoundsInto .range (1 / 1000000) (fin 0) (fin 3) r ∧ r (5 / 2) = 2) ∧
      nearestPoint .range (fin (1 / 1000000)) t ([5 / 2, 7, 5 / 2].map fin) =
        .ok [fin 3, fin 2] := by
  obtain ⟨t, ht⟩ : ∃ t, Table.ofVariables roomy = .ok t :=
    Act.exists_ok_of_isOk (by decide +kernel)
  have horder : InOrder roomy := rfl
  obtain ⟨hvalue, -, hpoint⟩ := nearest_rounds_into_box (by norm_num : (0 : ℚ) < 1 / 1000000)
    (by norm_num) .range
  have hfloor : ⌊(5 / 2 : ℚ)⌋ = 2 := by norm_num
  have htie : |Int.fract (5 / 2 : ℚ) - 1 / 2| ≤ 1 / 1000000 := by norm_num [Int.fract]
  have hclipOpen : clip (fin 1) posInf (5 / 2) = 5 / 2 := by norm_num [clip, raised, lowered]
  have hclipClosed : clip (fin 0) (fin 3) (5 / 2) = 5 / 2 := by norm_num [clip, raised, lowered]
  obtain ⟨r, hr, hopen⟩ := (hvalue (fin 1) posInf (.inl ⟨1, rfl⟩) (.inr rfl)
    (by decide +kernel)).resolve_right fun h => absurd h.1 (by decide +kernel)
  obtain ⟨r', hr', hclosed⟩ := (hvalue (fin 0) (fin 3) (.inl ⟨0, rfl⟩) (.inl ⟨3, rfl⟩)
    (by decide +kernel)).resolve_right fun h => absurd h.1 (by decide +kernel)
  have hup : r (5 / 2) = 3 := by
    rw [(hr.rounds (5 / 2)).tie (by rwa [hclipOpen]), hclipOpen, hfloor]
    decide +kernel
  have hdown : r' (5 / 2) = 2 := by
    rw [(hr'.rounds (5 / 2)).tie (by rwa [hclipClosed]), hclipClosed, hfloor]
    decide +kernel
  have hone : Table.integralLower (fin (1 / 2)) = fin 1 := by decide +kernel
  have hinf : Table.integralUpper posInf = posInf := by decide +kernel
  have hzero : Table.integralLower (fin 0) = fin 0 := by decide +kernel
  have hthree : Table.integralUpper (fin 3) = fin 3 := by decide +kernel
  refine ⟨by norm_num, by norm_num, t, ht, horder, ⟨r, hr, hup⟩, ⟨r', hr', hdown⟩,
    (hpoint roomy t [5 / 2, 7, 5 / 2] ht horder rfl).trans ?_⟩
  change Except.ok
    [ nearestValue _ _ _ (Table.integralLower (fin (1 / 2))) (Table.integralUpper posInf) _
    , nearestValue _ _ _ (Table.integralLower (fin 0)) (Table.integralUpper (fin 3)) _ ] = _
  rw [hone, hinf, hzero, hthree, (hopen _).1, (hclosed _).1, hup, hdown]
  rfl

end Rounding
end MipPump
