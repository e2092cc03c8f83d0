import MipPump.Proofs.BlendedDistances
import MipPump.Proofs.ProjectionBoxes

/-!
# Measured distances

A measured distance is a sum of displacements, where a displacement of at most `e` counts as none.
It is below the true distance by at most `e` for each integer variable, and its weights are a slope
of the true distance: they say how far any other point is from the candidate at least.

* `differenceRat`: the displacement of one variable, with its size, its sign and its slope.
* `gapsRat`, `signsRat`: the displacements of a whole candidate, entry by entry.
* `measure_eq`: what is measured, written into the indices of the variables.
* `measure_faithful`: the laws of a measured distance, for the variables of a table.
-/

namespace MipPump

open ExtRat

section Displacements

variable {e : ℚ}

/-- A difference, or zero if it is at most `e`. -/
def differenceRat (e x c : ℚ) : ℚ := if |x - c| ≤ e then 0 else x - c

theorem difference_fin (e x c : ℚ) :
    Distance.difference (fin e) (fin x) (fin c) = fin (differenceRat e x c) := by
  unfold Distance.difference differenceRat
  by_cases h : |x - c| ≤ e
  · simp [h]
  · simp [h]

theorem differenceRat_eq_zero_iff (he : 0 ≤ e) (x c : ℚ) :
    differenceRat e x c = 0 ↔ |x - c| ≤ e := by
  unfold differenceRat
  by_cases h : |x - c| ≤ e
  · simp [h]
  · have hne : x - c ≠ 0 := fun hzero => h (by simpa [hzero] using he)
    simp [h, hne]

theorem abs_differenceRat_le (e x c : ℚ) : |differenceRat e x c| ≤ |x - c| := by
  unfold differenceRat
  by_cases h : |x - c| ≤ e
  · simp [h]
  · simp [h]

/-- At most `e` is left out. -/
theorem abs_sub_le_differenceRat (he : 0 ≤ e) (x c : ℚ) : |x - c| ≤ |differenceRat e x c| + e := by
  unfold differenceRat
  by_cases h : |x - c| ≤ e
  · simp [h]
  · simp [h, he]

theorem signRat_cases (q : ℚ) : signRat q = -1 ∨ signRat q = 0 ∨ signRat q = 1 := by
  unfold signRat
  split
  · simp
  · split <;> simp

theorem signRat_mul_self (q : ℚ) : signRat q * q = |q| := by
  rcases lt_trichotomy q 0 with h | rfl | h
  · simp [signRat, h, h.le.not_gt, abs_of_neg h]
  · simp [signRat]
  · simp [signRat, h, abs_of_pos h]

theorem signRat_mul_le (q r : ℚ) : signRat q * r ≤ |r| := by
  rcases signRat_cases q with h | h | h
  · rw [h, neg_one_mul]
    exact neg_le_abs r
  · rw [h, zero_mul]
    exact abs_nonneg r
  · rw [h, one_mul]
    exact le_abs_self r

/-- The sign of the displacement is the slope along which it was measured. -/
theorem signRat_differenceRat_mul (e x c : ℚ) :
    signRat (differenceRat e x c) * (x - c) = |differenceRat e x c| := by
  unfold differenceRat
  by_cases h : |x - c| ≤ e
  · simp [h, signRat]
  · simp [h, signRat_mul_self]

/-- From any other value the candidate is at least as far as the slope says. -/
theorem differenceRat_add_le (e x c y : ℚ) :
    |differenceRat e x c| + signRat (differenceRat e x c) * (y - x) ≤ |y - c| := by
  calc |differenceRat e x c| + signRat (differenceRat e x c) * (y - x)
      = signRat (differenceRat e x c) * (y - c) := by
        rw [← signRat_differenceRat_mul]
        ring
    _ ≤ |y - c| := signRat_mul_le _ _

end Displacements

section Sums

variable {e : ℚ} {xs cs : List ℚ}

/-- Displacements of the integer variables. -/
def gapsRat (e : ℚ) (xs cs : List ℚ) : List ℚ :=
  List.zipWith (fun x c => |differenceRat e x c|) xs cs

/-- Signs of the displacements. -/
def signsRat (e : ℚ) (xs cs : List ℚ) : List ℚ :=
  List.zipWith (fun x c => signRat (differenceRat e x c)) xs cs

theorem gapsRat_nonneg (e : ℚ) (xs cs : List ℚ) : ∀ g ∈ gapsRat e xs cs, 0 ≤ g := by
  intro g hg
  rw [gapsRat, ← List.map_uncurry_zip_eq_zipWith] at hg
  obtain ⟨_, -, rfl⟩ := List.mem_map.mp hg
  exact abs_nonneg _

theorem signsRat_cases {w : ℚ} (h : w ∈ signsRat e xs cs) : w = -1 ∨ w = 0 ∨ w = 1 := by
  rw [signsRat, ← List.map_uncurry_zip_eq_zipWith] at h
  obtain ⟨_, -, rfl⟩ := List.mem_map.mp h
  exact signRat_cases _

theorem sum_gapsRat_eq_zero_iff (he : 0 ≤ e) (h : xs.length = cs.length) :
    (gapsRat e xs cs).sum = 0 ↔ List.Forall₂ (fun x c => |x - c| ≤ e) xs cs := by
  induction xs generalizing cs with
  | nil =>
      obtain rfl := List.length_eq_zero_iff.mp h.symm
      simp [gapsRat]
  | cons x xs ih =>
      cases cs with
      | nil => cases h
      | cons c cs =>
          have hlen : xs.length = cs.length := by simpa using h
          have hrest := ih hlen
          have hsum : 0 ≤ (gapsRat e xs cs).sum := List.sum_nonneg (gapsRat_nonneg e xs cs)
          unfold gapsRat at hrest hsum ⊢
          rw [List.zipWith_cons_cons, List.sum_cons, List.forall₂_cons,
            add_eq_zero_iff_of_nonneg (abs_nonneg _) hsum, abs_eq_zero,
            differenceRat_eq_zero_iff he, hrest]

theorem sum_gapsRat_le (e : ℚ) (xs cs : List ℚ) : (gapsRat e xs cs).sum ≤ distanceRat xs cs := by
  induction xs generalizing cs with
  | nil => simp [gapsRat, distanceRat]
  | cons x xs ih =>
      cases cs with
      | nil => simp [gapsRat, distanceRat]
      | cons c cs =>
          simpa [gapsRat, distanceRat] using add_le_add (abs_differenceRat_le e x c) (ih cs)

theorem distanceRat_le (he : 0 ≤ e) (h : xs.length = cs.length) :
    distanceRat xs cs ≤ (gapsRat e xs cs).sum + e * cs.length := by
  induction xs generalizing cs with
  | nil =>
      obtain rfl := List.length_eq_zero_iff.mp h.symm
      simp [gapsRat, distanceRat]
  | cons x xs ih =>
      cases cs with
      | nil => cases h
      | cons c cs =>
          have hlen : xs.length = cs.length := by simpa using h
          have hrest := ih hlen
          have hfirst := abs_sub_le_differenceRat he x c
          unfold gapsRat distanceRat at hrest ⊢
          rw [List.zipWith_cons_cons, List.zipWith_cons_cons, List.sum_cons, List.sum_cons,
            List.length_cons, Nat.cast_add_one]
          linarith

theorem signsRat_mul_sub (h : xs.length = cs.length) :
    dotRat (signsRat e xs cs) (List.zipWith (· - ·) xs cs) = (gapsRat e xs cs).sum := by
  induction xs generalizing cs with
  | nil => simp [signsRat, gapsRat, dotRat]
  | cons x xs ih =>
      cases cs with
      | nil => cases h
      | cons c cs =>
          have hlen : xs.length = cs.length := by simpa using h
          have hrest := ih hlen
          unfold dotRat signsRat gapsRat at hrest ⊢
          simp only [List.zipWith_cons_cons, List.sum_cons, hrest, signRat_differenceRat_mul]

theorem sum_gapsRat_add_le {ys : List ℚ} (h : xs.length = cs.length) (hy : ys.length = cs.length) :
    (gapsRat e xs cs).sum + dotRat (signsRat e xs cs) (List.zipWith (· - ·) ys xs) ≤
      distanceRat ys cs := by
  induction cs generalizing xs ys with
  | nil => simp [List.length_eq_zero_iff.mp h, signsRat, gapsRat, dotRat, distanceRat]
  | cons c cs ih =>
      obtain ⟨x, xs, rfl⟩ := List.exists_cons_of_length_eq_add_one h
      obtain ⟨y, ys, rfl⟩ := List.exists_cons_of_length_eq_add_one hy
      have hlen : xs.length = cs.length := by simpa using h
      have hlenY : ys.length = cs.length := by simpa using hy
      have hrest := ih hlen hlenY
      have hfirst := differenceRat_add_le e x c y
      unfold dotRat signsRat gapsRat distanceRat at hrest ⊢
      simp only [List.zipWith_cons_cons, List.sum_cons]
      linarith

end Sums

section Walks

variable {R α β γ : Type} {vars : List (Variable R)}

/-- Entries of integer variables are combined with each other. -/
theorem chosen_zipWith (f : α → β → γ) (vars : List (Variable R)) {xs : List α} {ys : List β}
    (h : xs.length = ys.length) :
    chosen vars (List.zipWith f xs ys) = List.zipWith f (chosen vars xs) (chosen vars ys) := by
  induction vars generalizing xs ys with
  | nil => simp [chosen]
  | cons v vars ih =>
      cases xs with
      | nil => simp [chosen]
      | cons x xs =>
          obtain ⟨y, ys, rfl⟩ := List.exists_cons_of_length_eq_add_one h.symm
          have hlen : xs.length = ys.length := by simpa using h
          have hrest := ih hlen
          by_cases hv : v.kind.isIntegral
          · simp [chosen, hv, hrest]
          · simp [chosen, hv, hrest]

/-- New entries that are related to the ones they replace leave a vector related to the old one. -/
theorem forall₂_updated_self {P : α → α → Prop} (hrefl : ∀ x, P x x) {news xs : List α}
    (h : List.Forall₂ P (chosen vars xs) news) :
    List.Forall₂ (fun y x => P x y) (updated vars (news.map some) xs) xs := by
  induction vars generalizing news xs with
  | nil => exact List.forall₂_same.mpr fun x _ => hrefl x
  | cons v vars ih =>
      cases xs with
      | nil => exact .nil
      | cons x xs =>
          by_cases hv : v.kind.isIntegral
          · rw [chosen_cons, if_pos hv] at h
            cases h with
            | cons hx hrest => simpa [updated, hv] using ⟨hx, ih hrest⟩
          · rw [chosen_cons, if_neg hv] at h
            simpa [updated, hv] using ⟨hrefl x, ih h⟩

end Walks

section Measures

variable {vars : List (Variable ExtRat)} {t : Table ExtRat} {e : ℚ} {x c : List ℚ}

/-- The weights of a measured distance: the signs, at the indices of the integer variables. -/
def weightsRat (vars : List (Variable ExtRat)) (e : ℚ) (x c : List ℚ) : List ℚ :=
  updated vars ((signsRat e (chosen vars x) c).map some) (List.replicate vars.length 0)

theorem measure_eq (h : t.Lists vars) (horder : InOrder vars) (hx : x.length = vars.length)
    (hc : c.length = t.numIntegers) :
    Distance.measure t (fin e) (x.map fin) (c.map fin) =
      .ok
        { value := fin (gapsRat e (chosen vars x) c).sum
          weights := (weightsRat vars e x c).map fin
          gaps := (gapsRat e (chosen vars x) c).map fin } := by
  have hlen : (chosen vars x).length = c.length := by
    rw [length_chosen hx, hc, h.numIntegers_eq]
  have hdifferences : (Vec.map2 (Distance.difference (fin e)) ((chosen vars x).map fin)
      (c.map fin) : Except (Fault ExtRat) _) =
      .ok ((List.zipWith (differenceRat e) (chosen vars x) c).map fin) := by
    rw [Vec.map2_of_length _ (by simp [hlen]), List.zipWith_map, List.map_zipWith]
    simp only [difference_fin]
  have hgaps : ((List.zipWith (differenceRat e) (chosen vars x) c).map fin).map Arith.abs =
      (gapsRat e (chosen vars x) c).map fin := by
    simp [gapsRat, List.map_zipWith]
  have hsigns : ((List.zipWith (differenceRat e) (chosen vars x) c).map fin).map Arith.sign =
      (signsRat e (chosen vars x) c).map fin := by
    simp [signsRat, List.map_zipWith]
  have hzeros : (Vec.zeros t.numVars : List ExtRat) =
      (List.replicate vars.length (0 : ℚ)).map fin := by
    simp [Vec.zeros, h.numVars_eq]
  have hweights : (Vec.place (Vec.zeros t.numVars) t.integers
      ((signsRat e (chosen vars x) c).map fin) : Except (Fault ExtRat) _) =
      .ok ((weightsRat vars e x c).map fin) := by
    rw [hzeros, h.place_eq horder (by simp) (by simp [signsRat, hlen, hc]), weightsRat,
      ← updated_map]
    simp
  unfold Distance.measure
  rw [Act.exceptBind_of_ok (integerValues_map_fin h horder hx), Act.exceptBind_of_ok hdifferences]
  dsimp only
  rw [hgaps, hsigns, Act.exceptBind_of_ok hweights, pairedSum_map_fin]
  rfl

/-- A distance of `v` from the candidate `c`, measured at the point `x`, with the slope `weights`
and the displacements `gaps`. -/
structure Distance.Faithful (vars : List (Variable ExtRat)) (e : ℚ) (x c : List ℚ) (v : ℚ)
    (weights gaps : List ℚ) : Prop where
  nonneg : 0 ≤ v
  sum : v = gaps.sum
  zero_iff : v = 0 ↔ List.Forall₂ (fun q r => |q - r| ≤ e) (chosen vars x) c
  le : v ≤ distanceRat (chosen vars x) c
  distance_le : distanceRat (chosen vars x) c ≤ v + e * c.length
  length : weights.length = vars.length
  /-- A continuous variable has no weight. -/
  continuous : ∀ u w, (u, w) ∈ vars.zip weights → u.kind.isIntegral = false → w = 0
  /-- An integer variable weighs as much as the sign of a number. -/
  signs : ∀ u w, (u, w) ∈ vars.zip weights → u.kind.isIntegral = true → w = -1 ∨ w = 0 ∨ w = 1
  /-- Along the weights the point is away from the candidate by what was measured. -/
  slope : dotRat (chosen vars weights) (List.zipWith (· - ·) (chosen vars x) c) = v
  /-- Any other point is at least as far as the slope says. -/
  below : ∀ y : List ℚ, y.length = vars.length →
    v + dotRat weights (List.zipWith (· - ·) y x) ≤ distanceRat (chosen vars y) c

theorem length_weightsRat (vars : List (Variable ExtRat)) (e : ℚ) (x c : List ℚ) :
    (weightsRat vars e x c).length = vars.length := by
  rw [weightsRat, length_updated, List.length_replicate]

theorem faithful_gapsRat (he : 0 ≤ e) (hx : x.length = vars.length)
    (hc : c.length = (vars.filter (·.kind.isIntegral)).length) :
    Distance.Faithful vars e x c (gapsRat e (chosen vars x) c).sum (weightsRat vars e x c)
      (gapsRat e (chosen vars x) c) := by
  have hlen : (chosen vars x).length = c.length := by rw [length_chosen hx, hc]
  have hsigns : (signsRat e (chosen vars x) c).length =
      (vars.filter (·.kind.isIntegral)).length := by simp [signsRat, hlen, hc]
  have hchosen : chosen vars (weightsRat vars e x c) = signsRat e (chosen vars x) c :=
    chosen_updated List.length_replicate hsigns
  refine ⟨List.sum_nonneg (gapsRat_nonneg _ _ _), rfl, sum_gapsRat_eq_zero_iff he hlen,
    sum_gapsRat_le _ _ _, distanceRat_le he hlen, length_weightsRat _ _ _ _, ?_, ?_, ?_, ?_⟩
  · intro u w hmem hu
    have hzero := (List.of_mem_zip (mem_zip_of_mem_zip_updated hmem hu)).2
    exact List.eq_of_mem_replicate hzero
  · intro u w hmem hu
    have hsign : (u, w) ∈ (vars.zip (weightsRat vars e x c)).filter (·.1.kind.isIntegral) :=
      List.mem_filter.mpr ⟨hmem, hu⟩
    rw [zip_chosen, hchosen] at hsign
    exact signsRat_cases (List.of_mem_zip hsign).2
  · rw [hchosen]
    exact signsRat_mul_sub hlen
  · intro y hy
    have hdot : dotRat (weightsRat vars e x c) (List.zipWith (· - ·) y x) =
        dotRat (signsRat e (chosen vars x) c)
          (List.zipWith (· - ·) (chosen vars y) (chosen vars x)) := by
      rw [weightsRat, zipWith_mul_updated some (by simp [hx, hy]) hsigns,
        chosen_zipWith _ _ (hy.trans hx.symm)]
      rfl
    rw [hdot]
    exact sum_gapsRat_add_le hlen (by rw [length_chosen hy, hc])

/-- The values of a candidate, joined with those of a point that it is not away from. -/
structure Table.Joins (vars : List (Variable ExtRat)) (e : ℚ) (x c full : List ℚ) : Prop where
  length : full.length = vars.length
  integer : chosen vars full = c
  continuous : ∀ u q, (u, q) ∈ vars.zip full → u.kind.isIntegral = false → (u, q) ∈ vars.zip x
  near : List.Forall₂ (fun q r => |q - r| ≤ e) full x

theorem exists_joins (h : t.Lists vars) (horder : InOrder vars) (he : 0 ≤ e)
    (hx : x.length = vars.length) (hnear : List.Forall₂ (fun q r => |q - r| ≤ e) (chosen vars x) c) :
    ∃ full, t.fullPoint (x.map fin) (c.map fin) = .ok (full.map fin) ∧
      Table.Joins vars e x c full := by
  have hc : c.length = (vars.filter (·.kind.isIntegral)).length := by
    rw [← hnear.length_eq, length_chosen hx]
  refine ⟨updated vars (c.map some) x, ?_, ?_, chosen_updated hx hc,
    fun u q hmem hu => mem_zip_of_mem_zip_updated hmem hu, ?_⟩
  · unfold Table.fullPoint
    rw [h.place_eq horder (by simp [hx]) (by simp [hc, h.numIntegers_eq]), ← updated_map]
    simp
  · rw [length_updated, hx]
  · have hself (q : ℚ) : |q - q| ≤ e := by simpa using he
    exact (forall₂_updated_self hself hnear).imp fun q r hqr => by rwa [abs_sub_comm]

/-- **A measured distance is the distance from the candidate, up to `e` for each variable, with a
slope.**  It is zero just if no integer variable is away by more than `e`, and then the candidate
can be joined with the point without moving any variable farther than that. -/
theorem measure_faithful (ht : Table.ofVariables vars = .ok t) (horder : InOrder vars) (he : 0 ≤ e)
    (hx : x.length = vars.length) (hc : c.length = t.numIntegers) :
    ∃ v weights gaps,
      Distance.measure t (fin e) (x.map fin) (c.map fin) =
        .ok { value := fin v, weights := weights.map fin, gaps := gaps.map fin } ∧
      Distance.Faithful vars e x c v weights gaps ∧
      (v = 0 → ∃ full, t.fullPoint (x.map fin) (c.map fin) = .ok (full.map fin) ∧
        Table.Joins vars e x c full) := by
  have h := Table.lists_of_ofVariables ht
  have hfaithful := faithful_gapsRat he hx (hc.trans h.numIntegers_eq)
  exact ⟨_, _, _, measure_eq h horder hx hc, hfaithful, fun hzero =>
    exists_joins h horder he hx (hfaithful.zero_iff.mp hzero)⟩

/-- A point with a continuous value, a value just beside the candidate and values away from it on
either side. -/
theorem measure_faithful_mixedBounds :
    ∃ t v weights gaps, Table.ofVariables mixedBounds = .ok t ∧ InOrder mixedBounds ∧
      (0 : ℚ) ≤ 1 / 100 ∧ [1 / 2, 7 / 3, 3, -5 / 2, 2, 1 / 200].length = mixedBounds.length ∧
      [1, 3, -2, 2, 0].length = t.numIntegers ∧
      Distance.measure t (fin (1 / 100)) ([1 / 2, 7 / 3, 3, -5 / 2, 2, 1 / 200].map fin)
        ([1, 3, -2, 2, 0].map fin) =
        .ok { value := fin v, weights := weights.map fin, gaps := gaps.map fin } ∧
      Distance.Faithful mixedBounds (1 / 100) [1 / 2, 7 / 3, 3, -5 / 2, 2, 1 / 200]
        [1, 3, -2, 2, 0] v weights gaps := by
  obtain ⟨t, ht⟩ : ∃ t, Table.ofVariables mixedBounds = .ok t :=
    Act.exists_ok_of_isOk (by decide +kernel)
  have hc : ([1, 3, -2, 2, 0] : List ℚ).length = t.numIntegers :=
    (Table.lists_of_ofVariables ht).numIntegers_eq.symm
  obtain ⟨v, weights, gaps, hmeasure, hfaithful, -⟩ :=
    measure_faithful (x := [1 / 2, 7 / 3, 3, -5 / 2, 2, 1 / 200]) ht rfl
      (by norm_num : (0 : ℚ) ≤ 1 / 100) rfl hc
  exact ⟨t, v, weights, gaps, ht, rfl, by norm_num, rfl, hc, hmeasure, hfaithful⟩

end Measures

end MipPump
