import MipPump.Proofs.CoherentProblems
import MipPump.Proofs.ProjectionOptima
import MipPump.Proofs.WholePoints
import Mathlib.Algebra.Order.BigOperators.Group.List

/-!
# A projection is a distance

Inside the integral bounds a projection costs what the candidate is away, however it is split into
linear weights and targets: a variable at a bound of its own is charged `x - value` or `value - x`,
which is its distance, and the part of it that does not depend on `x` goes into a constant.

* `Cell.charge_eq`, `charges_eq`: the charge of a value is its distance and a constant.
* `exists_costScale`: the scale of the cost is a number, and zero if there is no cost.
* `blend_eq`, `dotRat_blend`: the joined objective, with one formula for every `alpha`.
* `projection_blends_distance`: the goal of a projection, as a whole.
-/

namespace MipPump

open ExtRat

section Distances

/-- Sum of the distances between the entries of two vectors. -/
def distanceRat (xs ys : List ℚ) : ℚ := (List.zipWith (fun x y => |x - y|) xs ys).sum

/-- The part of the charge of a cell that is the same for all values. -/
def Cell.base (c : Cell) : ℚ := if c.atLower then c.2 else if c.atUpper then -c.2 else 0

/-- Inside the bounds a value is charged its distance from the value of the cell. -/
theorem Cell.charge_eq {c : Cell} {q : ℚ} (hq : c.Around q) : c.charge q = |q - c.2| + c.base := by
  unfold charge base
  by_cases hl : c.atLower
  · have hle : fin c.2 ≤ fin q := ExtRat.le_trans (of_decide_eq_true hl) hq.1
    rw [fin_le_fin] at hle
    rw [if_pos hl, if_pos hl, abs_of_nonneg (sub_nonneg.mpr hle), sub_add_cancel]
  · by_cases hu : c.atUpper
    · have hle : fin q ≤ fin c.2 := ExtRat.le_trans hq.2 (of_decide_eq_true hu)
      rw [fin_le_fin] at hle
      rw [if_neg hl, if_neg hl, if_pos hu, if_pos hu, abs_of_nonpos (sub_nonpos.mpr hle)]
      ring
    · rw [if_neg hl, if_neg hl, if_neg hu, if_neg hu, add_zero]

theorem charges_eq {cells : List Cell} {zs : List ℚ} (h : List.Forall₂ Cell.Around cells zs) :
    charges cells zs = distanceRat zs (cells.map (·.2)) + (cells.map Cell.base).sum := by
  induction h with
  | nil => simp [charges, distanceRat]
  | @cons c q cells zs hq _ ih =>
      unfold charges distanceRat at ih ⊢
      rw [List.zipWith_cons_cons, List.map_cons, List.zipWith_cons_cons, List.map_cons,
        List.sum_cons, List.sum_cons, List.sum_cons, Cell.charge_eq hq, ih]
      ring

end Distances

section Scales

theorem sqrtRat_nonneg (q : ℚ) : 0 ≤ sqrtRat q := by
  unfold sqrtRat
  exact Rat.mkRat_nonneg (Int.natCast_nonneg _) _

variable {t : Table ExtRat} {costs : List ℚ}

/-- The norm of finite costs. -/
theorem exists_norm (costs : List ℚ) :
    ∃ n : ℚ, Vec.norm (costs.map fin) = fin n ∧ ((∀ q ∈ costs, q = 0) → n = 0) := by
  have hsum : Vec.plainSum ((costs.map fin).map fun x => x * x) =
      fin (costs.map fun q => q * q).sum := by
    rw [← plainSum_map_fin, List.map_map, List.map_map]
    rfl
  have hnonneg : 0 ≤ (costs.map fun q => q * q).sum :=
    List.sum_nonneg fun r hr => by
      obtain ⟨q, -, rfl⟩ := List.mem_map.mp hr
      exact mul_self_nonneg q
  refine ⟨sqrtRat (costs.map fun q => q * q).sum, ?_, fun hzero => ?_⟩
  · unfold Vec.norm
    rw [hsum]
    exact if_neg (not_lt.mpr hnonneg)
  · have hall : (costs.map fun q => q * q).sum = 0 := by
      refine List.sum_eq_zero fun r hr => ?_
      obtain ⟨q, hq, rfl⟩ := List.mem_map.mp hr
      rw [hzero q hq, mul_zero]
    rw [hall]
    rfl

/-- The scale of the cost is a number that is not negative, and zero if there is no cost. -/
theorem exists_costScale (hcosts : t.cost = costs.map fin) :
    ∃ s : ℚ, Goal.costScale t = fin s ∧ 0 ≤ s ∧ ((∀ q ∈ costs, q = 0) → s = 0) := by
  obtain ⟨n, hnorm, hzero⟩ := exists_norm costs
  unfold Goal.costScale
  dsimp only
  rw [hcosts, hnorm, zero_eq]
  by_cases hn : 0 < n
  · have hsqrt : (Arith.sqrt (Arith.ofInt t.numIntegers) : ExtRat) =
        fin (sqrtRat (t.numIntegers : ℚ)) := by
      rw [ofInt_eq, Int.cast_natCast]
      exact if_neg (not_lt.mpr (Nat.cast_nonneg _))
    rw [if_pos ((fin_lt_fin 0 n).mpr hn), hsqrt, fin_div _ _ hn.ne']
    exact ⟨_, rfl, div_nonneg (sqrtRat_nonneg _) hn.le, fun hall => absurd (hzero hall) hn.ne'⟩
  · rw [if_neg (fun h => hn ((fin_lt_fin 0 n).mp h))]
    exact ⟨0, rfl, le_refl _, fun _ => rfl⟩

end Scales

section Blends

variable {t : Table ExtRat} {costs : List ℚ} {alpha s : ℚ}

/-- The cost is left out just at zero. -/
theorem fin_le_zero_iff (halpha : 0 ≤ alpha) : fin alpha ≤ 0 ↔ alpha = 0 := by
  rw [zero_eq, fin_le_fin]
  exact ⟨fun hle => le_antisymm hle halpha, fun heq => heq.le⟩

theorem distanceWeight_eq (halpha : 0 ≤ alpha) :
    Goal.distanceWeight (fin alpha) = fin (1 - alpha) := by
  unfold Goal.distanceWeight
  by_cases hzero : alpha = 0
  · rw [if_pos ((fin_le_zero_iff halpha).mpr hzero), hzero, sub_zero, one_eq]
  · rw [if_neg (mt (fin_le_zero_iff halpha).mp hzero), one_eq, fin_sub]

/-- Without the cost the formula of the joined objective leaves the weights. -/
theorem zipWith_blend_zero (s : ℚ) {costs linear : List ℚ} (hlen : costs.length = linear.length) :
    List.zipWith (fun c w => 0 * s * c + (1 - 0) * w) costs linear = linear := by
  have hsnd : (fun c w : ℚ => 0 * s * c + (1 - 0) * w) = fun _ w => w := by
    funext c w
    ring
  rw [hsnd, ← List.map_uncurry_zip_eq_zipWith]
  exact List.map_snd_zip hlen.ge

/-- The joined objective. -/
theorem blend_eq (hcosts : t.cost = costs.map fin) (hs : Goal.costScale t = fin s)
    (halpha : 0 ≤ alpha) {linear : List ℚ} (hlen : costs.length = linear.length) :
    Goal.blend t (fin alpha) (linear.map fin) =
      .ok ((List.zipWith (fun c w => alpha * s * c + (1 - alpha) * w) costs linear).map fin) := by
  unfold Goal.blend
  by_cases hzero : alpha = 0
  · subst hzero
    rw [if_pos ((fin_le_zero_iff halpha).mpr rfl), zipWith_blend_zero s hlen]
  · rw [if_neg (mt (fin_le_zero_iff halpha).mp hzero), hs, hcosts,
      Vec.map2_of_length _ (by rw [List.length_map, List.length_map, hlen]), List.zipWith_map,
      List.map_zipWith]
    simp only [one_eq, fin_sub, fin_mul, fin_add]

/-- The cost of a point for a joined objective. -/
theorem dotRat_blend (a b : ℚ) {costs linear z : List ℚ} (hlen : costs.length = linear.length) :
    dotRat (List.zipWith (fun c w => a * c + b * w) costs linear) z =
      a * dotRat costs z + b * dotRat linear z := by
  unfold dotRat
  induction costs generalizing linear z with
  | nil =>
      obtain rfl := List.length_eq_zero_iff.mp hlen.symm
      simp
  | cons c costs ih =>
      cases linear with
      | nil => cases hlen
      | cons w linear =>
          cases z with
          | nil => simp
          | cons q z =>
              have hrest : costs.length = linear.length := by simpa using hlen
              simp only [List.zipWith_cons_cons, List.sum_cons, ih hrest]
              ring

end Blends

section Columns

variable {vars : List (Variable ExtRat)} {t : Table ExtRat} {y : List ℚ}

/-- What is written at some of the integer variables is read back, and elsewhere what was there. -/
theorem chosen_updated_getD {R α : Type} {vars : List (Variable R)} {news : List (Option α)}
    (a : α) (hlen : news.length = (vars.filter (·.kind.isIntegral)).length) :
    chosen vars (updated vars news (List.replicate vars.length a)) = news.map (·.getD a) := by
  induction vars generalizing news with
  | nil =>
      rw [List.filter_nil, List.length_nil, List.length_eq_zero_iff] at hlen
      rw [hlen]
      rfl
  | cons v vars ih =>
      rw [List.length_cons, List.replicate_succ]
      by_cases hv : v.kind.isIntegral
      · cases news with
        | nil => simp [hv] at hlen
        | cons new news =>
            have hrest : news.length = (vars.filter (·.kind.isIntegral)).length := by
              simpa [hv] using hlen
            simp [updated, chosen, hv, ih hrest]
      · have hrest : news.length = (vars.filter (·.kind.isIntegral)).length := by
          simpa [hv] using hlen
        simp [updated, chosen, hv, ih hrest]

/-- The linear weight of an integer variable. -/
theorem at?_pulls (h : t.Lists vars) (horder : InOrder vars) (hy : y.length = vars.length) :
    ∀ c ∈ cellsOf vars y,
      Vec.at? ((updated vars ((cellsOf vars y).map Cell.pull)
        (List.replicate vars.length 0)).map fin) c.1.index = some (fin (c.pull.getD 0)) := by
  have hpick := integerValues_map_fin h horder
    (x := updated vars ((cellsOf vars y).map Cell.pull) (List.replicate vars.length 0))
    (by rw [length_updated, List.length_replicate])
  unfold Table.integerValues at hpick
  rw [chosen_updated_getD 0 (by rw [List.length_map, length_cellsOf hy]), h.integers_eq_cells hy,
    List.map_map, List.map_map, Vec.pick_eq_ok (R := ExtRat), List.forall₂_map_left_iff,
    List.forall₂_map_right_iff, List.forall₂_same] at hpick
  exact hpick

end Columns

section Projections

/-- The goal is the cost of the problem, scaled by `s`, joined with the distance from a candidate,
up to the constant `K`. -/
structure Goal.Blends (vars : List (Variable ExtRat)) (t : Table ExtRat) (costs candidate : List ℚ)
    (alpha s K : ℚ) (goal : Goal ExtRat) : Prop where
  /-- What a point inside the integral bounds costs. -/
  cost : ∀ x : List ℚ, x.length = vars.length →
    Box.Contains ⟨t.intLb, t.intUb⟩ (chosen vars x) →
    goal.costAt (x.map fin) =
      fin (alpha * s * dotRat costs x + (1 - alpha) * distanceRat (chosen vars x) candidate + K)
  distinct : (goal.targets.map (·.index)).Nodup
  weights : ∀ target ∈ goal.targets, ∃ w : ℚ, target.weight = fin w ∧ 0 ≤ w ∧ w ≤ 1
  /-- Without the cost, a variable is pulled only towards a bound of its own that is its value. -/
  pulls : alpha = 0 → ∀ (k : Nat) (j : Int) (q : ℚ), t.integers[k]? = some j →
    candidate[k]? = some q → ∃ w : ℚ, Vec.at? goal.objective j = some (fin w) ∧
      (0 < w → t.intLb[k]? = some (fin q)) ∧ (w < 0 → t.intUb[k]? = some (fin q))

variable {vars : List (Variable ExtRat)} {t : Table ExtRat} {y : List ℚ}

/-- Integral bounds are around the cells of a candidate where they are around the values. -/
theorem around_of_contains (h : t.Lists vars) (horder : InOrder vars) (hy : y.length = vars.length)
    {zs : List ℚ} (hzs : Box.Contains ⟨t.intLb, t.intUb⟩ zs) :
    List.Forall₂ Cell.Around (cellsOf vars y) zs := by
  obtain ⟨hlower, hupper⟩ := hzs
  dsimp only at hlower hupper
  rw [h.intLb_eq_cells horder hy, List.forall₂_map_left_iff] at hlower
  rw [h.intUb_eq_cells horder hy, List.forall₂_map_left_iff] at hupper
  refine List.forall₂_iff_zip.mpr ⟨hlower.length_eq, fun hmem => ⟨?_, ?_⟩⟩
  · exact (List.forall₂_iff_zip.mp hlower).2 hmem
  · exact (List.forall₂_iff_zip.mp hupper).2 hmem

/-- A cell inside its bounds is pulled towards a bound that is its value. -/
theorem Cell.eq_bound_of_pull {c : Cell} (hc : c.Around c.2) :
    (0 < c.pull.getD 0 → Table.integralLower c.1.lb = fin c.2) ∧
      (c.pull.getD 0 < 0 → Table.integralUpper c.1.ub = fin c.2) := by
  unfold pull
  by_cases hl : c.atLower
  · rw [if_pos hl]
    refine ⟨fun _ => eq_of_le_of_le hc.1 (of_decide_eq_true hl), fun hneg => ?_⟩
    norm_num at hneg
  · rw [if_neg hl]
    by_cases hu : c.atUpper
    · rw [if_pos hu]
      refine ⟨fun hpos => ?_, fun _ => eq_of_le_of_le (of_decide_eq_true hu) hc.2⟩
      norm_num at hpos
    · rw [if_neg hu]
      exact ⟨fun hpos => absurd hpos (lt_irrefl _), fun hneg => absurd hneg (lt_irrefl _)⟩

/-- The targets of a projection are aimed at different variables. -/
theorem nodup_weighted (h : t.Lists vars) (horder : InOrder vars) (hy : y.length = vars.length)
    (w : ExtRat) :
    ((((cellsOf vars y).filter Cell.interior).map (Cell.weighted w)).map (·.index)).Nodup := by
  have hindices : (((cellsOf vars y).filter Cell.interior).map (Cell.weighted w)).map (·.index) =
      ((cellsOf vars y).filter Cell.interior).map (·.1.index) := List.map_map
  rw [hindices]
  have hnodup := h.nodup_integers horder
  rw [h.integers_eq_cells hy] at hnodup
  exact (List.filter_sublist.map _).nodup hnodup

/-- A linear weight pulls towards a bound of the variable that is its value. -/
theorem exists_pull (h : t.Lists vars) (horder : InOrder vars) (hy : y.length = vars.length)
    (hinside : Box.Contains ⟨t.intLb, t.intUb⟩ (chosen vars y)) {k : Nat} {j : Int} {q : ℚ}
    (hj : t.integers[k]? = some j) (hq : (chosen vars y)[k]? = some q) :
    ∃ w : ℚ, Vec.at? ((updated vars ((cellsOf vars y).map Cell.pull)
        (List.replicate vars.length 0)).map fin) j = some (fin w) ∧
      (0 < w → t.intLb[k]? = some (fin q)) ∧ (w < 0 → t.intUb[k]? = some (fin q)) := by
  rw [h.integers_eq_cells hy, List.getElem?_map] at hj
  rw [← map_snd_cellsOf hy, List.getElem?_map] at hq
  obtain ⟨cell, hcell, rfl⟩ := Option.map_eq_some_iff.mp hj
  rw [hcell] at hq
  cases hq
  have hmem := List.mem_of_getElem? hcell
  have haround := around_of_contains h horder hy hinside
  rw [← map_snd_cellsOf hy, List.forall₂_map_right_iff, List.forall₂_same] at haround
  obtain ⟨hlower, hupper⟩ := Cell.eq_bound_of_pull (haround cell hmem)
  refine ⟨cell.pull.getD 0, at?_pulls h horder hy cell hmem, fun hpos => ?_, fun hneg => ?_⟩
  · rw [h.intLb_eq_cells horder hy, List.getElem?_map, hcell, Option.map_some, hlower hpos]
  · rw [h.intUb_eq_cells horder hy, List.getElem?_map, hcell, Option.map_some, hupper hneg]

/-- **A projection is the distance from its candidate, joined with the cost of the problem.**  Up to
one constant, a point inside the integral bounds costs `alpha` times its scaled cost and `1 - alpha`
times its distance from the candidate, whatever is at a bound, between the bounds or without
bounds. -/
theorem projection_blends_distance (ht : Table.ofVariables vars = .ok t) (horder : InOrder vars)
    {costs : List ℚ} (hcosts : t.cost = costs.map fin) {alpha : ℚ} (hnonneg : 0 ≤ alpha)
    (hle : alpha ≤ 1) {c : List ℚ} (hc : Box.Contains ⟨t.intLb, t.intUb⟩ c) :
    ∃ goal s K, Goal.projection t (fin alpha) (c.map fin) = .ok goal ∧
      Goal.costScale t = fin s ∧ 0 ≤ s ∧ ((∀ q ∈ costs, q = 0) → s = 0) ∧
      goal.Blends vars t costs c alpha s K := by
  have h := Table.lists_of_ofVariables ht
  obtain ⟨s, hs, hsnonneg, hszero⟩ := exists_costScale hcosts
  -- any point with the values of the candidate will do; the others are set to zero
  obtain ⟨y, hy, rfl⟩ : ∃ y : List ℚ, y.length = vars.length ∧ chosen vars y = c := by
    have hlen : c.length = (vars.filter (·.kind.isIntegral)).length := by
      rw [← hc.lower.length_eq, h.intLb_eq horder, List.length_map]
    exact ⟨updated vars (c.map some) (List.replicate vars.length 0),
      by rw [length_updated, List.length_replicate],
      chosen_updated List.length_replicate hlen⟩
  let linear := updated vars ((cellsOf vars y).map Cell.pull) (List.replicate vars.length 0)
  have hlinear : linear.length = vars.length := by
    rw [length_updated, List.length_replicate]
  have hlen : costs.length = linear.length := by
    rw [hlinear, ← List.length_map fin, ← hcosts, h.cost, List.length_map]
  have hprojection := projection_eq_blend h horder (fin alpha) hy
  rw [blend_eq hcosts hs hnonneg hlen, distanceWeight_eq hnonneg] at hprojection
  refine ⟨_, s, (1 - alpha) * ((cellsOf vars y).map Cell.base).sum, hprojection, hs, hsnonneg,
    hszero, ?_, ?_, ?_, ?_⟩
  · intro x hx hin
    have hcharges := charges_eq (around_of_contains h horder hy hin)
    rw [map_snd_cellsOf hy] at hcharges
    rw [costAt_weighted horder hy hx, dotRat_blend _ _ hlen, hcharges]
    congr 1
    ring
  · exact nodup_weighted h horder hy _
  · intro target htarget
    obtain ⟨cell, -, rfl⟩ := List.mem_map.mp htarget
    exact ⟨1 - alpha, rfl, by linarith, by linarith⟩
  · rintro rfl k j q hj hq
    obtain ⟨w, hw, hlower, hupper⟩ := exists_pull h horder hy hc hj hq
    refine ⟨w, ?_, hlower, hupper⟩
    dsimp only
    rw [zipWith_blend_zero s hlen]
    exact hw

/-- Integer variables with two, one and no finite bound, one of them fixed, and a continuous one. -/
def mixedBounds : List (Variable ExtRat) :=
  [ { index := 0, lb := .fin 0, ub := .fin 1, kind := .integer, cost := .fin 3 }
  , { index := 1, lb := .fin 0, ub := .fin 5, kind := .continuous, cost := .fin 0 }
  , { index := 2, lb := .fin 0, ub := .posInf, kind := .integer, cost := .fin 4 }
  , { index := 3, lb := .fin (-5 / 2), ub := .fin 6, kind := .integer, cost := .fin 0 }
  , { index := 4, lb := .fin 2, ub := .fin 2, kind := .integer, cost := .fin 1 }
  , { index := 5, lb := .negInf, ub := .posInf, kind := .integer, cost := .fin (-2) } ]

/-- The candidate `(1, 3, -2, 2, 0)`: at an upper bound, inside, at a lower bound that is rounded,
at both bounds, and without bounds. -/
theorem projection_blends_distance_mixedBounds :
    ∃ t goal s K, Table.ofVariables mixedBounds = .ok t ∧ InOrder mixedBounds ∧
      t.cost = [3, 0, 4, 0, 1, -2].map fin ∧ (0 : ℚ) ≤ 1 / 4 ∧ (1 / 4 : ℚ) ≤ 1 ∧
      Box.Contains ⟨t.intLb, t.intUb⟩ [1, 3, -2, 2, 0] ∧
      Goal.projection t (fin (1 / 4)) ([1, 3, -2, 2, 0].map fin) = .ok goal ∧
      Goal.costScale t = fin s ∧ 0 ≤ s ∧
      goal.Blends mixedBounds t [3, 0, 4, 0, 1, -2] [1, 3, -2, 2, 0] (1 / 4) s K := by
  obtain ⟨t, ht⟩ : ∃ t, Table.ofVariables mixedBounds = .ok t :=
    Act.exists_ok_of_isOk (by decide +kernel)
  have h := Table.lists_of_ofVariables ht
  have horder : InOrder mixedBounds := rfl
  have hcosts : t.cost = [3, 0, 4, 0, 1, -2].map fin := h.cost
  have hcandidate : Box.Contains ⟨t.intLb, t.intUb⟩ [1, 3, -2, 2, 0] := by
    rw [h.intLb_eq horder, h.intUb_eq horder]
    constructor
    · exact .cons (by decide +kernel) (.cons (by decide +kernel) (.cons (by decide +kernel)
        (.cons (by decide +kernel) (.cons (by decide +kernel) .nil))))
    · exact .cons (by decide +kernel) (.cons (by decide +kernel) (.cons (by decide +kernel)
        (.cons (by decide +kernel) (.cons (by decide +kernel) .nil))))
  obtain ⟨goal, s, K, hgoal, hs, hnonneg, -, hblends⟩ :=
    projection_blends_distance ht horder hcosts (by norm_num : (0 : ℚ) ≤ 1 / 4) (by norm_num)
      hcandidate
  exact ⟨t, goal, s, K, ht, horder, hcosts, by norm_num, by norm_num, hcandidate, hgoal, hs,
    hnonneg, hblends⟩

end Projections

end MipPump
