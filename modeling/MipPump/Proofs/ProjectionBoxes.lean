import MipPump.Proofs.BlendedDistances

/-!
# The two boxes of a projection

The weights of a projection are taken from the integral bounds, but its points range over the bounds
of the variables, which may be fractional.  A variable at an integral bound is charged `x` or `-x`
and not its distance from the candidate, so it is drawn past the candidate where its own bound
leaves room.

* `Variable.Anchors`: the value has no such room, as is the case for all integral bounds.
* `Cell.charge_le_iff`, `Cell.anchors_iff`: where a cell is charged least at its value.
* `charges_le_iff`: all cells of a point together are charged least if each of them is.
* `projection_leastAt_iff`: the candidate costs least just if all its values are anchored.
* `projection_passes_candidate`: the bounds `[1/2, 5/2]`, where the candidate `1` is not.
-/

namespace MipPump

open ExtRat

/-- The bounds of the variable have no value beyond `q` on the side to which a projection draws it:
below `q` if this is the integral lower bound, otherwise above it if it is the upper one. -/
structure Variable.Anchors (v : Variable ExtRat) (q : ℚ) : Prop where
  lower : Table.integralLower v.lb = fin q → fin q ≤ v.lb
  upper : Table.integralLower v.lb ≠ fin q → Table.integralUpper v.ub = fin q → v.ub ≤ fin q

namespace Cell

/-- The bounds of the variable itself are around `q`. -/
def Inside (c : Cell) (q : ℚ) : Prop := c.1.lb ≤ fin q ∧ fin q ≤ c.1.ub

variable {c : Cell} {q : ℚ}

/-- A value at a bound is charged least on the inner side of the bound, one between the bounds
everywhere. -/
theorem charge_le_iff :
    c.charge c.2 ≤ c.charge q ↔
      (c.atLower = true → c.2 ≤ q) ∧ (¬ c.atLower = true → c.atUpper = true → q ≤ c.2) := by
  unfold charge
  by_cases hl : c.atLower
  · simp [hl]
  · by_cases hu : c.atUpper <;> simp [hl, hu]

/-- A value inside the integral bounds is at a bound if it is the bound. -/
theorem atLower_iff (hc : c.Around c.2) :
    c.atLower = true ↔ Table.integralLower c.1.lb = fin c.2 := by
  unfold atLower
  rw [decide_eq_true_iff]
  exact ⟨fun hle => eq_of_le_of_le hc.1 hle, fun heq => heq ▸ (fin_le_fin _ _).mpr (le_refl _)⟩

theorem atUpper_iff (hc : c.Around c.2) :
    c.atUpper = true ↔ Table.integralUpper c.1.ub = fin c.2 := by
  unfold atUpper
  rw [decide_eq_true_iff]
  exact ⟨fun hle => eq_of_le_of_le hle hc.2, fun heq => heq ▸ (fin_le_fin _ _).mpr (le_refl _)⟩

/-- An anchored value is charged least, whether or not it is itself inside the bounds. -/
theorem charge_le_of_anchors (hc : c.Around c.2) (h : c.1.Anchors c.2) (hq : c.Inside q) :
    c.charge c.2 ≤ c.charge q := by
  rw [charge_le_iff, atLower_iff hc, atUpper_iff hc]
  exact ⟨fun hl => (fin_le_fin c.2 q).mp (ExtRat.le_trans (h.lower hl) hq.1),
    fun hl hu => (fin_le_fin q c.2).mp (ExtRat.le_trans hq.2 (h.upper hl hu))⟩

/-- A bound that is rounded to a number is a number. -/
theorem exists_lb_eq_fin (hin : c.Inside q) (h : Table.integralLower c.1.lb = fin c.2) :
    ∃ a, c.1.lb = fin a := by
  cases hlb : c.1.lb with
  | fin a => exact ⟨a, rfl⟩
  | negInf => rw [hlb, integralLower_eq (.inr rfl)] at h; cases h
  | posInf => exact absurd (hlb ▸ hin.1) (by simp)
  | nan => exact absurd (hlb ▸ hin.1) (by simp)

theorem exists_ub_eq_fin (hin : c.Inside q) (h : Table.integralUpper c.1.ub = fin c.2) :
    ∃ a, c.1.ub = fin a := by
  cases hub : c.1.ub with
  | fin a => exact ⟨a, rfl⟩
  | posInf => rw [hub, integralUpper_eq (.inr rfl)] at h; cases h
  | negInf => exact absurd (hub ▸ hin.2) (by simp)
  | nan => exact absurd (hub ▸ hin.2) (by simp)

/-- A value inside both bounds is charged least just if it is anchored: a bound beyond it is itself
a value that is charged less. -/
theorem anchors_iff (hc : c.Around c.2) (hin : c.Inside c.2) :
    c.1.Anchors c.2 ↔ ∀ q, c.Inside q → c.charge c.2 ≤ c.charge q := by
  refine ⟨fun h q hq => charge_le_of_anchors hc h hq, fun h => ⟨fun hl => ?_, fun hl hu => ?_⟩⟩
  · obtain ⟨a, ha⟩ := exists_lb_eq_fin hin hl
    have hinside : c.Inside a := ⟨by simp [ha], ExtRat.le_trans (ha ▸ hin.1) hin.2⟩
    have hle := (charge_le_iff.mp (h a hinside)).1 ((atLower_iff hc).mpr hl)
    simpa [ha] using hle
  · obtain ⟨a, ha⟩ := exists_ub_eq_fin hin hu
    have hinside : c.Inside a := ⟨ExtRat.le_trans hin.1 (ha ▸ hin.2), by simp [ha]⟩
    have hle := (charge_le_iff.mp (h a hinside)).2 (mt (atLower_iff hc).mp hl)
      ((atUpper_iff hc).mpr hu)
    simpa [ha] using hle

end Cell

section Charges

/-- Cells are charged least together just if each of them is, since the values of the others can be
kept. -/
theorem charges_le_iff {cells : List Cell} (hin : ∀ c ∈ cells, c.Inside c.2) :
    (∀ zs, List.Forall₂ Cell.Inside cells zs →
        charges cells (cells.map (·.2)) ≤ charges cells zs) ↔
      ∀ c ∈ cells, ∀ q, c.Inside q → c.charge c.2 ≤ c.charge q := by
  refine ⟨fun h => ?_, fun h zs hzs => charges_le ?_⟩
  · induction cells with
    | nil => simp
    | cons c cells ih =>
        obtain ⟨hhead, htail⟩ := List.forall_mem_cons.mp hin
        have hvalues : List.Forall₂ Cell.Inside cells (cells.map (·.2)) :=
          List.forall₂_map_right_iff.mpr (List.forall₂_same.mpr htail)
        refine List.forall_mem_cons.mpr ⟨fun q hq => ?_, ih htail fun zs hzs => ?_⟩
        · simpa [charges_cons] using h (q :: cells.map (·.2)) (.cons hq hvalues)
        · simpa [charges_cons] using h (c.2 :: zs) (.cons hhead hzs)
  · have hboth := (List.forall₂_and_left _ _).mpr ⟨h, hzs⟩
    exact hboth.imp fun _ q hq => hq.1 q hq.2

end Charges

section Points

variable {vars : List (Variable ExtRat)} {t : Table ExtRat} {x y : List ℚ}

/-- A relation of all variables with their values still holds after the integer variables are given
other values of which it holds. -/
theorem forall₂_updated {P : Variable ExtRat → ℚ → Prop} {zs : List ℚ}
    (hy : List.Forall₂ P vars y) (hzs : List.Forall₂ P (vars.filter (·.kind.isIntegral)) zs) :
    List.Forall₂ P vars (updated vars (zs.map some) y) := by
  induction hy generalizing zs with
  | nil => exact .nil
  | @cons v q vars y hq _ ih =>
      by_cases hv : v.kind.isIntegral
      · simp only [List.filter_cons, hv, if_true] at hzs
        obtain ⟨z, zs, hz, hrest, rfl⟩ := List.forall₂_cons_left_iff.mp hzs
        simpa [updated, hv] using ⟨hz, ih hrest⟩
      · simp only [List.filter_cons, hv, if_false, Bool.false_eq_true] at hzs
        simpa [updated, hv] using ⟨hq, ih hzs⟩

/-- Of the values at a point, those of the integer variables are the chosen ones. -/
theorem forall₂_chosen {P : Variable ExtRat → ℚ → Prop} (hx : List.Forall₂ P vars x) :
    List.Forall₂ P (vars.filter (·.kind.isIntegral)) (chosen vars x) := by
  induction hx with
  | nil => exact .nil
  | @cons v q vars x hq _ ih =>
      by_cases hv : v.kind.isIntegral
      · simpa [chosen, hv] using ⟨hq, ih⟩
      · simpa [chosen, hv] using ih

/-- The bounds of a table are those of its variables. -/
theorem contains_iff (h : t.Lists vars) :
    Box.Contains ⟨t.lb, t.ub⟩ x ↔
      List.Forall₂ (fun (v : Variable ExtRat) q => v.lb ≤ fin q ∧ fin q ≤ v.ub) vars x := by
  rw [h.lb, h.ub]
  refine ⟨fun hx => ?_, fun hx => ⟨?_, ?_⟩⟩
  · have hlower := List.forall₂_map_left_iff.mp hx.lower
    have hupper := List.forall₂_map_left_iff.mp hx.upper
    exact List.forall₂_iff_zip.mpr ⟨hlower.length_eq, fun hmem =>
      ⟨(List.forall₂_iff_zip.mp hlower).2 hmem, (List.forall₂_iff_zip.mp hupper).2 hmem⟩⟩
  · exact List.forall₂_map_left_iff.mpr (hx.imp fun _ _ hq => hq.1)
  · exact List.forall₂_map_left_iff.mpr (hx.imp fun _ _ hq => hq.2)

/-- The values of the integer variables at a point of the box are inside the bounds of these. -/
theorem inside_of_contains (h : t.Lists vars) (hy : y.length = vars.length)
    (hx : Box.Contains ⟨t.lb, t.ub⟩ x) :
    List.Forall₂ Cell.Inside (cellsOf vars y) (chosen vars x) := by
  have hints := forall₂_chosen ((contains_iff h).mp hx)
  rw [← map_fst_cellsOf hy, List.forall₂_map_left_iff] at hints
  exact hints

/-- Values inside the bounds of the integer variables are values at a point of the box, if it has
points. -/
theorem exists_contains (h : t.Lists vars) (hx : Box.Contains ⟨t.lb, t.ub⟩ x)
    (hy : y.length = vars.length) {zs : List ℚ}
    (hzs : List.Forall₂ Cell.Inside (cellsOf vars y) zs) :
    ∃ z, Box.Contains ⟨t.lb, t.ub⟩ z ∧ chosen vars z = zs := by
  have hints : List.Forall₂ (fun (v : Variable ExtRat) q => v.lb ≤ fin q ∧ fin q ≤ v.ub)
      (vars.filter (·.kind.isIntegral)) zs := by
    rw [← map_fst_cellsOf hy, List.forall₂_map_left_iff]
    exact hzs
  have hall := (contains_iff h).mp hx
  exact ⟨updated vars (zs.map some) x, (contains_iff h).mpr (forall₂_updated hall hints),
    chosen_updated hall.length_eq.symm hints.length_eq.symm⟩

theorem length_of_contains (h : t.Lists vars) (hx : Box.Contains ⟨t.lb, t.ub⟩ x) :
    x.length = vars.length :=
  ((contains_iff h).mp hx).length_eq.symm

theorem anchors_iff_forall_cells (hy : y.length = vars.length) :
    List.Forall₂ Variable.Anchors (vars.filter (·.kind.isIntegral)) (chosen vars y) ↔
      ∀ c ∈ cellsOf vars y, c.1.Anchors c.2 := by
  rw [List.forall₂_iff_zip]
  exact ⟨fun h c hc => h.2 hc, fun h => ⟨(length_chosen hy).symm, fun hmem => h _ hmem⟩⟩

/-- Every candidate is the values at some point. -/
theorem exists_chosen_eq (h : t.Lists vars) (horder : InOrder vars) {c : List ℚ}
    (hc : Box.Contains ⟨t.intLb, t.intUb⟩ c) :
    ∃ y : List ℚ, y.length = vars.length ∧ chosen vars y = c := by
  have hlen : c.length = (vars.filter (·.kind.isIntegral)).length := by
    rw [← hc.lower.length_eq, h.intLb_eq horder, List.length_map]
  exact ⟨updated vars (c.map some) (List.replicate vars.length 0),
    by rw [length_updated, List.length_replicate], chosen_updated List.length_replicate hlen⟩

end Points

section Projections

variable {vars : List (Variable ExtRat)} {t : Table ExtRat} {goal : Goal ExtRat} {y : List ℚ}

/-- No point of the box costs less than a point with the values of the candidate, and none without
these values costs as little. -/
structure Goal.LeastAt (vars : List (Variable ExtRat)) (box : Box ExtRat) (candidate : List ℚ)
    (goal : Goal ExtRat) : Prop where
  le : ∀ x z : List ℚ, box.Contains x → z.length = vars.length → chosen vars z = candidate →
    goal.costAt (z.map fin) ≤ goal.costAt (x.map fin)
  agree : ∀ x z : List ℚ, box.Contains x → z.length = vars.length → chosen vars z = candidate →
    goal.costAt (x.map fin) = goal.costAt (z.map fin) → chosen vars x = candidate

/-- The goal charges a point the values of its integer variables. -/
def Goal.Charges (vars : List (Variable ExtRat)) (y : List ℚ) (goal : Goal ExtRat) : Prop :=
  ∀ z : List ℚ, z.length = vars.length →
    goal.costAt (z.map fin) = fin (charges (cellsOf vars y) (chosen vars z))

theorem Goal.Charges.leastAt (hgoal : goal.Charges vars y) (h : t.Lists vars)
    (hy : y.length = vars.length)
    (hleast : ∀ c ∈ cellsOf vars y, ∀ q, c.Inside q → c.charge c.2 ≤ c.charge q) :
    goal.LeastAt vars ⟨t.lb, t.ub⟩ (chosen vars y) := by
  have hcharges (x : List ℚ) (hx : Box.Contains ⟨t.lb, t.ub⟩ x) :
      List.Forall₂ (fun c q => c.charge c.2 ≤ c.charge q) (cellsOf vars y) (chosen vars x) := by
    have hboth := (List.forall₂_and_left _ _).mpr ⟨hleast, inside_of_contains h hy hx⟩
    exact hboth.imp fun _ q hq => hq.1 q hq.2
  refine ⟨fun x z hx hz heq => ?_, fun x z hx hz heq hcost => ?_⟩
  · rw [hgoal z hz, hgoal x (length_of_contains h hx), heq, fin_le_fin, ← map_snd_cellsOf hy]
    exact charges_le (hcharges x hx)
  · rw [hgoal z hz, hgoal x (length_of_contains h hx), heq, ← map_snd_cellsOf hy] at hcost
    rw [← map_snd_cellsOf hy]
    exact eq_of_charges_le (hcharges x hx) (ExtRat.fin.inj hcost).le

/-- A goal that is least at a point of the box charges each value there least. -/
theorem Goal.Charges.least_of_leastAt (hgoal : goal.Charges vars y) (h : t.Lists vars)
    (hy : y.length = vars.length) (hx : Box.Contains ⟨t.lb, t.ub⟩ x)
    (heq : chosen vars x = chosen vars y)
    (hleast : goal.LeastAt vars ⟨t.lb, t.ub⟩ (chosen vars y)) :
    ∀ c ∈ cellsOf vars y, c.Inside c.2 ∧ ∀ q, c.Inside q → c.charge c.2 ≤ c.charge q := by
  have hinside := inside_of_contains h hy hx
  rw [heq, ← map_snd_cellsOf hy, List.forall₂_map_right_iff, List.forall₂_same] at hinside
  have hall := (charges_le_iff hinside).mp fun zs hzs => by
    obtain ⟨z, hz, rfl⟩ := exists_contains h hx hy hzs
    have hle := hleast.le z y hz hy rfl
    rw [hgoal y hy, hgoal z (length_of_contains h hz), fin_le_fin] at hle
    rw [map_snd_cellsOf hy]
    exact hle
  exact fun c hc => ⟨hinside c hc, hall c hc⟩

/-- **Where a projection is least at its candidate.**  Without the cost of the problem, a projection
onto a candidate inside the integral bounds costs least at the candidate, and only there, among all
points inside the bounds of the variables, if every value of the candidate is anchored.  If the
candidate is inside these bounds too, this is the only case. -/
theorem projection_leastAt_iff (ht : Table.ofVariables vars = .ok t) (horder : InOrder vars)
    {c : List ℚ} (hc : Box.Contains ⟨t.intLb, t.intUb⟩ c) :
    ∃ goal, Goal.projection t (fin 0) (c.map fin) = .ok goal ∧
      (List.Forall₂ Variable.Anchors (vars.filter (·.kind.isIntegral)) c →
        goal.LeastAt vars ⟨t.lb, t.ub⟩ c) ∧
      ∀ x, Box.Contains ⟨t.lb, t.ub⟩ x → chosen vars x = c →
        (goal.LeastAt vars ⟨t.lb, t.ub⟩ c ↔
          List.Forall₂ Variable.Anchors (vars.filter (·.kind.isIntegral)) c) := by
  have h := Table.lists_of_ofVariables ht
  obtain ⟨y, hy, rfl⟩ := exists_chosen_eq h horder hc
  have haround := around_of_contains h horder hy hc
  rw [← map_snd_cellsOf hy, List.forall₂_map_right_iff, List.forall₂_same] at haround
  obtain ⟨goal, hgoal, hcharges⟩ : ∃ goal,
      Goal.projection t (fin 0) ((chosen vars y).map fin) = .ok goal ∧ goal.Charges vars y :=
    ⟨_, projection_eq h horder ((fin_le_fin 0 0).mpr (le_refl 0)) hy,
      fun z hz => costAt_projection horder hy hz⟩
  rw [anchors_iff_forall_cells hy]
  have hanchored (hall : ∀ c ∈ cellsOf vars y, c.1.Anchors c.2) :
      goal.LeastAt vars ⟨t.lb, t.ub⟩ (chosen vars y) :=
    hcharges.leastAt h hy fun c hc _ hq => Cell.charge_le_of_anchors (haround c hc) (hall c hc) hq
  refine ⟨goal, hgoal, hanchored, fun x hx heq => ⟨fun hleast c hc => ?_, hanchored⟩⟩
  obtain ⟨hin, hall⟩ := hcharges.least_of_leastAt h hy hx heq hleast c hc
  exact (Cell.anchors_iff (haround c hc) hin).mpr hall

/-- The candidate `(1, 3, 0, 2, 0)` for integer variables with two, one and no finite bound: at an
upper bound, inside, inside fractional bounds, at both bounds, and without bounds. -/
theorem projection_leastAt_iff_mixedBounds :
    ∃ t goal, Table.ofVariables mixedBounds = .ok t ∧ InOrder mixedBounds ∧
      Box.Contains ⟨t.intLb, t.intUb⟩ [1, 3, 0, 2, 0] ∧
      Box.Contains ⟨t.lb, t.ub⟩ [1, 5 / 2, 3, 0, 2, 0] ∧
      chosen mixedBounds [1, 5 / 2, 3, 0, 2, 0] = ([1, 3, 0, 2, 0] : List ℚ) ∧
      List.Forall₂ Variable.Anchors (mixedBounds.filter (·.kind.isIntegral)) [1, 3, 0, 2, 0] ∧
      Goal.projection t (fin 0) ([1, 3, 0, 2, 0].map fin) = .ok goal ∧
      goal.LeastAt mixedBounds ⟨t.lb, t.ub⟩ [1, 3, 0, 2, 0] := by
  obtain ⟨t, ht⟩ : ∃ t, Table.ofVariables mixedBounds = .ok t :=
    Act.exists_ok_of_isOk (by decide +kernel)
  have h := Table.lists_of_ofVariables ht
  have horder : InOrder mixedBounds := rfl
  have hcandidate : Box.Contains ⟨t.intLb, t.intUb⟩ [1, 3, 0, 2, 0] := by
    rw [h.intLb_eq horder, h.intUb_eq horder]
    constructor
    · exact .cons (by decide +kernel) (.cons (by decide +kernel) (.cons (by decide +kernel)
        (.cons (by decide +kernel) (.cons (by decide +kernel) .nil))))
    · exact .cons (by decide +kernel) (.cons (by decide +kernel) (.cons (by decide +kernel)
        (.cons (by decide +kernel) (.cons (by decide +kernel) .nil))))
  have hpoint : Box.Contains ⟨t.lb, t.ub⟩ [1, 5 / 2, 3, 0, 2, 0] := by
    rw [contains_iff h]
    exact .cons (by decide +kernel) (.cons (by decide +kernel) (.cons (by decide +kernel)
      (.cons (by decide +kernel) (.cons (by decide +kernel) (.cons (by decide +kernel) .nil)))))
  have hanchors : List.Forall₂ Variable.Anchors (mixedBounds.filter (·.kind.isIntegral))
      [1, 3, 0, 2, 0] :=
    .cons ⟨by decide +kernel, by decide +kernel⟩ (.cons ⟨by decide +kernel, by decide +kernel⟩
      (.cons ⟨by decide +kernel, by decide +kernel⟩ (.cons ⟨by decide +kernel, by decide +kernel⟩
        (.cons ⟨by decide +kernel, by decide +kernel⟩ .nil))))
  obtain ⟨goal, hgoal, -, hiff⟩ := projection_leastAt_iff ht horder hcandidate
  exact ⟨t, goal, ht, horder, hcandidate, hpoint, rfl, hanchors, hgoal,
    (hiff _ hpoint rfl).mpr hanchors⟩

/-- One integer variable between `1/2` and `5/2`. -/
def betweenHalves : List (Variable ExtRat) :=
  [{ index := 0, lb := .fin (1 / 2), ub := .fin (5 / 2), kind := .integer, cost := .fin 0 }]

/-- The candidate `1` is strictly inside the bounds, but it is the integral lower bound: the
projection onto it is drawn to `1/2`. -/
theorem projection_passes_candidate :
    ∃ t goal, Table.ofVariables betweenHalves = .ok t ∧ InOrder betweenHalves ∧
      Box.Contains ⟨t.intLb, t.intUb⟩ [1] ∧ Box.Contains ⟨t.lb, t.ub⟩ [1] ∧
      Box.Contains ⟨t.lb, t.ub⟩ [1 / 2] ∧ chosen betweenHalves [1] = ([1] : List ℚ) ∧
      Goal.projection t (fin 0) ([1].map fin) = .ok goal ∧
      goal.costAt ([1 / 2].map fin) < goal.costAt ([1].map fin) := by
  obtain ⟨t, ht⟩ : ∃ t, Table.ofVariables betweenHalves = .ok t :=
    Act.exists_ok_of_isOk (by decide +kernel)
  have h := Table.lists_of_ofVariables ht
  have horder : InOrder betweenHalves := rfl
  have hcandidate : Box.Contains ⟨t.intLb, t.intUb⟩ [1] := by
    rw [h.intLb_eq horder, h.intUb_eq horder]
    exact ⟨.cons (by decide +kernel) .nil, .cons (by decide +kernel) .nil⟩
  have hvalue : Box.Contains ⟨t.lb, t.ub⟩ [1] :=
    (contains_iff h).mpr (.cons (by decide +kernel) .nil)
  have hhalf : Box.Contains ⟨t.lb, t.ub⟩ [1 / 2] :=
    (contains_iff h).mpr (.cons (by decide +kernel) .nil)
  have hgoal := projection_eq h horder ((fin_le_fin 0 0).mpr (le_refl 0))
    (rfl : ([1] : List ℚ).length = betweenHalves.length)
  refine ⟨t, _, ht, horder, hcandidate, hvalue, hhalf, rfl, hgoal, ?_⟩
  rw [costAt_projection horder rfl rfl, costAt_projection horder rfl rfl]
  decide +kernel

end Projections

end MipPump
