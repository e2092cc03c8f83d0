import MipPump.Proofs.Relaxations

/-!
# Cells

A cell is an integer variable with its value at a point.  All columns of integer variables that a
projection or a rounding works with are columns of the cells of one point: the indices, the integral
bounds and the values.

* `integers_eq_cells`, `intLb_eq_cells`, `intUb_eq_cells`, `chosen_eq_cells`: these columns.
* `around_of_relaxed`: points of the relaxation are inside the integral bounds.
-/

namespace MipPump

open ExtRat

section Columns

/-- An integer variable with its value. -/
abbrev Cell := Variable ExtRat × ℚ

/-- The integer variables with their values at a point. -/
def cellsOf (vars : List (Variable ExtRat)) (y : List ℚ) : List Cell :=
  (vars.filter (·.kind.isIntegral)).zip (chosen vars y)

variable {vars : List (Variable ExtRat)} {t : Table ExtRat} {y : List ℚ}

theorem map_fst_cellsOf (hy : y.length = vars.length) :
    (cellsOf vars y).map (·.1) = vars.filter (·.kind.isIntegral) :=
  List.map_fst_zip (Nat.le_of_eq (length_chosen hy).symm)

theorem map_snd_cellsOf (hy : y.length = vars.length) :
    (cellsOf vars y).map (·.2) = chosen vars y :=
  List.map_snd_zip (Nat.le_of_eq (length_chosen hy))

theorem length_cellsOf (hy : y.length = vars.length) :
    (cellsOf vars y).length = (vars.filter (·.kind.isIntegral)).length := by
  rw [← map_fst_cellsOf hy, List.length_map]

theorem Table.Lists.integers_eq_cells (h : t.Lists vars) (hy : y.length = vars.length) :
    t.integers = (cellsOf vars y).map (·.1.index) := by
  rw [h.integers, ← map_fst_cellsOf hy, List.map_map]
  rfl

theorem Table.Lists.intLb_eq_cells (h : t.Lists vars) (horder : InOrder vars)
    (hy : y.length = vars.length) :
    t.intLb = (cellsOf vars y).map fun c => integralLower c.1.lb := by
  rw [h.intLb_eq horder, ← map_fst_cellsOf hy, List.map_map]
  rfl

theorem Table.Lists.intUb_eq_cells (h : t.Lists vars) (horder : InOrder vars)
    (hy : y.length = vars.length) :
    t.intUb = (cellsOf vars y).map fun c => integralUpper c.1.ub := by
  rw [h.intUb_eq horder, ← map_fst_cellsOf hy, List.map_map]
  rfl

theorem chosen_eq_cells (hy : y.length = vars.length) :
    (chosen vars y).map fin = (cellsOf vars y).map fun c => fin c.2 := by
  rw [← map_snd_cellsOf hy, List.map_map]
  rfl

end Columns

section Bounds

/-- The integral bounds of the variable are around `q`. -/
def Cell.Around (c : Cell) (q : ℚ) : Prop :=
  Table.integralLower c.1.lb ≤ fin q ∧ fin q ≤ Table.integralUpper c.1.ub

variable {p : Problem ExtRat} {box : Box ExtRat} {y z : List ℚ}

/-- Integral bounds are those in which values are rounded. -/
theorem integralLower_eq {l : ExtRat} (h : Whole l ∨ Arith.isInf l = true) :
    Table.integralLower l = l := by
  have htenth : (Arith.tenth 9 : ExtRat) = fin (1 / 10 ^ 9) := by decide +kernel
  unfold Table.integralLower
  rw [htenth]
  rcases h with ⟨n, rfl⟩ | h
  · have hle : ((n : ℚ) - 1 / 10 ^ 9).ceil ≤ n := Rat.ceil_le_iff.mpr (by norm_num)
    have hlt : n - 1 < ((n : ℚ) - 1 / 10 ^ 9).ceil := Rat.lt_ceil_iff.mpr (by norm_num)
    have hceil : ((n : ℚ) - 1 / 10 ^ 9).ceil = n := by omega
    rw [fin_sub, ceil_fin, hceil]
  · cases l with
    | fin q => cases h
    | nan => cases h
    | negInf => rfl
    | posInf => rfl

theorem integralUpper_eq {u : ExtRat} (h : Whole u ∨ Arith.isInf u = true) :
    Table.integralUpper u = u := by
  have htenth : (Arith.tenth 9 : ExtRat) = fin (1 / 10 ^ 9) := by decide +kernel
  unfold Table.integralUpper
  rw [htenth]
  rcases h with ⟨n, rfl⟩ | h
  · have hle : n ≤ ((n : ℚ) + 1 / 10 ^ 9).floor := Rat.le_floor_iff.mpr (by norm_num)
    have hlt : ((n : ℚ) + 1 / 10 ^ 9).floor < n + 1 := Rat.floor_lt_iff.mpr (by norm_num)
    have hfloor : ((n : ℚ) + 1 / 10 ^ 9).floor = n := by omega
    rw [fin_add, floor_fin, hfloor]
  · cases u with
    | fin q => cases h
    | nan => cases h
    | negInf => rfl
    | posInf => rfl

/-- The integer variables of a point of the relaxation are inside their integral bounds. -/
theorem around_of_relaxed (hbounds : ∀ v ∈ p.vars, v.kind.isIntegral = true → v.IntegralBounds)
    (hwithin : box.Within p.vars) (hy : y.length = p.vars.length) (hz : p.Relaxed box z) :
    List.Forall₂ Cell.Around (cellsOf p.vars y) (chosen p.vars z) := by
  have hints : List.Forall₂ (fun (v : Variable ExtRat) q =>
      Table.integralLower v.lb ≤ fin q ∧ fin q ≤ Table.integralUpper v.ub)
      (p.vars.filter (·.kind.isIntegral)) (chosen p.vars z) := by
    refine List.forall₂_iff_zip.mpr ⟨(length_chosen hz.length).symm, ?_⟩
    intro v q hmem
    rw [← zip_chosen, List.mem_filter] at hmem
    obtain ⟨hl, hu⟩ := hwithin.bounds hz.inside v q hmem.1
    obtain ⟨hlower, hupper⟩ := hbounds v (List.of_mem_zip hmem.1).1 hmem.2
    rw [integralLower_eq hlower, integralUpper_eq hupper]
    exact ⟨hl, hu⟩
  rw [← map_fst_cellsOf hy, List.forall₂_map_left_iff] at hints
  exact hints

end Bounds

end MipPump
