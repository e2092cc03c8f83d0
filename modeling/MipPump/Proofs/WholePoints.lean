import MipPump.Proofs.Cells
import MipPump.Proofs.Draws
import MipPump.Proofs.Feasibility
import MipPump.Distance

/-!
# Rounding leaves whole points alone

At a point whose integer variables have integers inside their integral bounds, rounding has nothing
to do and the point converges.

* `Cell.Settled`: the value of a cell is an integer inside the integral bounds.
* `nearestPoint_of_settled`, `randomizedPoint_of_settled`: the values are their own roundings,
  whatever the tie break and the draws are.
* `check_of_settled`, `measure_of_chosen`, `isFeasible_of_relaxed`: the values are an admitted
  candidate at distance zero, and the point passes the check.
-/

namespace MipPump

open ExtRat

section Values

/-- The value of a cell is an integer inside the integral bounds. -/
structure Cell.Settled (c : Cell) : Prop where
  whole : ∃ n : ℤ, c.2 = n
  around : c.Around c.2

variable {lo hi : ExtRat} {q eps : ℚ}

theorem clampKeep_of_between (hlo : lo ≤ fin q) (hhi : fin q ≤ hi) :
    Arith.clampKeep lo hi (fin q) = fin q := by
  have hlower : ¬ fin q < lo := (not_lt_iff (fin_ne_nan q) (ne_nan_of_le hlo).1).mpr hlo
  have hupper : ¬ hi < fin q := (not_lt_iff (ne_nan_of_le hhi).2 (fin_ne_nan q)).mpr hhi
  have hnan : ∀ x : ExtRat, x ≠ nan → Arith.isNaN x = false := fun x hx => decide_eq_false hx
  unfold Arith.clampKeep
  rw [hnan lo (ne_nan_of_le hlo).1, hnan hi (ne_nan_of_le hhi).2]
  simp [hlower, hupper]

theorem clampBound_of_between (hlo : lo ≤ fin q) (hhi : fin q ≤ hi) :
    Arith.clampBound lo hi (fin q) = fin q := by
  have hlower : (if lo < fin q then fin q else lo) = fin q := by
    split
    · rfl
    · rename_i h
      cases lo <;> simp_all
      exact le_antisymm hlo h
  have hupper : (if fin q < hi then fin q else hi) = fin q := by
    split
    · rfl
    · rename_i h
      cases hi <;> simp_all
      exact le_antisymm h hhi
  unfold Arith.clampBound
  simp only [isNaN_fin, Bool.false_eq_true, if_false, hlower, hupper]

variable {n : ℤ}

theorem nearestValue_of_whole {clamp : ExtRat → ExtRat → ExtRat → ExtRat}
    (hclamp : clamp lo hi (fin n) = fin n) (heps : eps < 1 / 2) (tieBreak : TieBreak) :
    Rounding.nearestValue clamp tieBreak (fin eps) lo hi (fin n) = fin n := by
  have htie : ¬ Arith.abs (fin (0 - 1 / 2)) ≤ fin eps := by
    rw [abs_fin, fin_le_fin, not_le]
    norm_num
    exact heps
  have hhalf : ¬ fin (1 / 2 : ℚ) < fin 0 := by
    rw [fin_lt_fin]
    norm_num
  unfold Rounding.nearestValue
  rw [hclamp, ratio_eq 1 2 (by decide)]
  simp only [floor_fin, Rat.floor_intCast, fin_sub, sub_self, Nat.cast_one, Nat.cast_ofNat, htie,
    hhalf, if_false, hclamp]

theorem randomizedValue_of_whole (hlo : lo ≤ fin n) (hhi : fin n ≤ hi) (hpos : 0 < eps)
    (heps : eps < 1 / 2) (draw : ExtRat) :
    Rounding.randomizedValue (fin eps) lo hi (fin n) draw = fin n := by
  have hup : ¬ fin (1 - eps) ≤ fin 0 := by
    rw [fin_le_fin]
    linarith
  have hdown : fin 0 ≤ fin eps := (fin_le_fin 0 eps).mpr hpos.le
  have hclamp := clampBound_of_between hlo hhi
  unfold Rounding.randomizedValue
  rw [hclamp]
  simp only [floor_fin, Rat.floor_intCast, fin_sub, sub_self, one_eq, hup, hdown, if_false, if_true,
    Bool.false_eq_true, hclamp]

end Values

section Candidates

variable {vars : List (Variable ExtRat)} {t : Table ExtRat} {x : List ℚ} {eps : ℚ}

theorem integerValues_map_fin (h : t.Lists vars) (horder : InOrder vars)
    (hx : x.length = vars.length) :
    t.integerValues (x.map fin) = .ok ((chosen vars x).map fin) := by
  rw [h.integerValues_eq horder (by rw [List.length_map, hx]), chosen_map]

theorem nearestPoint_of_settled (h : t.Lists vars) (horder : InOrder vars)
    (hx : x.length = vars.length) (hsettled : ∀ c ∈ cellsOf vars x, c.Settled)
    (heps : eps < 1 / 2) (tieBreak : TieBreak) :
    Rounding.nearestPoint tieBreak (fin eps) t (x.map fin) = .ok ((chosen vars x).map fin) := by
  unfold Rounding.nearestPoint Rounding.nearest
  rw [Act.exceptBind_of_ok (integerValues_map_fin h horder hx), h.intLb_eq_cells horder hx,
    h.intUb_eq_cells horder hx, chosen_eq_cells hx, Act.exceptBind_of_ok (Vec.map2_map _ _ _ _),
    Vec.map2_map]
  refine congrArg Except.ok (List.map_congr_left fun c hc => ?_)
  obtain ⟨⟨n, hn⟩, hlo, hhi⟩ := hsettled c hc
  rw [hn] at hlo hhi ⊢
  exact nearestValue_of_whole (clampBound_of_between hlo hhi) heps tieBreak

/-- Draws do not matter for settled cells. -/
theorem zipWith_randomizedValue {cells : List Cell} (hsettled : ∀ c ∈ cells, c.Settled)
    (hpos : 0 < eps) (heps : eps < 1 / 2) {draws : List ExtRat}
    (hdraws : draws.length = cells.length) :
    List.zipWith
      (fun (b : ExtRat × ExtRat) (v : ExtRat × ExtRat) =>
        Rounding.randomizedValue (fin eps) b.1 b.2 v.1 v.2)
      ((cells.map fun c => Table.integralLower c.1.lb).zip
        (cells.map fun c => Table.integralUpper c.1.ub))
      ((cells.map fun c => fin c.2).zip draws) = cells.map fun c => fin c.2 := by
  induction cells generalizing draws with
  | nil => rfl
  | cons c cells ih =>
      cases draws with
      | nil => cases hdraws
      | cons draw draws =>
          obtain ⟨⟨n, hn⟩, hlo, hhi⟩ := hsettled c (List.mem_cons_self ..)
          have hrest := ih (fun c' hc' => hsettled c' (List.mem_cons_of_mem _ hc'))
            (by simpa using hdraws)
          rw [hn] at hlo hhi
          simp only [List.map_cons, List.zip_cons_cons, List.zipWith_cons_cons, hrest, hn,
            randomizedValue_of_whole hlo hhi hpos heps draw]

theorem randomizedPoint_of_settled (h : t.Lists vars) (horder : InOrder vars)
    (hx : x.length = vars.length) (hsettled : ∀ c ∈ cellsOf vars x, c.Settled)
    (hpos : 0 < eps) (heps : eps < 1 / 2) (hfits : (t.numIntegers : Int) < Progress.countLimit)
    (p : Progress ExtRat) :
    ∃ q, Rounding.randomizedPoint (fin eps) t (x.map fin) p =
      .ok ((chosen vars x).map fin) q := by
  have hlen : ((chosen vars x).map fin).length = t.numIntegers := by
    rw [List.length_map, length_chosen hx, h.numIntegers_eq]
  rw [← hlen] at hfits
  obtain ⟨draws, q, hdraw, hdraws⟩ :=
    Progress.drawMany_of_fits p (R := ExtRat) Random.Generator.unit hfits
  unfold Rounding.randomizedPoint
  rw [Act.ofExcept_bind (integerValues_map_fin h horder hx)]
  unfold Progress.drawUnits
  rw [Act.bind_of_ok hdraw, h.intLb_eq_cells horder hx, h.intUb_eq_cells horder hx]
  rw [chosen_eq_cells hx, List.length_map] at hdraws
  refine ⟨q, ?_⟩
  rw [chosen_eq_cells hx, Act.pure_apply, zipWith_randomizedValue hsettled hpos heps hdraws]

theorem check_of_settled (h : t.Lists vars) (horder : InOrder vars) (hx : x.length = vars.length)
    (hsettled : ∀ c ∈ cellsOf vars x, c.Settled) :
    t.check ((chosen vars x).map fin) = .ok () := by
  have hlen : (cellsOf vars x).length = t.numIntegers := by
    rw [h.numIntegers_eq, length_cellsOf hx]
  rw [chosen_eq_cells hx]
  refine check_iff.mpr ⟨by rw [List.length_map, hlen], fun y hy => ?_, fun y lb hy => ?_,
    fun y ub hy => ?_⟩
  · obtain ⟨c, hc, rfl⟩ := List.mem_map.mp hy
    obtain ⟨⟨n, hn⟩, -⟩ := hsettled c hc
    exact beq_rint_of_whole ⟨n, by rw [hn]⟩
  · rw [h.intLb_eq_cells horder hx, List.zip_map'] at hy
    obtain ⟨c, hc, heq⟩ := List.mem_map.mp hy
    cases heq
    exact (hsettled c hc).around.1
  · rw [h.intUb_eq_cells horder hx, List.zip_map'] at hy
    obtain ⟨c, hc, heq⟩ := List.mem_map.mp hy
    cases heq
    exact (hsettled c hc).around.2

/-- A point has distance zero from its own values. -/
theorem measure_of_chosen (h : t.Lists vars) (horder : InOrder vars) (hx : x.length = vars.length)
    (hpos : 0 < eps) :
    ∃ d, Distance.measure t (fin eps) (x.map fin) ((chosen vars x).map fin) = .ok d ∧
      d.isZero = true := by
  have hdifference : ∀ q : ℚ, Distance.difference (fin eps) (fin q) (fin q) = fin 0 := by
    intro q
    unfold Distance.difference
    simp [hpos.le]
  have hdifferences : (Vec.map2 (Distance.difference (fin eps)) ((chosen vars x).map fin)
      ((chosen vars x).map fin) : Except (Fault ExtRat) _) =
      .ok ((cellsOf vars x).map fun _ => fin 0) := by
    rw [chosen_eq_cells hx, Vec.map2_map]
    simp only [hdifference]
  let signs : List ExtRat := ((cellsOf vars x).map fun _ => fin 0).map Arith.sign
  have hplace : (Vec.place (Vec.zeros t.numVars) t.integers signs : Except (Fault ExtRat) _) =
      .ok (updated vars (signs.map some) (Vec.zeros t.numVars)) :=
    h.place_eq horder (by simp [Vec.zeros, h.numVars_eq])
      (by simp [signs, length_cellsOf hx, h.numIntegers_eq])
  have hsum : Vec.pairedSum (((cellsOf vars x).map fun _ => fin 0).map Arith.abs) = fin 0 := by
    have hzeros : (((cellsOf vars x).map fun _ => fin 0).map Arith.abs) =
        (((cellsOf vars x).map fun _ => (0 : ℚ)).map fin) := by simp
    rw [hzeros, pairedSum_map_fin]
    simp
  unfold Distance.measure
  rw [Act.exceptBind_of_ok (integerValues_map_fin h horder hx), Act.exceptBind_of_ok hdifferences]
  dsimp only
  rw [Act.exceptBind_of_ok hplace]
  refine ⟨_, rfl, ?_⟩
  unfold Distance.isZero
  dsimp only
  rw [hsum]
  rfl

theorem fullPoint_of_chosen (h : t.Lists vars) (horder : InOrder vars)
    (hx : x.length = vars.length) :
    t.fullPoint (x.map fin) ((chosen vars x).map fin) = .ok (x.map fin) := by
  unfold Table.fullPoint
  rw [h.place_eq horder (by rw [List.length_map, hx])
    (by rw [List.length_map, length_chosen hx, h.numIntegers_eq]), ← chosen_map, updated_chosen]

end Candidates

section Feasibility

variable {p : Problem ExtRat} {box : Box ExtRat} {x : List ℚ} {eps : ℚ}

theorem Variable.admits_of_between {v : Variable ExtRat} {q : ℚ} (hlo : v.lb ≤ fin q)
    (hhi : fin q ≤ v.ub) (hwhole : v.kind.isIntegral = true → ∃ n : ℤ, q = n) (hpos : 0 < eps) :
    v.admits (fin eps) (fin q) = .ok true := by
  have hlower : ¬ fin q < v.lb - fin eps := by
    cases hl : v.lb with
    | fin l =>
        rw [hl, fin_le_fin] at hlo
        rw [fin_sub, fin_lt_fin]
        linarith
    | negInf => exact not_lt_negInf_sub _ _
    | posInf => exact absurd (hl ▸ hlo) (not_posInf_le_fin q)
    | nan => exact absurd (hl ▸ hlo) not_nan_le
  have hupper : ¬ v.ub + fin eps < fin q := by
    cases hu : v.ub with
    | fin u =>
        rw [hu, fin_le_fin] at hhi
        rw [fin_add, fin_lt_fin]
        linarith
    | posInf => exact not_posInf_add_lt _ _
    | negInf => exact absurd (hu ▸ hhi) (not_fin_le_negInf q)
    | nan => exact absurd (hu ▸ hhi) not_le_nan
  unfold admits
  rw [if_neg (by simp [hlower, hupper])]
  by_cases hv : v.kind.isIntegral = true
  · obtain ⟨n, rfl⟩ := hwhole hv
    rw [if_pos hv]
    unfold integralityGap
    rw [isNaN_fin, isInf_fin, if_neg Bool.false_ne_true, if_neg Bool.false_ne_true, rint_fin,
      rintRat_intCast, fin_sub, sub_self, abs_fin, abs_zero]
    simp [Except.map, hpos.le]
  · rw [if_neg hv]

/-- A point of the relaxation with integers for the integer variables passes the check. -/
theorem isFeasible_of_relaxed (horder : InOrder p.vars) (hwithin : box.Within p.vars)
    (hx : p.Relaxed box x)
    (hwhole : ∀ v q, (v, q) ∈ p.vars.zip x → v.kind.isIntegral = true → ∃ n : ℤ, q = n)
    (hpos : 0 < eps) : p.isFeasible (fin eps) (x.map fin) = .ok true := by
  have hadmitted : allAdmit (fin eps) (x.map fin) p.vars = .ok true := by
    refine allAdmit_of_admits fun v hv => ?_
    obtain ⟨q, hq⟩ : ∃ q, (v, q) ∈ p.vars.zip x := by
      obtain ⟨i, hi, rfl⟩ := List.getElem_of_mem hv
      have hi' : i < x.length := by rw [hx.length]; exact hi
      exact ⟨x[i], List.mem_iff_getElem.mpr ⟨i, by simp [hi, hi'], by simp⟩⟩
    have hentry : (v, fin q) ∈ p.vars.zip (x.map fin) := by
      rw [List.zip_map_right]
      exact List.mem_map.mpr ⟨(v, q), hq, rfl⟩
    obtain ⟨hlo, hhi⟩ := hwithin.bounds hx.inside v q hq
    exact ⟨fin q, at?_of_mem_zip horder hentry,
      Variable.admits_of_between hlo hhi (hwhole v q hq) hpos⟩
  have hdot : ∀ (i : Nat) row, p.rows.coefficients[i]? = some row → ∃ (a : ℚ) (s : Sense) (b : ExtRat),
      Vec.dot row (x.map fin) = .ok (fin a) ∧ p.rows.senses[i]? = some s ∧
        p.rows.rhs[i]? = some b ∧ s.Relates a b := by
    intro i row hrow
    obtain ⟨a, s, b, rfl, hlen, hs, hb, hrelates⟩ := hx.rows i row hrow
    exact ⟨dotRat a x, s, b, dot_map_fin a x hlen, hs, hb, hrelates⟩
  obtain ⟨activities, hactivities⟩ : ∃ activities, p.rows.activities (x.map fin) = .ok activities := by
    refine Vec.exists_mapM fun row hrow => ?_
    obtain ⟨i, hi⟩ := List.mem_iff_getElem?.mp hrow
    obtain ⟨a, -, -, ha, -⟩ := hdot i row hi
    exact ⟨fin a, ha⟩
  have hhold : allHold (fin eps) activities p.rows.rhs p.rows.senses = .ok true := by
    refine allHold_of_holds fun i y hy => ?_
    have hall := Vec.mapM_eq_ok.mp hactivities
    obtain ⟨hi, rfl⟩ := List.getElem?_eq_some_iff.mp hy
    have hi' : i < p.rows.coefficients.length := by rw [hall.length_eq]; exact hi
    obtain ⟨a, s, b, ha, hs, hb, hrelates⟩ :=
      hdot i p.rows.coefficients[i] (List.getElem?_eq_getElem hi')
    have hya := (List.forall₂_iff_get.mp hall).2 i hi' hi
    simp only [List.get_eq_getElem] at hya
    rw [ha] at hya
    rw [← Except.ok.inj hya]
    exact ⟨b, s, hb, hs, Sense.holds_of_relates hrelates hpos⟩
  unfold Problem.isFeasible
  rw [Act.exceptBind_of_ok hadmitted, if_pos rfl]
  split
  · rfl
  · rw [Act.exceptBind_of_ok hactivities]
    exact hhold

end Feasibility

end MipPump
