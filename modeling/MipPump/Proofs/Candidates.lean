import MipPump.Proofs.CoherentProblems
import MipPump.Proofs.WholePoints
import MipPump.Proofs.WholeTargets
import MipPump.Rounding.Randomized

/-!
# Roundings are candidates

A finite point is rounded into integral bounds that are in order, so every rounding is a value that
its variable may take, and a vector of such values is a candidate.

* `Variable.Takes v x`: the variable may take the value.
* `check_iff_forall₂`, `check_of_takes`: what the check of candidates admits, and that it admits such
  values.
* `exists_nearestPoint`, `exists_randomizedPoint`: the two roundings that do not propagate.
* `Distance.gaps_of_measure`: a distance is the sum of the displacements of its entries.
-/

namespace MipPump

open ExtRat

/-- The variable may take the value: it is no fraction and inside the bounds. -/
structure Variable.Takes (v : Variable ExtRat) (x : ExtRat) : Prop where
  whole : NoFraction x
  lower : v.lb ≤ x
  upper : x ≤ v.ub

section Clamps

variable {lo hi x : ExtRat}

theorem noFraction_of_integral (h : Whole x ∨ Arith.isInf x = true) : NoFraction x := by
  rcases h with ⟨n, rfl⟩ | hinf
  · exact noFraction_intCast n
  · rintro q rfl
    cases hinf

theorem integral_of_noFraction (h : NoFraction x) (hx : x ≠ nan) :
    Whole x ∨ Arith.isInf x = true := by
  cases x with
  | fin q =>
      obtain ⟨n, rfl⟩ := h q rfl
      exact .inl ⟨n, rfl⟩
  | nan => exact absurd rfl hx
  | _ => exact .inr rfl

theorem beq_rint_of_noFraction (h : NoFraction x) (hx : x ≠ nan) : (x == Arith.rint x) = true := by
  cases x with
  | fin q =>
      obtain ⟨n, rfl⟩ := h q rfl
      exact beq_rint_of_whole ⟨n, rfl⟩
  | nan => exact absurd rfl hx
  | negInf => rfl
  | posInf => rfl

theorem floor_ne_nan (hx : x ≠ nan) : Arith.floor x ≠ nan := by
  cases x with
  | nan => exact absurd rfl hx
  | _ => nofun

theorem isNaN_eq_false (hx : x ≠ nan) : Arith.isNaN x = false := decide_eq_false hx

theorem clampBound_between (h : lo ≤ hi) (hx : x ≠ nan) :
    lo ≤ Arith.clampBound lo hi x ∧ Arith.clampBound lo hi x ≤ hi := by
  obtain ⟨hlo, hhi⟩ := ne_nan_of_le h
  unfold Arith.clampBound
  rw [isNaN_eq_false hx, if_neg Bool.false_ne_true]
  dsimp only
  have hraised : lo ≤ if lo < x then x else lo := by
    split
    · exact le_of_lt ‹_›
    · exact ExtRat.le_refl hlo
  generalize (if lo < x then x else lo) = y at hraised
  rw [isNaN_eq_false (ne_nan_of_le hraised).2, if_neg Bool.false_ne_true]
  split
  · exact ⟨hraised, le_of_lt ‹_›⟩
  · exact ⟨h, ExtRat.le_refl hhi⟩

theorem clampKeep_between (h : lo ≤ hi) (hx : x ≠ nan) :
    lo ≤ Arith.clampKeep lo hi x ∧ Arith.clampKeep lo hi x ≤ hi := by
  obtain ⟨hlo, hhi⟩ := ne_nan_of_le h
  unfold Arith.clampKeep
  rw [isNaN_eq_false hlo, isNaN_eq_false hhi, if_neg Bool.false_ne_true,
    if_neg Bool.false_ne_true]
  dsimp only
  have hraised : lo ≤ if x < lo then lo else x := by
    split
    · exact ExtRat.le_refl hlo
    · exact (not_lt_iff hx hlo).mp ‹_›
  generalize (if x < lo then lo else x) = y at hraised
  split
  · exact ⟨h, ExtRat.le_refl hhi⟩
  · exact ⟨hraised, (not_lt_iff hhi (ne_nan_of_le hraised).2).mp ‹_›⟩

theorem noFraction_clampKeep (hlo : NoFraction lo) (hhi : NoFraction hi) (hx : NoFraction x) :
    NoFraction (Arith.clampKeep lo hi x) := by
  unfold Arith.clampKeep
  dsimp only
  split_ifs
  all_goals first | exact hlo | exact hhi | exact hx

end Clamps

section Values

variable {lo hi x : ExtRat}

/-- A value that is rounded to the nearest integer stays inside bounds that are no fractions. -/
theorem nearestValue_between {clamp : ExtRat → ExtRat → ExtRat → ExtRat}
    (hclamp : ∀ y, y ≠ nan → lo ≤ clamp lo hi y ∧ clamp lo hi y ≤ hi)
    (hwhole : ∀ y, NoFraction y → NoFraction (clamp lo hi y)) (tieBreak : TieBreak)
    (eps : ExtRat) (hx : x ≠ nan) :
    NoFraction (Rounding.nearestValue clamp tieBreak eps lo hi x) ∧
      lo ≤ Rounding.nearestValue clamp tieBreak eps lo hi x ∧
      Rounding.nearestValue clamp tieBreak eps lo hi x ≤ hi := by
  have hy : clamp lo hi x ≠ nan := (ne_nan_of_le (hclamp x hx).1).2
  unfold Rounding.nearestValue
  dsimp only
  generalize clamp lo hi x = y at hy
  have hdown : NoFraction (Arith.floor y) ∧ Arith.floor y ≠ nan :=
    ⟨noFraction_floor y, floor_ne_nan hy⟩
  have hup : NoFraction (Arith.floor y + 1) ∧ Arith.floor y + 1 ≠ nan :=
    ⟨hdown.1.add (noFraction_intCast 1), add_fin_ne_nan hdown.2 1⟩
  have hclamped {z : ExtRat} (hz : NoFraction z ∧ z ≠ nan) :
      NoFraction (clamp lo hi z) ∧ lo ≤ clamp lo hi z ∧ clamp lo hi z ≤ hi :=
    ⟨hwhole z hz.1, hclamp z hz.2⟩
  split_ifs
  all_goals first | exact hclamped hup | exact hclamped hdown

/-- The same of a value that is rounded by a draw, whatever is drawn. -/
theorem randomizedValue_between (h : lo ≤ hi) (hlo : NoFraction lo) (hhi : NoFraction hi)
    (hx : x ≠ nan) (eps draw : ExtRat) :
    NoFraction (Rounding.randomizedValue eps lo hi x draw) ∧
      lo ≤ Rounding.randomizedValue eps lo hi x draw ∧
      Rounding.randomizedValue eps lo hi x draw ≤ hi := by
  have hy : Arith.clampBound lo hi x ≠ nan := (ne_nan_of_le (clampBound_between h hx).1).2
  unfold Rounding.randomizedValue
  dsimp only
  generalize Arith.clampBound lo hi x = y at hy
  have hdown : NoFraction (Arith.floor y) ∧ Arith.floor y ≠ nan :=
    ⟨noFraction_floor y, floor_ne_nan hy⟩
  have hup : NoFraction (Arith.floor y + 1) ∧ Arith.floor y + 1 ≠ nan :=
    ⟨hdown.1.add (noFraction_intCast 1), add_fin_ne_nan hdown.2 1⟩
  have hclamped {z : ExtRat} (hz : NoFraction z ∧ z ≠ nan) :
      NoFraction (Arith.clampBound lo hi z) ∧ lo ≤ Arith.clampBound lo hi z ∧
        Arith.clampBound lo hi z ≤ hi := ⟨kind_clampBound hlo hhi hz.1, clampBound_between h hz.2⟩
  generalize (if 1 - eps ≤ y - Arith.floor y then true
    else if y - Arith.floor y ≤ eps then false else decide (draw < y - Arith.floor y)) = up
  cases up with
  | true => exact hclamped hup
  | false => exact hclamped hdown

end Values

section Lists

variable {α β γ δ : Type}

theorem exists_of_mem_zip_map {r : α → β → Prop} {vs : List α} {xs : List β}
    (h : List.Forall₂ r vs xs) {g : α → γ} {x : β} {y : γ} (hmem : (x, y) ∈ xs.zip (vs.map g)) :
    ∃ v, r v x ∧ g v = y := by
  induction h with
  | nil => cases hmem
  | cons hvx _ ih =>
      rw [List.map_cons, List.zip_cons_cons] at hmem
      rcases List.mem_cons.mp hmem with heq | hmem
      · cases heq
        exact ⟨_, hvx, rfl⟩
      · exact ih hmem

theorem forall₂_zipWith_map {r : α → γ → Prop} {f : β → δ → γ} {g : α → δ} {vs : List α}
    {xs : List β} (hlen : xs.length = vs.length) (h : ∀ v ∈ vs, ∀ x ∈ xs, r v (f x (g v))) :
    List.Forall₂ r vs (List.zipWith f xs (vs.map g)) := by
  induction vs generalizing xs with
  | nil =>
      obtain rfl := List.length_eq_zero_iff.mp hlen
      exact .nil
  | cons v vs ih =>
      cases xs with
      | nil => cases hlen
      | cons x xs =>
          exact .cons (h v (List.mem_cons_self ..) x (List.mem_cons_self ..))
            (ih (by simpa using hlen) fun w hw y hy =>
              h w (List.mem_cons_of_mem _ hw) y (List.mem_cons_of_mem _ hy))

end Lists

section Points

variable {vars : List (Variable ExtRat)} {t : Table ExtRat} {x : List ℚ}

theorem Table.Lists.intLb_of_integral (h : t.Lists vars) (horder : InOrder vars)
    (hbounds : ∀ v ∈ vars, v.kind.isIntegral = true → v.IntegralBounds) :
    t.intLb = (vars.filter (·.kind.isIntegral)).map (·.lb) := by
  rw [h.intLb_eq horder]
  refine List.map_congr_left fun v hv => ?_
  obtain ⟨hmem, hint⟩ := List.mem_filter.mp hv
  exact integralLower_eq (hbounds v hmem hint).1

theorem Table.Lists.intUb_of_integral (h : t.Lists vars) (horder : InOrder vars)
    (hbounds : ∀ v ∈ vars, v.kind.isIntegral = true → v.IntegralBounds) :
    t.intUb = (vars.filter (·.kind.isIntegral)).map (·.ub) := by
  rw [h.intUb_eq horder]
  refine List.map_congr_left fun v hv => ?_
  obtain ⟨hmem, hint⟩ := List.mem_filter.mp hv
  exact integralUpper_eq (hbounds v hmem hint).2

/-- A candidate is a vector of whole values, one for each integer variable, inside its integral
bounds. -/
theorem check_iff_forall₂ (h : t.Lists vars) (horder : InOrder vars) {candidate : List ExtRat} :
    t.check candidate = .ok () ↔ List.Forall₂ (fun v y => (y == Arith.rint y) = true ∧
      Table.integralLower v.lb ≤ y ∧ y ≤ Table.integralUpper v.ub)
      (vars.filter (·.kind.isIntegral)) candidate := by
  rw [check_iff, h.numIntegers_eq, h.intLb_eq horder, h.intUb_eq horder]
  constructor
  · rintro ⟨hlen, hwhole, hlower, hupper⟩
    refine List.forall₂_iff_get.mpr ⟨hlen.symm, fun i hi hi' => ⟨?_, ?_, ?_⟩⟩
    · exact hwhole _ (List.getElem_mem hi')
    · exact hlower _ _ (List.mem_iff_getElem.mpr ⟨i, by simp [hi, hi'], by simp⟩)
    · exact hupper _ _ (List.mem_iff_getElem.mpr ⟨i, by simp [hi, hi'], by simp⟩)
  · intro hall
    refine ⟨hall.length_eq.symm, fun y hy => ?_, fun y lb hy => ?_, fun y ub hy => ?_⟩
    · obtain ⟨v, -, hv⟩ := Vec.exists_of_mem_left hall.flip hy
      exact hv.1
    · obtain ⟨v, hv, rfl⟩ := exists_of_mem_zip_map hall hy
      exact hv.2.1
    · obtain ⟨v, hv, rfl⟩ := exists_of_mem_zip_map hall hy
      exact hv.2.2

/-- Values that the integer variables may take are a candidate. -/
theorem check_of_takes (h : t.Lists vars) (horder : InOrder vars)
    (hbounds : ∀ v ∈ vars, v.kind.isIntegral = true → v.IntegralBounds)
    {candidate : List ExtRat}
    (htakes : List.Forall₂ Variable.Takes (vars.filter (·.kind.isIntegral)) candidate) :
    t.check candidate = .ok () := by
  have hmem : ∀ v ∈ vars.filter (·.kind.isIntegral), v.IntegralBounds := fun v hv =>
    hbounds v (List.mem_filter.mp hv).1 (List.mem_filter.mp hv).2
  refine (check_iff_forall₂ h horder).mpr
    (((List.forall₂_and_left _ _).mpr ⟨hmem, htakes⟩).imp fun v y hv => ?_)
  obtain ⟨hintegral, htake⟩ := hv
  rw [integralLower_eq hintegral.1, integralUpper_eq hintegral.2]
  exact ⟨beq_rint_of_noFraction htake.whole (ne_nan_of_le htake.lower).2, htake.lower, htake.upper⟩

/-- The values of a finite point are numbers. -/
theorem ne_nan_of_mem_chosen {y : ExtRat} (hy : y ∈ (chosen vars x).map fin) : y ≠ nan := by
  obtain ⟨q, -, rfl⟩ := List.mem_map.mp hy
  exact fin_ne_nan q

/-- Rounding to the nearest integers makes a candidate of a finite point. -/
theorem exists_nearestPoint (h : t.Lists vars) (horder : InOrder vars)
    (hbounds : ∀ v ∈ vars, v.kind.isIntegral = true → v.IntegralBounds)
    (hordered : ∀ v ∈ vars, v.lb ≤ v.ub) (hx : x.length = vars.length) (tieBreak : TieBreak)
    (eps : ExtRat) :
    ∃ candidate, Rounding.nearestPoint tieBreak eps t (x.map fin) = .ok candidate ∧
      List.Forall₂ Variable.Takes (vars.filter (·.kind.isIntegral)) candidate := by
  have hlen : ((chosen vars x).map fin).length =
      (vars.filter (·.kind.isIntegral)).length := by rw [List.length_map, length_chosen hx]
  have hround : ∀ v ∈ vars.filter (·.kind.isIntegral), ∀ y ∈ (chosen vars x).map fin,
      v.Takes (Rounding.nearestValue Arith.clampBound tieBreak eps v.lb v.ub y) := by
    intro v hv y hy
    obtain ⟨hmem, hint⟩ := List.mem_filter.mp hv
    obtain ⟨hlower, hupper⟩ := hbounds v hmem hint
    obtain ⟨hwhole, hlo, hhi⟩ := nearestValue_between
      (fun z hz => clampBound_between (hordered v hmem) hz)
      (fun z hz => kind_clampBound (noFraction_of_integral hlower) (noFraction_of_integral hupper) hz)
      tieBreak eps (ne_nan_of_mem_chosen hy)
    exact ⟨hwhole, hlo, hhi⟩
  unfold Rounding.nearestPoint Rounding.nearest
  rw [Act.exceptBind_of_ok (integerValues_map_fin h horder hx),
    h.intLb_of_integral horder hbounds, h.intUb_of_integral horder hbounds,
    Act.exceptBind_of_ok (Vec.map2_map _ _ _ _)]
  exact ⟨_, Vec.map2_of_length _ (by rw [hlen, List.length_map]), forall₂_zipWith_map hlen hround⟩

/-- Rounding by draws makes a candidate of a finite point, whatever is drawn. -/
theorem exists_randomizedPoint (h : t.Lists vars) (horder : InOrder vars)
    (hfew : (vars.length : Int) < Progress.countLimit)
    (hbounds : ∀ v ∈ vars, v.kind.isIntegral = true → v.IntegralBounds)
    (hordered : ∀ v ∈ vars, v.lb ≤ v.ub) (hx : x.length = vars.length) (eps : ExtRat)
    (p : Progress ExtRat) :
    ∃ candidate q, Rounding.randomizedPoint eps t (x.map fin) p = .ok candidate q ∧
      List.Forall₂ Variable.Takes (vars.filter (·.kind.isIntegral)) candidate := by
  have hlen : ((chosen vars x).map fin).length = t.numIntegers := by
    rw [List.length_map, length_chosen hx, h.numIntegers_eq]
  have hfits : ((((chosen vars x).map fin).length : Nat) : Int) < Progress.countLimit := by
    have hle := h.numIntegers_le
    omega
  obtain ⟨draws, q, hdraw, hdraws⟩ :=
    Progress.drawMany_of_fits p (R := ExtRat) Random.Generator.unit hfits
  rw [hlen, h.numIntegers_eq] at hdraws
  rw [h.numIntegers_eq] at hlen
  have hpairs : (((chosen vars x).map fin).zip draws).length =
      (vars.filter (·.kind.isIntegral)).length := by
    rw [List.length_zip, hlen, hdraws, min_self]
  have hround : ∀ v ∈ vars.filter (·.kind.isIntegral), ∀ y ∈ ((chosen vars x).map fin).zip draws,
      v.Takes (Rounding.randomizedValue eps v.lb v.ub y.1 y.2) := by
    intro v hv y hy
    obtain ⟨hmem, hint⟩ := List.mem_filter.mp hv
    obtain ⟨hlower, hupper⟩ := hbounds v hmem hint
    obtain ⟨hwhole, hlo, hhi⟩ := randomizedValue_between (hordered v hmem)
      (noFraction_of_integral hlower) (noFraction_of_integral hupper)
      (ne_nan_of_mem_chosen (List.of_mem_zip hy).1) eps y.2
    exact ⟨hwhole, hlo, hhi⟩
  have htakes : List.Forall₂ Variable.Takes (vars.filter (·.kind.isIntegral))
      (List.zipWith (fun y b => Rounding.randomizedValue eps b.1 b.2 y.1 y.2)
        (((chosen vars x).map fin).zip draws)
        ((vars.filter (·.kind.isIntegral)).map fun v => (v.lb, v.ub))) :=
    forall₂_zipWith_map hpairs hround
  unfold Rounding.randomizedPoint
  rw [Act.ofExcept_bind (integerValues_map_fin h horder hx)]
  unfold Progress.drawUnits
  rw [Act.bind_of_ok hdraw, h.intLb_of_integral horder hbounds,
    h.intUb_of_integral horder hbounds, List.zip_map', List.zipWith_comm]
  exact ⟨_, q, rfl, htakes⟩

end Points

section Gaps

variable {R : Type} [Arith R] {t : Table R} {eps : R} {point candidate : List R} {d : Distance R}

/-- A distance is the sum of the displacements of its entries. -/
theorem Distance.gaps_of_measure (hcandidate : candidate.length = t.numIntegers)
    (h : Distance.measure t eps point candidate = .ok d) :
    d.value = Vec.pairedSum d.gaps ∧ (∀ g ∈ d.gaps, ∃ z : R, g = Arith.abs z) ∧
      ∀ w ∈ t.integers.zip candidate, ∃ x, Vec.at? point w.1 = some x ∧
        Arith.abs (Distance.difference eps x w.2) ∈ d.gaps := by
  unfold Distance.measure at h
  obtain ⟨values, hvalues, h⟩ := Act.exceptBind_eq_ok.mp h
  have hlen : values.length = candidate.length :=
    (Vec.length_of_pick hvalues).trans hcandidate.symm
  rw [Act.exceptBind_of_ok (Vec.map2_of_length _ hlen)] at h
  obtain ⟨weights, -, hd⟩ := Act.exceptBind_eq_ok.mp h
  cases hd
  refine ⟨rfl, fun g hg => ?_, fun ⟨j, y⟩ hw => ?_⟩
  · obtain ⟨z, -, rfl⟩ := List.mem_map.mp hg
    exact ⟨z, rfl⟩
  · obtain ⟨k, hk⟩ := List.mem_iff_getElem?.mp hw
    obtain ⟨hj, hy⟩ := List.getElem?_zip_eq_some.mp hk
    obtain ⟨x, hx, hat⟩ := Vec.forall₂_getElem? (Vec.pick_eq_ok.mp hvalues) hj
    exact ⟨x, hat, List.mem_map_of_mem (List.mem_of_getElem?
      (List.getElem?_zipWith_eq_some.mpr ⟨x, y, hx, hy, rfl⟩))⟩

end Gaps

section FullPoints

variable {vars : List (Variable ExtRat)} {t : Table ExtRat} {x : List ℚ}

/-- A finite point with the values of a finite candidate is finite. -/
theorem exists_fullPoint_fin (h : t.Lists vars) (horder : InOrder vars)
    (hx : x.length = vars.length) {c : List ℚ} (hc : c.length = t.numIntegers) :
    ∃ y : List ℚ, t.fullPoint (x.map fin) (c.map fin) = .ok (y.map fin) ∧
      y.length = vars.length := by
  obtain ⟨full, hfull, hlen⟩ := exists_fullPoint h horder
    (show (x.map fin).length = vars.length by rw [List.length_map, hx])
    (show (c.map fin).length = t.numIntegers by rw [List.length_map, hc])
  obtain ⟨y, rfl⟩ : ∃ y : List ℚ, full = y.map fin := by
    refine exists_map_fin fun z hz => ?_
    unfold Table.fullPoint Vec.place at hfull
    split at hfull
    · rcases Vec.mem_of_placeAll hfull hz with hz | ⟨w, hw, rfl⟩
      · obtain ⟨q, -, rfl⟩ := List.mem_map.mp hz
        exact ⟨q, rfl⟩
      · obtain ⟨q, -, hq⟩ := List.mem_map.mp (Vec.mem_stretch (List.of_mem_zip hw).2)
        exact ⟨q, hq.symm⟩
    · cases hfull
  exact ⟨y, hfull, by rwa [List.length_map] at hlen⟩

end FullPoints

end MipPump
