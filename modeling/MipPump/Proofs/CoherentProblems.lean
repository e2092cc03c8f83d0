import MipPump.Distance
import MipPump.Progress
import MipPump.Projection
import MipPump.Proofs.Cells
import MipPump.Proofs.Feasibility

/-!
# Coherent problems

A problem is coherent if its parts fit together: the variables stand in index order and have bounds
in order, the integer variables have integral bounds, and there are as many senses and right-hand
sides as rows, each row with a coefficient for every variable.  What reads a coherent problem finds
every entry it looks for.

* `exists_ofVariables`: there is a table.
* `exists_countFractional`, `exists_measure`, `exists_fullPoint`, `exists_projection`: what is
  computed from points with an entry for every variable and from candidates with one for every
  integer variable.
* `exists_isFeasible`: a finite point is feasible or not.
-/

namespace MipPump

open ExtRat

section Meaning

/-- Rows with a coefficient for each of `n` variables, a sense and a right-hand side. -/
structure Rows.Shaped {R : Type} (n : Nat) (rows : Rows R) : Prop where
  width : ∀ row ∈ rows.coefficients, row.length = n
  senses : rows.senses.length = rows.coefficients.length
  rhs : rows.rhs.length = rows.coefficients.length

/-- A problem whose parts fit together. -/
structure Problem.Coherent (p : Problem ExtRat) : Prop where
  inOrder : InOrder p.vars
  /-- A longer list does not fit the memory that a word addresses. -/
  few : (p.vars.length : Int) < Progress.countLimit
  ordered : ∀ v ∈ p.vars, v.lb ≤ v.ub
  integral : ∀ v ∈ p.vars, v.kind.isIntegral = true → v.IntegralBounds
  rows : p.rows.Shaped p.vars.length

end Meaning

section Ranges

variable {R α : Type}

/-- A list that fits the memory can be counted by a machine word. -/
theorem Progress.short_of_few {n : Nat} (hfew : (n : Int) < countLimit) : n ≤ Power.two 63 := by
  have hlimit : countLimit < Power.two 63 := by decide +kernel
  omega

theorem fitsLong_of_inRange {n : Nat} {i : Int} (h : Vec.InRange n i)
    (hshort : n ≤ Power.two 63) : Word.fitsLong i = true := by
  obtain ⟨k, rfl, hk⟩ := h
  exact Word.fits_iff.mpr ⟨by omega, by omega⟩

theorem requireWord_of_inRange {n : Nat} {i : Int} (h : Vec.InRange n i)
    (hshort : n ≤ Power.two 63) : (requireWord i : Except (Fault R) Unit) = .ok () := by
  unfold requireWord
  rw [if_pos (fitsLong_of_inRange h hshort)]

theorem requireIndex_of_inRange {n : Nat} {i : Int} (h : Vec.InRange n i)
    (hshort : n ≤ Power.two 63) : requireIndex (R := R) i = .ok () := by
  unfold requireIndex
  rw [Word.isUnsignedOnly_of_fitsLong (fitsLong_of_inRange h hshort)]
  rfl

/-- Variables in index order are numbered. -/
theorem inRange_of_inOrder {vars : List (Variable R)} (h : InOrder vars) :
    ∀ v ∈ vars, Vec.InRange vars.length v.index := by
  intro v hv
  have hmem : v.index ∈ vars.map (·.index) := List.mem_map_of_mem hv
  rw [h, List.mem_map] at hmem
  obtain ⟨k, hk, hindex⟩ := hmem
  exact ⟨k, hindex.symm, by simpa using (List.mem_range'_1.mp hk).2⟩

/-- What is selected is part of the list. -/
theorem Vec.exists_select {mask : List Bool} {xs : List α} (h : mask.length = xs.length) :
    ∃ ys, (Vec.select mask xs : Except (Fault R) (List α)) = .ok ys ∧ ∀ y ∈ ys, y ∈ xs := by
  refine ⟨_, by rw [Vec.select, if_pos h], fun y hy => ?_⟩
  obtain ⟨pair, hpair, rfl⟩ := List.mem_map.mp hy
  exact (List.of_mem_zip (List.mem_filter.mp hpair).1).2

end Ranges

section Tables

variable {R : Type} [Arith R] {vars : List (Variable R)} {t : Table R}

/-- Variables whose indices are numbers of variables have a table, in whatever order they stand. -/
theorem Table.exists_ofVariables (hrange : ∀ v ∈ vars, Vec.InRange vars.length v.index)
    (hshort : vars.length ≤ Power.two 63) : ∃ t, ofVariables vars = .ok t := by
  have hindices {q : Variable R → Bool} : ∀ i ∈ (vars.filter q).map (·.index),
      Vec.InRange vars.length i := by
    intro i hi
    obtain ⟨v, hv, rfl⟩ := List.mem_map.mp hi
    exact hrange v (List.mem_filter.mp hv).1
  have hwords : (((vars.filter (·.kind.isIntegral)).map (·.index) ++
      (vars.filter (!·.kind.isIntegral)).map (·.index)).forM requireWord :
        Except (Fault R) Unit) = .ok () :=
    Vec.forM_of_ok fun i hi => requireWord_of_inRange
      ((List.mem_append.mp hi).elim (hindices i) (hindices i)) hshort
  have hpick (column : Variable R → R) : ∃ xs, (Vec.pick (vars.map column)
      ((vars.filter (·.kind.isIntegral)).map (·.index)) : Except (Fault R) (List R)) = .ok xs :=
    Vec.exists_pick (List.length_map _) fun i hi => (hindices i hi).exists_position?
  have hblank : (List.replicate vars.length (-1 : Int)).length = vars.length := List.length_replicate
  unfold ofVariables
  refine Act.exists_exceptBind ⟨_, hwords⟩ fun _ _ => Act.exists_exceptBind (hpick (·.lb)) fun _ _ =>
    Act.exists_exceptBind (hpick (·.ub)) fun _ _ => Act.exists_exceptBind ?_ fun _ _ => ⟨_, rfl⟩
  refine (Vec.exists_placeAll (R := R) (fun w hw => ?_) hblank).imp fun _ h => h.1
  obtain ⟨jp, hjp, rfl⟩ := List.mem_map.mp hw
  exact (hindices jp.1 (List.fst_mem_of_mem_zipIdx hjp)).exists_position?

namespace Table.Lists

theorem length_intLb (h : t.Lists vars) : t.intLb.length = t.numIntegers := by
  obtain ⟨lb, hpick, hlb⟩ := h.intLb
  rw [hlb, List.length_map, Vec.length_of_pick hpick, numIntegers]

theorem length_intUb (h : t.Lists vars) : t.intUb.length = t.numIntegers := by
  obtain ⟨ub, hpick, hub⟩ := h.intUb
  rw [hub, List.length_map, Vec.length_of_pick hpick, numIntegers]

/-- The integer variables address entries. -/
theorem exists_position? (h : t.Lists vars) :
    ∀ j ∈ t.integers, ∃ p, Vec.position? vars.length j = some p := by
  intro j hj
  obtain ⟨lb, hpick, -⟩ := h.intLb
  obtain ⟨x, -, hx⟩ := Vec.exists_of_mem_left (Vec.pick_eq_ok.mp hpick) hj
  obtain ⟨p, hp, -⟩ := Vec.at?_eq_some.mp hx
  rw [h.lb, List.length_map] at hp
  exact ⟨p, hp⟩

theorem numIntegers_le (h : t.Lists vars) : t.numIntegers ≤ vars.length := by
  rw [h.numIntegers_eq]
  exact List.length_filter_le _ _

theorem inRange_integers (h : t.Lists vars) (horder : InOrder vars) :
    ∀ j ∈ t.integers, Vec.InRange vars.length j := by
  intro j hj
  rw [h.integers] at hj
  obtain ⟨v, hv, rfl⟩ := List.mem_map.mp hj
  exact inRange_of_inOrder horder v (List.mem_filter.mp hv).1

theorem nodup_integers (h : t.Lists vars) (horder : InOrder vars) : t.integers.Nodup :=
  (h.distinct horder).nodup

end Table.Lists

end Tables

section Points

variable {R : Type} [Arith R] {vars : List (Variable R)} {t : Table R} {point candidate : List R}

theorem exists_integerValues (h : t.Lists vars) (hpoint : point.length = vars.length) :
    ∃ values, t.integerValues point = .ok values ∧ values.length = t.numIntegers := by
  obtain ⟨values, hvalues⟩ := Vec.exists_pick (R := R) hpoint h.exists_position?
  exact ⟨values, hvalues, Vec.length_of_pick hvalues⟩

/-- A finite point has finite values. -/
theorem Table.Lists.exists_values {vars : List (Variable ExtRat)} {t : Table ExtRat}
    (h : t.Lists vars) {x : List ℚ} (hx : x.length = vars.length) :
    ∃ values : List ℚ, t.integerValues (x.map fin) = .ok (values.map fin) ∧
      values.length = t.numIntegers ∧
      List.Forall₂ (fun j q => Vec.at? x j = some q) t.integers values := by
  obtain ⟨values, hvalues⟩ := Vec.exists_pick (R := ExtRat) hx h.exists_position?
  exact ⟨values, Vec.pick_map hvalues fin, Vec.length_of_pick hvalues, Vec.pick_eq_ok.mp hvalues⟩

theorem exists_countFractional (h : t.Lists vars) (horder : InOrder vars)
    (hpoint : point.length = vars.length) (tol : R) : ∃ k, t.countFractional point tol = .ok k := by
  unfold Table.countFractional
  rw [h.integerValues_eq horder hpoint]
  exact ⟨_, rfl⟩

theorem exists_fullPoint (h : t.Lists vars) (horder : InOrder vars)
    (hpoint : point.length = vars.length) (hcandidate : candidate.length = t.numIntegers) :
    ∃ full, t.fullPoint point candidate = .ok full ∧ full.length = vars.length :=
  ⟨_, h.place_eq horder hpoint hcandidate, by rw [length_updated, hpoint]⟩

theorem exists_measure (h : t.Lists vars) (horder : InOrder vars) (eps : R)
    (hpoint : point.length = vars.length) (hcandidate : candidate.length = t.numIntegers) :
    ∃ d, Distance.measure t eps point candidate = .ok d := by
  obtain ⟨values, hvalues, hlen⟩ := exists_integerValues h hpoint
  have hmap : (Vec.map2 (Distance.difference eps) values candidate : Except (Fault R) _) =
      .ok (List.zipWith (Distance.difference eps) values candidate) :=
    Vec.map2_of_length _ (hlen.trans hcandidate.symm)
  have hzeros : (Vec.zeros t.numVars : List R).length = vars.length := by
    rw [Vec.zeros, List.length_replicate, h.numVars_eq]
  unfold Distance.measure
  rw [Act.exceptBind_of_ok hvalues, Act.exceptBind_of_ok hmap,
    Act.exceptBind_of_ok (h.place_eq horder hzeros (by simp [hlen, hcandidate]))]
  exact ⟨_, rfl⟩

/-- There is a goal that leads to a candidate. -/
theorem exists_projection (h : t.Lists vars) (alpha : R)
    (hcandidate : candidate.length = t.numIntegers) :
    ∃ goal, Goal.projection t alpha candidate = .ok goal := by
  have hlb := hcandidate.trans h.length_intLb.symm
  have hub := hcandidate.trans h.length_intUb.symm
  let atLower := List.zipWith (fun x lb => decide (x ≤ lb)) candidate t.intLb
  let atUpper := List.zipWith (fun x ub => decide (ub ≤ x)) candidate t.intUb
  have hlower : atLower.length = t.numIntegers := by
    rw [List.length_zipWith, ← hlb, min_self, hcandidate]
  have hupper : atUpper.length = t.numIntegers := by
    rw [List.length_zipWith, ← hub, min_self, hcandidate]
  obtain ⟨upper, hselectUpper, hmemUpper⟩ := Vec.exists_select (R := R) hupper
  obtain ⟨lower, hselectLower, hmemLower⟩ := Vec.exists_select (R := R) hlower
  have hpulls : ∀ w ∈ upper.map (·, (-1 : R)) ++ lower.map (·, (1 : R)),
      ∃ p, Vec.position? vars.length w.1 = some p := by
    intro w hw
    rcases List.mem_append.mp hw with hw | hw
    all_goals obtain ⟨j, hj, rfl⟩ := List.mem_map.mp hw
    · exact h.exists_position? j (hmemUpper j hj)
    · exact h.exists_position? j (hmemLower j hj)
  have hzeros : (Vec.zeros t.numVars : List R).length = vars.length := by
    rw [Vec.zeros, List.length_replicate, h.numVars_eq]
  obtain ⟨linear, hlinear, hlen⟩ := Vec.exists_placeAll (R := R) hpulls hzeros
  have hinterior : (List.zipWith (fun l u => !(l || u)) atLower atUpper).length =
      t.numIntegers := by
    rw [List.length_zipWith, hlower, hupper, min_self]
  obtain ⟨indices, hindices, -⟩ := Vec.exists_select (R := R) hinterior
  obtain ⟨values, hvalues, -⟩ := Vec.exists_select (R := R) (hinterior.trans hcandidate.symm)
  obtain ⟨objective, hobjective⟩ : ∃ objective, Goal.blend t alpha linear = .ok objective := by
    unfold Goal.blend
    split
    · exact ⟨_, rfl⟩
    · exact ⟨_, Vec.map2_of_length _ (by rw [h.cost, List.length_map, hlen])⟩
  unfold Goal.projection
  rw [Act.exceptBind_of_ok (Vec.map2_of_length _ hlb), Act.exceptBind_of_ok (Vec.map2_of_length _ hub),
    Act.exceptBind_of_ok hselectUpper, Act.exceptBind_of_ok hselectLower,
    Act.exceptBind_of_ok hlinear, Act.exceptBind_of_ok hindices, Act.exceptBind_of_ok hvalues,
    Act.exceptBind_of_ok hobjective]
  exact ⟨_, rfl⟩

end Points

section Checks

variable {p : Problem ExtRat} {tol : ExtRat} {x : List ℚ}

/-- A point without special values is inside the bounds and integral or not. -/
theorem exists_allAdmit {R : Type} [Arith R] {vars : List (Variable R)} {tol : R} {point : List R}
    (h : ∀ v ∈ vars, Vec.InRange point.length v.index)
    (hfinite : ∀ y ∈ point, Arith.isNaN y = false ∧ Arith.isInf y = false) :
    ∃ admitted, allAdmit tol point vars = .ok admitted := by
  induction vars with
  | nil => exact ⟨true, rfl⟩
  | cons v vars ih =>
      obtain ⟨y, hy⟩ := (h v (List.mem_cons_self ..)).exists_at? rfl
      obtain ⟨hnan, hinf⟩ := hfinite y (Vec.mem_of_at? hy)
      obtain ⟨admitted, hadmitted⟩ : ∃ admitted, v.admits tol y = .ok admitted := by
        unfold Variable.admits integralityGap
        rw [hnan, hinf]
        split
        · exact ⟨_, rfl⟩
        · split
          · exact ⟨_, rfl⟩
          · exact ⟨_, rfl⟩
      unfold allAdmit
      rw [Act.exceptBind_of_ok (Vec.get_eq_ok.mpr hy), Act.exceptBind_of_ok hadmitted]
      split
      · exact ih fun u hu => h u (List.mem_cons_of_mem _ hu)
      · exact ⟨_, rfl⟩

theorem exists_allHold {activities rhs : List ExtRat} {senses : List Sense}
    (hrhs : rhs.length = activities.length) (hsenses : senses.length = activities.length) :
    ∃ holds, allHold tol activities rhs senses = .ok holds := by
  induction activities generalizing rhs senses with
  | nil => exact ⟨true, rfl⟩
  | cons a activities ih =>
      match rhs, senses, hrhs, hsenses with
      | b :: rhs, s :: senses, hrhs, hsenses =>
          unfold allHold
          split
          · exact ih (by simpa using hrhs) (by simpa using hsenses)
          · exact ⟨_, rfl⟩

/-- The check of a finite point comes to an answer. -/
theorem exists_isFeasible (hp : p.Coherent) (hx : x.length = p.vars.length) :
    ∃ feasible, p.isFeasible tol (x.map fin) = .ok feasible := by
  have hindices : ∀ v ∈ p.vars, Vec.InRange x.length v.index := hx ▸ inRange_of_inOrder hp.inOrder
  obtain ⟨admitted, hadmitted⟩ : ∃ admitted, allAdmit tol (x.map fin) p.vars = .ok admitted :=
    exists_allAdmit (by simpa using hindices) (by simp)
  obtain ⟨activities, hactivities⟩ : ∃ activities, p.rows.activities (x.map fin) = .ok activities :=
    Vec.exists_mapM fun row hrow => ⟨_, by
      rw [Vec.dot, if_pos (by rw [hp.rows.width row hrow, List.length_map, hx])]⟩
  have hlen := (Vec.mapM_eq_ok.mp hactivities).length_eq
  unfold Problem.isFeasible
  rw [Act.exceptBind_of_ok hadmitted]
  split
  · split
    · exact ⟨_, rfl⟩
    · rw [Act.exceptBind_of_ok hactivities]
      exact exists_allHold (hp.rows.rhs.trans hlen) (hp.rows.senses.trans hlen)
  · exact ⟨_, rfl⟩

theorem exists_objective {point : List ExtRat} (hpoint : point.length = p.vars.length) :
    ∃ objective, p.objective point = .ok objective := by
  unfold Problem.objective Vec.dot
  rw [if_pos (by rw [List.length_map, hpoint])]
  exact ⟨_, rfl⟩

end Checks

end MipPump
