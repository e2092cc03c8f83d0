import MipPump.Proofs.ExactNumbers
import MipPump.Proofs.Tables
import Mathlib.Data.List.Zip

/-!
# Feasible points

In exact arithmetic the check of a full point means what it says.

* `Problem.SolvedWithin p eps x` is the meaning: the rational point `x` keeps to the bounds, to
  integrality and to the rows of `p`, each within its tolerance.
* `Problem.Regular p` is what the check relies on: variables in index order, bounds that are numbers,
  finite rows.
* `solvedWithin_of_isFeasible`: a finite point with the values of an admitted candidate that passes
  the check is a solution in this sense, with exact integers.
-/

namespace MipPump

open ExtRat

section Meaning

/-- An activity keeps to a right-hand side up to `slack`. -/
def Sense.HoldsWithin (s : Sense) (slack activity rhs : ℚ) : Prop :=
  match s with
  | atMost => activity ≤ rhs + slack
  | atLeast => rhs - slack ≤ activity
  | equal => |activity - rhs| ≤ slack
  | other _ => True

/-- The rational point `x` solves a problem up to `eps`. -/
structure Problem.SolvedWithin (p : Problem ExtRat) (eps : ℚ) (x : List ℚ) : Prop where
  length : x.length = p.vars.length
  /-- Integer variables have integers inside their integral bounds. -/
  integral : ∀ v q, (v, q) ∈ p.vars.zip x → v.kind.isIntegral = true →
    (∃ z : ℤ, q = z) ∧ Table.integralLower v.lb ≤ fin q ∧ fin q ≤ Table.integralUpper v.ub
  inside : ∀ v q, (v, q) ∈ p.vars.zip x → v.lb - fin eps ≤ fin q ∧ fin q ≤ v.ub + fin eps
  rows : ∀ (i : Nat) row, p.rows.coefficients[i]? = some row → ∃ (a : List ℚ) (s : Sense) (b : ℚ),
    row = a.map fin ∧ a.length = x.length ∧ p.rows.senses[i]? = some s ∧
      p.rows.rhs[i]? = some (fin b) ∧ s.HoldsWithin (eps * max 1 |b|) (dotRat a x) b

/-- A problem with variables in index order, bounds that are numbers, and finite rows. -/
structure Problem.Regular (p : Problem ExtRat) : Prop where
  inOrder : InOrder p.vars
  bounds : ∀ v ∈ p.vars, v.lb ≠ nan ∧ v.ub ≠ nan
  coefficients : ∀ row ∈ p.rows.coefficients, ∃ a : List ℚ, row = a.map fin
  rhs : ∃ b : List ℚ, p.rows.rhs = b.map fin

end Meaning

section Checks

variable {R : Type} [Arith R] {tol : R}

theorem allAdmit_eq_ok {point : List R} {vars : List (Variable R)}
    (h : allAdmit tol point vars = .ok true) :
    ∀ v ∈ vars, ∃ x, Vec.at? point v.index = some x ∧ v.admits tol x = .ok true := by
  induction vars with
  | nil =>
      intro v hv
      cases hv
  | cons u vars ih =>
      unfold allAdmit at h
      obtain ⟨x, hx, h⟩ := Act.exceptBind_eq_ok.mp h
      obtain ⟨admitted, hadmitted, h⟩ := Act.exceptBind_eq_ok.mp h
      cases admitted with
      | false => cases h
      | true =>
          intro v hv
          rcases List.mem_cons.mp hv with rfl | hv
          · exact ⟨x, Vec.get_eq_ok.mp hx, hadmitted⟩
          · exact ih h v hv

theorem allAdmit_of_admits {point : List R} {vars : List (Variable R)}
    (h : ∀ v ∈ vars, ∃ x, Vec.at? point v.index = some x ∧ v.admits tol x = .ok true) :
    allAdmit tol point vars = .ok true := by
  induction vars with
  | nil => rfl
  | cons v vars ih =>
      obtain ⟨x, hx, hadmits⟩ := h v (List.mem_cons_self ..)
      unfold allAdmit
      rw [Act.exceptBind_of_ok (Vec.get_eq_ok.mpr hx), Act.exceptBind_of_ok hadmits, if_pos rfl]
      exact ih fun u hu => h u (List.mem_cons_of_mem _ hu)

theorem admits_eq_ok {v : Variable R} {x : R} (h : v.admits tol x = .ok true) :
    ¬ x < v.lb - tol ∧ ¬ v.ub + tol < x ∧ (v.kind.isIntegral = true → Arith.isInf x = false) := by
  unfold Variable.admits at h
  split at h
  · cases h
  · rename_i hbounds
    rw [Bool.or_eq_true, decide_eq_true_iff, decide_eq_true_iff, not_or] at hbounds
    refine ⟨hbounds.1, hbounds.2, ?_⟩
    intro hv
    rw [if_pos hv] at h
    unfold integralityGap at h
    split at h
    · cases h
    · split at h
      · cases h
      · rename_i hinf
        exact Bool.eq_false_iff.mpr hinf

theorem allHold_eq_ok {activities rhs : List R} {senses : List Sense}
    (h : allHold tol activities rhs senses = .ok true) :
    ∀ (i : Nat) (a : R), activities[i]? = some a →
      ∃ (b : R) (s : Sense), rhs[i]? = some b ∧ senses[i]? = some s ∧ s.holds tol a b = true := by
  induction activities generalizing rhs senses with
  | nil =>
      intro i a ha
      cases ha
  | cons y activities ih =>
      cases rhs with
      | nil => cases h
      | cons b rhs =>
          cases senses with
          | nil => cases h
          | cons s senses =>
              unfold allHold at h
              split at h
              · rename_i hs
                intro i a ha
                cases i with
                | zero =>
                    cases ha
                    exact ⟨b, s, rfl, rfl, hs⟩
                | succ i => exact ih h i a ha
              · cases h

theorem allHold_of_holds {activities rhs : List R} {senses : List Sense}
    (h : ∀ (i : Nat) (a : R), activities[i]? = some a →
      ∃ (b : R) (s : Sense), rhs[i]? = some b ∧ senses[i]? = some s ∧ s.holds tol a b = true) :
    allHold tol activities rhs senses = .ok true := by
  induction activities generalizing rhs senses with
  | nil => rfl
  | cons y activities ih =>
      obtain ⟨b, s, hb, hs, hholds⟩ := h 0 y rfl
      cases rhs with
      | nil => cases hb
      | cons b' rhs =>
          cases senses with
          | nil => cases hs
          | cons s' senses =>
              cases hb
              cases hs
              unfold allHold
              rw [if_pos hholds]
              exact ih fun i a ha => h (i + 1) a ha

/-- A point that passes the check keeps to bounds and rows. -/
theorem isFeasible_eq_ok {p : Problem R} {point : List R}
    (h : p.isFeasible tol point = .ok true) :
    (∀ v ∈ p.vars, ∃ x, Vec.at? point v.index = some x ∧ v.admits tol x = .ok true) ∧
      ∀ (i : Nat) row, p.rows.coefficients[i]? = some row → ∃ (a b : R) (s : Sense), Vec.dot row point = .ok a ∧
        p.rows.rhs[i]? = some b ∧ p.rows.senses[i]? = some s ∧ s.holds tol a b = true := by
  unfold Problem.isFeasible at h
  obtain ⟨admitted, hadmitted, h⟩ := Act.exceptBind_eq_ok.mp h
  cases admitted with
  | false => cases h
  | true =>
      refine ⟨allAdmit_eq_ok hadmitted, ?_⟩
      intro i row hrow
      rw [if_pos rfl] at h
      split at h
      · rename_i hempty
        rw [List.isEmpty_iff.mp hempty] at hrow
        cases hrow
      · obtain ⟨activities, hactivities, h⟩ := Act.exceptBind_eq_ok.mp h
        have hall := Vec.mapM_eq_ok.mp hactivities
        obtain ⟨hi, rfl⟩ := List.getElem?_eq_some_iff.mp hrow
        have hi' : i < activities.length := by rwa [← hall.length_eq]
        obtain ⟨b, s, hb, hs, hholds⟩ :=
          allHold_eq_ok h i activities[i] (List.getElem?_eq_getElem hi')
        exact ⟨activities[i], b, s, (List.forall₂_iff_get.mp hall).2 i hi hi', hb, hs, hholds⟩

omit [Arith R] in
theorem all_zipWith_iff {f : R → R → Bool} {xs ys : List R} :
    (List.zipWith f xs ys).all id = true ↔ ∀ x y, (x, y) ∈ xs.zip ys → f x y = true := by
  rw [← List.map_uncurry_zip_eq_zipWith, List.all_map, List.all_eq_true]
  exact ⟨fun h x y hxy => h (x, y) hxy, fun h p hp => h p.1 p.2 hp⟩

/-- The check admits the candidates that are integral and inside the integral bounds. -/
theorem check_iff {t : Table R} {candidate : List R} :
    t.check candidate = .ok () ↔
      candidate.length = t.numIntegers ∧ (∀ x ∈ candidate, (x == Arith.rint x) = true) ∧
        (∀ x lb, (x, lb) ∈ candidate.zip t.intLb → lb ≤ x) ∧
        ∀ x ub, (x, ub) ∈ candidate.zip t.intUb → x ≤ ub := by
  have hdefect : t.check candidate = .ok () ↔ t.defect? candidate = none := by
    unfold Table.check
    cases t.defect? candidate <;> simp
  rw [hdefect]
  unfold Table.defect?
  by_cases hlength : candidate.length = t.numIntegers
  · by_cases hintegral : candidate.all (fun x => x == Arith.rint x) = true
    · simp only [hlength, hintegral, ne_eq, not_true_eq_false, if_false, Bool.not_true,
        Bool.false_eq_true, Bool.and_eq_true, all_zipWith_iff, decide_eq_true_eq, true_and,
        ite_eq_left_iff, reduceCtorEq, imp_false, not_not]
      exact ⟨fun h => ⟨List.all_eq_true.mp hintegral, h⟩, fun h => h.2⟩
    · refine iff_of_false ?_ fun h => hintegral (List.all_eq_true.mpr h.2.1)
      simp [hlength, hintegral]
  · exact iff_of_false (by simp [hlength]) fun h => hlength h.1

end Checks

section Exactness

theorem Sense.holdsWithin_of_holds {s : Sense} {e activity b : ℚ}
    (h : s.holds (fin e) (fin activity) (fin b) = true) :
    s.HoldsWithin (e * max 1 |b|) activity b := by
  have htol : rowTolerance (fin e) (fin b) = fin (e * max 1 |b|) := by
    rw [rowTolerance, abs_fin, one_eq, larger_fin, fin_mul]
  cases s with
  | atMost =>
      simpa [Sense.holds, htol, Sense.HoldsWithin] using h
  | atLeast =>
      simpa [Sense.holds, htol, Sense.HoldsWithin] using h
  | equal =>
      simpa [Sense.holds, htol, Sense.HoldsWithin] using h
  | other code => trivial

theorem exists_mem_zip {α β : Type} {xs : List α} {ys : List β} (h : ys.length = xs.length)
    {y : β} (hy : y ∈ ys) : ∃ x, (x, y) ∈ xs.zip ys := by
  obtain ⟨i, hi, rfl⟩ := List.getElem_of_mem hy
  refine ⟨xs[i], ?_⟩
  rw [← List.getElem_zip (h := by simp [h, h ▸ hi])]
  exact List.getElem_mem _

variable {p : Problem ExtRat} {t : Table ExtRat} {eps : ℚ} {point candidate full : List ExtRat}

/-- A feasible point has integers inside the integral bounds for the integer variables. -/
theorem whole_of_isFeasible (horder : InOrder p.vars) (ht : t.Lists p.vars)
    (hcheck : t.check candidate = .ok ()) (hfull : full = updated p.vars (candidate.map some) point)
    (hlen : point.length = p.vars.length) (hfeasible : p.isFeasible (fin eps) full = .ok true)
    {v : Variable ExtRat} {y : ExtRat} (hy : (v, y) ∈ p.vars.zip full)
    (hv : v.kind.isIntegral = true) :
    Whole y ∧ Table.integralLower v.lb ≤ y ∧ y ≤ Table.integralUpper v.ub := by
  obtain ⟨hlength, hrint, hlb, hub⟩ := check_iff.mp hcheck
  have hchosen : (v, y) ∈ (p.vars.filter (·.kind.isIntegral)).zip candidate := by
    rw [ht.numIntegers_eq] at hlength
    rw [← chosen_updated hlen hlength, ← hfull, ← zip_chosen]
    exact List.mem_filter.mpr ⟨hy, hv⟩
  have hswapped : (y, v) ∈ candidate.zip (p.vars.filter (·.kind.isIntegral)) := by
    rw [← List.zip_swap]
    exact List.mem_map.mpr ⟨(v, y), hchosen, rfl⟩
  have hmem : y ∈ candidate := (List.of_mem_zip hchosen).2
  obtain ⟨x, hx, hadmits⟩ := (isFeasible_eq_ok hfeasible).1 v (List.of_mem_zip hy).1
  have hxy : x = y := by
    rw [at?_of_mem_zip horder hy] at hx
    exact (Option.some.inj hx).symm
  rw [hxy] at hadmits
  refine ⟨whole_of_beq_rint (hrint y hmem) ((admits_eq_ok hadmits).2.2 hv), hlb _ _ ?_, hub _ _ ?_⟩
  · rw [ht.intLb_eq horder, List.zip_map_right]
    exact List.mem_map.mpr ⟨(y, v), hswapped, rfl⟩
  · rw [ht.intUb_eq horder, List.zip_map_right]
    exact List.mem_map.mpr ⟨(y, v), hswapped, rfl⟩

/-- **The check is sound.**  A finite point with the values of an admitted candidate that passes the
check is finite and solves the problem up to the tolerance. -/
theorem solvedWithin_of_isFeasible (hp : p.Regular) (ht : t.Lists p.vars)
    (hpoint : ∃ q : List ℚ, point = q.map fin ∧ q.length = p.vars.length)
    (hcheck : t.check candidate = .ok ()) (hjoin : t.fullPoint point candidate = .ok full)
    (hfeasible : p.isFeasible (fin eps) full = .ok true) :
    ∃ x : List ℚ, full = x.map fin ∧ p.SolvedWithin eps x := by
  obtain ⟨q, rfl, hq⟩ := hpoint
  have hlen : (q.map fin).length = p.vars.length := by rw [List.length_map, hq]
  have hfull : full = updated p.vars (candidate.map some) (q.map fin) := by
    unfold Table.fullPoint at hjoin
    rw [ht.place_eq hp.inOrder hlen (check_iff.mp hcheck).1] at hjoin
    exact (Except.ok.inj hjoin).symm
  have hlenFull : full.length = p.vars.length := by rw [hfull, length_updated, hlen]
  have hwhole {v y} (hy : (v, y) ∈ p.vars.zip full) (hv : v.kind.isIntegral = true) :=
    whole_of_isFeasible hp.inOrder ht hcheck hfull hlen hfeasible hy hv
  have hfinite : ∀ y ∈ full, ∃ r, y = fin r := by
    intro y hy
    obtain ⟨v, hvy⟩ := exists_mem_zip hlenFull hy
    by_cases hv : v.kind.isIntegral
    · obtain ⟨⟨z, hz⟩, -⟩ := hwhole hvy hv
      exact ⟨z, hz⟩
    · rw [hfull] at hvy
      have hold := mem_zip_of_mem_zip_updated hvy (Bool.eq_false_iff.mpr hv)
      obtain ⟨r, -, hr⟩ := List.mem_map.mp (List.of_mem_zip hold).2
      exact ⟨r, hr.symm⟩
  obtain ⟨x, hx⟩ := exists_map_fin hfinite
  have hpair {v r} (h : (v, r) ∈ p.vars.zip x) : (v, fin r) ∈ p.vars.zip full := by
    rw [hx, List.zip_map_right]
    exact List.mem_map.mpr ⟨(v, r), h, rfl⟩
  obtain ⟨hadmitted, hrows⟩ := isFeasible_eq_ok hfeasible
  refine ⟨x, hx, ?_, ?_, ?_, ?_⟩
  · rw [← hlenFull, hx, List.length_map]
  · intro v r hr hv
    obtain ⟨⟨z, hz⟩, hbounds⟩ := hwhole (hpair hr) hv
    exact ⟨⟨z, ExtRat.fin.inj hz⟩, hbounds⟩
  · intro v r hr
    have hv := (List.of_mem_zip hr).1
    obtain ⟨y, hy, hadmits⟩ := hadmitted v hv
    rw [at?_of_mem_zip hp.inOrder (hpair hr)] at hy
    cases hy
    obtain ⟨hlower, hupper, -⟩ := admits_eq_ok hadmits
    exact ⟨(not_lt_iff (fin_ne_nan r) (sub_fin_ne_nan (hp.bounds v hv).1 eps)).mp hlower,
      (not_lt_iff (add_fin_ne_nan (hp.bounds v hv).2 eps) (fin_ne_nan r)).mp hupper⟩
  · intro i row hrow
    obtain ⟨a, b, s, hdot, hb, hs, hholds⟩ := hrows i row hrow
    obtain ⟨coefs, rfl⟩ := hp.coefficients row (List.mem_of_getElem? hrow)
    obtain ⟨rhs, hrhs⟩ := hp.rhs
    rw [hrhs, List.getElem?_map] at hb
    obtain ⟨b', hb', rfl⟩ := Option.map_eq_some_iff.mp hb
    have hlens : coefs.length = x.length := by
      unfold Vec.dot at hdot
      split at hdot
      · rename_i heq
        rw [hx, List.length_map, List.length_map] at heq
        exact heq
      · cases hdot
    rw [hx, dot_map_fin coefs x hlens] at hdot
    cases hdot
    refine ⟨coefs, s, b', rfl, hlens, hs, ?_, Sense.holdsWithin_of_holds hholds⟩
    rw [hrhs, List.getElem?_map, hb']
    rfl

end Exactness

end MipPump
