import MipPump.Propagation.Row
import MipPump.Proofs.Relaxations

/-!
# Propagating a row keeps the points of the row

In exact arithmetic a row tightens bounds only as far as it implies: a point in the box that
satisfies the row is in the box afterwards, and the propagation of the row does not stop because a
domain is empty.  The only fault left is that of a vector longer than a machine word can count.

* `UpperRow.Admits row x`: the point `x` satisfies the row, term by term.
* `residual_le`: what the other terms contribute at least.  This is where infinite contributions are
  counted: with one of them only its own term is bounded.
* `stays_propagate`: the propagation of a row; `runs_propagate` for points that are not too long.
-/

namespace MipPump
namespace Propagation

open ExtRat

section Terms

/-- What a term contributes at the point `x`. -/
def TermAt (x : List ℚ) (term : Nat × ExtRat) (v : ℚ) : Prop :=
  ∃ a q : ℚ, term.2 = fin a ∧ a ≠ 0 ∧ x[term.1]? = some q ∧ v = a * q

/-- The point `x` satisfies the row. -/
def UpperRow.Admits (row : UpperRow ExtRat) (x : List ℚ) : Prop :=
  ∃ vs : List ℚ, List.Forall₂ (TermAt x) row.terms vs ∧ fin vs.sum ≤ row.rhs

/-- A least contribution: none, or at most the one at the point. -/
def Below (c : ExtRat) (v : ℚ) : Prop := c = negInf ∨ ∃ q : ℚ, c = fin q ∧ q ≤ v

/-- The limits of a propagation around a point with integers where they are asked for. -/
structure Limits.Fit (limits : Limits ExtRat) (x : List ℚ) : Prop where
  integral : List.Forall₂ (fun isInt (q : ℚ) => isInt = true → ∃ n : ℤ, q = n) limits.integral x
  tol : ∃ e : ℚ, limits.tol = fin e ∧ 0 < e

variable {x : List ℚ} {a q : ℚ} {l u : ExtRat}

theorem contribution_below (ha : a ≠ 0) (hl : l ≤ fin q) (hu : fin q ≤ u) :
    Below (contribution (fin a) l u) (a * q) := by
  unfold contribution
  by_cases hpos : 0 < a
  · rw [if_pos (show (0 : ExtRat) < fin a from (fin_lt_fin 0 a).mpr hpos)]
    cases l with
    | fin l' =>
        have hle := (fin_le_fin l' q).mp hl
        exact Or.inr ⟨a * l', rfl, mul_le_mul_of_nonneg_left hle hpos.le⟩
    | negInf =>
        left
        show infinityWithSign (-a) = negInf
        unfold infinityWithSign
        rw [if_neg (by linarith), if_pos (by linarith)]
    | nan => exact absurd hl not_nan_le
    | posInf => exact absurd hl (not_posInf_le_fin q)
  · have hneg : a < 0 := lt_of_le_of_ne (not_lt.mp hpos) ha
    rw [if_neg (by simpa using hpos)]
    cases u with
    | fin u' =>
        have hle := (fin_le_fin q u').mp hu
        exact Or.inr ⟨a * u', rfl, mul_le_mul_of_nonpos_left hle hneg.le⟩
    | posInf =>
        left
        show infinityWithSign a = negInf
        unfold infinityWithSign
        rw [if_neg hpos, if_pos hneg]
    | nan => exact absurd hu not_le_nan
    | negInf => exact absurd hu (not_fin_le_negInf q)

/-- The contributions of a row in a box with the point in it. -/
theorem contributions_cases {box : Box ExtRat} (hbox : box.Contains x)
    {terms : List (Nat × ExtRat)} {vs : List ℚ} (h : List.Forall₂ (TermAt x) terms vs)
    {contributions : Except (Fault ExtRat) (List ExtRat)}
    (hrun : (terms.mapM fun (k, coef) => do
      let (lb, ub) ← box.bounds k
      pure (contribution coef lb ub)) = contributions) :
    (∃ cs, contributions = .ok cs ∧ List.Forall₂ Below cs vs) ∨
      ∃ e, contributions = .error e ∧ e.BeyondWords x.length := by
  subst hrun
  induction h with
  | nil => exact .inl ⟨[], rfl, .nil⟩
  | @cons term v terms vs hterm _ ih =>
      obtain ⟨k, coef⟩ := term
      obtain ⟨a, q, rfl, ha, hq, rfl⟩ := hterm
      rw [List.mapM_cons]
      dsimp only
      rcases hbox.bounds_cases (Vec.at?_of_getElem? hq) with
        ⟨l, u, hbounds, hl, hu⟩ | ⟨e, hbounds, hlong⟩
      · rw [hbounds]
        rcases ih with ⟨cs, hcs, hbelow⟩ | ⟨e, he, hlong⟩
        · rw [hcs]
          exact .inl ⟨_, rfl, .cons (contribution_below ha hl hu) hbelow⟩
        · rw [he]
          exact .inr ⟨e, rfl, hlong⟩
      · rw [hbounds]
        exact .inr ⟨e, rfl, hlong⟩

end Terms

section Activities

variable {cs as bs : List ExtRat} {vs ws : List ℚ} {c : ExtRat} {v : ℚ}

/-- The finite contributions add up to at most the activity, if no contribution is infinite. -/
theorem exists_finite (h : List.Forall₂ Below cs vs) :
    ∃ qs : List ℚ, cs.filter (fun y => !Arith.isInf y) = qs.map fin ∧
      (cs.filter Arith.isInf = [] → qs.sum ≤ vs.sum) := by
  induction h with
  | nil => exact ⟨[], rfl, fun _ => le_refl _⟩
  | @cons c v cs vs hc _ ih =>
      obtain ⟨qs, hqs, hsum⟩ := ih
      rcases hc with rfl | ⟨q, rfl, hq⟩
      · exact ⟨qs, hqs, fun hnil => by cases hnil⟩
      · refine ⟨q :: qs, ?_, fun hnil => ?_⟩
        · rw [List.filter_cons_of_pos (by rfl), hqs, List.map_cons]
        · rw [List.filter_cons_of_neg (by rw [isInf_fin]; exact Bool.false_ne_true)] at hnil
          rw [List.sum_cons, List.sum_cons]
          exact add_le_add hq (hsum hnil)

theorem finite_of_below (h : List.Forall₂ Below cs vs) (hnone : (Activity.of cs).infinite = 0) :
    ∃ s : ℚ, (Activity.of cs).finite = fin s ∧ s ≤ vs.sum := by
  obtain ⟨qs, hqs, hsum⟩ := exists_finite h
  refine ⟨qs.sum, ?_, hsum (List.length_eq_zero_iff.mp hnone)⟩
  show Vec.pairedSum (cs.filter fun y => !Arith.isInf y) = _
  rw [hqs, pairedSum_map_fin]

/-- What the other terms contribute at least, where a term can be bounded at all. -/
theorem residual_le (ha : List.Forall₂ Below as vs) (hc : Below c v) (hb : List.Forall₂ Below bs ws)
    (hone : (Activity.of (as ++ c :: bs)).infinite ≤ 1)
    (hbounds : (Activity.of (as ++ c :: bs)).bounds c = true) :
    ∃ r : ℚ,
      (if Arith.isInf c then (Activity.of (as ++ c :: bs)).finite
        else (Activity.of (as ++ c :: bs)).finite - c) = fin r ∧
      r + v ≤ (vs ++ v :: ws).sum := by
  obtain ⟨qa, hqa, hsuma⟩ := exists_finite ha
  obtain ⟨qb, hqb, hsumb⟩ := exists_finite hb
  have hcount : (Activity.of (as ++ c :: bs)).infinite =
      (as.filter Arith.isInf).length + ((c :: bs).filter Arith.isInf).length := by
    show ((as ++ c :: bs).filter Arith.isInf).length = _
    rw [List.filter_append, List.length_append]
  have hothers : ∀ r : ℚ, r = qa.sum + qb.sum → as.filter Arith.isInf = [] →
      bs.filter Arith.isInf = [] → r + v ≤ (vs ++ v :: ws).sum := by
    intro r hr hnilA hnilB
    rw [List.sum_append, List.sum_cons, hr]
    linarith [hsuma hnilA, hsumb hnilB]
  rcases hc with rfl | ⟨q, rfl, hq⟩
  · rw [List.filter_cons_of_pos (by rfl), List.length_cons] at hcount
    refine ⟨qa.sum + qb.sum, ?_, hothers _ rfl (List.length_eq_zero_iff.mp (by omega))
      (List.length_eq_zero_iff.mp (by omega))⟩
    rw [if_pos (by rfl)]
    show Vec.pairedSum ((as ++ negInf :: bs).filter fun y => !Arith.isInf y) = _
    rw [List.filter_append, List.filter_cons_of_neg (by simp [Arith.isInf]), hqa, hqb,
      ← List.map_append, pairedSum_map_fin, List.sum_append]
  · rw [List.filter_cons_of_neg (by rw [isInf_fin]; exact Bool.false_ne_true)] at hcount
    have hzero : (Activity.of (as ++ fin q :: bs)).infinite ≠ 1 := by
      simpa [Activity.bounds] using hbounds
    refine ⟨qa.sum + qb.sum, ?_, hothers _ rfl (List.length_eq_zero_iff.mp (by omega))
      (List.length_eq_zero_iff.mp (by omega))⟩
    rw [if_neg (by rw [isInf_fin]; exact Bool.false_ne_true)]
    show Vec.pairedSum ((as ++ fin q :: bs).filter fun y => !Arith.isInf y) - fin q = _
    rw [List.filter_append, List.filter_cons_of_pos (by rfl), hqa, hqb, ← List.map_cons,
      ← List.map_append, pairedSum_map_fin, fin_sub, List.sum_append, List.sum_cons]
    congr 1
    ring

/-- The bound that a row puts on a term is around the value of the term. -/
theorem impliedBound_around {row : UpperRow ExtRat} {r s a q : ℚ} (ha : a ≠ 0)
    (hrhs : fin s ≤ row.rhs) (hr : r + a * q ≤ s) :
    (0 < a → fin q ≤ (row.rhs - fin r) / fin a) ∧ (a < 0 → (row.rhs - fin r) / fin a ≤ fin q) := by
  cases hb : row.rhs with
  | fin b =>
      rw [hb, fin_le_fin] at hrhs
      have hdiv : (fin b - fin r) / fin a = fin ((b - r) / a) := by
        rw [fin_sub]
        show (if a = 0 then _ else fin ((b - r) / a)) = _
        rw [if_neg ha]
      rw [hdiv]
      constructor
      · intro hpos
        rw [fin_le_fin, le_div_iff₀ hpos]
        linarith
      · intro hneg
        rw [fin_le_fin, div_le_iff_of_neg hneg]
        linarith
  | posInf =>
      have hdiv : (posInf - fin r) / fin a = if a < 0 then negInf else posInf := rfl
      rw [hdiv]
      constructor
      · intro hpos
        rw [if_neg (not_lt.mpr hpos.le)]
        exact le_posInf_iff.mpr (fin_ne_nan q)
      · intro hneg
        rw [if_pos hneg]
        exact negInf_le_iff.mpr (fin_ne_nan q)
  | negInf => exact absurd (hb ▸ hrhs) (not_fin_le_negInf s)
  | nan => exact absurd (hb ▸ hrhs) not_le_nan

end Activities

section Tightenings

variable {x : List ℚ} {limits : Limits ExtRat} {k : Nat} {q : ℚ} {bound : ExtRat}
  {isIntegral : Bool}

/-- An upper bound that is not below the value does not become so by rounding it down. -/
theorem le_rounded_bound {e : ℚ} (he : 0 < e) (hle : fin q ≤ bound)
    (hwhole : isIntegral = true → ∃ n : ℤ, q = n) :
    fin q ≤ if isIntegral then Arith.floor (bound + fin e) else bound := by
  cases isIntegral with
  | false => exact hle
  | true =>
      obtain ⟨n, rfl⟩ := hwhole rfl
      cases bound with
      | fin b =>
          rw [fin_le_fin] at hle
          have hfloor : n ≤ (b + e).floor := Rat.le_floor_iff.mpr (by linarith)
          show fin n ≤ fin ((b + e).floor : ℚ)
          rw [fin_le_fin]
          exact_mod_cast hfloor
      | posInf => exact hle
      | negInf => exact absurd hle (not_fin_le_negInf _)
      | nan => exact absurd hle not_le_nan

theorem rounded_bound_le {e : ℚ} (he : 0 < e) (hle : bound ≤ fin q)
    (hwhole : isIntegral = true → ∃ n : ℤ, q = n) :
    (if isIntegral then Arith.ceil (bound - fin e) else bound) ≤ fin q := by
  cases isIntegral with
  | false => exact hle
  | true =>
      obtain ⟨n, rfl⟩ := hwhole rfl
      cases bound with
      | fin b =>
          rw [fin_le_fin] at hle
          have hceil : (b - e).ceil ≤ n := Rat.ceil_le_iff.mpr (by linarith)
          show (Arith.ceil (fin b - fin e) : ExtRat) ≤ fin n
          rw [fin_sub, ceil_fin, fin_le_fin]
          exact_mod_cast hceil
      | negInf => exact hle
      | posInf => exact absurd hle (not_posInf_le_fin _)
      | nan => exact absurd hle not_nan_le

theorem le_larger {y z : ExtRat} (hy : fin q ≤ y) (hz : z ≤ fin q) : fin q ≤ Arith.larger y z := by
  unfold Arith.larger
  split
  · rename_i hlt
    exact absurd (ExtRat.le_trans hz hy)
      (fun hle => (not_lt_iff (ne_nan_of_le hy).2 (ne_nan_of_le hz).1).mpr hle hlt)
  · exact hy

theorem smaller_le {y z : ExtRat} (hy : y ≤ fin q) (hz : fin q ≤ z) : Arith.smaller y z ≤ fin q := by
  unfold Arith.smaller
  split
  · rename_i hlt
    exact absurd (ExtRat.le_trans hy hz)
      (fun hle => (not_lt_iff (ne_nan_of_le hz).2 (ne_nan_of_le hy).1).mpr hle hlt)
  · exact hy

theorem not_lt_sub_of_between {y l : ExtRat} {e : ℚ} (he : 0 < e) (hl : l ≤ fin q)
    (hy : fin q ≤ y) : ¬ y < l - fin e := by
  cases l with
  | fin l' =>
      rw [fin_le_fin] at hl
      cases y with
      | fin y' =>
          rw [fin_le_fin] at hy
          rw [fin_sub, fin_lt_fin]
          linarith
      | posInf => exact not_posInf_lt
      | negInf => exact absurd hy (not_fin_le_negInf q)
      | nan => exact absurd hy not_le_nan
  | negInf => exact not_lt_negInf_sub _ _
  | posInf => exact absurd hl (not_posInf_le_fin q)
  | nan => exact absurd hl not_nan_le

theorem not_add_lt_of_between {y u : ExtRat} {e : ℚ} (he : 0 < e) (hu : fin q ≤ u)
    (hy : y ≤ fin q) : ¬ u + fin e < y := by
  cases u with
  | fin u' =>
      rw [fin_le_fin] at hu
      cases y with
      | fin y' =>
          rw [fin_le_fin] at hy
          rw [fin_add, fin_lt_fin]
          linarith
      | negInf => exact not_lt_negInf
      | posInf => exact absurd hy (not_posInf_le_fin q)
      | nan => exact absurd hy not_nan_le
  | posInf => exact not_posInf_add_lt _ _
  | negInf => exact absurd hu (not_fin_le_negInf q)
  | nan => exact absurd hu not_le_nan

/-- A bound that is not below the value of the point can be taken over. -/
theorem stays_lowerUpper (hfit : limits.Fit x) (hk : x[k]? = some q)
    (hwhole : isIntegral = true → ∃ n : ℤ, q = n) (hle : fin q ≤ bound) :
    Act.Stays (·.BeyondWords x.length) (·.Contains x) (lowerUpper limits k isIntegral bound)
      fun _ => True := by
  intro b hb
  obtain ⟨e, he, hpos⟩ := hfit.tol
  have hrounded := le_rounded_bound hpos hle hwhole
  unfold lowerUpper
  rcases hb.bounds_cases (Vec.at?_of_getElem? hk) with
    ⟨l, u, hbounds, hl, hu⟩ | ⟨fault, hbounds, hlong⟩
  · rw [hbounds, he]
    dsimp only
    generalize (if isIntegral then Arith.floor (bound + fin e) else bound) = bound' at hrounded ⊢
    by_cases htight : bound' < u - limits.margin isIntegral
    · rw [if_pos htight, if_neg (not_lt_sub_of_between hpos hl hrounded)]
      refine .inl ⟨_, _, rfl, ⟨hb.lower, ?_⟩, trivial⟩
      have hset := Vec.forall₂_set (r := fun u q => fin q ≤ u) (le_larger hrounded hl) k hb.upper
      obtain ⟨hlt, rfl⟩ := List.getElem?_eq_some_iff.mp hk
      rwa [List.set_getElem_self] at hset
    · rw [if_neg htight]
      exact .inl ⟨_, _, rfl, hb, trivial⟩
  · rw [hbounds]
    exact .inr ⟨_, _, rfl, hb, hlong⟩

theorem stays_raiseLower (hfit : limits.Fit x) (hk : x[k]? = some q)
    (hwhole : isIntegral = true → ∃ n : ℤ, q = n) (hle : bound ≤ fin q) :
    Act.Stays (·.BeyondWords x.length) (·.Contains x) (raiseLower limits k isIntegral bound)
      fun _ => True := by
  intro b hb
  obtain ⟨e, he, hpos⟩ := hfit.tol
  have hrounded := rounded_bound_le hpos hle hwhole
  unfold raiseLower
  rcases hb.bounds_cases (Vec.at?_of_getElem? hk) with
    ⟨l, u, hbounds, hl, hu⟩ | ⟨fault, hbounds, hlong⟩
  · rw [hbounds, he]
    dsimp only
    generalize (if isIntegral then Arith.ceil (bound - fin e) else bound) = bound' at hrounded ⊢
    by_cases htight : l + limits.margin isIntegral < bound'
    · rw [if_pos htight, if_neg (not_add_lt_of_between hpos hu hrounded)]
      refine .inl ⟨_, _, rfl, ⟨?_, hb.upper⟩, trivial⟩
      have hset := Vec.forall₂_set (r := fun l q => l ≤ fin q) (smaller_le hrounded hu) k hb.lower
      obtain ⟨hlt, rfl⟩ := List.getElem?_eq_some_iff.mp hk
      rwa [List.set_getElem_self] at hset
    · rw [if_neg htight]
      exact .inl ⟨_, _, rfl, hb, trivial⟩
  · rw [hbounds]
    exact .inr ⟨_, _, rfl, hb, hlong⟩

end Tightenings

section Rows

variable {x : List ℚ} {limits : Limits ExtRat} {row : UpperRow ExtRat}

theorem stays_tightenTerm (hfit : limits.Fit x) {k : Nat}
    {coef c : ExtRat} {v : ℚ} (hterm : TermAt x (k, coef) v) {activity : Activity ExtRat}
    (hresidual : activity.bounds c = true → ∃ r s : ℚ,
      (if Arith.isInf c then activity.finite else activity.finite - c) = fin r ∧ r + v ≤ s ∧
        fin s ≤ row.rhs) :
    Act.Stays (·.BeyondWords x.length) (·.Contains x) (row.tightenTerm limits activity k coef c)
      fun _ => True := by
  obtain ⟨a, q, hcoef, ha, hk, rfl⟩ := hterm
  dsimp only at hcoef hk
  subst hcoef
  unfold UpperRow.tightenTerm
  by_cases hbounds : activity.bounds c = true
  · obtain ⟨r, s, hr, hle, hrhs⟩ := hresidual hbounds
    obtain ⟨hupper, hlower⟩ := impliedBound_around ha hrhs hle
    obtain ⟨isIntegral, hint, hwhole⟩ :=
      Vec.forall₂_at? hfit.integral (Vec.at?_of_getElem? hk)
    have himplied : row.impliedBound activity (fin a) c = (row.rhs - fin r) / fin a := by
      unfold UpperRow.impliedBound
      rw [hr]
    rw [if_pos hbounds, himplied, Vec.get_eq_ok.mpr hint]
    refine Act.stays_ofExcept_bind (fun isIntegral' heq => ?_) fun e he => by cases he
    cases heq
    dsimp only
    by_cases hpos : 0 < a
    · rw [if_pos (show (0 : ExtRat) < fin a from (fin_lt_fin 0 a).mpr hpos)]
      exact stays_lowerUpper hfit hk hwhole (hupper hpos)
    · have hneg : a < 0 := lt_of_le_of_ne (not_lt.mp hpos) ha
      rw [if_neg (show ¬ (0 : ExtRat) < fin a from fun h => hpos ((fin_lt_fin 0 a).mp h))]
      exact stays_raiseLower hfit hk hwhole (hlower hneg)
  · rw [if_neg hbounds]
    exact Act.stays_pure trivial

/-- The terms of a row from some point on; `as` and `vs` belong to the terms before. -/
theorem stays_tightenTerms (hfit : limits.Fit x)
    {terms : List (Nat × ExtRat)} {as cs : List ExtRat} {vs ws : List ℚ}
    (hterms : List.Forall₂ (TermAt x) terms ws) (hcs : List.Forall₂ Below cs ws)
    (has : List.Forall₂ Below as vs) (hone : (Activity.of (as ++ cs)).infinite ≤ 1)
    (hrhs : fin (vs ++ ws).sum ≤ row.rhs) :
    Act.Stays (·.BeyondWords x.length) (·.Contains x)
      (row.tightenTerms limits (Activity.of (as ++ cs)) (terms.zip cs))
      fun ks => ∀ k ∈ ks, k < x.length := by
  induction hterms generalizing as cs vs with
  | nil =>
      cases hcs
      exact Act.stays_pure fun k hk => by cases hk
  | @cons term v terms ws hterm _ ih =>
      obtain ⟨k, coef⟩ := term
      cases hcs with
      | @cons c v cs ws hc hcs =>
          have hk : k < x.length := by
            obtain ⟨_, _, _, _, hk, _⟩ := hterm
            exact (List.getElem?_eq_some_iff.mp hk).1
          have hrest := ih hcs (List.rel_append has (.cons hc .nil))
            (by rwa [List.append_assoc]) (by rwa [List.append_assoc])
          rw [List.append_assoc] at hrest
          rw [List.zip_cons_cons]
          unfold UpperRow.tightenTerms
          refine Act.stays_bind (stays_tightenTerm hfit hterm fun hbounds => ?_) fun tightened _ => ?_
          · obtain ⟨r, hr, hle⟩ := residual_le has hc hcs hone hbounds
            exact ⟨r, _, hr, hle, hrhs⟩
          · refine Act.stays_bind hrest fun others hothers => Act.stays_pure ?_
            split
            · intro j hj
              rcases List.mem_cons.mp hj with rfl | hj
              · exact hk
              · exact hothers j hj
            · exact hothers

/-- **A row keeps its points.**  Propagating a row in a box around a point of the row leaves a box
around the point, and finds no domain empty. -/
theorem stays_propagate (hfit : limits.Fit x) (hrow : row.Admits x) :
    Act.Stays (·.BeyondWords x.length) (·.Contains x) (row.propagate limits)
      fun ks => ∀ k ∈ ks, k < x.length := by
  obtain ⟨vs, hterms, hrhs⟩ := hrow
  obtain ⟨e, he, hpos⟩ := hfit.tol
  unfold UpperRow.propagate
  refine Act.stays_get_bind fun box hbox => ?_
  have hcases := contributions_cases hbox hterms rfl
  refine Act.stays_ofExcept_bind (fun activity hactivity => ?_) fun fault hfault => ?_
  · unfold UpperRow.activity at hactivity
    obtain ⟨cs, hcs, hbelow⟩ | ⟨fault, hfault, -⟩ := hcases
    · rw [Act.exceptBind_of_ok hcs] at hactivity
      cases hactivity
      have hcheck : row.checkActivity limits box (Activity.of cs) = .ok () := by
        unfold UpperRow.checkActivity
        by_cases hnone : (Activity.of cs).infinite = 0
        · obtain ⟨s, hs, hle⟩ := finite_of_below hbelow hnone
          have hholds : Sense.atMost.holds (fin e) (fin s) row.rhs = true :=
            Sense.holds_of_relates (ExtRat.le_trans ((fin_le_fin _ _).mpr hle) hrhs) hpos
          have hlt : ¬ row.rhs + rowTolerance limits.tol row.rhs < (Activity.of cs).finite := by
            rw [he, hs]
            simpa [Sense.holds] using hholds
          rw [if_neg (by simp [hlt])]
          rfl
        · rw [if_neg (by simp [hnone])]
          rfl
      rw [hcheck]
      refine Act.stays_ofExcept_bind (fun _ _ => ?_) fun fault hfault => by cases hfault
      refine Act.stays_ite (fun _ => Act.stays_pure fun k hk => by cases hk) fun hmany => ?_
      exact stays_tightenTerms hfit hterms hbelow .nil (Nat.not_lt.mp hmany) hrhs
    · rw [hfault] at hactivity
      cases hactivity
  · unfold UpperRow.activity at hfault
    obtain ⟨cs, hcs, -⟩ | ⟨fault', hfault', hlong⟩ := hcases
    · rw [Act.exceptBind_of_ok hcs] at hfault
      cases hfault
    · rw [hfault'] at hfault
      cases hfault
      exact hlong

/-- The propagation of a row answers if the point is not too long. -/
theorem runs_propagate (hshort : x.length ≤ Power.two 63) (hfit : limits.Fit x)
    (hrow : row.Admits x) :
    Act.Runs (·.Contains x) (row.propagate limits)
      fun ks b => b.Contains x ∧ ∀ k ∈ ks, k < x.length :=
  ((stays_propagate hfit hrow).mono (fun _ hlong => Nat.not_lt.mpr hshort hlong.2)
    fun _ hks => hks).tries.runs

end Rows

end Propagation
end MipPump
