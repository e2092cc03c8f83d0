import MipPump.Proofs.Candidates
import MipPump.Proofs.VisitedRows
import MipPump.Rounding.Propagated

/-!
# Finite values in unbounded boxes

Bounds may be infinite, but a variable whose lower bound is `∞`, or whose upper bound is `-∞`, has
no finite value left.  In exact arithmetic propagation does not get there by itself: the bounds that
rows with finite data imply are finite, because infinite contributions are left out of the sums.  So
a variable is rounded to a finite value.

* `Box.Open J b`: the bounds in `b` are numbers, and no variable in `J` is held at an infinity.
* `keeps_open`: the propagation of a row with finite data keeps a box open.
* `finite_of_collectRows`: the rows of a propagator have finite data if those of the problem have.
* `exists_nearestValue`: a finite value is rounded to a finite value inside such bounds.
-/

namespace MipPump

open ExtRat

section Boxes

/-- The bounds are numbers or infinities, and the variables in `J` are not held at an infinity. -/
structure Box.Open (J : Nat → Prop) (b : Box ExtRat) : Prop where
  lower : ∀ l ∈ b.lb, l ≠ nan
  upper : ∀ u ∈ b.ub, u ≠ nan
  below : ∀ k, J k → b.lb[k]? ≠ some posInf
  above : ∀ k, J k → b.ub[k]? ≠ some negInf

variable {J : Nat → Prop} {b : Box ExtRat} {k : Nat} {l u : ExtRat}

theorem Box.Open.bounds (h : b.Open J) (hb : b.bounds k = .ok (l, u)) :
    (l ≠ nan ∧ u ≠ nan) ∧ (J k → l ≠ posInf ∧ u ≠ negInf) := by
  obtain ⟨-, hl, hu⟩ := Box.bounds_eq_ok.mp hb
  refine ⟨⟨h.lower l (Vec.mem_of_at? hl), h.upper u (Vec.mem_of_at? hu)⟩, fun hk => ⟨?_, ?_⟩⟩
  · rintro rfl
    exact h.below k hk (Vec.at?_natCast.symm.trans hl)
  · rintro rfl
    exact h.above k hk (Vec.at?_natCast.symm.trans hu)

theorem ne_some_of_set {xs : List ExtRat} {y z : ExtRat} (hset : ∀ j, J j → xs[j]? ≠ some z)
    (hy : J k → y ≠ z) : ∀ j, J j → (xs.set k y)[j]? ≠ some z := by
  intro j hj
  rw [List.getElem?_set]
  split
  · rename_i hkj
    subst hkj
    split
    · intro heq
      exact hy hj (Option.some.inj heq)
    · exact fun heq => by cases heq
  · exact hset j hj

theorem Box.Open.set_lb (h : b.Open J) (hl : l ≠ nan) (hk : J k → l ≠ posInf) :
    Box.Open J { b with lb := b.lb.set k l } where
  lower := by
    intro y hy
    rcases List.mem_or_eq_of_mem_set hy with hy | rfl
    · exact h.lower y hy
    · exact hl
  upper := h.upper
  below := ne_some_of_set h.below hk
  above := h.above

theorem Box.Open.set_ub (h : b.Open J) (hu : u ≠ nan) (hk : J k → u ≠ negInf) :
    Box.Open J { b with ub := b.ub.set k u } where
  lower := h.lower
  upper := by
    intro y hy
    rcases List.mem_or_eq_of_mem_set hy with hy | rfl
    · exact h.upper y hy
    · exact hu
  below := h.below
  above := ne_some_of_set h.above hk

/-- A variable can be set to a finite value. -/
theorem Box.Open.set (h : b.Open J) {v : ℚ} {b' : Box ExtRat}
    (hset : b.set k (fin v) (fin v) = .ok b') : b'.Open J := by
  obtain ⟨-, hl, hu⟩ := Box.set_eq_ok.mp hset
  obtain ⟨p, hp, hlb⟩ := Vec.setAt?_eq_some.mp hl
  obtain ⟨q, hq, hub⟩ := Vec.setAt?_eq_some.mp hu
  have hopen := (h.set_lb (k := p) (fin_ne_nan v) fun _ => by simp).set_ub (k := q) (fin_ne_nan v)
    fun _ => by simp
  rw [hlb, hub] at hopen
  exact hopen

end Boxes

/-- The coefficients and the right-hand sides are finite. -/
structure Rows.Finite (rows : Rows ExtRat) : Prop where
  coefficients : ∀ row ∈ rows.coefficients, ∃ a : List ℚ, row = a.map fin
  rhs : ∀ b ∈ rows.rhs, ∃ q : ℚ, b = fin q

namespace Propagation

section Rows

/-- The right-hand side and the coefficients are finite, and no coefficient is zero. -/
structure UpperRow.Finite (row : UpperRow ExtRat) : Prop where
  rhs : ∃ r : ℚ, row.rhs = fin r
  terms : ∀ term ∈ row.terms, ∃ a : ℚ, term.2 = fin a ∧ a ≠ 0

variable {J : Nat → Prop} {limits : Limits ExtRat} {e : ℚ} {row : UpperRow ExtRat}

theorem exists_roundedDown (he : limits.tol = fin e) (isIntegral : Bool) (q : ℚ) :
    ∃ q' : ℚ, limits.roundedDown isIntegral (fin q) = fin q' := by
  unfold Limits.roundedDown
  cases isIntegral with
  | true => exact ⟨_, by rw [if_pos rfl, he, fin_add, floor_fin]⟩
  | false => exact ⟨q, rfl⟩

theorem exists_roundedUp (he : limits.tol = fin e) (isIntegral : Bool) (q : ℚ) :
    ∃ q' : ℚ, limits.roundedUp isIntegral (fin q) = fin q' := by
  unfold Limits.roundedUp
  cases isIntegral with
  | true => exact ⟨_, by rw [if_pos rfl, he, fin_sub, ceil_fin]⟩
  | false => exact ⟨q, rfl⟩

theorem keeps_lowerUpper_open (he : limits.tol = fin e) (k : Nat) (isIntegral : Bool) (q : ℚ) :
    Act.Keeps (Box.Open J) (lowerUpper limits k isIntegral (fin q)) := by
  refine keeps_lowerUpper fun b l u hb hbounds _ _ => ?_
  obtain ⟨⟨hl, -⟩, -⟩ := hb.bounds hbounds
  obtain ⟨q', hq'⟩ := exists_roundedDown he isIntegral q
  rw [hq']
  refine hb.set_ub ?_ fun _ => ?_
  all_goals
    unfold Arith.larger
    split
  · exact hl
  · exact fin_ne_nan _
  · rename_i hlt
    rintro rfl
    exact not_lt_negInf hlt
  · simp

theorem keeps_raiseLower_open (he : limits.tol = fin e) (k : Nat) (isIntegral : Bool) (q : ℚ) :
    Act.Keeps (Box.Open J) (raiseLower limits k isIntegral (fin q)) := by
  refine keeps_raiseLower fun b l u hb hbounds _ _ => ?_
  obtain ⟨⟨-, hu⟩, -⟩ := hb.bounds hbounds
  obtain ⟨q', hq'⟩ := exists_roundedUp he isIntegral q
  rw [hq']
  refine hb.set_lb ?_ fun _ => ?_
  all_goals
    unfold Arith.smaller
    split
  · exact hu
  · exact fin_ne_nan _
  · rename_i hlt
    rintro rfl
    exact not_posInf_lt hlt
  · simp

/-- The bound that a row with finite data implies is finite. -/
theorem exists_impliedBound (hrhs : ∃ r : ℚ, row.rhs = fin r) {activity : Activity ExtRat}
    (hfinite : ∃ s : ℚ, activity.finite = fin s) {a : ℚ} (ha : a ≠ 0) {c : ExtRat} (hc : c ≠ nan) :
    ∃ q : ℚ, row.impliedBound activity (fin a) c = fin q := by
  obtain ⟨r, hr⟩ := hrhs
  obtain ⟨s, hs⟩ := hfinite
  have hresidual : ∃ p : ℚ, (if Arith.isInf c then fin s else fin s - c) = fin p := by
    cases c with
    | nan => exact absurd rfl hc
    | negInf => exact ⟨s, if_pos rfl⟩
    | posInf => exact ⟨s, if_pos rfl⟩
    | fin q => exact ⟨s - q, by rw [isInf_fin, if_neg Bool.false_ne_true, fin_sub]⟩
  obtain ⟨p, hp⟩ := hresidual
  unfold UpperRow.impliedBound
  rw [hr, hs]
  dsimp only
  rw [hp, fin_sub]
  exact ⟨(r - p) / a, if_neg ha⟩

theorem keeps_tightenTerms_open (he : limits.tol = fin e) (hrhs : ∃ r : ℚ, row.rhs = fin r)
    {activity : Activity ExtRat} (hfinite : ∃ s : ℚ, activity.finite = fin s)
    {terms : List ((Nat × ExtRat) × ExtRat)}
    (hterms : ∀ term ∈ terms, (∃ a : ℚ, term.1.2 = fin a ∧ a ≠ 0) ∧ term.2 ≠ nan) :
    Act.Keeps (Box.Open J) (row.tightenTerms limits activity terms) := by
  induction terms with
  | nil => exact Act.keeps_pure _
  | cons term rest ih =>
      obtain ⟨⟨k, coef⟩, c⟩ := term
      obtain ⟨⟨a, hcoef, ha⟩, hc⟩ := hterms _ (List.mem_cons_self ..)
      dsimp only at hcoef
      subst hcoef
      obtain ⟨q, hq⟩ := exists_impliedBound hrhs hfinite ha hc
      unfold UpperRow.tightenTerms UpperRow.tightenTerm
      rw [hq]
      refine Act.keeps_bind (Act.keeps_ite ?_ (Act.keeps_pure _)) fun _ =>
        Act.keeps_bind (ih fun term hterm => hterms term (List.mem_cons_of_mem _ hterm)) fun _ =>
          Act.keeps_pure _
      exact Act.keeps_bind (Act.keeps_ofExcept _) fun _ =>
        Act.keeps_ite (keeps_lowerUpper_open he _ _ _) (keeps_raiseLower_open he _ _ _)

theorem contribution_ne_nan {a : ℚ} (ha : a ≠ 0) {l u : ExtRat} (hl : l ≠ nan) (hu : u ≠ nan) :
    contribution (fin a) l u ≠ nan := by
  have hsign {q : ℚ} (hq : q ≠ 0) : infinityWithSign q ≠ nan := by
    unfold infinityWithSign
    rcases lt_or_gt_of_ne hq with hneg | hpos
    · rw [if_neg (not_lt.mpr hneg.le), if_pos hneg]
      nofun
    · rw [if_pos hpos]
      nofun
  have hmul {y : ExtRat} (hy : y ≠ nan) : fin a * y ≠ nan := by
    cases y with
    | nan => exact absurd rfl hy
    | fin q => exact fin_ne_nan _
    | posInf => exact hsign ha
    | negInf => exact hsign (neg_ne_zero.mpr ha)
  unfold contribution
  split
  · exact hmul hl
  · exact hmul hu

/-- The finite contributions have a finite sum. -/
theorem exists_finite_of_contributions {cs : List ExtRat} (hcs : ∀ c ∈ cs, c ≠ nan) :
    ∃ s : ℚ, (Activity.of cs).finite = fin s := by
  obtain ⟨qs, hqs⟩ : ∃ qs : List ℚ, cs.filter (fun y => !Arith.isInf y) = qs.map fin := by
    refine exists_map_fin fun y hy => ?_
    obtain ⟨hmem, hinf⟩ := List.mem_filter.mp hy
    cases y with
    | nan => exact absurd rfl (hcs _ hmem)
    | fin q => exact ⟨q, rfl⟩
    | posInf => cases hinf
    | negInf => cases hinf
  refine ⟨qs.sum, ?_⟩
  show Vec.pairedSum (cs.filter fun y => !Arith.isInf y) = _
  rw [hqs, pairedSum_map_fin]

/-- The contributions to a row with finite data are numbers. -/
theorem exists_activity_of_open {b : Box ExtRat} (hb : b.Open J) (hrow : row.Finite)
    {activity : Activity ExtRat} (h : row.activity b = .ok activity) :
    (∀ c ∈ activity.contributions, c ≠ nan) ∧ ∃ s : ℚ, activity.finite = fin s := by
  unfold UpperRow.activity at h
  obtain ⟨cs, hcs, h⟩ := Act.exceptBind_eq_ok.mp h
  cases h
  have hnumbers : ∀ c ∈ cs, c ≠ nan := by
    intro c hc
    obtain ⟨⟨k, coef⟩, hterm, hrun⟩ := Vec.exists_of_mem_left (Vec.mapM_eq_ok.mp hcs).flip hc
    obtain ⟨⟨l, u⟩, hbounds, hrun⟩ := Act.exceptBind_eq_ok.mp hrun
    cases hrun
    obtain ⟨a, hcoef, ha⟩ := hrow.terms _ hterm
    dsimp only at hcoef
    subst hcoef
    obtain ⟨⟨hl, hu⟩, -⟩ := hb.bounds hbounds
    exact contribution_ne_nan ha hl hu
  exact ⟨hnumbers, exists_finite_of_contributions hnumbers⟩

/-- **A row with finite data keeps a box open**, whether it answers or not. -/
theorem keeps_open (he : limits.tol = fin e) (hrow : row.Finite) :
    Act.Keeps (Box.Open J) (row.propagate limits) := by
  unfold UpperRow.propagate
  refine Act.keeps_get_bind fun box hbox => Act.keeps_ofExcept_bind fun activity hactivity => ?_
  obtain ⟨hnumbers, hfinite⟩ := exists_activity_of_open hbox hrow hactivity
  refine Act.keeps_bind (Act.keeps_ofExcept _) fun _ => Act.keeps_ite (Act.keeps_pure _)
    (keeps_tightenTerms_open he hrow.rhs hfinite fun term hterm => ?_)
  obtain ⟨hleft, hright⟩ := List.of_mem_zip hterm
  exact ⟨hrow.terms _ hleft, hnumbers _ hright⟩

end Rows

section Building

variable {rows : Rows ExtRat}

theorem mem_nonzeroTerms_map_fin {a : List ℚ} {term : Nat × ExtRat} :
    term ∈ nonzeroTerms (a.map fin) ↔ ∃ c : ℚ, a[term.1]? = some c ∧ c ≠ 0 ∧ term.2 = fin c := by
  rw [mem_nonzeroTerms, List.getElem?_map, Option.map_eq_some_iff]
  constructor
  · rintro ⟨⟨c, hc, hy⟩, hnonzero⟩
    refine ⟨c, hc, fun hzero => ?_, hy.symm⟩
    simp [← hy, Arith.nonzero, hzero] at hnonzero
  · rintro ⟨c, hc, hzero, hy⟩
    exact ⟨⟨c, hc, hy.symm⟩, by simp [hy, Arith.nonzero, hzero]⟩

/-- The rows of a propagator have finite data if those of the problem have. -/
theorem finite_of_collectRows {upper : List (UpperRow ExtRat)} (hrows : rows.Finite)
    (h : collectRows rows 0 rows.coefficients = .ok upper) :
    ∀ r ∈ upper, r.Finite ∧ r.terms ≠ [] := by
  intro r hr
  obtain ⟨row, hrow, hne, b, hb, hr⟩ := mem_collectRows h hr
  obtain ⟨a, rfl⟩ := hrows.coefficients row hrow
  obtain ⟨q, rfl⟩ := hrows.rhs b hb
  have hterms : ∀ term ∈ nonzeroTerms (a.map fin), ∃ c : ℚ, term.2 = fin c ∧ c ≠ 0 :=
    fun term hterm =>
      have ⟨c, _, hzero, hc⟩ := mem_nonzeroTerms_map_fin.mp hterm
      ⟨c, hc, hzero⟩
  rcases hr with rfl | rfl
  · exact ⟨⟨⟨q, rfl⟩, hterms⟩, hne⟩
  · refine ⟨⟨⟨-q, neg_fin q⟩, fun term hterm => ?_⟩, by simpa using hne⟩
    obtain ⟨⟨j, y⟩, hmem, rfl⟩ := List.mem_map.mp hterm
    obtain ⟨c, hc, hzero⟩ := hterms _ hmem
    dsimp only at hc
    subst hc
    exact ⟨-c, neg_fin c, neg_ne_zero.mpr hzero⟩

end Building

end Propagation

namespace Rounding

section Values

variable {lo hi l u : ExtRat}

/-- A finite value is moved to a finite value, unless a bound is on the wrong side. -/
theorem exists_clampKeep (hlo : lo ≠ nan ∧ lo ≠ posInf) (hhi : hi ≠ nan ∧ hi ≠ negInf) (q : ℚ) :
    ∃ v : ℚ, Arith.clampKeep lo hi (fin q) = fin v := by
  unfold Arith.clampKeep
  rw [isNaN_eq_false hlo.1, isNaN_eq_false hhi.1, if_neg Bool.false_ne_true,
    if_neg Bool.false_ne_true]
  obtain ⟨p, hp⟩ : ∃ p : ℚ, (if fin q < lo then lo else fin q) = fin p := by
    split
    · cases lo with
      | fin p => exact ⟨p, rfl⟩
      | nan => exact absurd rfl hlo.1
      | posInf => exact absurd rfl hlo.2
      | negInf => exact absurd ‹_› not_lt_negInf
    · exact ⟨q, rfl⟩
  dsimp only
  rw [hp]
  split
  · cases hi with
    | fin v => exact ⟨v, rfl⟩
    | nan => exact absurd rfl hhi.1
    | negInf => exact absurd rfl hhi.2
    | posInf => exact absurd ‹_› not_posInf_lt
  · exact ⟨p, rfl⟩

/-- **A finite value is rounded to a finite value** inside bounds that are open. -/
theorem exists_nearestValue (hl : l ≠ nan ∧ l ≠ posInf) (hu : u ≠ nan ∧ u ≠ negInf)
    (tieBreak : TieBreak) (eps q : ℚ) :
    ∃ v : ℚ, nearestValue Arith.clampKeep tieBreak (fin eps) (integralDomain (fin eps) (l, u)).1
      (integralDomain (fin eps) (l, u)).2 (fin q) = fin v := by
  have hlo : Arith.ceil (l - fin eps) ≠ nan ∧ Arith.ceil (l - fin eps) ≠ posInf := by
    cases l with
    | nan => exact absurd rfl hl.1
    | posInf => exact absurd rfl hl.2
    | _ => exact ⟨nofun, nofun⟩
  have hhi : Arith.floor (u + fin eps) ≠ nan ∧ Arith.floor (u + fin eps) ≠ negInf := by
    cases u with
    | nan => exact absurd rfl hu.1
    | negInf => exact absurd rfl hu.2
    | _ => exact ⟨nofun, nofun⟩
  have hclamp := exists_clampKeep hlo hhi
  obtain ⟨p, hp⟩ := hclamp q
  unfold nearestValue integralDomain
  dsimp only
  rw [hp, floor_fin]
  split_ifs
  all_goals exact hclamp _

end Values

end Rounding

end MipPump
