import MipPump.Proofs.QueueWork
import MipPump.Proofs.SoundRows

/-!
# Propagation keeps feasible points

A propagator around a feasible point stays around it, however long it works through its queue, and
it never stops with a fault.

* `Propagator.Around x m`: the propagators with `m` rows, all of them rows of the point `x`, and
  with `x` in their box.
* `Around.works`: no row stops with a fault.
* `around_of_build`: the propagator of a problem is around the points that satisfy its rows.
-/

namespace MipPump
namespace Propagation

open ExtRat

/-- The propagator has `m` rows and is around the point `x`. -/
structure Propagator.Around (x : List ℚ) (m : Nat) (p : Propagator ExtRat) : Prop where
  count : p.rows.length = m
  rows : ∀ row ∈ p.rows, row.Admits x
  rowsOf : p.rowsOf.length = x.length
  numbers : ∀ ns ∈ p.rowsOf, ∀ r ∈ ns, r < m
  limits : p.limits.Fit x
  inside : p.box.Contains x

section Work

variable {x : List ℚ} {m : Nat} {p : Propagator ExtRat}

/-- Around a point no row stops with a fault. -/
theorem Propagator.Around.works (h : p.Around x m) (hshort : x.length ≤ Power.two 63) :
    p.Works (fun _ => False) (·.Contains x) x.length where
  rows := fun row hrow => (runs_propagate hshort h.limits (h.rows row hrow)).tries
  rowsOf := h.rowsOf
  numbers := fun ns hns r hr => h.count ▸ h.numbers ns hns r hr

end Work

section Building

variable {x : List ℚ}

theorem exists_terms_after (before : List ℚ) {a rest : List ℚ} (hlen : a.length = rest.length) :
    ∃ vs : List ℚ,
      List.Forall₂ (TermAt (before ++ rest))
        ((((a.map fin).zipIdx before.length).filter fun (y, _) => Arith.nonzero y).map
          fun (y, j) => (j, y)) vs ∧
      vs.sum = dotRat a rest := by
  induction a generalizing before rest with
  | nil => exact ⟨[], .nil, by simp [dotRat]⟩
  | cons y a ih =>
      cases rest with
      | nil => cases hlen
      | cons q rest =>
          have hrest : a.length = rest.length := by simpa using hlen
          obtain ⟨vs, hterms, hsum⟩ := ih (before ++ [q]) hrest
          rw [List.append_assoc, List.singleton_append, List.length_append, List.length_singleton]
            at hterms
          have hdot : dotRat (y :: a) (q :: rest) = y * q + dotRat a rest := by simp [dotRat]
          rw [List.map_cons, List.zipIdx_cons]
          by_cases hy : y = 0
          · refine ⟨vs, ?_, by rw [hdot, hsum, hy, zero_mul, zero_add]⟩
            rw [List.filter_cons_of_neg (by simp [Arith.nonzero, hy])]
            exact hterms
          · refine ⟨y * q :: vs, ?_, by rw [hdot, List.sum_cons, hsum]⟩
            rw [List.filter_cons_of_pos (by simp [Arith.nonzero, hy]), List.map_cons]
            exact .cons ⟨y, q, rfl, hy, by simp, rfl⟩ hterms

/-- The nonzero terms of a row contribute its activity. -/
theorem exists_terms {a : List ℚ} (hlen : a.length = x.length) :
    ∃ vs : List ℚ, List.Forall₂ (TermAt x) (nonzeroTerms (a.map fin)) vs ∧ vs.sum = dotRat a x :=
  exists_terms_after [] hlen

theorem termAt_neg {terms : List (Nat × ExtRat)} {vs : List ℚ}
    (h : List.Forall₂ (TermAt x) terms vs) :
    List.Forall₂ (TermAt x) (terms.map fun (j, y) => (j, -y)) (vs.map fun v => -v) := by
  induction h with
  | nil => exact .nil
  | @cons term v terms vs hterm _ ih =>
      obtain ⟨j, coef⟩ := term
      obtain ⟨a, q, rfl, ha, hq, rfl⟩ := hterm
      exact .cons ⟨-a, q, rfl, neg_ne_zero.mpr ha, hq, (neg_mul a q).symm⟩ ih

theorem neg_le_neg_rhs {s : ℚ} {b : ExtRat} (h : b ≤ fin s) : fin (-s) ≤ -b := by
  cases b with
  | fin b' =>
      rw [fin_le_fin] at h
      rw [neg_fin, fin_le_fin]
      exact neg_le_neg h
  | negInf => exact le_posInf_iff.mpr (fin_ne_nan _)
  | posInf => exact absurd h (not_posInf_le_fin s)
  | nan => exact absurd h not_nan_le

/-- The upper rows of a row that holds are rows of the point. -/
theorem admits_of_upperRows {terms : List (Nat × ExtRat)} {vs : List ℚ}
    (hterms : List.Forall₂ (TermAt x) terms vs) {sense : Sense} {b : ExtRat}
    (hrelates : sense.Relates vs.sum b) {rhs : Except (Fault ExtRat) ExtRat} (hrhs : rhs = .ok b)
    {upper : List (UpperRow ExtRat)} (h : upperRows terms sense rhs = .ok upper) :
    ∀ row ∈ upper, row.Admits x := by
  have hneg : (vs.map fun v => -v).sum = -vs.sum := (List.sum_neg vs).symm
  have hnegated (hle : b ≤ fin vs.sum) :
      UpperRow.Admits ⟨terms.map fun (j, y) => (j, -y), -b⟩ x :=
    ⟨_, termAt_neg hterms, by rw [hneg]; exact neg_le_neg_rhs hle⟩
  subst hrhs
  cases sense with
  | atMost =>
      cases h
      intro row hrow
      rw [List.mem_singleton.mp hrow]
      exact ⟨vs, hterms, hrelates⟩
  | atLeast =>
      cases h
      intro row hrow
      rw [List.mem_singleton.mp hrow]
      exact hnegated hrelates
  | equal =>
      cases h
      have heq : fin vs.sum = b := hrelates
      have hself : fin vs.sum ≤ fin vs.sum := (fin_le_fin _ _).mpr (le_refl _)
      intro row hrow
      rcases List.mem_cons.mp hrow with rfl | hrow
      · exact ⟨vs, hterms, heq ▸ hself⟩
      · rw [List.mem_singleton.mp hrow]
        exact hnegated (heq ▸ hself)
  | other code =>
      cases h
      intro row hrow
      cases hrow

theorem admits_of_collectRows {rows : Rows ExtRat} (hrows : rows.SatisfiedBy x) {i : Nat}
    {rest : List (List ExtRat)} (hrest : rows.coefficients.drop i = rest)
    {upper : List (UpperRow ExtRat)} (h : collectRows rows i rest = .ok upper) :
    ∀ row ∈ upper, row.Admits x := by
  induction rest generalizing i upper with
  | nil =>
      cases h
      intro row hrow
      cases hrow
  | cons row rest ih =>
      have hi : rows.coefficients[i]? = some row := by
        rw [← List.head?_drop, hrest]
        rfl
      have hdrop : rows.coefficients.drop (i + 1) = rest := by
        rw [← List.drop_drop, hrest]
        rfl
      obtain ⟨a, s, b, rfl, hlen, hs, hb, hrelates⟩ := hrows i row hi
      obtain ⟨vs, hterms, hsum⟩ := exists_terms hlen
      rw [← hsum] at hrelates
      have htail {first : List (UpperRow ExtRat)} (hfirst : ∀ r ∈ first, r.Admits x)
          (h : (collectRows rows (i + 1) rest >>= fun others => pure (first ++ others)) =
            .ok upper) : ∀ r ∈ upper, r.Admits x := by
        obtain ⟨others, hothers, h⟩ := Act.exceptBind_eq_ok.mp h
        cases h
        intro r hr
        rcases List.mem_append.mp hr with hr | hr
        · exact hfirst r hr
        · exact ih hdrop hothers r hr
      unfold collectRows at h
      dsimp only at h
      split at h
      · exact htail (fun r hr => by cases hr) h
      · have hsense : (Vec.get rows.senses (i : Int) : Except (Fault ExtRat) Sense) = .ok s :=
          Vec.get_eq_ok.mpr (Vec.at?_of_getElem? hs)
        have hrhs : (Vec.get rows.rhs (i : Int) : Except (Fault ExtRat) ExtRat) = .ok b :=
          Vec.get_eq_ok.mpr (Vec.at?_of_getElem? hb)
        rw [Act.exceptBind_of_ok hsense] at h
        obtain ⟨first, hfirst, h⟩ := Act.exceptBind_eq_ok.mp h
        exact htail (admits_of_upperRows hterms hrelates hrhs hfirst) h

/-- The propagator of a problem, in any box around a point that satisfies the rows. -/
theorem around_of_build {rows : Rows ExtRat} {start box : Box ExtRat} {kinds : List Kind}
    {tol epsilon : ExtRat} {maxRounds : Int} {p : Propagator ExtRat}
    (h : Propagator.build rows start kinds tol epsilon maxRounds = .ok p)
    (hrows : rows.SatisfiedBy x) (hstart : start.lb.length = x.length)
    (hkinds : List.Forall₂ (fun k (q : ℚ) => Kind.isIntegral k = true → ∃ n : ℤ, q = n) kinds x)
    (htol : ∃ e : ℚ, tol = fin e ∧ 0 < e) (hbox : box.Contains x) :
    ∃ m, Propagator.Around x m { p with box } := by
  obtain ⟨hupper, hlimits, hrowsOf, hnumbers, -⟩ := build_eq_ok h
  refine ⟨p.rows.length, rfl, admits_of_collectRows hrows List.drop_zero hupper,
    hrowsOf.trans hstart, hnumbers, ?_, hbox⟩
  show p.limits.Fit x
  rw [hlimits]
  exact ⟨List.forall₂_map_left_iff.mpr hkinds, htol⟩

end Building

end Propagation
end MipPump
