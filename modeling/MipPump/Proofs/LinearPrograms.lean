import MipPump.Oracle.Relaxation
import MipPump.Proofs.Relaxations
import Mathlib.Data.List.GetD

/-!
# The points of a linear program

What the linear program of a relaxation asks of a rational point, in exact arithmetic.

* `LinearProgram.Admits p z` and `LinearProgram.costAt p z`: the points of a program and what they
  cost.
* `Relaxation.rows_holdAt_iff`: the rows of a relaxation hold where the rows of its instance do.
* `Auxiliary.rows_holdAt_iff`: the two rows of an auxiliary column say that its value is at least
  the distance that it stands for.
-/

namespace MipPump

open ExtRat

section Meaning

/-- A value is inside the bounds of a column. -/
def Column.Admits (c : Column ExtRat) (q : ℚ) : Prop := c.lb ≤ fin q ∧ fin q ≤ c.ub

/-- What the terms of a row add up to at a point. -/
def LinearRow.activityAt (row : LinearRow ExtRat) (z : List ℚ) : ExtRat :=
  Vec.plainSum (row.terms.map fun (j, a) => a * fin (z.getD j 0))

/-- The row holds at a point. -/
def LinearRow.HoldsAt (row : LinearRow ExtRat) (z : List ℚ) : Prop :=
  ∃ q, row.activityAt z = fin q ∧ row.sense.Relates q row.rhs

/-- The point is inside the bounds of the columns, and all rows hold. -/
structure LinearProgram.Admits (p : LinearProgram ExtRat) (z : List ℚ) : Prop where
  columns : List.Forall₂ Column.Admits p.columns z
  rows : ∀ row ∈ p.rows, row.HoldsAt z

/-- What a point costs. -/
def LinearProgram.costAt (p : LinearProgram ExtRat) (z : List ℚ) : ExtRat :=
  Vec.plainSum (List.zipWith (fun c q => c.cost * fin q) p.columns z)

/-- The distance between the value of a variable and the value its auxiliary column measures to. -/
def Auxiliary.gapAt (a : Auxiliary ExtRat) (x : List ℚ) : ExtRat :=
  Arith.abs (fin (x.getD a.column 0) - a.value)

/-- An instance whose columns and rows agree in number, with finite coefficients. -/
structure Instance.Consistent (m : Instance ExtRat) : Prop where
  lb : m.lb.length = m.numVars
  ub : m.ub.length = m.numVars
  coefficients : m.coefficients.length = m.numRows
  senses : m.senses.length = m.numRows
  rhs : m.rhs.length = m.numRows
  entries : ∀ row ∈ m.coefficients, ∃ a : List ℚ, row = a.map fin ∧ a.length = m.numVars

end Meaning

section Terms

/-- The terms of coefficients that are numbered from `k` on. -/
def termsFrom (k : Nat) (a : List ℚ) : List (Nat × ExtRat) :=
  (((a.map fin).zipIdx k).filter fun (x, _) => Arith.nonzero x).map fun (x, j) => (j, x)

theorem rowTerms_eq_ok {n : Nat} {a : List ℚ} {terms : List (Nat × ExtRat)}
    (h : Relaxation.rowTerms n (a.map fin) = .ok terms) : terms = termsFrom 0 a := by
  unfold Relaxation.rowTerms at h
  dsimp only at h
  split at h
  · cases h
  · cases h
    rfl

theorem termsFrom_cons (k : Nat) (q : ℚ) (a : List ℚ) :
    termsFrom k (q :: a) =
      if q = 0 then termsFrom (k + 1) a else (k, fin q) :: termsFrom (k + 1) a := by
  have hnonzero : Arith.nonzero (fin q) = decide (q ≠ 0) := by
    unfold Arith.nonzero
    rw [zero_eq, fin_beq_fin, decide_not]
  unfold termsFrom
  by_cases hq : q = 0
  · rw [List.map_cons, List.zipIdx_cons, List.filter_cons_of_neg (by simpa [hnonzero] using hq),
      if_pos hq]
  · rw [List.map_cons, List.zipIdx_cons, List.filter_cons_of_pos (by simpa [hnonzero] using hq),
      if_neg hq]
    rfl

/-- The terms from number `k` on add up to an inner product. -/
theorem sum_termsFrom (a : List ℚ) (k : Nat) (z : List ℚ) (h : k + a.length ≤ z.length) :
    ∃ qs : List ℚ, (termsFrom k a).map (fun (j, c) => c * fin (z.getD j 0)) = qs.map fin ∧
      qs.sum = dotRat a (z.drop k) := by
  induction a generalizing k with
  | nil => exact ⟨[], rfl, rfl⟩
  | cons q a ih =>
      rw [List.length_cons] at h
      obtain ⟨qs, hqs, hsum⟩ := ih (k + 1) (by omega)
      have hdot : dotRat (q :: a) (z.drop k) = q * z.getD k 0 + qs.sum := by
        rw [hsum, List.drop_eq_getElem_cons (by omega), List.getD_eq_getElem z 0 (by omega)]
        rfl
      rw [termsFrom_cons, hdot]
      by_cases hq : q = 0
      · refine ⟨qs, ?_, ?_⟩
        · rw [if_pos hq, hqs]
        · rw [hq, zero_mul, zero_add]
      · refine ⟨q * z.getD k 0 :: qs, ?_, List.sum_cons⟩
        rw [if_neg hq, List.map_cons, hqs]
        rfl

/-- At a point that begins with the values of the variables, a row adds up to its inner product
with them. -/
theorem activityAt_of_rowTerms {a x d : List ℚ} {terms : List (Nat × ExtRat)} {s : Sense}
    {b : ExtRat} (h : Relaxation.rowTerms a.length (a.map fin) = .ok terms)
    (hx : x.length = a.length) :
    LinearRow.activityAt ⟨terms, s, b⟩ (x ++ d) = fin (dotRat a x) := by
  obtain ⟨qs, hqs, hsum⟩ := sum_termsFrom a 0 (x ++ d) (by rw [List.length_append]; omega)
  have hdot : dotRat a (x ++ d) = dotRat a x := by
    unfold dotRat
    rw [← List.append_nil a, List.zipWith_append hx.symm, List.zipWith_nil_left, List.append_nil,
      List.append_nil]
  unfold LinearRow.activityAt
  rw [rowTerms_eq_ok h, hqs, plainSum_map_fin, hsum, List.drop_zero, hdot]

end Terms

namespace Relaxation

variable {m : Instance ExtRat} {timeLimit : Option ExtRat} {r : Relaxation ExtRat}

/-- What a relaxation is made of. -/
theorem ofInstance_eq_ok (h : ofInstance m timeLimit = .ok r) :
    r.numVars = m.numVars ∧
      ∃ rows, List.Forall₂ (fun i row => rowAt m i = .ok row) (List.range m.numRows) rows ∧
        r.rows = rows.filterMap id := by
  unfold ofInstance at h
  obtain ⟨p, -, h⟩ := Act.exceptBind_eq_ok.mp h
  dsimp only at h
  split at h
  · cases h
  · split at h
    · cases h
    · obtain ⟨rows, hrows, h⟩ := Act.exceptBind_eq_ok.mp h
      cases h
      exact ⟨rfl, rows, Vec.mapM_eq_ok.mp hrows, rfl⟩

/-- The row of a number is built from the data of that number; only a row whose sense has no meaning
is left out. -/
theorem rowAt_eq_ok (hm : m.Consistent) {i : Nat} {built : Option (LinearRow ExtRat)}
    (h : rowAt m i = .ok built) : ∃ (a : List ℚ) (s : Sense) (b : ExtRat),
      m.coefficients[i]? = some (a.map fin) ∧ a.length = m.numVars ∧ m.senses[i]? = some s ∧
      m.rhs[i]? = some b ∧
      ((built = none ∧ ∃ code, s = .other code) ∨
        ∃ terms, rowTerms m.numVars (a.map fin) = .ok terms ∧ built = some ⟨terms, s, b⟩) := by
  have hentry {α : Type} {xs : List α} {y : α}
      (hy : (Vec.get xs (i : Int) : Except (Fault ExtRat) α) = .ok y) : xs[i]? = some y := by
    rw [← Vec.at?_natCast]
    exact Vec.get_eq_ok.mp hy
  unfold rowAt at h
  obtain ⟨row, hrow, hrest⟩ := Act.exceptBind_eq_ok.mp h
  obtain ⟨a, rfl, ha⟩ := hm.entries row (List.mem_of_getElem? (hentry hrow))
  obtain ⟨terms, hterms, hrest⟩ := Act.exceptBind_eq_ok.mp hrest
  obtain ⟨s, hs, hrest⟩ := Act.exceptBind_eq_ok.mp hrest
  obtain ⟨b, hb, hrest⟩ := Act.exceptBind_eq_ok.mp hrest
  refine ⟨a, s, b, hentry hrow, ha, hentry hs, hentry hb, ?_⟩
  dsimp only at hrest
  split at hrest
  · cases hrest
    exact .inl ⟨rfl, _, rfl⟩
  · split at hrest
    · cases hrest
      exact .inr ⟨terms, hterms, rfl⟩
    · cases hrest

/-- The rows of a relaxation hold where the rows of its instance do. -/
theorem rows_holdAt_iff (h : ofInstance m timeLimit = .ok r) (hm : m.Consistent) {x : List ℚ}
    (hx : x.length = m.numVars) (d : List ℚ) :
    (∀ row ∈ r.rows, row.HoldsAt (x ++ d)) ↔ m.rows.SatisfiedBy x := by
  obtain ⟨-, rows, hrows, hr⟩ := ofInstance_eq_ok h
  have hbuilt {i : Nat} (hi : i < m.numRows) :
      ∃ built, rows[i]? = some built ∧ rowAt m i = .ok built := by
    have hi' : i < rows.length := by
      rw [← hrows.length_eq, List.length_range]
      exact hi
    refine ⟨rows[i], List.getElem?_eq_getElem hi', ?_⟩
    simpa using (List.forall₂_iff_get.mp hrows).2 i (by simpa using hi) hi'
  constructor
  · intro hall i row hrow
    have hi : i < m.numRows := by
      rw [← hm.coefficients]
      exact (List.getElem?_eq_some_iff.mp hrow).1
    obtain ⟨built, hget, hat⟩ := hbuilt hi
    obtain ⟨a, s, b, ha, hlen, hs, hb, hrest⟩ := rowAt_eq_ok hm hat
    refine ⟨a, s, b, Option.some.inj (hrow.symm.trans ha), hlen.trans hx.symm, hs, hb, ?_⟩
    rcases hrest with ⟨-, code, rfl⟩ | ⟨terms, hterms, rfl⟩
    · trivial
    · have hmem : ⟨terms, s, b⟩ ∈ r.rows := by
        rw [hr, List.mem_filterMap]
        exact ⟨_, List.mem_of_getElem? hget, rfl⟩
      obtain ⟨q, hq, hrelates⟩ := hall _ hmem
      rw [← hlen] at hterms
      rw [activityAt_of_rowTerms hterms (hx.trans hlen.symm)] at hq
      cases hq
      exact hrelates
  · intro hall row hmem
    rw [hr, List.mem_filterMap] at hmem
    obtain ⟨_, hmem, rfl⟩ := hmem
    obtain ⟨i, hget⟩ := List.mem_iff_getElem?.mp hmem
    have hi : i < m.numRows := by
      have hlt := (List.getElem?_eq_some_iff.mp hget).1
      rwa [← hrows.length_eq, List.length_range] at hlt
    obtain ⟨built, hget', hat⟩ := hbuilt hi
    cases hget.symm.trans hget'
    obtain ⟨a, s, b, ha, hlen, hs, hb, ⟨hnone, -⟩ | ⟨terms, hterms, hsome⟩⟩ := rowAt_eq_ok hm hat
    · cases hnone
    · cases hsome
      obtain ⟨a', s', b', ha', -, hs', hb', hrelates⟩ := hall i _ ha
      cases List.map_injective_iff.mpr (fun _ _ h => ExtRat.fin.inj h) ha'
      cases hs.symm.trans hs'
      cases hb.symm.trans hb'
      rw [← hlen] at hterms
      exact ⟨_, activityAt_of_rowTerms hterms (hx.trans hlen.symm), hrelates⟩

end Relaxation

section Auxiliaries

/-- The two rows of an auxiliary column say that its value is at least the distance. -/
theorem Auxiliary.rows_holdAt_iff {a : Auxiliary ExtRat} {x d : List ℚ} {k : Nat} {v : ℚ}
    (hv : a.value = fin v) (hcolumn : a.column < x.length) (hk : k < d.length) :
    (∀ row ∈ Relaxation.auxiliaryRows a (x.length + k), row.HoldsAt (x ++ d)) ↔
      a.gapAt x ≤ fin d[k] := by
  have hvar : (x ++ d).getD a.column 0 = x.getD a.column 0 := List.getD_append _ _ _ _ hcolumn
  have haux : (x ++ d).getD (x.length + k) 0 = d[k] := by
    rw [List.getD_append_right _ _ _ _ (by omega), Nat.add_sub_cancel_left,
      List.getD_eq_getElem d 0 hk]
  have hactivity (c : ℚ) (b : ExtRat) : LinearRow.activityAt
      ⟨[(x.length + k, fin 1), (a.column, fin c)], .atLeast, b⟩ (x ++ d) =
        fin (d[k] + c * x.getD a.column 0) := by
    show fin _ = fin _
    simp only [hvar, haux, fin.injEq]
    ring
  have hholds (c b : ℚ) : LinearRow.HoldsAt
      ⟨[(x.length + k, fin 1), (a.column, fin c)], .atLeast, fin b⟩ (x ++ d) ↔
        b ≤ d[k] + c * x.getD a.column 0 := by
    unfold LinearRow.HoldsAt
    rw [hactivity]
    constructor
    · rintro ⟨q, hq, hrelates⟩
      cases hq
      exact (fin_le_fin _ _).mp hrelates
    · intro hle
      exact ⟨_, rfl, (fin_le_fin _ _).mpr hle⟩
  have hrows : Relaxation.auxiliaryRows a (x.length + k) =
      [⟨[(x.length + k, fin 1), (a.column, fin (-1))], .atLeast, fin (-v)⟩,
        ⟨[(x.length + k, fin 1), (a.column, fin 1)], .atLeast, fin v⟩] := by
    rw [Relaxation.auxiliaryRows, hv]
    rfl
  have hgap : a.gapAt x = fin |x.getD a.column 0 - v| := by
    rw [Auxiliary.gapAt, hv, fin_sub, abs_fin]
  rw [hgap, fin_le_fin, abs_le, hrows, List.forall_mem_cons, List.forall_mem_singleton, hholds,
    hholds]
  constructor
  · rintro ⟨habove, hbelow⟩
    exact ⟨by linarith, by linarith⟩
  · rintro ⟨hbelow, habove⟩
    exact ⟨by linarith, by linarith⟩

end Auxiliaries

end MipPump
