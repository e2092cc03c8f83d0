import MipPump.Proofs.FixedVariables
import MipPump.Proofs.SoundPropagation

/-!
# Rows that were visited

A queue of rows is worked through in order, and rows that are added wait behind those that are
there.  So a row that waits is visited before the cap on the visits can bite, if it does not wait
too far behind.  A visit to a row whose variables are all fixed decides the row: if no domain is
found empty, the row holds up to the tolerance.

* `visited_of_drain`: what every visit to a row shows is shown by the work on a queue.
* `mem_rowsOf_of_build`, `rowsOf_of_build`: the rows of a variable, and the visits for them.
* `mem_collectRows`, `exists_upperRows_of_collectRows`: the rows of a propagator, and the rows of
  the problem that they stand for.
* `UpperRow.Met tol x`: the row holds at the point `x` up to the tolerance.
* `met_of_propagate`: a visit to a row of fixed variables.
* `holds_of_met`: the upper rows of a row together decide the row, whatever its sense.
-/

namespace MipPump
namespace Propagation

section Visits

variable {R : Type} [Arith R] {I : Box R → Prop} {p : Propagator R}

theorem visit_eq_ok {s s' : Propagator R} {r : Int} {ks : List Nat}
    (h : Propagator.visit r s = .ok ks s') :
    ∃ row b, Vec.at? s.rows r = some row ∧ row.propagate s.limits s.box = .ok ks b ∧
      s' = { s with box := b } := by
  unfold Propagator.visit at h
  rw [Act.bind_of_ok (Act.get_apply s)] at h
  obtain ⟨row, _, hread, h⟩ := Act.bind_eq_ok.mp h
  obtain ⟨hrow, rfl⟩ := Act.ofExcept_eq_ok.mp hread
  obtain ⟨b, hrun, rfl⟩ := Act.zoom_eq_ok.mp h
  exact ⟨row, b, Vec.get_eq_ok.mp hrow, hrun, rfl⟩

omit [Arith R] in
/-- Rows that are added while tightened variables are followed wait at the end. -/
theorem exists_news_of_follow (s : Propagator R) (r : Int) {tightened : List Nat}
    {work work' : Changes R × Queue} (h : tightened.foldlM (s.follow r) work = .ok work') :
    ∃ news, work'.2.pending = work.2.pending ++ news := by
  induction tightened generalizing work with
  | nil =>
      cases h
      exact ⟨[], (List.append_nil _).symm⟩
  | cons k rest ih =>
      rw [List.foldlM_cons] at h
      obtain ⟨middle, hfollow, h⟩ := Act.exceptBind_eq_ok.mp h
      unfold Propagator.follow at hfollow
      obtain ⟨bounds, -, hfollow⟩ := Act.exceptBind_eq_ok.mp hfollow
      obtain ⟨ns, -, hfollow⟩ := Act.exceptBind_eq_ok.mp hfollow
      cases hfollow
      obtain ⟨news, hnews⟩ := ih h
      obtain ⟨first, -, hfirst⟩ := work.2.pending_pushAll r ns
      dsimp only at hnews
      exact ⟨first ++ news, by rw [hnews, hfirst, List.append_assoc]⟩

/-- **A row within reach is visited.**  If it waits among the first `fuel` rows, and the work
answers, then what a visit to it shows is true.  By induction on the visits: the row moves up by one
with each, because other rows are added behind it. -/
theorem visited_of_drain (hrows : ∀ row ∈ p.rows, Act.Keeps I (row.propagate p.limits)) {G : Prop}
    {r : Int} {row : UpperRow R} (hrow : Vec.at? p.rows r = some row)
    (hvisit : ∀ b ks b', I b → row.propagate p.limits b = .ok ks b' → G) (fuel : Nat)
    {changes changes' : Changes R} {q : Queue} {s s' : Propagator R} (hs : p.Holds I s)
    (hr : r ∈ q.pending.take fuel) (h : Propagator.drain fuel changes q s = .ok changes' s') :
    G := by
  induction fuel generalizing changes q s with
  | zero => simp at hr
  | succ fuel ih =>
      unfold Propagator.drain at h
      cases hpending : q.pending with
      | nil => simp [hpending] at hr
      | cons r₀ rest =>
          rw [hpending] at h hr
          dsimp only at h
          obtain ⟨tightened, s₁, hfirst, h⟩ := Act.bind_eq_ok.mp h
          rw [Act.bind_of_ok (Act.get_apply s₁)] at h
          obtain ⟨work, _, hwork, h⟩ := Act.bind_eq_ok.mp h
          obtain ⟨hfollow, rfl⟩ := Act.ofExcept_eq_ok.mp hwork
          rw [List.take_succ_cons, List.mem_cons] at hr
          rcases hr with rfl | hr
          · obtain ⟨row', b, hrow', hrun, -⟩ := visit_eq_ok hfirst
            obtain ⟨box, rfl⟩ := hs.same
            obtain rfl : row = row' := Option.some.inj (hrow.symm.trans hrow')
            exact hvisit box tightened b hs.inside hrun
          · obtain ⟨news, hnews⟩ := exists_news_of_follow _ r₀ hfollow
            have hs₁ : p.Holds I s₁ := (keeps_visit_of_rows hrows r₀).of_ok hs hfirst
            refine ih hs₁ ?_ h
            rw [hnews, List.take_append]
            exact List.mem_append_left _ hr

/-- The same of a propagation with enough visits for the rows it begins with. -/
theorem visited_of_propagate (hrows : ∀ row ∈ p.rows, Act.Keeps I (row.propagate p.limits))
    {G : Prop} {r : Int} {row : UpperRow R} (hrow : Vec.at? p.rows r = some row)
    (hvisit : ∀ b ks b', I b → row.propagate p.limits b = .ok ks b' → G)
    {numbers : List Int} (hr : r ∈ numbers) (hmany : (numbers.length : Int) ≤ p.maxVisits)
    {changes : Changes R} {s s' : Propagator R} (hs : p.Holds I s)
    (h : Propagator.propagate numbers s = .ok changes s') : G := by
  obtain ⟨box, rfl⟩ := hs.same
  unfold Propagator.propagate at h
  rw [Act.bind_of_ok (Act.get_apply _)] at h
  refine visited_of_drain hrows hrow hvisit _ hs ?_ h
  rw [List.take_of_length_le (by dsimp only; omega)]
  exact hr

end Visits

section Building

variable {R : Type} [Arith R] {rows : Rows R} {box : Box R} {kinds : List Kind} {tol epsilon : R}
  {maxRounds : Int} {p : Propagator R}

/-- The rows of a variable are numbered in order, and there are so many visits for each row. -/
theorem rowsOf_eq_of_build (h : Propagator.build rows box kinds tol epsilon maxRounds = .ok p)
    {k : Nat} {ns : List Nat} (hns : p.rowsOf[k]? = some ns) :
    ns = (p.rows.zipIdx.filter fun x => x.1.terms.any (·.1 == k)).map (·.2) ∧
      p.maxVisits = maxRounds * (max 1 p.rows.length : Nat) := by
  unfold Propagator.build at h
  dsimp only at h
  split at h
  · cases h
  · obtain ⟨upper, -, h⟩ := Act.exceptBind_eq_ok.mp h
    split at h
    · cases h
    · cases h
      dsimp only at hns ⊢
      rw [List.getElem?_map] at hns
      obtain ⟨j, hj, rfl⟩ := Option.map_eq_some_iff.mp hns
      obtain ⟨hlt, hget⟩ := List.getElem?_eq_some_iff.mp hj
      obtain rfl : k = j := by rwa [List.getElem_range] at hget
      exact ⟨rfl, rfl⟩

/-- Every row of a variable is among its rows. -/
theorem mem_rowsOf_of_build (h : Propagator.build rows box kinds tol epsilon maxRounds = .ok p)
    {k : Nat} {ns : List Nat} (hns : p.rowsOf[k]? = some ns) {r : Nat} {row : UpperRow R}
    (hrow : p.rows[r]? = some row) (hterm : ∃ term ∈ row.terms, term.1 = k) : r ∈ ns := by
  obtain ⟨rfl, -⟩ := rowsOf_eq_of_build h hns
  obtain ⟨term, hterm, rfl⟩ := hterm
  refine List.mem_map.mpr ⟨(row, r), List.mem_filter.mpr ⟨?_, ?_⟩, rfl⟩
  · exact List.mk_mem_zipIdx_iff_getElem?.mpr hrow
  · exact List.any_eq_true.mpr ⟨term, hterm, beq_self_eq_true _⟩

/-- Every row of a variable is among the rows that are propagated when it is fixed, and with one
round or more there are visits for all of them. -/
theorem rowsOf_of_build (h : Propagator.build rows box kinds tol epsilon maxRounds = .ok p)
    (hrounds : 1 ≤ maxRounds) {k : Nat} {ns : List Nat} (hns : p.rowsOf[k]? = some ns) :
    (ns.length : Int) ≤ p.maxVisits ∧
      ∀ (r : Nat) row, p.rows[r]? = some row → (∃ term ∈ row.terms, term.1 = k) → r ∈ ns := by
  refine ⟨?_, fun r row hrow hterm => mem_rowsOf_of_build h hns hrow hterm⟩
  obtain ⟨rfl, hvisits⟩ := rowsOf_eq_of_build h hns
  rw [List.length_map, hvisits]
  have hle := (List.length_filter_le (fun x => x.1.terms.any (·.1 == k)) p.rows.zipIdx).trans_eq
    List.length_zipIdx
  have hmany : ((max 1 p.rows.length : Nat) : Int) ≤ maxRounds * (max 1 p.rows.length : Nat) :=
    le_mul_of_one_le_left (Int.natCast_nonneg _) hrounds
  omega

end Building

section Collecting

variable {R : Type} [Arith R] {rows : Rows R} {r : UpperRow R} {upper : List (UpperRow R)}

theorem mem_nonzeroTerms {row : List R} {k : Nat} {y : R} :
    (k, y) ∈ nonzeroTerms row ↔ row[k]? = some y ∧ Arith.nonzero y = true := by
  unfold nonzeroTerms
  simp only [List.mem_map, List.mem_filter, Prod.exists, Prod.mk.injEq,
    List.mk_mem_zipIdx_iff_getElem?]
  constructor
  · rintro ⟨_, _, hentry, rfl, rfl⟩
    exact hentry
  · exact fun hentry => ⟨y, k, hentry, rfl, rfl⟩

/-- The columns of the nonzero entries are distinct. -/
theorem nodup_nonzeroTerms (row : List R) : ((nonzeroTerms row).map (·.1)).Nodup := by
  have hnames : (nonzeroTerms row).map (·.1) =
      (row.zipIdx.filter fun entry => Arith.nonzero entry.1).map (·.2) := by
    unfold nonzeroTerms
    rw [List.map_map]
    rfl
  have hall : (row.zipIdx.map (·.2)).Nodup := by
    have hrange : row.zipIdx.map (·.2) = List.range' 0 row.length := List.zipIdx_map_snd 0 row
    rw [hrange]
    exact List.nodup_range'
  rw [hnames]
  exact hall.sublist (List.filter_sublist.map _)

/-- An upper row is the row itself or its negation. -/
theorem mem_upperRows {terms : List (Nat × R)} {s : Sense} {rhs : Except (Fault R) R}
    (h : upperRows terms s rhs = .ok upper) (hr : r ∈ upper) :
    ∃ b, rhs = .ok b ∧ (r = ⟨terms, b⟩ ∨ r = ⟨terms.map fun (j, y) => (j, -y), -b⟩) := by
  unfold upperRows at h
  cases s with
  | other code =>
      cases h
      cases hr
  | atMost =>
      obtain ⟨b, hb, h⟩ := Act.exceptBind_eq_ok.mp h
      cases h
      exact ⟨b, hb, .inl (List.mem_singleton.mp hr)⟩
  | atLeast =>
      obtain ⟨b, hb, h⟩ := Act.exceptBind_eq_ok.mp h
      cases h
      exact ⟨b, hb, .inr (List.mem_singleton.mp hr)⟩
  | equal =>
      obtain ⟨b, hb, h⟩ := Act.exceptBind_eq_ok.mp h
      cases h
      exact ⟨b, hb, (List.mem_cons.mp hr).imp_right List.mem_singleton.mp⟩

/-- The upper rows that a numbered row stands for. -/
def Gives (rows : Rows R) (row : List R × Nat) (part : List (UpperRow R)) : Prop :=
  nonzeroTerms row.1 = [] ∧ part = [] ∨
    nonzeroTerms row.1 ≠ [] ∧ ∃ s, rows.senses[row.2]? = some s ∧
      upperRows (nonzeroTerms row.1) s (Vec.get rows.rhs (row.2 : Int)) = .ok part

/-- The rows of a propagator are collected row by row. -/
theorem exists_parts_of_collectRows {i : Nat} {rest : List (List R)}
    (h : collectRows rows i rest = .ok upper) :
    ∃ parts, List.Forall₂ (Gives rows) (rest.zipIdx i) parts ∧ upper = parts.flatten := by
  induction rest generalizing i upper with
  | nil =>
      cases h
      exact ⟨[], .nil, rfl⟩
  | cons row rest ih =>
      have htail {first : List (UpperRow R)} (hfirst : Gives rows (row, i) first)
          (h : (collectRows rows (i + 1) rest >>= fun others => pure (first ++ others)) =
            .ok upper) :
          ∃ parts, List.Forall₂ (Gives rows) ((row :: rest).zipIdx i) parts ∧
            upper = parts.flatten := by
        obtain ⟨others, hothers, h⟩ := Act.exceptBind_eq_ok.mp h
        cases h
        obtain ⟨parts, hparts, rfl⟩ := ih hothers
        exact ⟨first :: parts, .cons hfirst hparts, rfl⟩
      unfold collectRows at h
      dsimp only at h
      split at h
      · exact htail (.inl ⟨List.isEmpty_iff.mp ‹_›, rfl⟩) h
      · have hne : nonzeroTerms row ≠ [] := fun hnil => absurd (List.isEmpty_iff.mpr hnil) ‹_›
        obtain ⟨s, hs, h⟩ := Act.exceptBind_eq_ok.mp h
        obtain ⟨first, hfirst, h⟩ := Act.exceptBind_eq_ok.mp h
        refine htail (.inr ⟨hne, s, ?_, hfirst⟩) h
        exact Vec.at?_natCast.symm.trans (Vec.get_eq_ok.mp hs)

/-- An upper row of the propagator comes from a row with a nonzero coefficient. -/
theorem mem_collectRows (h : collectRows rows 0 rows.coefficients = .ok upper) (hr : r ∈ upper) :
    ∃ row ∈ rows.coefficients, nonzeroTerms row ≠ [] ∧ ∃ b ∈ rows.rhs,
      r = ⟨nonzeroTerms row, b⟩ ∨ r = ⟨(nonzeroTerms row).map fun (j, y) => (j, -y), -b⟩ := by
  obtain ⟨parts, hparts, rfl⟩ := exists_parts_of_collectRows h
  obtain ⟨part, hpart, hr⟩ := List.mem_flatten.mp hr
  obtain ⟨⟨row, k⟩, hrow, hgives⟩ := Vec.exists_of_mem_left hparts.flip hpart
  rcases hgives with ⟨-, rfl⟩ | ⟨hne, s, -, hgives⟩
  · cases hr
  · obtain ⟨b, hb, hr⟩ := mem_upperRows hgives hr
    exact ⟨row, (List.mem_zipIdx' hrow).2 ▸ List.getElem_mem _, hne, b,
      Vec.mem_of_at? (Vec.get_eq_ok.mp hb), hr⟩

/-- So are the columns of an upper row. -/
theorem nodup_of_collectRows (h : collectRows rows 0 rows.coefficients = .ok upper)
    (hr : r ∈ upper) : (r.terms.map (·.1)).Nodup := by
  obtain ⟨row, -, -, b, -, rfl | rfl⟩ := mem_collectRows h hr
  · exact nodup_nonzeroTerms row
  · rw [List.map_map]
    exact nodup_nonzeroTerms row

/-- The upper rows of a row with a nonzero coefficient are among those of the propagator. -/
theorem exists_upperRows_of_collectRows (h : collectRows rows 0 rows.coefficients = .ok upper)
    {k : Nat} {row : List R} (hrow : rows.coefficients[k]? = some row)
    (hne : nonzeroTerms row ≠ []) {s : Sense} (hs : rows.senses[k]? = some s) :
    ∃ part, upperRows (nonzeroTerms row) s (Vec.get rows.rhs (k : Int)) = .ok part ∧
      ∀ r ∈ part, r ∈ upper := by
  obtain ⟨parts, hparts, rfl⟩ := exists_parts_of_collectRows h
  have hnumbered : (rows.coefficients.zipIdx)[k]? = some (row, k) := by
    rw [List.getElem?_zipIdx, hrow, Nat.zero_add]
    rfl
  obtain ⟨part, hpart, hgives⟩ := Vec.forall₂_getElem? hparts hnumbered
  obtain ⟨hnil, -⟩ | ⟨-, s', hs', hgives⟩ := hgives
  · exact absurd hnil hne
  · obtain rfl : s = s' := Option.some.inj (hs.symm.trans hs')
    exact ⟨part, hgives, fun r hr => List.mem_flatten.mpr ⟨part, List.mem_of_getElem? hpart, hr⟩⟩

end Collecting

section Rows

open ExtRat

variable {x : List ℚ} {limits : Limits ExtRat} {row : UpperRow ExtRat} {b b' : Box ExtRat}
  {ks : List Nat}

/-- The row holds at the point up to the tolerance. -/
def UpperRow.Met (tol : ExtRat) (x : List ℚ) (row : UpperRow ExtRat) : Prop :=
  ∀ vs, List.Forall₂ (TermAt x) row.terms vs →
    Sense.atMost.holds tol (fin vs.sum) row.rhs = true

/-- The variables in `done` are fixed to their values at the point. -/
def FixedAt (x : List ℚ) (done : Nat → Prop) (b : Box ExtRat) : Prop :=
  ∀ k, done k → ∀ q, x[k]? = some q → b.Pinned k q

theorem contribution_self (a q : ℚ) : contribution (fin a) (fin q) (fin q) = fin (a * q) := by
  unfold contribution
  rw [fin_mul, ite_self]

/-- Terms of fixed variables contribute what they contribute at the point. -/
theorem contributions_of_fixed {terms : List (Nat × ExtRat)} {done : Nat → Prop}
    (hfixed : FixedAt x done b) (hdone : ∀ term ∈ terms, done term.1) {vs : List ℚ}
    (hterms : List.Forall₂ (TermAt x) terms vs) {cs : List ExtRat}
    (h : (terms.mapM fun (k, coef) => do
      let (lb, ub) ← b.bounds k
      pure (contribution coef lb ub)) = (.ok cs : Except (Fault ExtRat) (List ExtRat))) :
    cs = vs.map fin := by
  induction hterms generalizing cs with
  | nil =>
      cases h
      rfl
  | @cons term v terms vs hterm _ ih =>
      obtain ⟨k, coef⟩ := term
      have hpinned := hfixed k (hdone _ (List.mem_cons_self ..))
      obtain ⟨a, q, rfl, -, hq, rfl⟩ := hterm
      rw [List.mapM_cons] at h
      obtain ⟨c, hc, h⟩ := Act.exceptBind_eq_ok.mp h
      obtain ⟨rest, hrest, h⟩ := Act.exceptBind_eq_ok.mp h
      obtain ⟨⟨l, u⟩, hbounds, hc⟩ := Act.exceptBind_eq_ok.mp hc
      cases h
      cases hc
      obtain ⟨rfl, rfl⟩ := (hpinned q hq).read hbounds
      rw [contribution_self, List.map_cons,
        ih (fun term hterm => hdone term (List.mem_cons_of_mem _ hterm)) hrest]

/-- **A visit decides a row of fixed variables**: if it answers, the row holds up to the
tolerance. -/
theorem met_of_propagate {done : Nat → Prop} (hfixed : FixedAt x done b)
    (hdone : ∀ term ∈ row.terms, done term.1) (hne : row.terms ≠ [])
    (h : row.propagate limits b = .ok ks b') : row.Met limits.tol x := by
  intro vs hvs
  obtain ⟨activity, hactivity, hcheck, -⟩ := propagate_eq_ok.mp h
  unfold UpperRow.activity at hactivity
  obtain ⟨cs, hcs, hactivity⟩ := Act.exceptBind_eq_ok.mp hactivity
  cases hactivity
  obtain rfl := contributions_of_fixed hfixed hdone hvs hcs
  have hnone : (Activity.of (vs.map fin)).infinite = 0 := by
    show ((vs.map fin).filter Arith.isInf).length = 0
    rw [List.filter_eq_nil_iff.mpr (by simp)]
    rfl
  have hsum : (Activity.of (vs.map fin)).finite = fin vs.sum := by
    show Vec.pairedSum ((vs.map fin).filter fun y => !Arith.isInf y) = _
    rw [List.filter_eq_self.mpr (by simp), pairedSum_map_fin]
  unfold UpperRow.checkActivity at hcheck
  rw [hnone, hsum] at hcheck
  by_contra hviolated
  have hlt : row.rhs + rowTolerance limits.tol row.rhs < fin vs.sum := by
    simpa [Sense.holds] using hviolated
  rw [if_pos (by simp [hlt])] at hcheck
  split at hcheck
  · obtain ⟨_, -, hcheck⟩ := Act.exceptBind_eq_ok.mp hcheck
    cases hcheck
  · exact hne ‹_›

end Rows

section Senses

open ExtRat

variable {x : List ℚ}

/-- A row and its negation are met together if the row holds as an equation. -/
theorem holds_of_met {terms : List (Nat × ExtRat)} {vs : List ℚ}
    (hterms : List.Forall₂ (TermAt x) terms vs) {s : Sense} {eps rhs : ℚ}
    {upper : List (UpperRow ExtRat)} (hupper : upperRows terms s (.ok (fin rhs)) = .ok upper)
    (hmet : ∀ row ∈ upper, row.Met (fin eps) x) :
    s.holds (fin eps) (fin vs.sum) (fin rhs) = true := by
  have htol (r : ℚ) : rowTolerance (fin eps) (fin r) = fin (eps * max 1 |r|) := by
    rw [rowTolerance, abs_fin, one_eq, larger_fin, fin_mul]
  have hat (h : UpperRow.Met (fin eps) x ⟨terms, fin rhs⟩) : vs.sum ≤ rhs + eps * max 1 |rhs| := by
    have hholds := h vs hterms
    simpa [Sense.holds, htol] using hholds
  have hneg (h : UpperRow.Met (fin eps) x ⟨terms.map fun (j, y) => (j, -y), -fin rhs⟩) :
      rhs - eps * max 1 |rhs| ≤ vs.sum := by
    have hholds := h _ (termAt_neg hterms)
    have hsum : (vs.map fun v => -v).sum = -vs.sum := (List.sum_neg vs).symm
    rw [hsum] at hholds
    have hle : -vs.sum ≤ -rhs + eps * max 1 |rhs| := by
      simpa [Sense.holds, htol, neg_fin] using hholds
    linarith
  cases s with
  | atMost =>
      cases hupper
      have hle := hat (hmet _ (List.mem_singleton_self _))
      simpa [Sense.holds, htol] using hle
  | atLeast =>
      cases hupper
      have hle := hneg (hmet _ (List.mem_singleton_self _))
      simpa [Sense.holds, htol] using hle
  | equal =>
      cases hupper
      have hle := hat (hmet _ (List.mem_cons_self ..))
      have hge := hneg (hmet _ (List.mem_cons_of_mem _ (List.mem_singleton_self _)))
      have habs : |vs.sum - rhs| ≤ eps * max 1 |rhs| := abs_le.mpr ⟨by linarith, by linarith⟩
      simpa [Sense.holds, htol] using habs
  | other code => rfl

end Senses

end Propagation
end MipPump
