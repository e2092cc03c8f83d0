import MipPump.Proofs.OpenBoxes
import MipPump.Proofs.PropagatedRounding

/-!
# Rows that rounding with propagation decides

No row is checked at the end of rounding with propagation.  A row of integer variables holds all the
same: its last variable is fixed while the others are fixed already, the row is visited then, and
fixed variables do not move any more.  So a candidate satisfies all rows of integer variables up to
the tolerance, whatever the order of the variables.

* `fixVariable_eq_ok`, `ranked_of_propagatedPoint`: what has happened when a variable was rounded,
  and when a point was.
* `Decided p x done q`: the variables in `done` are fixed to their values at the point `x`, and the
  rows of such variables are met.  `Decided.fix` is its step.
* `news_of_fixVariable`, `news_of_fixAll`: finite values are written, and rows are decided by them.
* `values_of_placed`: the values that were written are those of the candidate.
* `rows_hold_of_propagatedPoint`: the rows at a candidate.
-/

namespace MipPump

open ExtRat

section Boxes

variable {b b' : Box ExtRat}

/-- Setting the bounds of another variable is nothing to a pinned one. -/
theorem Box.Pinned.set {i : Int} {v : ℚ} (h : b.Pinned i v) {j : Int} {l u : ExtRat}
    (hset : b.set j l u = .ok b')
    (hne : Vec.position? b.lb.length i ≠ Vec.position? b.lb.length j) : b'.Pinned i v := by
  obtain ⟨-, hl, hu⟩ := Box.set_eq_ok.mp hset
  obtain ⟨p, hp, hlb⟩ := Vec.setAt?_eq_some.mp hl
  obtain ⟨q, hq, hub⟩ := Vec.setAt?_eq_some.mp hu
  have hmoved := (h.set_lb (hp ▸ hne) l).set_ub (k := q) ?_ u
  · rw [hlb, hub] at hmoved
    exact hmoved
  · rw [← hq, List.length_set, ← h.lengths]
    exact hne

end Boxes

section Meaning

/-- The row has a nonzero coefficient, and only integer variables have one. -/
structure IntegerRow (vars : List (Variable ExtRat)) (row : List ExtRat) : Prop where
  nonzero : ∃ c ∈ row, c ≠ 0
  integer : ∀ (k : Nat) c, row[k]? = some c → c ≠ 0 → ∃ v, vars[k]? = some v ∧
    v.kind.isIntegral = true

/-- The rows with coefficients in `P` hold at the point up to the tolerance. -/
def Rows.HoldWhere (P : List ExtRat → Prop) (tol : ExtRat) (point : List ExtRat)
    (rows : Rows ExtRat) : Prop :=
  ∀ (i : Nat) row s b, rows.coefficients[i]? = some row → rows.senses[i]? = some s →
    rows.rhs[i]? = some b → P row →
      ∃ activity, Vec.dot row point = .ok activity ∧ s.holds tol activity b = true

end Meaning

namespace Rounding

open Propagation

section Variables

variable {R : Type} [Arith R] {tieBreak : TieBreak} {eps : R} {t : Table R} {point : List R}

/-- A variable was rounded: its value was found in the bounds that were left, it was fixed in the
propagator, and the value was written. -/
theorem fixVariable_eq_ok {j : Int} {s s' : Scoped R × Fixing R}
    (h : fixVariable tieBreak eps t point j s = .ok () s') :
    ∃ l u y place value changes, s.2.propagator.box.bounds j = .ok (l, u) ∧
      Vec.at? point j = some y ∧ Vec.at? t.position j = some place ∧
      value = nearestValue Arith.clampKeep tieBreak eps (integralDomain eps (l, u)).1
        (integralDomain eps (l, u)).2 y ∧
      Propagator.fix j value s.2.propagator = .ok changes s'.2.propagator ∧
      s'.2.writes = (place, value) :: s.2.writes := by
  unfold fixVariable at h
  rw [Act.bind_of_ok (Act.get_apply s)] at h
  obtain ⟨⟨l, u⟩, _, hread, h⟩ := Act.bind_eq_ok.mp h
  obtain ⟨hbounds, rfl⟩ := Act.ofExcept_eq_ok.mp hread
  dsimp only at h
  split at h
  · cases h
  · obtain ⟨y, _, hread, h⟩ := Act.bind_eq_ok.mp h
    obtain ⟨hy, rfl⟩ := Act.ofExcept_eq_ok.mp hread
    obtain ⟨changes, s₁, hzoom, h⟩ := Act.bind_eq_ok.mp h
    obtain ⟨_, s₂, hscope, h⟩ := Act.bind_eq_ok.mp h
    obtain ⟨_, s₃, hfollow, h⟩ := Act.bind_eq_ok.mp h
    obtain ⟨place, _, hread, h⟩ := Act.bind_eq_ok.mp h
    obtain ⟨hplace, rfl⟩ := Act.ofExcept_eq_ok.mp hread
    obtain ⟨f, hf, rfl⟩ := Act.zoom_eq_ok.mp hzoom
    obtain ⟨q, hfix, rfl⟩ := Act.zoom_eq_ok.mp hf
    obtain ⟨scope, -, rfl⟩ := Act.zoom_eq_ok.mp hscope
    obtain ⟨scope', -, rfl⟩ := Act.zoom_eq_ok.mp hfollow
    obtain ⟨f', hwrite, rfl⟩ := Act.zoom_eq_ok.mp h
    cases hwrite
    exact ⟨l, u, y, place, _, changes, hbounds, Vec.get_eq_ok.mp hy, Vec.get_eq_ok.mp hplace, rfl,
      hfix, rfl⟩

/-- What has happened when a point was rounded. -/
theorem ranked_of_propagatedPoint {k : Ranker R} {ws ws' : Workspace R} {candidate : List R}
    (h : propagatedPoint tieBreak eps t k point ws = .ok candidate ws') :
    ∃ bounds order progress s,
      ((List.range t.numVars).mapM fun j : Nat => ws.domain.bounds j) = .ok bounds ∧
      k.rank t point none ws.progress = .ok order progress ∧
      fixAll tieBreak eps t point order ({ domain := ws.domain }, { propagator :=
        { ws.propagator with box := ⟨bounds.map (·.1), bounds.map (·.2)⟩ } }) = .ok () s ∧
      (Vec.placeAll (Vec.zeros t.numIntegers) s.2.writes.reverse : Except (Fault R) (List R)) =
        .ok candidate := by
  unfold propagatedPoint at h
  rw [Act.bind_of_ok (Act.get_apply ws)] at h
  obtain ⟨bounds, _, hread, h⟩ := Act.bind_eq_ok.mp h
  obtain ⟨hbounds, rfl⟩ := Act.ofExcept_eq_ok.mp hread
  dsimp only at h
  rw [Act.bind_of_ok (Act.set_apply _ _)] at h
  obtain ⟨order, w, hrank, h⟩ := Act.bind_eq_ok.mp h
  obtain ⟨writes, w', hfixing, h⟩ := Act.bind_eq_ok.mp h
  obtain ⟨hplace, -⟩ := Act.ofExcept_eq_ok.mp h
  obtain ⟨progress, hranked, rfl⟩ := Act.zoom_eq_ok.mp hrank
  obtain ⟨⟨d, f⟩, hscope, -⟩ := Act.zoom_eq_ok.mp hfixing
  obtain ⟨s, hbody⟩ := Scoped.within_eq_ok hscope
  obtain ⟨_, s', hall, hanswer⟩ := Act.bind_eq_ok.mp hbody
  cases hanswer
  exact ⟨bounds, order, progress, _, hbounds, hranked, hall, hplace⟩

/-- The variables were taken in some order. -/
theorem propagatedPoint_eq_ok {k : Ranker R} {ws ws' : Workspace R} {candidate : List R}
    (h : propagatedPoint tieBreak eps t k point ws = .ok candidate ws') :
    ∃ bounds order s,
      ((List.range t.numVars).mapM fun j : Nat => ws.domain.bounds j) = .ok bounds ∧
      order.Perm t.integers ∧
      fixAll tieBreak eps t point order ({ domain := ws.domain }, { propagator :=
        { ws.propagator with box := ⟨bounds.map (·.1), bounds.map (·.2)⟩ } }) = .ok () s ∧
      (Vec.placeAll (Vec.zeros t.numIntegers) s.2.writes.reverse : Except (Fault R) (List R)) =
        .ok candidate := by
  obtain ⟨bounds, order, progress, s, hbounds, hranked, hall, hplace⟩ := ranked_of_propagatedPoint h
  exact ⟨bounds, order, s, hbounds, Ranker.perm_of_rank hranked, hall, hplace⟩

end Variables

section Deciding

variable {x : List ℚ} {p q q' : Propagator ExtRat} {done done' : Nat → Prop}

/-- The rows have finite data, and there are visits for all rows of a variable. -/
structure Thorough (p : Propagator ExtRat) : Prop where
  tol : ∃ e : ℚ, p.limits.tol = fin e
  rows : ∀ row ∈ p.rows, row.Finite ∧ row.terms ≠ []
  visits : ∀ (k : Nat) ns, p.rowsOf[k]? = some ns → (ns.length : Int) ≤ p.maxVisits ∧
    ∀ (r : Nat) row, p.rows[r]? = some row → (∃ term ∈ row.terms, term.1 = k) → r ∈ ns

/-- Between two variables: those in `done` are fixed to their values at the point `x`, and the rows
that have no other variables are met there. -/
structure Decided (p : Propagator ExtRat) (x : List ℚ) (done : Nat → Prop)
    (q : Propagator ExtRat) : Prop where
  same : p.SameRows q
  lengths : q.box.lb.length = q.box.ub.length
  fixed : FixedAt x done q.box
  met : ∀ row ∈ p.rows, (∀ term ∈ row.terms, done term.1) → row.Met p.limits.tol x

theorem Decided.mono (h : Decided p x done q) (hdone : ∀ k, done' k → done k) :
    Decided p x done' q where
  same := h.same
  lengths := h.lengths
  fixed := fun k hk => h.fixed k (hdone k hk)
  met := fun row hrow hterms => h.met row hrow fun term hterm => hdone _ (hterms term hterm)

/-- Before the first variable nothing is fixed, and no row is without variables. -/
theorem decided_of_none (hp : Thorough p) (hsame : p.SameRows q)
    (hlengths : q.box.lb.length = q.box.ub.length) : Decided p x (fun _ => False) q where
  same := hsame
  lengths := hlengths
  fixed := fun _ hk => hk.elim
  met := fun row hrow hdone => by
    obtain ⟨term, rest, hcons⟩ := List.exists_cons_of_ne_nil (hp.rows row hrow).2
    exact (hdone term (hcons ▸ List.mem_cons_self ..)).elim

/-- **Fixing one more variable decides the rows that it completes.** -/
theorem Decided.fix (hp : Thorough p) (hq : Decided p x done q) {k : Nat} {v : ℚ}
    (hv : x[k]? = some v) {changes : Changes ExtRat}
    (h : Propagator.fix k (fin v) q = .ok changes q') :
    Decided p x (fun i => i = k ∨ done i) q' := by
  obtain ⟨e, he⟩ := hp.tol
  obtain ⟨start, rfl⟩ := hq.same
  obtain ⟨box, ns, -, hset, hns, hrun⟩ := fix_eq_ok h
  obtain ⟨⟨last, rfl⟩, hpinned, -⟩ :=
    pinned_of_fix (p := { p with box := start }) he hq.lengths h
  -- the variables that were fixed before are not touched, because their numbers differ
  have hfixed : FixedAt x (fun i => i = k ∨ done i) box := by
    intro i hi w hw
    by_cases hik : i = k
    · subst hik
      obtain rfl : v = w := Option.some.inj (hv.symm.trans hw)
      exact Box.pinned_of_set hq.lengths hset
    · have hold := hq.fixed i (hi.resolve_left hik) w hw
      refine hold.set hset fun heq => hik ?_
      obtain ⟨m, hm, -⟩ := Vec.at?_eq_some.mp hold.lower
      exact (Vec.eq_of_position?_natCast hm).symm.trans
        (Vec.eq_of_position?_natCast (heq.symm.trans hm))
  have hkeeps : ∀ row ∈ p.rows, Act.Keeps (FixedAt x fun i => i = k ∨ done i)
      (row.propagate p.limits) :=
    fun row _ b hb i hi w hw => keeps_pinned he row b (hb i hi w hw)
  have hbegin : p.Holds (FixedAt x fun i => i = k ∨ done i) { p with box } := ⟨⟨box, rfl⟩, hfixed⟩
  refine ⟨⟨last, rfl⟩, hpinned.lengths,
    ((keeps_propagate_of_rows hkeeps _).of_ok hbegin hrun).inside, fun row hrow hdone => ?_⟩
  by_cases hk : ∃ term ∈ row.terms, term.1 = k
  · obtain ⟨hmany, hmem⟩ := hp.visits k ns (Vec.at?_natCast.symm.trans hns)
    obtain ⟨r, hr⟩ := List.mem_iff_getElem?.mp hrow
    refine visited_of_propagate hkeeps (Vec.at?_of_getElem? hr)
      (fun b ks b' hb hvisit => met_of_propagate hb hdone (hp.rows row hrow).2 hvisit)
      (List.mem_map_of_mem (hmem r row hr hk)) ?_ hbegin hrun
    rw [List.length_map]
    exact hmany
  · exact hq.met row hrow fun term hterm =>
      (hdone term hterm).resolve_left fun heq => hk ⟨term, hterm, heq⟩

end Deciding

section Runs

variable {p : Propagator ExtRat} {J : Nat → Prop} {tieBreak : TieBreak} {eps : ℚ}
  {t : Table ExtRat} {point : List ℚ}

/-- The propagator stays open when a variable is fixed to a finite value. -/
theorem open_of_fix (hp : Thorough p) {q q' : Propagator ExtRat} (hq : p.Holds (Box.Open J) q)
    {k : Nat} {v : ℚ} {changes : Changes ExtRat}
    (h : Propagator.fix k (fin v) q = .ok changes q') : p.Holds (Box.Open J) q' := by
  obtain ⟨e, he⟩ := hp.tol
  obtain ⟨start, rfl⟩ := hq.same
  obtain ⟨box, ns, -, hset, -, hrun⟩ := fix_eq_ok h
  exact (keeps_propagate_of_rows (fun row hrow => keeps_open he (hp.rows row hrow).1) _).of_ok
    ⟨⟨box, rfl⟩, hq.inside.set hset⟩ hrun

/-- One variable is rounded to a finite value, and at a point with this value the rows that it
completes are met. -/
theorem news_of_fixVariable (hp : Thorough p) {k : Nat} (hk : J k)
    {s s' : Scoped ExtRat × Fixing ExtRat} (hs : p.Holds (Box.Open J) s.2.propagator)
    (h : fixVariable tieBreak (fin eps) t (point.map fin) k s = .ok () s') :
    ∃ w, PlacedIn t (fun _ value => ∃ v : ℚ, value = fin v) k w ∧
      s'.2.writes = w :: s.2.writes ∧ p.Holds (Box.Open J) s'.2.propagator ∧
      ∀ x done, ValueAt x k w.2 → Decided p x done s.2.propagator →
        Decided p x (fun i => i = k ∨ done i) s'.2.propagator := by
  obtain ⟨l, u, y, place, value, changes, hbounds, hy, hplace, hvalue, hfix, hwrites⟩ :=
    fixVariable_eq_ok h
  obtain ⟨⟨hl, hu⟩, hopen⟩ := hs.inside.bounds hbounds
  obtain ⟨hlow, hhigh⟩ := hopen hk
  obtain ⟨q, -, rfl⟩ := List.mem_map.mp (Vec.mem_of_at? hy)
  obtain ⟨v, hv⟩ := exists_nearestValue ⟨hl, hlow⟩ ⟨hu, hhigh⟩ tieBreak eps q
  obtain rfl : value = fin v := hvalue.trans hv
  refine ⟨(place, fin v), ⟨hplace, v, rfl⟩, hwrites, open_of_fix hp hs hfix, ?_⟩
  rintro x done ⟨w, hw, heq⟩ hdecided
  cases heq
  exact hdecided.fix hp (Vec.at?_natCast.symm.trans hw) hfix

/-- All variables of an order are rounded to finite values, and at a point with these values the
rows of the variables are met.  By induction on the order. -/
theorem news_of_fixAll (hp : Thorough p) {order : List Int}
    (horder : ∀ j ∈ order, ∃ k : Nat, j = k ∧ J k) {s s' : Scoped ExtRat × Fixing ExtRat}
    (hs : p.Holds (Box.Open J) s.2.propagator)
    (h : fixAll tieBreak (fin eps) t (point.map fin) order s = .ok () s') :
    ∃ news, List.Forall₂ (PlacedIn t fun _ value => ∃ v : ℚ, value = fin v) order news ∧
      s'.2.writes = news.reverse ++ s.2.writes ∧
      ∀ x done, List.Forall₂ (fun j w => ValueAt x j w.2) order news →
        Decided p x done s.2.propagator →
        Decided p x (fun i => (i : Int) ∈ order ∨ done i) s'.2.propagator := by
  induction order generalizing s with
  | nil =>
      cases h
      exact ⟨[], .nil, rfl, fun x done _ hdecided => hdecided.mono fun k hk =>
        hk.resolve_left List.not_mem_nil⟩
  | cons j rest ih =>
      obtain ⟨⟨k, rfl, hk⟩, hrest⟩ := List.forall_mem_cons.mp horder
      unfold fixAll at h
      obtain ⟨_, s₁, hfirst, h⟩ := Act.bind_eq_ok.mp h
      obtain ⟨w, hw, hwrites, hs₁, hstep⟩ := news_of_fixVariable hp hk hs hfirst
      obtain ⟨news, hnews, hall, hrun⟩ := ih hrest hs₁ h
      refine ⟨w :: news, .cons hw hnews, ?_, fun x done hvalues hdecided => ?_⟩
      · rw [hall, hwrites, List.reverse_cons, List.append_assoc, List.singleton_append]
      · cases hvalues with
        | cons hvalue hvalues =>
            refine (hrun x _ hvalues (hstep x done hvalue hdecided)).mono fun i hi => ?_
            rcases hi with hi | hi
            · rcases List.mem_cons.mp hi with hik | hi
              · exact .inr (.inl (Int.ofNat_inj.mp hik))
              · exact .inl hi
            · exact .inr (.inr hi)

end Runs

section Points

variable {vars : List (Variable ExtRat)} {t : Table ExtRat} {rows : Rows ExtRat}
  {p : Propagator ExtRat}

theorem thorough_of_build (hrows : rows.Finite) {start : Box ExtRat} {kinds : List Kind} {eps : ℚ}
    {epsilon : ExtRat} {maxRounds : Int} (hrounds : 1 ≤ maxRounds)
    (h : Propagator.build rows start kinds (fin eps) epsilon maxRounds = .ok p) : Thorough p := by
  obtain ⟨hupper, hlimits, -⟩ := build_eq_ok h
  exact ⟨⟨eps, by rw [hlimits]⟩, finite_of_collectRows hrows hupper,
    fun _ _ hns => rowsOf_of_build h hrounds hns⟩

/-- The bounds in force, as they are read before the rounding. -/
theorem open_of_bounds {d : Domain ExtRat} {n : Nat} {bounds : List (ExtRat × ExtRat)}
    (hread : ((List.range n).mapM fun j : Nat => d.bounds j) = .ok bounds)
    (hordered : List.Forall₂ (· ≤ ·) d.box.lb d.box.ub) {J : Nat → Prop}
    (hopen : ∀ k, J k → ∀ l u, d.bounds k = .ok (l, u) → l ≠ posInf ∧ u ≠ negInf) :
    Box.Open J ⟨bounds.map (·.1), bounds.map (·.2)⟩ := by
  have hbounds := Vec.mapM_eq_ok.mp hread
  have hnumbers : ∀ c ∈ bounds, c.1 ≠ nan ∧ c.2 ≠ nan := by
    intro c hc
    obtain ⟨j, -, hj⟩ := Vec.exists_of_mem_left hbounds.flip hc
    obtain ⟨-, hl, hu⟩ := Box.bounds_eq_ok.mp hj
    obtain ⟨u', -, hle⟩ := Vec.exists_of_mem_left hordered (Vec.mem_of_at? hl)
    obtain ⟨l', -, hle'⟩ := Vec.exists_of_mem_left hordered.flip (Vec.mem_of_at? hu)
    exact ⟨(ne_nan_of_le hle).1, (ne_nan_of_le hle').2⟩
  have hat {k : Nat} {c : ExtRat × ExtRat} (hc : bounds[k]? = some c) : d.bounds k = .ok c := by
    obtain ⟨j, hj, hjc⟩ := Vec.forall₂_getElem? hbounds.flip hc
    obtain ⟨hlt, rfl⟩ := List.getElem?_eq_some_iff.mp hj
    rwa [List.getElem_range] at hjc
  refine ⟨fun l hl => ?_, fun u hu => ?_, fun k hk hl => ?_, fun k hk hu => ?_⟩
  · obtain ⟨c, hc, rfl⟩ := List.mem_map.mp hl
    exact (hnumbers c hc).1
  · obtain ⟨c, hc, rfl⟩ := List.mem_map.mp hu
    exact (hnumbers c hc).2
  · rw [List.getElem?_map] at hl
    obtain ⟨c, hc, hlow⟩ := Option.map_eq_some_iff.mp hl
    exact (hopen k hk _ _ (hat hc)).1 hlow
  · rw [List.getElem?_map] at hu
    obtain ⟨c, hc, hhigh⟩ := Option.map_eq_some_iff.mp hu
    exact (hopen k hk _ _ (hat hc)).2 hhigh

/-- Finite values that were written for all integer variables are a finite candidate, and a point
with the values of the candidate has them. -/
theorem values_of_placed (h : t.Lists vars) (horder : InOrder vars) {order : List Int}
    (hperm : order.Perm t.integers) {news : List (Int × ExtRat)}
    (hnews : List.Forall₂ (PlacedIn t fun _ value => ∃ v : ℚ, value = fin v) order news)
    {candidate : List ExtRat}
    (hplace : (Vec.placeAll (Vec.zeros t.numIntegers) news : Except (Fault ExtRat) (List ExtRat)) =
      .ok candidate) :
    (∃ c : List ℚ, candidate = c.map fin ∧ c.length = t.numIntegers) ∧
      ∀ x : List ℚ, t.integerValues (x.map fin) = .ok candidate →
        List.Forall₂ (fun j w => ValueAt x j w.2) order news := by
  obtain ⟨hlen, hplaced⟩ := List.forall₂_iff_zip.mp hnews
  have hdistinct : ((order.zip news).map (·.1)).Nodup := by
    rw [List.map_fst_zip hlen.le]
    exact hperm.nodup_iff.mpr (h.nodup_integers horder)
  have hV : List.Forall₂ (PlacedIn t fun j value => (∃ v : ℚ, value = fin v) ∧
      ∀ w, (j, w) ∈ order.zip news → w.2 = value) order news := by
    refine List.forall₂_iff_zip.mpr ⟨hlen, fun {j w} hw => ?_⟩
    refine ⟨(hplaced hw).1, (hplaced hw).2, fun w' hw' => ?_⟩
    cases List.inj_on_of_nodup_map hdistinct hw' hw rfl
    rfl
  obtain ⟨candidate', hvalues, -, hplace'⟩ :=
    exists_placeAll_of_placed h (h.distinct horder) hperm hV
  obtain rfl : candidate' = candidate :=
    Except.ok.inj ((hplace' _ List.length_replicate).symm.trans hplace)
  constructor
  · obtain ⟨c, rfl⟩ : ∃ c : List ℚ, candidate' = c.map fin := exists_map_fin fun y hy =>
      have ⟨_, _, hy, _⟩ := Vec.exists_of_mem_left hvalues.flip hy
      hy
    have hcount := hvalues.length_eq
    rw [List.length_map] at hcount
    exact ⟨c, rfl, hcount.symm⟩
  · intro x hx
    refine List.forall₂_iff_zip.mpr ⟨hlen, fun {j w} hw => ?_⟩
    have hpick := List.forall₂_iff_zip.mp (Vec.pick_eq_ok.mp hx)
    have hboth := List.forall₂_iff_zip.mpr ⟨hpick.1, fun {i c} hic =>
      And.intro (hpick.2 hic) ((List.forall₂_iff_zip.mp hvalues).2 hic)⟩
    obtain ⟨c, -, hat, -, hagree⟩ :=
      Vec.exists_of_mem_left hboth (hperm.mem_iff.mp (List.of_mem_zip hw).1)
    obtain ⟨m, hm, hc⟩ := Vec.at?_eq_some.mp hat
    rw [List.length_map] at hm
    rw [List.getElem?_map] at hc
    obtain ⟨q, hq, rfl⟩ := Option.map_eq_some_iff.mp hc
    exact ⟨q, Vec.at?_eq_some.mpr ⟨m, hm, hq⟩, hagree w hw⟩

/-- Rows of fixed variables hold up to the tolerance, whatever their sense. -/
theorem holdWhere_of_decided (hrows : rows.Finite)
    (hupper : collectRows rows 0 rows.coefficients = .ok p.rows) {eps : ℚ}
    (htol : p.limits.tol = fin eps) {x : List ℚ}
    (hwidth : ∀ row ∈ rows.coefficients, row.length = x.length) {done : Nat → Prop}
    {q : Propagator ExtRat} (hdecided : Decided p x done q) {P : List ExtRat → Prop}
    (hP : ∀ row, P row → (∃ c ∈ row, c ≠ 0) ∧ ∀ (k : Nat) c, row[k]? = some c → c ≠ 0 → done k) :
    rows.HoldWhere P (fin eps) (x.map fin) := by
  intro i row s b hrow hs hb hProw
  obtain ⟨⟨c, hc, hzero⟩, hdone⟩ := hP row hProw
  have hlen := hwidth row (List.mem_of_getElem? hrow)
  obtain ⟨a, rfl⟩ := hrows.coefficients row (List.mem_of_getElem? hrow)
  obtain ⟨r, rfl⟩ := hrows.rhs b (List.mem_of_getElem? hb)
  rw [List.length_map] at hlen
  refine ⟨_, dot_map_fin a x hlen, ?_⟩
  obtain ⟨vs, hvs, hsum⟩ := exists_terms (x := x) hlen
  have hne : nonzeroTerms (a.map fin) ≠ [] := by
    obtain ⟨k, hk⟩ := List.mem_iff_getElem?.mp hc
    obtain ⟨d, hd, rfl⟩ := Option.map_eq_some_iff.mp (List.getElem?_map .. ▸ hk)
    exact List.ne_nil_of_mem (mem_nonzeroTerms_map_fin.mpr
      (⟨d, hd, fun h => hzero (congrArg fin h), rfl⟩ : ∃ c, a[(k, fin d).1]? = some c ∧ _))
  obtain ⟨part, hpart, hmem⟩ := exists_upperRows_of_collectRows hupper hrow hne hs
  have hrhs : (Vec.get rows.rhs (i : Int) : Except (Fault ExtRat) ExtRat) = .ok (fin r) :=
    Vec.get_eq_ok.mpr (Vec.at?_of_getElem? hb)
  have hterms : ∀ term ∈ nonzeroTerms (a.map fin), done term.1 := fun term hterm => by
    obtain ⟨d, hd, hdzero, -⟩ := mem_nonzeroTerms_map_fin.mp hterm
    refine hdone term.1 (fin d) ?_ fun h => hdzero (fin.inj h)
    rw [List.getElem?_map, hd]
    rfl
  rw [← hsum]
  refine holds_of_met hvs (hrhs ▸ hpart) fun upper hup =>
    htol ▸ hdecided.met upper (hmem upper hup) ?_
  obtain ⟨_, -, rfl | rfl⟩ := mem_upperRows hpart hup
  · exact hterms
  · intro term hterm
    obtain ⟨term', hterm', rfl⟩ := List.mem_map.mp hterm
    exact hterms term' hterm'

/-- **What rounding with propagation guarantees.**  If a finite point is rounded, then the candidate
is finite, and it satisfies every row of integer variables up to the tolerance, whatever values the
other variables take.  So if all variables are integer, it satisfies every row with a nonzero
coefficient as the check of full points asks.  No integer variable may be held at an infinity. -/
theorem rows_hold_of_propagatedPoint (h : t.Lists vars) (horder : InOrder vars)
    (hwidth : ∀ row ∈ rows.coefficients, row.length = vars.length) (hrows : rows.Finite)
    {start : Box ExtRat} {kinds : List Kind} {eps : ℚ} {epsilon : ExtRat} {maxRounds : Int}
    (hrounds : 1 ≤ maxRounds)
    (hbuild : Propagator.build rows start kinds (fin eps) epsilon maxRounds = .ok p)
    {ws : Workspace ExtRat} (hp : p.SameRows ws.propagator)
    (hbounds : List.Forall₂ (· ≤ ·) ws.domain.box.lb ws.domain.box.ub)
    (hopen : ∀ j ∈ t.integers, ∀ l u, ws.domain.bounds j = .ok (l, u) → l ≠ posInf ∧ u ≠ negInf)
    {tieBreak : TieBreak} {k : Ranker ExtRat} {point : List ℚ} {candidate : List ExtRat}
    {ws' : Workspace ExtRat}
    (hround : propagatedPoint tieBreak (fin eps) t k (point.map fin) ws = .ok candidate ws') :
    (∃ c : List ℚ, candidate = c.map fin ∧ c.length = t.numIntegers) ∧
      (∀ x : List ℚ, x.length = vars.length → t.integerValues (x.map fin) = .ok candidate →
        rows.HoldWhere (IntegerRow vars) (fin eps) (x.map fin)) ∧
      ((∀ v ∈ vars, v.kind.isIntegral = true) →
        rows.HoldWhere (fun row => ∃ c ∈ row, c ≠ 0) (fin eps) candidate) := by
  obtain ⟨bounds, order, s, hread, hperm, hall, hplace⟩ := propagatedPoint_eq_ok hround
  have hthorough := thorough_of_build hrows hrounds hbuild
  obtain ⟨hupper, hlimits, -⟩ := build_eq_ok hbuild
  have hnumbers : ∀ j ∈ order, ∃ i : Nat, j = i ∧ (i : Int) ∈ t.integers := fun j hj => by
    have hint := hperm.mem_iff.mp hj
    obtain ⟨i, rfl, -⟩ := h.inRange_integers horder j hint
    exact ⟨i, rfl, hint⟩
  obtain ⟨news, hnews, hwrites, hdecides⟩ :=
    news_of_fixAll (J := fun i => (i : Int) ∈ t.integers) hthorough hnumbers
      ⟨hp.withBox _, open_of_bounds hread hbounds fun i hi => hopen i hi⟩ hall
  rw [hwrites, List.append_nil, List.reverse_reverse] at hplace
  obtain ⟨⟨c, hc, hcount⟩, hvalues⟩ := values_of_placed h horder hperm hnews hplace
  have hhold (x : List ℚ) (hx : x.length = vars.length)
      (hpick : t.integerValues (x.map fin) = .ok candidate) :
      rows.HoldWhere (IntegerRow vars) (fin eps) (x.map fin) := by
    have hdecided := hdecides x (fun _ => False) (hvalues x hpick)
      (decided_of_none hthorough (hp.withBox _) (by simp))
    refine holdWhere_of_decided hrows hupper (by rw [hlimits])
      (fun row hrow => (hwidth row hrow).trans hx.symm) hdecided fun row hrow => ?_
    refine ⟨hrow.nonzero, fun i c hi hzero => .inl (hperm.mem_iff.mpr ?_)⟩
    obtain ⟨v, hv, hint⟩ := hrow.integer i c hi hzero
    rw [h.integers, ← index_of_getElem? horder hv]
    exact List.mem_map_of_mem (List.mem_filter.mpr ⟨List.mem_of_getElem? hv, hint⟩)
  refine ⟨⟨c, hc, hcount⟩, hhold, fun hints i row s b hrow hs hb hne => ?_⟩
  have hall : vars.filter (·.kind.isIntegral) = vars := List.filter_eq_self.mpr hints
  have hlen : c.length = vars.length := by rw [hcount, h.numIntegers_eq, hall]
  have hself : t.integerValues (c.map fin) = .ok candidate := by
    rw [integerValues_map_fin h horder hlen, chosen_of_all hlen hints, hc]
  rw [hc]
  refine hhold c hlen hself i row s b hrow hs hb ⟨hne, fun j y hj hy => ?_⟩
  have hlt : j < vars.length := by
    rw [← hwidth row (List.mem_of_getElem? hrow)]
    exact (List.getElem?_eq_some_iff.mp hj).1
  exact ⟨vars[j], List.getElem?_eq_getElem hlt, hints _ (List.getElem_mem hlt)⟩

/-- The rounding of a point in the bounds of its variables. -/
def roundingOf (vars : List (Variable ExtRat)) (rows : Rows ExtRat) (eps : ℚ) (point : List ℚ) :
    Except (Fault ExtRat) (List ExtRat) := do
  let t ← Table.ofVariables vars
  let box : Box ExtRat := ⟨t.lb, t.ub⟩
  let propagator ← Propagator.build rows box t.kinds (fin eps) defaultEpsilon defaultRounds
  let progress ← Progress.start {} t.numIntegers
  let ranker ← Ranker.make .displacement t none 0 (fin eps)
  ((propagatedPoint .range (fin eps) t ranker (point.map fin)).split
    { domain := { box }, progress, propagator }).1

theorem roundingOf_eq_ok {eps : ℚ} {point : List ℚ} {candidate : List ExtRat}
    (h : roundingOf vars rows eps point = .ok candidate) :
    ∃ t p progress k ws', Table.ofVariables vars = .ok t ∧
      Propagator.build rows ⟨t.lb, t.ub⟩ t.kinds (fin eps) defaultEpsilon defaultRounds = .ok p ∧
      propagatedPoint .range (fin eps) t k (point.map fin)
        ⟨{ box := ⟨t.lb, t.ub⟩ }, progress, p⟩ = .ok candidate ws' := by
  unfold roundingOf at h
  obtain ⟨t, ht, h⟩ := Act.exceptBind_eq_ok.mp h
  obtain ⟨p, hp, h⟩ := Act.exceptBind_eq_ok.mp h
  obtain ⟨progress, -, h⟩ := Act.exceptBind_eq_ok.mp h
  obtain ⟨k, -, h⟩ := Act.exceptBind_eq_ok.mp h
  obtain ⟨ws', hround⟩ := Act.exists_of_split h
  exact ⟨t, p, progress, k, ws', ht, hp, hround⟩

theorem exists_of_roundingOf {eps : ℚ} {point : List ℚ} {candidate : List ExtRat}
    (h : roundingOf vars rows eps point = .ok candidate) :
    ∃ t p k ws ws', t.Lists vars ∧ ws.domain.box = ⟨vars.map (·.lb), vars.map (·.ub)⟩ ∧
      Propagator.build rows ws.domain.box t.kinds (fin eps) defaultEpsilon defaultRounds = .ok p ∧
      p.SameRows ws.propagator ∧
      propagatedPoint .range (fin eps) t k (point.map fin) ws = .ok candidate ws' := by
  obtain ⟨t, p, progress, k, ws', ht, hp, hround⟩ := roundingOf_eq_ok h
  have hlists := Table.lists_of_ofVariables ht
  refine ⟨t, p, k, _, ws', hlists, ?_, hp, Propagator.SameRows.refl p, hround⟩
  rw [← hlists.lb, ← hlists.ub]

/-- Two integer variables `a` and `b` with the row `2a + 3b ≤ 6`, and a free variable `c` with the
row `a - c = 1`. -/
def knapsack : List (Variable ExtRat) × Rows ExtRat :=
  ( [ { index := 0, lb := .fin 0, ub := .posInf, kind := .integer, cost := .fin 1 }
    , { index := 1, lb := .fin 0, ub := .fin 3, kind := .integer, cost := .fin 1 }
    , { index := 2, lb := .negInf, ub := .posInf, kind := .continuous, cost := .fin 0 } ]
  , { coefficients := [[.fin 2, .fin 3, .fin 0], [.fin 1, .fin 0, .fin (-1)]]
      senses := [.atMost, .equal]
      rhs := [.fin 6, .fin 1] } )

/-- The point `(5/2, 3/2, 1)` is rounded so that the row of the integer variables holds. -/
theorem rows_hold_of_propagatedPoint_knapsack :
    ∃ t p k ws ws' candidate, t.Lists knapsack.1 ∧ InOrder knapsack.1 ∧
      (∀ row ∈ knapsack.2.coefficients, row.length = knapsack.1.length) ∧ knapsack.2.Finite ∧
      Propagator.build knapsack.2 ws.domain.box t.kinds (fin (1 / 1000000)) defaultEpsilon
        defaultRounds = .ok p ∧ p.SameRows ws.propagator ∧
      List.Forall₂ (· ≤ ·) ws.domain.box.lb ws.domain.box.ub ∧
      (∀ j ∈ t.integers, ∀ l u, ws.domain.bounds j = .ok (l, u) → l ≠ posInf ∧ u ≠ negInf) ∧
      propagatedPoint .range (fin (1 / 1000000)) t k ([5 / 2, 3 / 2, 1].map fin) ws =
        .ok candidate ws' ∧
      (∃ c : List ℚ, candidate = c.map fin ∧ c.length = t.numIntegers) ∧
      ∀ x : List ℚ, x.length = 3 → t.integerValues (x.map fin) = .ok candidate →
        knapsack.2.HoldWhere (IntegerRow knapsack.1) (fin (1 / 1000000)) (x.map fin) := by
  obtain ⟨candidate, hcandidate⟩ : ∃ candidate,
      roundingOf knapsack.1 knapsack.2 (1 / 1000000) [5 / 2, 3 / 2, 1] = .ok candidate :=
    Act.exists_ok_of_isOk (by decide +kernel)
  obtain ⟨t, p, k, ws, ws', hlists, hbox, hbuild, hsame, hround⟩ := exists_of_roundingOf hcandidate
  have horder : InOrder knapsack.1 := rfl
  have hwidth : ∀ row ∈ knapsack.2.coefficients, row.length = knapsack.1.length := by decide
  have hfinite : knapsack.2.Finite := by
    constructor
    · exact List.forall_mem_cons.mpr ⟨⟨[2, 3, 0], rfl⟩,
        List.forall_mem_singleton.mpr ⟨[1, 0, -1], rfl⟩⟩
    · exact List.forall_mem_cons.mpr ⟨⟨6, rfl⟩, List.forall_mem_singleton.mpr ⟨1, rfl⟩⟩
  have hbounds : List.Forall₂ (· ≤ ·) ws.domain.box.lb ws.domain.box.ub := by
    rw [hbox]
    exact .cons (by decide +kernel) (.cons (by decide +kernel) (.cons (by decide +kernel) .nil))
  have hopen : ∀ j ∈ t.integers, ∀ l u, ws.domain.bounds j = .ok (l, u) →
      l ≠ posInf ∧ u ≠ negInf := by
    intro j _ l u hread
    obtain ⟨-, hl, hu⟩ := Box.bounds_eq_ok.mp hread
    have hlower : ∀ y ∈ ws.domain.box.lb, y ≠ posInf := by
      rw [hbox]
      decide +kernel
    have hupper : ∀ y ∈ ws.domain.box.ub, y ≠ negInf := by
      rw [hbox]
      decide +kernel
    exact ⟨hlower l (Vec.mem_of_at? hl), hupper u (Vec.mem_of_at? hu)⟩
  obtain ⟨hcount, hhold, -⟩ := rows_hold_of_propagatedPoint hlists horder hwidth hfinite
    (by decide) hbuild hsame hbounds hopen hround
  exact ⟨t, p, k, ws, ws', candidate, hlists, horder, hwidth, hfinite, hbuild, hsame, hbounds,
    hopen, hround, hcount, fun x hx => hhold x hx⟩

/-- Two integer variables that are held at `∞`, with the row `a + b ≤ 5`. -/
def unreachable : List (Variable ExtRat) × Rows ExtRat :=
  ( [ { index := 0, lb := .posInf, ub := .posInf, kind := .integer, cost := .fin 0 }
    , { index := 1, lb := .posInf, ub := .posInf, kind := .integer, cost := .fin 0 } ]
  , { coefficients := [[.fin 1, .fin 1]], senses := [.atMost], rhs := [.fin 5] } )

/-- Variables that are held at `∞` are rounded to `∞`, and the row does not hold there: with two
infinite contributions nothing is concluded from it. -/
theorem propagatedPoint_unreachable :
    ∃ t p k ws ws', t.Lists unreachable.1 ∧ InOrder unreachable.1 ∧ unreachable.2.Finite ∧
      Propagator.build unreachable.2 ws.domain.box t.kinds (fin (1 / 1000000)) defaultEpsilon
        defaultRounds = .ok p ∧ p.SameRows ws.propagator ∧
      List.Forall₂ (· ≤ ·) ws.domain.box.lb ws.domain.box.ub ∧
      propagatedPoint .range (fin (1 / 1000000)) t k ([0, 0].map fin) ws =
        .ok [posInf, posInf] ws' ∧
      ¬ unreachable.2.HoldWhere (IntegerRow unreachable.1) (fin (1 / 1000000))
        [posInf, posInf] := by
  have hsome : (roundingOf unreachable.1 unreachable.2 (1 / 1000000) [0, 0]).toOption =
      some [posInf, posInf] := by decide +kernel
  obtain ⟨candidate, hcandidate⟩ : ∃ candidate,
      roundingOf unreachable.1 unreachable.2 (1 / 1000000) [0, 0] = .ok candidate :=
    Act.exists_ok_of_isOk (by decide +kernel)
  obtain rfl : candidate = [posInf, posInf] := by
    rw [hcandidate] at hsome
    exact Option.some.inj hsome
  obtain ⟨t, p, k, ws, ws', hlists, hbox, hbuild, hsame, hround⟩ := exists_of_roundingOf hcandidate
  refine ⟨t, p, k, ws, ws', hlists, rfl, ?_, hbuild, hsame, ?_, hround, fun hhold => ?_⟩
  · exact ⟨List.forall_mem_singleton.mpr ⟨[1, 1], rfl⟩, List.forall_mem_singleton.mpr ⟨5, rfl⟩⟩
  · rw [hbox]
    exact .cons (by decide +kernel) (.cons (by decide +kernel) .nil)
  · have hrow : IntegerRow unreachable.1 [fin 1, fin 1] := by
      refine ⟨⟨fin 1, List.mem_cons_self .., by decide +kernel⟩, fun i c hi _ => ?_⟩
      have hlt : i < unreachable.1.length := (List.getElem?_eq_some_iff.mp hi).1
      have hints : ∀ v ∈ unreachable.1, v.kind.isIntegral = true := by decide
      exact ⟨unreachable.1[i], List.getElem?_eq_getElem hlt, hints _ (List.getElem_mem hlt)⟩
    obtain ⟨activity, hactivity, hholds⟩ := hhold 0 _ _ _ rfl rfl rfl hrow
    obtain rfl : activity = posInf := by
      cases hactivity
      decide +kernel
    exact absurd hholds (by decide +kernel)

end Points

end Rounding
end MipPump
