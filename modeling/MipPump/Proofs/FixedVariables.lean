import MipPump.Proofs.QueueWork
import MipPump.Proofs.RowSteps
import MipPump.Proofs.SumOrders

/-!
# Fixed variables stay fixed

Propagation never moves a variable whose bounds meet.  A bound that improves on such a bound by more
than the margin crosses the opposite one by more than the tolerance, because the margin is at least
the tolerance: the domain is empty.

* `Box.Pinned i v b`: both bounds of the variable `i` are `v`.
* `tol_le_margin`: the margin is at least the tolerance.
* `keeps_pinned`: the propagation of a row keeps a variable pinned.
* `keeps_visit_of_rows`, `keeps_drain_of_rows`, `keeps_propagate_of_rows`: what all rows of a
  propagator keep, the work on a queue keeps.
* `fix_eq_ok`: fixing a variable sets its bounds before its rows are propagated.
* `pinned_of_fix`: so a variable that was fixed is pinned at the end.
-/

namespace MipPump

open ExtRat

/-- Both bounds of the variable `i` are `v`. -/
structure Box.Pinned (i : Int) (v : ℚ) (b : Box ExtRat) : Prop where
  lengths : b.lb.length = b.ub.length
  lower : Vec.at? b.lb i = some (fin v)
  upper : Vec.at? b.ub i = some (fin v)

section Boxes

variable {i : Int} {v : ℚ} {b : Box ExtRat}

/-- The bounds of a pinned variable, if they can be read. -/
theorem Box.Pinned.read (h : b.Pinned i v) {l u : ExtRat} (hb : b.bounds i = .ok (l, u)) :
    l = fin v ∧ u = fin v := by
  obtain ⟨-, hl, hu⟩ := Box.bounds_eq_ok.mp hb
  exact ⟨Option.some.inj (hl.symm.trans h.lower), Option.some.inj (hu.symm.trans h.upper)⟩

/-- The same of a pinned variable that is read under its number. -/
theorem Box.Pinned.bounds (h : b.Pinned i v) {k : Nat} (hk : Vec.position? b.lb.length i = some k)
    {l u : ExtRat} (hb : b.bounds k = .ok (l, u)) : l = fin v ∧ u = fin v := by
  obtain ⟨-, hl, hu⟩ := Box.bounds_eq_ok.mp hb
  rw [Vec.at?_natCast] at hl hu
  have hlower := Vec.getElem?_of_at? h.lower hk
  have hupper := Vec.getElem?_of_at? h.upper (h.lengths ▸ hk)
  exact ⟨Option.some.inj (hl.symm.trans hlower), Option.some.inj (hu.symm.trans hupper)⟩

/-- A change of another variable is nothing to a pinned one. -/
theorem Box.Pinned.set_lb (h : b.Pinned i v) {k : Nat} (hk : Vec.position? b.lb.length i ≠ some k)
    (l : ExtRat) : Box.Pinned i v { b with lb := b.lb.set k l } :=
  ⟨(List.length_set ..).trans h.lengths, (Vec.at?_set_of_ne hk l).trans h.lower, h.upper⟩

theorem Box.Pinned.set_ub (h : b.Pinned i v) {k : Nat} (hk : Vec.position? b.lb.length i ≠ some k)
    (u : ExtRat) : Box.Pinned i v { b with ub := b.ub.set k u } :=
  ⟨h.lengths.trans (List.length_set ..).symm, h.lower,
    (Vec.at?_set_of_ne (h.lengths ▸ hk) u).trans h.upper⟩

/-- Setting both bounds of a variable to a value pins it. -/
theorem Box.pinned_of_set {b' : Box ExtRat} (hlengths : b.lb.length = b.ub.length)
    (h : b.set i (fin v) (fin v) = .ok b') : b'.Pinned i v := by
  obtain ⟨-, hl, hu⟩ := Box.set_eq_ok.mp h
  refine ⟨?_, Vec.at?_of_setAt? hl, Vec.at?_of_setAt? hu⟩
  rw [Vec.length_of_setAt? hl, Vec.length_of_setAt? hu, hlengths]

end Boxes

namespace Propagation

section Margins

variable {R Key : Type} [Arith R] [LinearOrder Key] (o : SumOrder R Key) {limits : Limits R}
  {isIntegral : Bool} {bound x : R} (htol : Arith.isNaN limits.tol = false)
include o htol

theorem tol_le_margin (isIntegral : Bool) : limits.tol ≤ limits.margin isIntegral :=
  o.le_larger htol _

/-- An improvement on a bound by the margin is one by the tolerance. -/
theorem lt_sub_tol (h : bound < x - limits.margin isIntegral) : bound < x - limits.tol :=
  o.lt_sub_of_le (o.le_of_number (o.numbers_of_lt_sub h).1) (tol_le_margin o htol isIntegral) h

theorem add_tol_lt (h : x + limits.margin isIntegral < bound) : x + limits.tol < bound :=
  o.add_lt_of_le (o.le_of_number (o.numbers_of_add_lt h).1) (tol_le_margin o htol isIntegral) h

end Margins

section Rows

variable {i : Int} {v e : ℚ} {limits : Limits ExtRat}

theorem keeps_lowerUpper_pinned (he : limits.tol = fin e) (k : Nat) (isIntegral : Bool)
    (bound : ExtRat) : Act.Keeps (Box.Pinned i v) (lowerUpper limits k isIntegral bound) := by
  refine keeps_lowerUpper fun b l u hb hbounds htight hcrossed => ?_
  by_cases hk : Vec.position? b.lb.length i = some k
  · -- the new bound of the pinned variable would have crossed the other one
    obtain ⟨rfl, rfl⟩ := hb.bounds hk hbounds
    exact absurd (lt_sub_tol sumOrder (by rw [he]; rfl) htight) hcrossed
  · exact hb.set_ub hk _

theorem keeps_raiseLower_pinned (he : limits.tol = fin e) (k : Nat) (isIntegral : Bool)
    (bound : ExtRat) : Act.Keeps (Box.Pinned i v) (raiseLower limits k isIntegral bound) := by
  refine keeps_raiseLower fun b l u hb hbounds htight hcrossed => ?_
  by_cases hk : Vec.position? b.lb.length i = some k
  · obtain ⟨rfl, rfl⟩ := hb.bounds hk hbounds
    exact absurd (add_tol_lt sumOrder (by rw [he]; rfl) htight) hcrossed
  · exact hb.set_lb hk _

/-- What the changes of single bounds keep, the terms of a row keep, one after the other. -/
theorem keeps_tightenTerms_of_bounds {R : Type} [Arith R] {limits : Limits R} {I : Box R → Prop}
    {row : UpperRow R} {a : Activity R}
    (hupper : ∀ j isIntegral bound, Act.Keeps I (lowerUpper limits j isIntegral bound))
    (hlower : ∀ j isIntegral bound, Act.Keeps I (raiseLower limits j isIntegral bound))
    (terms : List ((Nat × R) × R)) :
    Act.Keeps I (row.tightenTerms limits a terms) := by
  induction terms with
  | nil => exact Act.keeps_pure _
  | cons term rest ih =>
      obtain ⟨⟨j, coef⟩, c⟩ := term
      unfold UpperRow.tightenTerms UpperRow.tightenTerm
      refine Act.keeps_bind (Act.keeps_ite ?_ (Act.keeps_pure _)) fun _ =>
        Act.keeps_bind ih fun _ => Act.keeps_pure _
      exact Act.keeps_bind (Act.keeps_ofExcept _) fun _ =>
        Act.keeps_ite (hupper _ _ _) (hlower _ _ _)

/-- **A pinned variable stays pinned** when a row is propagated, whether the row answers or not. -/
theorem keeps_pinned (he : limits.tol = fin e) (row : UpperRow ExtRat) :
    Act.Keeps (Box.Pinned i v) (row.propagate limits) := by
  unfold UpperRow.propagate
  refine Act.keeps_bind Act.keeps_get fun box => Act.keeps_bind (Act.keeps_ofExcept _) fun a => ?_
  refine Act.keeps_bind (Act.keeps_ofExcept _) fun _ => Act.keeps_ite (Act.keeps_pure _) ?_
  exact keeps_tightenTerms_of_bounds (keeps_lowerUpper_pinned he) (keeps_raiseLower_pinned he) _

end Rows

section Queues

variable {R : Type} [Arith R] {I : Box R → Prop} {p : Propagator R}
  (hrows : ∀ row ∈ p.rows, Act.Keeps I (row.propagate p.limits))
include hrows

theorem keeps_visit_of_rows (r : Int) : Act.Keeps (p.Holds I) (Propagator.visit r) := by
  unfold Propagator.visit Propagator.onBox
  refine Act.keeps_get_bind fun q hq => ?_
  obtain ⟨box, rfl⟩ := hq.same
  cases hrow : (Vec.get p.rows r : Except (Fault R) (UpperRow R)) with
  | error e => exact fun s hs => hs
  | ok row =>
      have hmem : row ∈ p.rows := Vec.mem_of_at? (Vec.get_eq_ok.mp hrow)
      exact Act.keeps_zoom (hrows row hmem) (fun s hs => hs.inside)
        fun s b hs hb => ⟨hs.same.withBox b, hb⟩

/-- The work on a queue, by induction on the visits. -/
theorem keeps_drain_of_rows (fuel : Nat) (changes : Changes R) (q : Queue) :
    Act.Keeps (p.Holds I) (Propagator.drain fuel changes q) := by
  induction fuel generalizing changes q with
  | zero => exact Act.keeps_pure _
  | succ fuel ih =>
      unfold Propagator.drain
      split
      · exact Act.keeps_pure _
      · refine Act.keeps_bind (keeps_visit_of_rows hrows _) fun tightened => ?_
        refine Act.keeps_bind Act.keeps_get fun s => ?_
        exact Act.keeps_bind (Act.keeps_ofExcept _) fun work => ih _ _

theorem keeps_propagate_of_rows (rows : List Int) :
    Act.Keeps (p.Holds I) (Propagator.propagate rows) := by
  unfold Propagator.propagate
  exact Act.keeps_bind Act.keeps_get fun s => keeps_drain_of_rows hrows _ _ _

end Queues

section Fixing

/-- A variable is fixed by setting its bounds and propagating its rows. -/
theorem fix_eq_ok {R : Type} [Arith R] {p q : Propagator R} {i : Int} {value : R}
    {changes : Changes R} (h : Propagator.fix i value p = .ok changes q) :
    ∃ box ns, (∃ bounds, p.box.bounds i = .ok bounds) ∧ p.box.set i value value = .ok box ∧
      Vec.at? p.rowsOf i = some ns ∧
      Propagator.propagate (ns.map Int.ofNat) { p with box } = .ok changes q := by
  unfold Propagator.fix at h
  rw [Act.bind_of_ok (Act.get_apply p)] at h
  obtain ⟨bounds, _, hread, h⟩ := Act.bind_eq_ok.mp h
  obtain ⟨hbounds, rfl⟩ := Act.ofExcept_eq_ok.mp hread
  dsimp only at h
  split at h
  · cases h
  · obtain ⟨box, _, hwrite, h⟩ := Act.bind_eq_ok.mp h
    obtain ⟨hset, rfl⟩ := Act.ofExcept_eq_ok.mp hwrite
    rw [Act.bind_of_ok (Act.set_apply _ _)] at h
    obtain ⟨ns, _, hrows, h⟩ := Act.bind_eq_ok.mp h
    obtain ⟨hns, rfl⟩ := Act.ofExcept_eq_ok.mp hrows
    exact ⟨box, ns, ⟨bounds, hbounds⟩, hset, Vec.get_eq_ok.mp hns, h⟩

variable {p q : Propagator ExtRat} {i : Int} {v e : ℚ} {changes : Changes ExtRat}

/-- **A variable that was fixed has its value for both bounds**, whatever its rows have changed. -/
theorem pinned_of_fix (he : p.limits.tol = fin e) (hlengths : p.box.lb.length = p.box.ub.length)
    (h : Propagator.fix i (fin v) p = .ok changes q) :
    p.SameRows q ∧ q.box.Pinned i v ∧ q.box.bounds i = .ok (fin v, fin v) := by
  obtain ⟨box, ns, ⟨_, hbounds⟩, hset, -, hrun⟩ := fix_eq_ok h
  have hpinned : box.Pinned i v := Box.pinned_of_set hlengths hset
  have hholds : Propagator.Holds (Box.Pinned i v) p q :=
    (keeps_propagate_of_rows (fun row _ => keeps_pinned he row) _).of_ok
      (⟨⟨box, rfl⟩, hpinned⟩ : p.Holds (Box.Pinned i v) { p with box }) hrun
  refine ⟨hholds.same, hholds.inside, Box.bounds_eq_ok.mpr ⟨?_, hholds.inside.lower,
    hholds.inside.upper⟩⟩
  exact (Box.bounds_eq_ok.mp hbounds).1

end Fixing

end Propagation
end MipPump
