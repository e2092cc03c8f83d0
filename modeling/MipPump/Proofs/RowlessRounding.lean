import MipPump.Proofs.GuardedRounding

/-!
# Rounding without rows

Where no row connects the variables, rounding with propagation has nothing to propagate.  It rounds
each integer variable in its own bounds, whatever the order is, and finds no domain empty as long as
the rounded bounds of each are in order.

* `Propagator.Rowless`: a propagator without rows; `rowless_of_build` says when there is one.
* `Box.SameAt`: a box that has the bounds of another one at some indices.
* `Left`: what holds between two variables of those that are left; `fixVariable_of_rowless` is its
  step and `fixAll_of_rowless` the run.
* `WritesOnce`, `exists_candidate_of_rowless`: one candidate for all orders, each entry written
  once.
* `exists_propagatedPoint_of_rowless`: a point, in the bounds of the variables.
-/

namespace MipPump

open ExtRat

section Numbers

variable {x y : ExtRat} {eps : ℚ}

theorem le_ceil (hx : Arith.ceil x ≠ nan) : x ≤ Arith.ceil x := by
  cases x with
  | fin q =>
      rw [ceil_fin, fin_le_fin]
      exact Rat.le_ceil
  | nan => exact absurd rfl hx
  | _ => exact ExtRat.le_refl nofun

theorem floor_le (hx : Arith.floor x ≠ nan) : Arith.floor x ≤ x := by
  cases x with
  | fin q =>
      rw [floor_fin, fin_le_fin]
      exact Rat.floor_le q
  | nan => exact absurd rfl hx
  | _ => exact ExtRat.le_refl nofun

end Numbers

namespace Propagation

/-- A propagator of `n` variables that no row connects, with the tolerance `eps`. -/
structure Propagator.Rowless (n : Nat) (eps : ℚ) (p : Propagator ExtRat) : Prop where
  rows : p.rows = []
  rowsOf : p.rowsOf.length = n
  numbers : ∀ ns ∈ p.rowsOf, ns = []
  tol : p.limits.tol = fin eps

theorem Propagator.Rowless.of_sameRows {n : Nat} {eps : ℚ} {p q : Propagator ExtRat}
    (h : p.Rowless n eps) (hq : p.SameRows q) : q.Rowless n eps := by
  obtain ⟨_, rfl⟩ := hq
  exact ⟨h.rows, h.rowsOf, h.numbers, h.tol⟩

/-- A variable with bounds has rows, though none in number. -/
theorem Propagator.Rowless.at?_rowsOf {n : Nat} {eps : ℚ} {p : Propagator ExtRat}
    (h : p.Rowless n eps) (hlen : p.box.lb.length = n) {j : Int} {bounds : ExtRat × ExtRat}
    (hbounds : p.box.bounds j = .ok bounds) : Vec.at? p.rowsOf j = some [] := by
  obtain ⟨-, hl, -⟩ := Box.bounds_eq_ok.mp hbounds
  obtain ⟨k, hk, -⟩ := Vec.at?_eq_some.mp hl
  rw [hlen, ← h.rowsOf] at hk
  have hrows := List.getElem?_eq_getElem (Vec.position?_lt hk)
  rw [h.numbers _ (List.getElem_mem _)] at hrows
  exact Vec.at?_eq_some.mpr ⟨k, hk, hrows⟩

theorem collectRows_of_zero {rows : Rows ExtRat} {rest : List (List ExtRat)}
    (hzero : ∀ row ∈ rest, nonzeroTerms row = []) (i : Nat) : collectRows rows i rest = .ok [] := by
  induction rest generalizing i with
  | nil => rfl
  | cons row rest ih =>
      unfold collectRows
      rw [hzero row (List.mem_cons_self ..), ih fun r hr => hzero r (List.mem_cons_of_mem _ hr)]
      rfl

/-- Rows of zeros connect no variables. -/
theorem rowless_of_build {rows : Rows ExtRat} {box : Box ExtRat} {kinds : List Kind} {eps : ℚ}
    {epsilon : ExtRat} {maxRounds : Int} {p : Propagator ExtRat}
    (h : Propagator.build rows box kinds (fin eps) epsilon maxRounds = .ok p)
    (hzero : ∀ row ∈ rows.coefficients, nonzeroTerms row = []) : p.Rowless box.lb.length eps := by
  obtain ⟨hrows, hlimits, hrowsOf, hnumbers, -⟩ := build_eq_ok h
  rw [collectRows_of_zero hzero] at hrows
  have hnone : p.rows = [] := (Except.ok.inj hrows).symm
  refine ⟨hnone, hrowsOf, fun ns hns => List.eq_nil_iff_forall_not_mem.mpr fun r hr => ?_, ?_⟩
  · have hlt := hnumbers ns hns r hr
    rw [hnone] at hlt
    exact Nat.not_lt_zero r hlt
  · rw [hlimits]

end Propagation

section Boxes

variable {start b : Box ExtRat} {j : Int} {rest : List Int}

/-- The box `b` has the bounds of the box `start` at the indices. -/
structure Box.SameAt (start : Box ExtRat) (indices : List Int) (b : Box ExtRat) : Prop where
  lower : b.lb.length = start.lb.length
  upper : b.ub.length = start.ub.length
  bounds : ∀ j ∈ indices, b.bounds j = start.bounds j

theorem Box.sameAt_self (start : Box ExtRat) (indices : List Int) : start.SameAt indices start :=
  ⟨rfl, rfl, fun _ _ => rfl⟩

/-- To fix a variable leaves the bounds of the other ones alone. -/
theorem Box.SameAt.set (h : start.SameAt (j :: rest) b) (hj : 0 ≤ j)
    (hrest : ∀ k ∈ rest, 0 ≤ k ∧ k ≠ j) {bounds : ExtRat × ExtRat}
    (hbounds : start.bounds j = .ok bounds) (value : ExtRat) :
    ∃ b', b.set j value value = .ok b' ∧ start.SameAt rest b' := by
  obtain ⟨hindex, hl, hu⟩ :=
    Box.bounds_eq_ok.mp ((h.bounds j (List.mem_cons_self ..)).trans hbounds)
  obtain ⟨p, hp, -⟩ := Vec.at?_eq_some.mp hl
  obtain ⟨q, hq, -⟩ := Vec.at?_eq_some.mp hu
  refine ⟨⟨b.lb.set p value, b.ub.set q value⟩, Box.set_eq_ok.mpr ⟨hindex,
    Vec.setAt?_eq_some.mpr ⟨p, hp, rfl⟩, Vec.setAt?_eq_some.mpr ⟨q, hq, rfl⟩⟩,
    (List.length_set ..).trans h.lower, (List.length_set ..).trans h.upper, fun k hk => ?_⟩
  obtain ⟨hnonneg, hne⟩ := hrest k hk
  rw [← h.bounds k (List.mem_cons_of_mem _ hk)]
  unfold Box.bounds Vec.get
  dsimp only
  rw [Vec.at?_set_of_ne fun hk => hne (Vec.position?_inj hnonneg hj hk hp),
    Vec.at?_set_of_ne fun hk => hne (Vec.position?_inj hnonneg hj hk hq)]

end Boxes

namespace Rounding

open Propagation

variable {t : Table ExtRat} {x : List ℚ} {eps : ℚ} {tieBreak : TieBreak} {start : Box ExtRat}
  {j : Int} {rest : List Int}

section Variables

/-- What the variable `j` is rounded to in its bounds in a box. -/
def OwnIn (tieBreak : TieBreak) (eps : ℚ) (start : Box ExtRat) (x : List ℚ) (j : Int)
    (value : ExtRat) : Prop :=
  ∃ l u q, start.bounds j = .ok (l, u) ∧ Vec.at? x j = some q ∧
    value = nearestValue Arith.clampKeep tieBreak (fin eps) (integralDomain (fin eps) (l, u)).1
      (integralDomain (fin eps) (l, u)).2 (fin q)

/-- The variable `j` has bounds in order with room between them, a value and a place. -/
structure Ready (eps : ℚ) (start : Box ExtRat) (t : Table ExtRat) (x : List ℚ) (j : Int) :
    Prop where
  nonneg : 0 ≤ j
  bounds : ∃ l u, start.bounds j = .ok (l, u) ∧ ¬ u < l ∧
    (integralDomain (fin eps) (l, u)).1 ≤ (integralDomain (fin eps) (l, u)).2
  value : ∃ q, Vec.at? x j = some q
  place : ∃ place, Vec.at? t.position j = some place

/-- Between two variables: those that are left have the bounds of the box `start`, to which the
scope leads back, and no row connects them. -/
structure Left (eps : ℚ) (start : Box ExtRat) (rest : List Int)
    (s : Scoped ExtRat × Fixing ExtRat) : Prop where
  restores : Scoped.Restores start s.1
  domain : start.SameAt rest s.1.domain.box
  box : start.SameAt rest s.2.propagator.box
  rowless : s.2.propagator.Rowless start.lb.length eps

/-- The value that is found between rounded bounds is between the bounds up to the tolerance. -/
theorem not_emptied {l u : ExtRat}
    (hroom : (integralDomain (fin eps) (l, u)).1 ≤ (integralDomain (fin eps) (l, u)).2)
    (tieBreak : TieBreak) (q : ℚ) :
    let value := nearestValue Arith.clampKeep tieBreak (fin eps)
      (integralDomain (fin eps) (l, u)).1 (integralDomain (fin eps) (l, u)).2 (fin q)
    ¬ value < l - fin eps ∧ ¬ u + fin eps < value := by
  obtain ⟨-, hlo, hhi⟩ := nearestValue_inside hroom tieBreak (fin_ne_nan q)
  have hlower := ExtRat.le_trans (le_ceil (ne_nan_of_le hlo).1) hlo
  have hupper := ExtRat.le_trans hhi (floor_le (ne_nan_of_le hhi).2)
  exact ⟨(not_lt_iff (ne_nan_of_le hlower).2 (ne_nan_of_le hlower).1).mpr hlower,
    (not_lt_iff (ne_nan_of_le hupper).2 (ne_nan_of_le hupper).1).mpr hupper⟩

/-- Where no row waits there is nothing to do. -/
theorem drain_of_empty (fuel : ℕ) (changes : Changes ExtRat) (queued : List ℤ)
    (p : Propagator ExtRat) : Propagator.drain fuel changes ⟨[], queued⟩ p = .ok changes p := by
  cases fuel <;> rfl

/-- A variable that no row contains is fixed, and nothing follows from it. -/
theorem fix_of_rowless {n : ℕ} {p : Propagator ExtRat} (hp : p.Rowless n eps)
    (hlen : p.box.lb.length = n) {l u value : ExtRat} {b : Box ExtRat}
    (hbounds : p.box.bounds j = .ok (l, u)) (hlow : ¬ value < l - fin eps)
    (hhigh : ¬ u + fin eps < value) (hset : p.box.set j value value = .ok b) :
    Propagator.fix j value p = .ok [] { p with box := b } := by
  have hrows := hp.at?_rowsOf hlen hbounds
  unfold Propagator.fix
  rw [Act.bind_of_ok (Act.get_apply p), Act.ofExcept_bind hbounds]
  dsimp only
  rw [hp.tol, if_neg (by simp [hlow, hhigh]), Act.ofExcept_bind hset,
    Act.bind_of_ok (Act.set_apply p _), Act.ofExcept_bind (Vec.get_eq_ok.mpr hrows)]
  exact drain_of_empty _ _ _ _

/-- A variable is rounded in its own bounds, and those of the other variables stay. -/
theorem fixVariable_of_rowless {s : Scoped ExtRat × Fixing ExtRat}
    (hs : Left eps start (j :: rest) s) (hj : Ready eps start t x j)
    (hrest : ∀ k ∈ rest, 0 ≤ k ∧ k ≠ j) (tieBreak : TieBreak) :
    ∃ s' w, fixVariable tieBreak (fin eps) t (x.map fin) j s = .ok () s' ∧
      Left eps start rest s' ∧ PlacedIn t (OwnIn tieBreak eps start x) j w ∧
      s'.2.writes = w :: s.2.writes := by
  obtain ⟨scope, f⟩ := s
  obtain ⟨hnonneg, ⟨l, u, hbounds, hordered, hroom⟩, ⟨q, hq⟩, place, hplace⟩ := hj
  have hopen := (not_lt_iff (ne_nan_of_le hroom).2 (ne_nan_of_le hroom).1).mpr hroom
  have hread := (hs.box.bounds j (List.mem_cons_self ..)).trans hbounds
  have hreadDomain := (hs.domain.bounds j (List.mem_cons_self ..)).trans hbounds
  let value := nearestValue Arith.clampKeep tieBreak (fin eps)
    (integralDomain (fin eps) (l, u)).1 (integralDomain (fin eps) (l, u)).2 (fin q)
  obtain ⟨hlow, hhigh⟩ := not_emptied hroom tieBreak q
  obtain ⟨b, hset, hb⟩ := hs.box.set hnonneg hrest hbounds value
  obtain ⟨d, hsetDomain, hd⟩ := hs.domain.set hnonneg hrest hbounds value
  have hfix := fix_of_rowless hs.rowless hs.box.lower hread hlow hhigh hset
  obtain ⟨scope', htighten, rfl, hrestores⟩ :=
    Scoped.exists_tighten hreadDomain (not_lt_self value) hsetDomain
  let p' : Propagator ExtRat := { f.propagator with box := b }
  let f' : Fixing ExtRat := { f with propagator := p' }
  have hpropagate : Act.second (Fixing.onPropagator (Propagator.fix j value)) (scope, f) =
      .ok [] (scope, f') := Act.zoom_of_ok (Act.zoom_of_ok hfix)
  have hscope : Act.first (Scoped.fix j value) (scope, f') = .ok () (scope', f') :=
    Act.zoom_of_ok htighten
  have hfollow : Act.first (followChanges []) (scope', f') = .ok () (scope', f') := rfl
  refine ⟨(scope', { f' with writes := (place, value) :: f.writes }), (place, value), ?_,
    ⟨hrestores start hs.restores hordered, hd, hb, hs.rowless.of_sameRows ⟨b, rfl⟩⟩,
    ⟨hplace, l, u, q, hbounds, hq, rfl⟩, rfl⟩
  unfold fixVariable
  rw [Act.bind_of_ok (Act.get_apply _)]
  dsimp only
  rw [Act.ofExcept_bind hread]
  rw [if_neg hopen, Act.ofExcept_bind (Vec.get_eq_ok.mpr (Vec.at?_map hq fin)),
    Act.bind_of_ok hpropagate, Act.bind_of_ok hscope,
    Act.bind_of_ok hfollow, Act.ofExcept_bind (Vec.get_eq_ok.mpr hplace)]
  rfl

/-- All variables are rounded in their own bounds, by induction on the order. -/
theorem fixAll_of_rowless {order : List Int} (hnodup : order.Nodup)
    (hready : ∀ j ∈ order, Ready eps start t x j) {s : Scoped ExtRat × Fixing ExtRat}
    (hs : Left eps start order s) (tieBreak : TieBreak) :
    ∃ s' news, fixAll tieBreak (fin eps) t (x.map fin) order s = .ok () s' ∧
      Left eps start [] s' ∧ List.Forall₂ (PlacedIn t (OwnIn tieBreak eps start x)) order news ∧
      s'.2.writes = news.reverse ++ s.2.writes := by
  induction order generalizing s with
  | nil => exact ⟨s, [], rfl, hs, .nil, rfl⟩
  | cons j rest ih =>
      obtain ⟨hnot, hnodup⟩ := List.nodup_cons.mp hnodup
      obtain ⟨hj, hready⟩ := List.forall_mem_cons.mp hready
      obtain ⟨s', w, hfix, hleft, hw, hwrites⟩ := fixVariable_of_rowless hs hj
        (fun k hk => ⟨(hready k hk).nonneg, fun heq => hnot (heq ▸ hk)⟩) tieBreak
      obtain ⟨s'', news, hrest, hleft, hnews, hall⟩ := ih hnodup hready hleft
      refine ⟨s'', w :: news, ?_, hleft, .cons hw hnews, ?_⟩
      · unfold fixAll
        rw [Act.bind_of_ok hfix, hrest]
      · rw [hall, hwrites, List.reverse_cons, List.append_assoc, List.singleton_append]

/-- The same in a scope of its own, which closes. -/
theorem fixInScope_of_rowless {order : List Int} (hnodup : order.Nodup) {d : Domain ExtRat}
    (hready : ∀ j ∈ order, Ready eps d.box t x j) {p : Propagator ExtRat}
    (hp : p.Rowless d.box.lb.length eps) (tieBreak : TieBreak) :
    ∃ writes s, fixInScope tieBreak (fin eps) t (x.map fin) order
        (d, { propagator := { p with box := d.box } }) = .ok writes s ∧
      List.Forall₂ (PlacedIn t (OwnIn tieBreak eps d.box x)) order writes := by
  have hs : Left eps d.box order ({ domain := d }, { propagator := { p with box := d.box } }) :=
    ⟨Scoped.Restores.opened d, d.box.sameAt_self order, d.box.sameAt_self order,
      hp.of_sameRows ⟨_, rfl⟩⟩
  obtain ⟨s', news, hall, hleft, hnews, hwrites⟩ :=
    fixAll_of_rowless hnodup hready hs tieBreak
  have hbody : (do
      fixAll tieBreak (fin eps) t (x.map fin) order
      let (_, f) ← get
      pure f.writes.reverse : Act ExtRat (Scoped ExtRat × Fixing ExtRat) _)
        ({ domain := d }, { propagator := { p with box := d.box } }) = .ok news s' := by
    rw [Act.bind_of_ok hall, Act.bind_of_ok (Act.get_apply s')]
    dsimp only
    rw [hwrites, List.append_nil, List.reverse_reverse]
    rfl
  have hrestores : Scoped.Restores d.box s'.1 := hleft.restores
  rw [← congrArg Prod.fst (Act.after_of_ok hbody)] at hrestores
  obtain ⟨changes, hwithin⟩ := Scoped.within_eq hrestores
  rw [hbody] at hwithin
  exact ⟨news, _, hwithin, hnews⟩

/-- To fix the variables in the order from the box in force writes each entry of the candidate
once. -/
def WritesOnce (tieBreak : TieBreak) (eps : ℚ) (t : Table ExtRat) (x : List ℚ) (d : Domain ExtRat)
    (p : Propagator ExtRat) (order : List ℤ) (candidate : List ExtRat) : Prop :=
  ∃ writes s,
    fixInScope tieBreak (fin eps) t (x.map fin) order
      (d, { propagator := { p with box := d.box } }) = .ok writes s ∧
    (writes.map (·.1)).Perm ((List.range t.numIntegers).map fun k : ℕ => (k : ℤ)) ∧
    ∀ blank : List ExtRat, blank.length = t.numIntegers →
      (Vec.placeAll blank writes : Except (Fault ExtRat) (List ExtRat)) = .ok candidate

/-- The values of the variables in their own bounds are the candidate, whatever the order is. -/
theorem exists_candidate_of_rowless {vars : List (Variable ExtRat)} (h : t.Lists vars)
    (hd : t.Distinct) {d : Domain ExtRat} (hready : ∀ j ∈ t.integers, Ready eps d.box t x j)
    {p : Propagator ExtRat} (hp : p.Rowless d.box.lb.length eps) (tieBreak : TieBreak) :
    ∃ candidate, List.Forall₂ (OwnIn tieBreak eps d.box x) t.integers candidate ∧
      ∀ order : List ℤ, order.Perm t.integers →
        WritesOnce tieBreak eps t x d p order candidate := by
  have horders (order : List ℤ) (hperm : order.Perm t.integers) : ∃ candidate,
      List.Forall₂ (OwnIn tieBreak eps d.box x) t.integers candidate ∧
        WritesOnce tieBreak eps t x d p order candidate := by
    obtain ⟨writes, s, hfix, hplaced⟩ := fixInScope_of_rowless (hperm.nodup_iff.mpr hd.nodup)
      (fun j hj => hready j (hperm.mem_iff.mp hj)) hp tieBreak
    obtain ⟨candidate, hvalues, hplaces, hplace⟩ := exists_placeAll_of_placed h hd hperm hplaced
    exact ⟨candidate, hvalues, writes, s, hfix, hplaces, hplace⟩
  obtain ⟨candidate, hvalues, -⟩ := horders t.integers (List.Perm.refl _)
  refine ⟨candidate, hvalues, fun order hperm => ?_⟩
  obtain ⟨candidate', hvalues', hwrites⟩ := horders order hperm
  obtain rfl : candidate' = candidate := by
    rw [← List.forall₂_eq_eq_eq]
    refine Vec.forall₂_combine (fun j value value' hvalue hvalue' => ?_) hvalues' hvalues
    obtain ⟨l, u, q, hbounds, hq, rfl⟩ := hvalue
    obtain ⟨l', u', q', hbounds', hq', rfl⟩ := hvalue'
    rw [hbounds] at hbounds'
    rw [hq] at hq'
    cases hbounds'
    cases hq'
    rfl
  exact hwrites

end Variables

section Points

variable {vars : List (Variable ExtRat)} {ws : Workspace ExtRat} {k : Ranker ExtRat}
  {v : Variable ExtRat}

/-- A point is rounded to the candidate of all orders. -/
theorem exists_propagatedPoint_of_ready (h : t.Lists vars) (hd : t.Distinct)
    (hshort : vars.length ≤ Power.two 63) (hsized : ws.domain.box.Sized vars.length)
    (hready : ∀ j ∈ t.integers, Ready eps ws.domain.box t x j)
    (hrank : ∃ order q, k.rank t (x.map fin) none ws.progress = .ok order q ∧
      order.Perm t.integers)
    (hp : ws.propagator.Rowless vars.length eps) (tieBreak : TieBreak) :
    ∃ candidate, List.Forall₂ (OwnIn tieBreak eps ws.domain.box x) t.integers candidate ∧
      (∃ ws', propagatedPoint tieBreak (fin eps) t k (x.map fin) ws = .ok candidate ws') ∧
      ∀ order : List ℤ, order.Perm t.integers →
        WritesOnce tieBreak eps t x ws.domain ws.propagator order candidate := by
  obtain ⟨hl, hu⟩ := hsized
  have hread : ((List.range t.numVars).mapM fun j : Nat => ws.domain.bounds j) =
      .ok (ws.domain.box.lb.zip ws.domain.box.ub) := by
    rw [h.numVars_eq]
    exact Box.mapM_bounds hl hu fun i hi => requireIndex_of_inRange ⟨i, rfl, hi⟩ hshort
  obtain ⟨candidate, hvalues, horders⟩ :=
    exists_candidate_of_rowless h hd hready (hl.symm ▸ hp) tieBreak
  obtain ⟨order, q, hrank, hperm⟩ := hrank
  obtain ⟨writes, s, hfix, -, hplace⟩ := horders order hperm
  exact ⟨candidate, hvalues, ⟨_, propagatedPoint_of_writes hread (hl.trans hu.symm) hrank hfix
    (hplace _ List.length_replicate)⟩, horders⟩

/-- The value that a variable is rounded to in its own bounds. -/
def ownValue (tieBreak : TieBreak) (eps : ℚ) (v : Variable ExtRat) (q : ℚ) : ExtRat :=
  nearestValue Arith.clampKeep tieBreak (fin eps) (integralDomain (fin eps) (v.lb, v.ub)).1
    (integralDomain (fin eps) (v.lb, v.ub)).2 (fin q)

/-- The rounded bounds of the variable are in order. -/
def HasRoom (eps : ℚ) (v : Variable ExtRat) : Prop :=
  (integralDomain (fin eps) (v.lb, v.ub)).1 ≤ (integralDomain (fin eps) (v.lb, v.ub)).2

/-- The value is that of the variable `j` at the point. -/
def OwnValueAt (tieBreak : TieBreak) (eps : ℚ) (vars : List (Variable ExtRat)) (x : List ℚ)
    (j : Int) (value : ExtRat) : Prop :=
  ∃ v q, Vec.at? vars j = some v ∧ Vec.at? x j = some q ∧ value = ownValue tieBreak eps v q

theorem bounds_own (hshort : vars.length ≤ Power.two 63) {k : Nat} (hv : vars[k]? = some v) :
    Box.bounds (⟨vars.map (·.lb), vars.map (·.ub)⟩ : Box ExtRat) k = .ok (v.lb, v.ub) :=
  have hself : Vec.at? vars (k : Int) = some v := Vec.at?_of_getElem? hv
  Box.bounds_eq_ok.mpr
    ⟨requireIndex_of_inRange ⟨k, rfl, (List.getElem?_eq_some_iff.mp hv).1⟩ hshort,
      Vec.at?_map hself _, Vec.at?_map hself _⟩

/-- **Without rows**, rounding with propagation rounds each integer variable in its own bounds. -/
theorem exists_propagatedPoint_of_rowless (h : t.Lists vars) (horder : InOrder vars)
    (hx : x.length = vars.length) (hordered : ∀ v ∈ vars, v.lb ≤ v.ub)
    (hroom : ∀ v ∈ vars, v.kind.isIntegral = true → HasRoom eps v) (tieBreak : TieBreak)
    (hrank : ∃ order q, k.rank t (x.map fin) none ws.progress = .ok order q ∧
      order.Perm t.integers)
    (hp : ws.propagator.Rowless vars.length eps)
    (hbox : ws.domain.box = ⟨vars.map (·.lb), vars.map (·.ub)⟩) :
    ∃ candidate ws', propagatedPoint tieBreak (fin eps) t k (x.map fin) ws = .ok candidate ws' ∧
      List.Forall₂ (OwnValueAt tieBreak eps vars x) t.integers candidate := by
  have hshort := h.short horder
  have hready : ∀ j ∈ t.integers, Ready eps ws.domain.box t x j := by
    intro j hj
    obtain ⟨k, v, q, place, rfl, hv, hmem, hint, hq, hplace⟩ := exists_integer h horder hx hj
    have hle := hordered v hmem
    refine ⟨Int.natCast_nonneg k, ⟨v.lb, v.ub, hbox ▸ bounds_own hshort hv, ?_,
      hroom v hmem hint⟩, ⟨q, Vec.at?_of_getElem? hq⟩, place, hplace⟩
    exact (not_lt_iff (ne_nan_of_le hle).2 (ne_nan_of_le hle).1).mpr hle
  have hsized : ws.domain.box.Sized vars.length := by
    rw [hbox]
    exact ⟨List.length_map .., List.length_map ..⟩
  obtain ⟨candidate, hvalues, ⟨ws', hround⟩, -⟩ :=
    exists_propagatedPoint_of_ready h (h.distinct horder) hshort hsized hready hrank hp tieBreak
  refine ⟨candidate, ws', hround, List.forall₂_iff_zip.mpr ⟨hvalues.length_eq, ?_⟩⟩
  intro j value hzip
  obtain ⟨l, u, q, hbounds, hq, rfl⟩ := (List.forall₂_iff_zip.mp hvalues).2 hzip
  obtain ⟨k, v, -, -, rfl, hv, -, -, -, -⟩ := exists_integer h horder hx (List.of_mem_zip hzip).1
  rw [hbox, bounds_own hshort hv] at hbounds
  cases hbounds
  exact ⟨v, q, Vec.at?_of_getElem? hv, hq, rfl⟩

end Points

end Rounding

end MipPump
