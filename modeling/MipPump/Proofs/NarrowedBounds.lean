import MipPump.Proofs.ReportedChanges
import MipPump.Proofs.VisitedRows

/-!
# Narrowed bounds

Propagation moves bounds inwards.  A bound that counts as an improvement is strictly inside the one
that it replaces, also where it was moved onto the opposite bound: what improves a bound by the
margin and does not cross the opposite one by the tolerance leaves room between the two.  So the
variables that a propagation answers with are those whose bounds have moved, and a variable whose
bounds meet is not among them.

* `larger_between`, `smaller_between`: the place of a new bound.
* `Box.Tightened ks b b'`: bounds have moved inwards, and those of the variables in `ks` have moved.
* `tightened_of_propagate`: a row tightens the variables it answers with.
* `tightened_of_drain`: the work on a queue tightens the variables it notes.
* `Changes.Tells start changes b`: the changes are those between two boxes, and all are inwards.

**Result.**  `tells_changes`.  It takes of the arithmetic its order only, so it holds of exact
numbers and of rounded ones.
-/

namespace MipPump

section Boxes

variable {R : Type} [Arith R] {ks ks' : List Nat} {b b' b'' : Box R}

/-- Lower bounds are not above upper ones. -/
def Box.BoundsInOrder (b : Box R) : Prop := List.Forall₂ (· ≤ ·) b.lb b.ub

/-- A bound of the variable `k` has moved inwards. -/
def Box.Narrowed (k : Nat) (b b' : Box R) : Prop :=
  (∃ l l', b.lb[k]? = some l ∧ b'.lb[k]? = some l' ∧ l < l') ∨
    ∃ u u', b.ub[k]? = some u ∧ b'.ub[k]? = some u' ∧ u' < u

/-- Bounds have moved inwards only and are in order; those of the variables in `ks` have moved. -/
structure Box.Tightened (ks : List Nat) (b b' : Box R) : Prop where
  lower : List.Forall₂ (· ≤ ·) b.lb b'.lb
  upper : List.Forall₂ (· ≤ ·) b'.ub b.ub
  ordered : b'.BoundsInOrder
  moved : ∀ k ∈ ks, b.Narrowed k b'

/-- The bounds of a variable as they are read. -/
theorem Box.BoundsInOrder.read (h : b.BoundsInOrder) {k : Nat} {l u : R}
    (hb : b.bounds k = .ok (l, u)) : b.lb[k]? = some l ∧ b.ub[k]? = some u ∧ l ≤ u := by
  obtain ⟨-, hl, hu⟩ := Box.bounds_eq_ok.mp hb
  rw [Vec.at?_natCast] at hl hu
  obtain ⟨u', hu', hlu⟩ := Vec.forall₂_getElem? h hl
  obtain rfl : u = u' := Option.some.inj (hu.symm.trans hu')
  exact ⟨hl, hu, hlu⟩

theorem Box.Tightened.mono (h : Box.Tightened ks b b') (hks : ∀ k ∈ ks', k ∈ ks) :
    Box.Tightened ks' b b' :=
  { h with moved := fun k hk => h.moved k (hks k hk) }

section Order

variable {Key : Type} [LinearOrder Key] (o : SumOrder R Key)
include o

theorem forall₂_le_trans {xs ys zs : List R} (h : List.Forall₂ (· ≤ ·) xs ys)
    (h' : List.Forall₂ (· ≤ ·) ys zs) : List.Forall₂ (· ≤ ·) xs zs := by
  have hback : List.Forall₂ (fun y x => x ≤ y) ys xs := h.flip
  have htrans : ∀ y x z : R, x ≤ y → y ≤ z → x ≤ z := fun _ _ _ => o.le_trans
  exact Vec.forall₂_combine htrans hback h'

theorem Box.BoundsInOrder.numbers (h : b.BoundsInOrder) :
    List.Forall₂ (· ≤ ·) b.lb b.lb ∧ List.Forall₂ (· ≤ ·) b.ub b.ub := by
  constructor
  · refine List.forall₂_same.mpr fun l hl => ?_
    obtain ⟨u, -, hlu⟩ := Vec.exists_of_mem_left h hl
    exact o.le_of_number (o.numbers_of_le hlu).1
  · refine List.forall₂_same.mpr fun u hu => ?_
    obtain ⟨l, -, hlu⟩ := Vec.exists_of_mem_left h.flip hu
    exact o.le_of_number (o.numbers_of_le hlu).2

theorem Box.Tightened.refl (h : b.BoundsInOrder) : Box.Tightened [] b b :=
  ⟨(h.numbers o).1, (h.numbers o).2, h, fun _ hk => absurd hk List.not_mem_nil⟩

/-- A variable that has moved stays so while its bounds move inwards. -/
theorem Box.Narrowed.after {k : Nat} (h : b.Narrowed k b')
    (hlower : List.Forall₂ (· ≤ ·) b'.lb b''.lb) (hupper : List.Forall₂ (· ≤ ·) b''.ub b'.ub) :
    b.Narrowed k b'' := by
  rcases h with ⟨l, l', hl, hl', hlt⟩ | ⟨u, u', hu, hu', hlt⟩
  · obtain ⟨l'', hl'', hle⟩ := Vec.forall₂_getElem? hlower hl'
    exact .inl ⟨l, l'', hl, hl'', o.lt_of_lt_of_le hlt hle⟩
  · obtain ⟨u'', hu'', hle⟩ := Vec.forall₂_getElem? hupper.flip hu'
    exact .inr ⟨u, u'', hu, hu'', o.lt_of_le_of_lt hle hlt⟩

theorem Box.Narrowed.before {k : Nat} (h : b'.Narrowed k b'')
    (hlower : List.Forall₂ (· ≤ ·) b.lb b'.lb) (hupper : List.Forall₂ (· ≤ ·) b'.ub b.ub) :
    b.Narrowed k b'' := by
  rcases h with ⟨l', l'', hl', hl'', hlt⟩ | ⟨u', u'', hu', hu'', hlt⟩
  · obtain ⟨l, hl, hle⟩ := Vec.forall₂_getElem? hlower.flip hl'
    exact .inl ⟨l, l'', hl, hl'', o.lt_of_le_of_lt hle hlt⟩
  · obtain ⟨u, hu, hle⟩ := Vec.forall₂_getElem? hupper hu'
    exact .inr ⟨u, u'', hu, hu'', o.lt_of_lt_of_le hlt hle⟩

/-- A variable that is tightened had room between its bounds. -/
theorem Box.Tightened.lt_of_mem (h : Box.Tightened ks b b') {k : Nat} (hk : k ∈ ks) {l u : R}
    (hl : b.lb[k]? = some l) (hu : b.ub[k]? = some u) : l < u := by
  obtain ⟨l', hl', hle⟩ := Vec.forall₂_getElem? h.lower hl
  obtain ⟨u', hu', hle'⟩ := Vec.forall₂_getElem? h.upper.flip hu
  obtain ⟨_, hread, hordered⟩ := Vec.forall₂_getElem? h.ordered hl'
  obtain rfl := Option.some.inj (hread.symm.trans hu')
  rcases h.moved k hk with ⟨l₀, l₁, hl₀, hl₁, hlt⟩ | ⟨u₀, u₁, hu₀, hu₁, hlt⟩
  · obtain rfl := Option.some.inj (hl₀.symm.trans hl)
    obtain rfl := Option.some.inj (hl₁.symm.trans hl')
    exact o.lt_of_lt_of_le hlt (o.le_trans hordered hle')
  · obtain rfl := Option.some.inj (hu₀.symm.trans hu)
    obtain rfl := Option.some.inj (hu₁.symm.trans hu')
    exact o.lt_of_le_of_lt (o.le_trans hle hordered) hlt

theorem Box.Tightened.append (h : Box.Tightened ks b b') (h' : Box.Tightened ks' b' b'') :
    Box.Tightened (ks ++ ks') b b'' where
  lower := forall₂_le_trans o h.lower h'.lower
  upper := forall₂_le_trans o h'.upper h.upper
  ordered := h'.ordered
  moved := fun k hk => by
    rcases List.mem_append.mp hk with hk | hk
    · exact (h.moved k hk).after o h'.lower h'.upper
    · exact (h'.moved k hk).before o h.lower h.upper

end Order

end Boxes

namespace Propagation

section Rows

variable {R Key : Type} [Arith R] [LinearOrder Key] (o : SumOrder R Key) {limits : Limits R}
  (htol : 0 ≤ limits.tol)
include o htol

theorem margin_nonneg (isIntegral : Bool) : 0 ≤ limits.margin isIntegral :=
  o.le_trans htol (tol_le_margin o (o.numbers_of_le htol).2 isIntegral)

/-- A new upper bound is below the one it replaces, and not below the lower bound.  If it was moved
onto the lower bound there was room, because otherwise it would have crossed it by the tolerance. -/
theorem larger_between {isIntegral : Bool} {l u bound : R} (hlu : l ≤ u)
    (himproves : bound < u - limits.margin isIntegral) (hcrosses : ¬ bound < l - limits.tol) :
    l ≤ Arith.larger bound l ∧ Arith.larger bound l < u := by
  obtain ⟨hl, hu⟩ := o.numbers_of_le hlu
  have hbelow : bound < u := o.lt_of_lt_sub (margin_nonneg o htol isIntegral) himproves
  unfold Arith.larger
  split_ifs with hmoved
  · refine ⟨o.le_of_number hl, ?_⟩
    by_contra hclosed
    have hul : u ≤ l := o.le_of_not_lt hl hu hclosed
    exact hcrosses (o.lt_sub_of_le hul (o.le_of_number (o.numbers_of_le htol).2)
      (lt_sub_tol o (o.numbers_of_le htol).2 himproves))
  · exact ⟨o.le_of_not_lt ((o.lt_iff _ _).mp hbelow).1 hl hmoved, hbelow⟩

theorem smaller_between {isIntegral : Bool} {l u bound : R} (hlu : l ≤ u)
    (himproves : l + limits.margin isIntegral < bound) (hcrosses : ¬ u + limits.tol < bound) :
    l < Arith.smaller bound u ∧ Arith.smaller bound u ≤ u := by
  obtain ⟨hl, hu⟩ := o.numbers_of_le hlu
  have habove : l < bound := o.lt_of_add_lt (margin_nonneg o htol isIntegral) himproves
  unfold Arith.smaller
  split_ifs with hmoved
  · refine ⟨?_, o.le_of_number hu⟩
    by_contra hclosed
    have hul : u ≤ l := o.le_of_not_lt hl hu hclosed
    exact hcrosses (o.add_lt_of_le hul (o.le_of_number (o.numbers_of_le htol).2)
      (add_tol_lt o (o.numbers_of_le htol).2 himproves))
  · exact ⟨habove, o.le_of_not_lt hu ((o.lt_iff _ _).mp habove).2.1 hmoved⟩

variable {b b' : Box R}

theorem tightened_of_lowerUpper {k : Nat} {isIntegral : Bool} {bound : R} {tightened : Bool}
    (hb : b.BoundsInOrder) (h : lowerUpper limits k isIntegral bound b = .ok tightened b') :
    Box.Tightened (if tightened then [k] else []) b b' := by
  obtain ⟨l, u, hbounds, ⟨rfl, himproves, hcrosses, rfl⟩ | ⟨rfl, -, rfl⟩⟩ := lowerUpper_eq_ok.mp h
  · obtain ⟨hl, hu, hlu⟩ := hb.read hbounds
    obtain ⟨hlower, hupper⟩ := larger_between o htol hlu himproves hcrosses
    refine ⟨(hb.numbers o).1, Vec.forall₂_set_left (hb.numbers o).2 hu (o.le_of_lt hupper),
      Vec.forall₂_set_right hb hl hlower, fun j hj => ?_⟩
    obtain rfl := List.mem_singleton.mp hj
    exact .inr ⟨u, _, hu, List.getElem?_set_self (List.getElem?_eq_some_iff.mp hu).1, hupper⟩
  · exact Box.Tightened.refl o hb

theorem tightened_of_raiseLower {k : Nat} {isIntegral : Bool} {bound : R} {tightened : Bool}
    (hb : b.BoundsInOrder) (h : raiseLower limits k isIntegral bound b = .ok tightened b') :
    Box.Tightened (if tightened then [k] else []) b b' := by
  obtain ⟨l, u, hbounds, ⟨rfl, himproves, hcrosses, rfl⟩ | ⟨rfl, -, rfl⟩⟩ := raiseLower_eq_ok.mp h
  · obtain ⟨hl, hu, hlu⟩ := hb.read hbounds
    obtain ⟨hlower, hupper⟩ := smaller_between o htol hlu himproves hcrosses
    refine ⟨Vec.forall₂_set_right (hb.numbers o).1 hl (o.le_of_lt hlower), (hb.numbers o).2,
      Vec.forall₂_set_left hb hu hupper, fun j hj => ?_⟩
    obtain rfl := List.mem_singleton.mp hj
    exact .inl ⟨l, _, hl, List.getElem?_set_self (List.getElem?_eq_some_iff.mp hl).1, hlower⟩
  · exact Box.Tightened.refl o hb

/-- From bounds in order, bounds move inwards. -/
theorem relatesBounds_tightened :
    RelatesBounds limits fun ks (b b' : Box R) => b.BoundsInOrder → Box.Tightened ks b b' where
  refl := fun _ hb => Box.Tightened.refl o hb
  append := fun h h' hb => (h hb).append o (h' (h hb).ordered)
  upper := fun h hb => tightened_of_lowerUpper o htol hb h
  lower := fun h hb => tightened_of_raiseLower o htol hb h

/-- **A row tightens the variables it answers with.** -/
theorem tightened_of_propagate {row : UpperRow R} {ks : List Nat} (hb : b.BoundsInOrder)
    (h : row.propagate limits b = .ok ks b') : Box.Tightened ks b b' :=
  (relatesBounds_tightened o htol).of_propagate h hb

end Rows

section Meaning

variable {R : Type} [Arith R]

/-- The changes are those between two boxes: they name the variables that differ and the bounds that
these have in the second box.  All bounds have moved inwards and are in order, and variables whose
bounds were equal have not moved. -/
structure Changes.Tells (start : Box R) (changes : Changes R) (b : Box R) : Prop where
  ordered : b.BoundsInOrder
  lower : List.Forall₂ (· ≤ ·) start.lb b.lb
  upper : List.Forall₂ (· ≤ ·) b.ub start.ub
  keys : ∀ k : Nat, (∃ c ∈ changes, c.1 = k) ↔ b.lb[k]? ≠ start.lb[k]? ∨ b.ub[k]? ≠ start.ub[k]?
  narrowed : ∀ c ∈ changes, start.Narrowed c.1 b
  current : ∀ c ∈ changes, b.bounds c.1 = .ok c.2
  closed : ∀ (k : Nat) l u, start.lb[k]? = some l → start.ub[k]? = some u → (l == u) = true →
    b.lb[k]? = some l ∧ b.ub[k]? = some u

/-- The same after the variable `i` was fixed at `v`, which is not among the changes. -/
structure Changes.TellsFixed (i : Int) (v : R) (start : Box R) (changes : Changes R) (b : Box R) :
    Prop where
  tells : ∃ box, start.set i v v = .ok box ∧ changes.Tells box b
  fixed : b.bounds i = .ok (v, v)
  others : ∀ c ∈ changes, Vec.position? start.lb.length i ≠ some c.1
  closed : ∀ (k : Nat) l u, start.lb[k]? = some l → start.ub[k]? = some u → (l == u) = true →
    Vec.position? start.lb.length i ≠ some k → b.lb[k]? = some l ∧ b.ub[k]? = some u

/-- What propagation tells of its changes, from bounds in order on. -/
def Propagator.TellsChanges (R : Type) [Arith R] : Prop :=
  ∀ {p q : Propagator R} {changes : Changes R}, p.box.BoundsInOrder → 0 ≤ p.limits.tol →
    (∀ numbers, Propagator.propagate numbers p = .ok changes q → changes.Tells p.box q.box) ∧
      ∀ i v, Arith.isNaN v = false → Propagator.fix i v p = .ok changes q →
        changes.TellsFixed i v p.box q.box

end Meaning

section Queues

variable {R : Type} {p : Propagator R}

/-- Only variables that were followed or noted before are noted. -/
theorem noted_of_followAll {r : Int} {tightened : List Nat} {work work' : Changes R × Queue}
    (h : tightened.foldlM (p.follow r) work = .ok work') :
    ∀ c ∈ work'.1, c.1 ∈ work.1.map (·.1) ++ tightened := by
  induction tightened generalizing work with
  | nil =>
      cases h
      exact fun c hc => List.mem_append_left _ (List.mem_map_of_mem hc)
  | cons k rest ih =>
      rw [List.foldlM_cons] at h
      obtain ⟨work₁, hfirst, h⟩ := Act.exceptBind_eq_ok.mp h
      obtain ⟨l, u, -, hnote⟩ := note_of_follow hfirst
      intro c hc
      rcases List.mem_append.mp (ih h c hc) with hold | hrest
      · obtain ⟨c', hc', heq⟩ := List.mem_map.mp hold
        rw [← heq]
        rcases Changes.mem_note (hnote ▸ hc') with rfl | ⟨hmem, -⟩
        · exact List.mem_append_right _ (List.mem_cons_self ..)
        · exact List.mem_append_left _ (List.mem_map_of_mem hmem)
      · exact List.mem_append_right _ (List.mem_cons_of_mem _ hrest)

variable {Key : Type} [Arith R] [LinearOrder Key] (o : SumOrder R Key) {p' : Propagator R}
  {start : Box R} {changes changes' : Changes R}
include o

/-- The work on a queue tightens the variables it notes, by induction on the visits that are
left. -/
theorem tightened_of_drain (fuel : Nat) {q : Queue} (htol : 0 ≤ p.limits.tol)
    (hstart : Box.Tightened (changes.map (·.1)) start p.box)
    (h : Propagator.drain fuel changes q p = .ok changes' p') :
    Box.Tightened (changes'.map (·.1)) start p'.box := by
  induction fuel generalizing changes q p with
  | zero =>
      cases h
      exact hstart
  | succ fuel ih =>
      unfold Propagator.drain at h
      cases hpending : q.pending with
      | nil =>
          rw [hpending] at h
          cases h
          exact hstart
      | cons r rest =>
          rw [hpending] at h
          obtain ⟨tightened, p₁, hvisit, h⟩ := Act.bind_eq_ok.mp h
          rw [Act.bind_of_ok (Act.get_apply p₁)] at h
          obtain ⟨work, _, hfollow, h⟩ := Act.bind_eq_ok.mp h
          obtain ⟨hfold, rfl⟩ := Act.ofExcept_eq_ok.mp hfollow
          obtain ⟨row, box, -, hrow, rfl⟩ := visit_eq_ok hvisit
          have hbox := hstart.append o (tightened_of_propagate o htol hstart.ordered hrow)
          refine ih (p := { p with box }) htol (hbox.mono fun k hk => ?_) h
          obtain ⟨c, hc, rfl⟩ := List.mem_map.mp hk
          exact noted_of_followAll hfold c hc

/-- Reported changes of tightened variables are those between the boxes. -/
theorem Changes.tells_of_reports {b : Box R} (hreports : Changes.Reports start changes b)
    (htightened : Box.Tightened (changes.map (·.1)) start b) : changes.Tells start b where
  ordered := htightened.ordered
  lower := htightened.lower
  upper := htightened.upper
  keys := fun k => by
    constructor
    · rintro ⟨c, hc, rfl⟩
      rcases htightened.moved c.1 (List.mem_map_of_mem hc) with
        ⟨l, l', hl, hl', hlt⟩ | ⟨u, u', hu, hu', hlt⟩
      · refine .inl fun heq => o.not_lt_self l ?_
        obtain rfl : l' = l := Option.some.inj (hl'.symm.trans (heq.trans hl))
        exact hlt
      · refine .inr fun heq => o.not_lt_self u ?_
        obtain rfl : u' = u := Option.some.inj (hu'.symm.trans (heq.trans hu))
        exact hlt
    · intro hdiffers
      by_contra hnone
      obtain ⟨hl, hu⟩ := hreports.others k List.not_mem_nil fun c hc hk => hnone ⟨c, hc, hk⟩
      exact hdiffers.elim (· hl) (· hu)
  narrowed := fun c hc => htightened.moved c.1 (List.mem_map_of_mem hc)
  current := fun c hc => (hreports.entries c hc).resolve_left List.not_mem_nil
  closed := fun k l u hl hu hequal => by
    have hnone : ∀ c ∈ changes, c.1 ≠ k := by
      rintro c hc rfl
      have hlt := htightened.lt_of_mem o (List.mem_map_of_mem hc) hl hu
      exact o.not_lt_of_le (o.le_of_beq hequal) hlt
    obtain ⟨hlower, hupper⟩ := hreports.others k List.not_mem_nil hnone
    exact ⟨hlower.trans hl, hupper.trans hu⟩

theorem tells_of_propagate {numbers : List Int} (hp : p.box.BoundsInOrder) (htol : 0 ≤ p.limits.tol)
    (h : Propagator.propagate numbers p = .ok changes p') : changes.Tells p.box p'.box := by
  refine Changes.tells_of_reports o (reports_of_propagate h) ?_
  unfold Propagator.propagate at h
  rw [Act.bind_of_ok (Act.get_apply p)] at h
  have hstart : Box.Tightened (([] : Changes R).map (·.1)) p.box p.box :=
    Box.Tightened.refl o hp
  exact tightened_of_drain o _ htol hstart h

/-- Fixing a variable makes its bounds equal before its rows are propagated, so they stay. -/
theorem tellsFixed_of_fix {i : Int} {v : R} (hv : Arith.isNaN v = false) (hp : p.box.BoundsInOrder)
    (htol : 0 ≤ p.limits.tol) (h : Propagator.fix i v p = .ok changes p') :
    changes.TellsFixed i v p.box p'.box := by
  obtain ⟨box, ns, ⟨_, hbounds⟩, hset, -, hrun⟩ := fix_eq_ok h
  obtain ⟨hindex, hlb, hub⟩ := Box.set_eq_ok.mp hset
  obtain ⟨k, hk, hlower⟩ := Vec.setAt?_eq_some.mp hlb
  obtain ⟨k', hk', hupper⟩ := Vec.setAt?_eq_some.mp hub
  obtain rfl : k = k' := Option.some.inj (hk.symm.trans (hp.length_eq ▸ hk'))
  have hbox : box.BoundsInOrder := by
    unfold Box.BoundsInOrder
    rw [← hlower, ← hupper]
    exact Vec.forall₂_set (o.le_of_number hv) k hp
  have htells : changes.Tells box p'.box :=
    tells_of_propagate o (p := { p with box }) hbox htol hrun
  have hl : box.lb[k]? = some v := by
    rw [← hlower]
    exact List.getElem?_set_self (Vec.position?_lt hk)
  have hu : box.ub[k]? = some v := by
    rw [← hupper]
    exact List.getElem?_set_self (Vec.position?_lt hk')
  have hequal : (v == v) = true := (o.beq_iff v v).mpr ⟨hv, hv, rfl⟩
  obtain ⟨hl', hu'⟩ := htells.closed k v v hl hu hequal
  refine ⟨⟨box, hset, htells⟩, ?_, ?_, ?_⟩
  · refine Box.bounds_eq_ok.mpr ⟨hindex, Vec.at?_eq_some.mpr ⟨k, ?_, hl'⟩,
      Vec.at?_eq_some.mpr ⟨k, ?_, hu'⟩⟩
    · rwa [← htells.lower.length_eq, ← hlower, List.length_set]
    · rwa [htells.upper.length_eq, ← hupper, List.length_set]
  · intro c hc hposition
    have hkey : c.1 = k := Option.some.inj (hposition.symm.trans hk)
    rcases (htells.keys k).mp ⟨c, hc, hkey⟩ with hmoved | hmoved
    · exact hmoved (hl'.trans hl.symm)
    · exact hmoved (hu'.trans hu.symm)
  · intro j l u hlj huj hequalj hj
    have hne : k ≠ j := fun heq => hj (heq ▸ hk)
    refine htells.closed j l u ?_ ?_ hequalj
    · rwa [← hlower, List.getElem?_set_ne hne]
    · rwa [← hupper, List.getElem?_set_ne hne]

/-- An arithmetic with an order of sums tells the changes of propagation. -/
theorem tellsChanges : Propagator.TellsChanges R := fun hp htol =>
  ⟨fun _ h => tells_of_propagate o hp htol h, fun _ _ hv h => tellsFixed_of_fix o hv hp htol h⟩

end Queues

section Both

/-- **Propagation tells its changes**, whether numbers are rounded or exact: bounds move inwards and
stay in order, the changes name the variables that have moved with the bounds that they have, and
variables whose bounds are equal stay where they are, also one that was just fixed. -/
theorem tells_changes : Propagator.TellsChanges Float ∧ Propagator.TellsChanges ExtRat :=
  ⟨tellsChanges Binary64.sumOrder, tellsChanges ExtRat.sumOrder⟩

/-- The rows `2 x + y ≤ 7` and `x - z = 1` for integers `x` and `z`, with no upper bounds. -/
def chained (R : Type) [Arith R] : Propagator R :=
  { rows := [⟨[(0, 2), (1, 1)], 7⟩, ⟨[(0, 1), (2, -1)], 1⟩, ⟨[(0, -1), (2, 1)], -1⟩]
    rowsOf := [[0, 1, 2], [0], [1, 2]]
    limits := { integral := [true, false, true], tol := Arith.tenth 6, epsilon := defaultEpsilon }
    maxVisits := 60
    box := ⟨[0, 1, 0], [Arith.infinity, Arith.infinity, Arith.infinity]⟩ }

/-- From no upper bounds the rows come to `1 ≤ x ≤ 3`, `1 ≤ y ≤ 5` and `0 ≤ z ≤ 2`; with `x` fixed
at `2` they come to `y ≤ 3` and `z = 1`. -/
theorem tells_changes_chained :
    let p := chained Float
    p.box.BoundsInOrder ∧ 0 ≤ p.limits.tol ∧ Arith.isNaN (2 : Float) = false ∧
      (∃ q, Propagator.propagate [0, 1, 2] p = .ok [(0, 1, 3), (1, 1, 5), (2, 0, 2)] q ∧
        Changes.Tells p.box [(0, 1, 3), (1, 1, 5), (2, 0, 2)] q.box) ∧
      ∃ q, Propagator.fix 0 2 p = .ok [(1, 1, 3), (2, 1, 1)] q ∧
        Changes.TellsFixed 0 2 p.box [(1, 1, 3), (2, 1, 1)] q.box := by
  intro p
  have hbox : p.box.BoundsInOrder :=
    .cons (by decide +kernel) (.cons (by decide +kernel) (.cons (by decide +kernel) .nil))
  have htol : 0 ≤ p.limits.tol := by decide +kernel
  have htwo : Arith.isNaN (2 : Float) = false := by decide +kernel
  refine ⟨hbox, htol, htwo, ?_, ?_⟩
  · have hvalue : ((Propagator.propagate [0, 1, 2]).split p).1.toOption.map id =
        some [(0, 1, 3), (1, 1, 5), (2, 0, 2)] := by decide +kernel
    obtain ⟨_, hok, rfl⟩ := Act.exists_ok_of_map hvalue
    obtain ⟨q, hq⟩ := Act.exists_of_split hok
    exact ⟨q, hq, (tells_changes.1 hbox htol).1 _ hq⟩
  · have hvalue : ((Propagator.fix 0 2).split p).1.toOption.map id =
        some [(1, 1, 3), (2, 1, 1)] := by decide +kernel
    obtain ⟨_, hok, rfl⟩ := Act.exists_ok_of_map hvalue
    obtain ⟨q, hq⟩ := Act.exists_of_split hok
    exact ⟨q, hq, (tells_changes.1 hbox htol).2 _ _ htwo hq⟩

end Both

end Propagation
end MipPump
