import MipPump.Proofs.DecidedRows
import MipPump.Proofs.Draws
import MipPump.Proofs.ReportedChanges
import MipPump.Proofs.SoundPropagation
import MipPump.Proofs.VariableFixing

/-!
# Two copies of the bounds

Rounding with propagation changes two copies of the bounds: the box of the propagator, in place, and
the domain of the problem, by repeating what the propagator reports.  After every variable the two
are the same.  What a rounding leaves in the propagator, also one that stopped half-way, is
overwritten by the next.

* `Fault.NotCrossed`: the faults other than bounds that cross.  Propagation has no other faults
  (`throws_fix`).
* `InStep s`: domain and propagator have the same bounds, and these are in order.
* `followChanges_of_reports`, `exists_followed`: to repeat reported changes leads to the box of the
  propagator.
* `tries_fixVariable_inStep`, `tries_fixAll_inStep`: one variable, and the variables of an order.
* `Reaches`: the states of a rounding between two variables.
* `afterCalls`: the propagator that earlier roundings have left.
* `propagatedPoint_in_step`: the result.
-/

namespace MipPump

section Faults

variable {R : Type}

/-- A fault other than a change of bounds that would cross them. -/
def Fault.NotCrossed (e : Fault R) : Prop := ∀ i lb ub, e ≠ .crossedBounds i lb ub

theorem Fault.notCrossed_of_missing {e : Fault R} (h : e = .noSuchEntry) : e.NotCrossed := by
  rintro i lb ub rfl
  cases h

theorem Fault.notCrossed_emptied (i : Int) (lb ub : R) :
    (Fault.emptiedDomain i lb ub).NotCrossed := nofun

theorem Fault.OfRanking.notCrossed {e : Fault R} (h : e.OfRanking) : e.NotCrossed := by
  rintro i lb ub rfl
  rcases h with h | h | h | h | h <;> cases h

/-- To read bounds does not cross them. -/
theorem Box.notCrossed_of_bounds {b : Box R} {i : Int} {e : Fault R} (h : b.bounds i = .error e) :
    e.NotCrossed := by
  rintro j lb ub rfl
  rcases Box.bounds_eq_error h with h | h <;> cases h

/-- Nor does it to write them. -/
theorem Box.notCrossed_of_set {b : Box R} {i : Int} {lb ub : R} {e : Fault R}
    (h : b.set i lb ub = .error e) : e.NotCrossed := by
  unfold Box.set at h
  rcases Act.exceptBind_eq_error h with hi | ⟨_, -, h⟩
  · unfold requireIndex at hi
    split at hi
    · cases hi
      exact nofun
    · cases hi
  · rcases Act.exceptBind_eq_error h with hl | ⟨_, -, h⟩
    · exact Fault.notCrossed_of_missing (Vec.set_eq_error hl)
    · rcases Act.exceptBind_eq_error h with hu | ⟨_, -, hpure⟩
      · exact Fault.notCrossed_of_missing (Vec.set_eq_error hu)
      · cases hpure

end Faults

/-- Bounds are set where a box of the same size has bounds. -/
theorem Box.set_of_bounds {R : Type} {b b' : Box R} {k : Nat} {bounds : R × R}
    (h : b'.bounds k = .ok bounds) (hl : b.lb.length = b'.lb.length)
    (hu : b.ub.length = b'.ub.length) (l u : R) :
    (∃ l' u', b.bounds k = .ok (l', u')) ∧ b.set k l u = .ok ⟨b.lb.set k l, b.ub.set k u⟩ := by
  obtain ⟨hi, hlk, huk⟩ := Box.bounds_eq_ok.mp h
  rw [Vec.at?_natCast] at hlk huk
  have hlk' : k < b.lb.length := hl ▸ (List.getElem?_eq_some_iff.mp hlk).1
  have huk' : k < b.ub.length := hu ▸ (List.getElem?_eq_some_iff.mp huk).1
  refine ⟨Box.exists_bounds hi hlk' huk', Box.set_eq_ok.mpr ⟨hi, ?_, ?_⟩⟩
  · exact Vec.setAt?_eq_some.mpr ⟨k, Vec.position?_natCast hlk', rfl⟩
  · exact Vec.setAt?_eq_some.mpr ⟨k, Vec.position?_natCast huk', rfl⟩

namespace Propagation

variable {R : Type} [Arith R]

section Faults

variable {limits : Limits R}

theorem throws_lowerUpper (k : Nat) (isIntegral : Bool) (bound : R) :
    Act.Throws Fault.NotCrossed (lowerUpper limits k isIntegral bound) := by
  intro b b' e h
  unfold lowerUpper at h
  cases hbounds : b.bounds k with
  | error e' =>
      rw [hbounds] at h
      cases h
      exact Box.notCrossed_of_bounds hbounds
  | ok bounds =>
      obtain ⟨l, u⟩ := bounds
      rw [hbounds] at h
      dsimp only at h
      generalize (if isIntegral then Arith.floor (bound + limits.tol) else bound) = bound' at h
      split_ifs at h
      cases h
      exact Fault.notCrossed_emptied _ _ _

theorem throws_raiseLower (k : Nat) (isIntegral : Bool) (bound : R) :
    Act.Throws Fault.NotCrossed (raiseLower limits k isIntegral bound) := by
  intro b b' e h
  unfold raiseLower at h
  cases hbounds : b.bounds k with
  | error e' =>
      rw [hbounds] at h
      cases h
      exact Box.notCrossed_of_bounds hbounds
  | ok bounds =>
      obtain ⟨l, u⟩ := bounds
      rw [hbounds] at h
      dsimp only at h
      generalize (if isIntegral then Arith.ceil (bound - limits.tol) else bound) = bound' at h
      split_ifs at h
      cases h
      exact Fault.notCrossed_emptied _ _ _

theorem throws_tightenTerms (row : UpperRow R) (a : Activity R)
    (terms : List ((Nat × R) × R)) :
    Act.Throws Fault.NotCrossed (row.tightenTerms limits a terms) := by
  induction terms with
  | nil => exact Act.throws_pure _
  | cons term rest ih =>
      obtain ⟨⟨k, coef⟩, contribution⟩ := term
      unfold UpperRow.tightenTerms UpperRow.tightenTerm
      refine Act.throws_bind (Act.throws_ite ?_ (Act.throws_pure _)) fun _ =>
        Act.throws_bind ih fun _ => Act.throws_pure _
      refine Act.throws_bind (Act.throws_ofExcept fun e he => ?_) fun _ =>
        Act.throws_ite (throws_lowerUpper _ _ _) (throws_raiseLower _ _ _)
      exact Fault.notCrossed_of_missing (Vec.get_eq_error he)

theorem notCrossed_of_activity {row : UpperRow R} {b : Box R} {e : Fault R}
    (h : row.activity b = .error e) : e.NotCrossed := by
  unfold UpperRow.activity at h
  rcases Act.exceptBind_eq_error h with h | ⟨_, -, h⟩
  · obtain ⟨⟨k, coef⟩, -, hterm⟩ := Vec.mapM_eq_error h
    rcases Act.exceptBind_eq_error hterm with hbounds | ⟨_, -, hpure⟩
    · exact Box.notCrossed_of_bounds hbounds
    · cases hpure
  · cases h

theorem notCrossed_of_checkActivity {row : UpperRow R} {b : Box R} {a : Activity R} {e : Fault R}
    (h : row.checkActivity limits b a = .error e) : e.NotCrossed := by
  unfold UpperRow.checkActivity at h
  split at h
  · split at h
    · rcases Act.exceptBind_eq_error h with hbounds | ⟨_, -, hempty⟩
      · exact Box.notCrossed_of_bounds hbounds
      · cases hempty
        exact Fault.notCrossed_emptied _ _ _
    · cases h
  · cases h

theorem throws_propagateRow (row : UpperRow R) :
    Act.Throws Fault.NotCrossed (row.propagate limits) := by
  unfold UpperRow.propagate
  refine Act.throws_bind Act.throws_get fun b => ?_
  refine Act.throws_bind (Act.throws_ofExcept fun _ => notCrossed_of_activity) fun a => ?_
  refine Act.throws_bind (Act.throws_ofExcept fun _ => notCrossed_of_checkActivity) fun _ => ?_
  exact Act.throws_ite (Act.throws_pure _) (throws_tightenTerms _ _ _)

omit [Arith R] in
theorem notCrossed_of_follow {p : Propagator R} {r : Int} {work : Changes R × Queue} {k : Nat}
    {e : Fault R} (h : p.follow r work k = .error e) : e.NotCrossed := by
  unfold Propagator.follow at h
  rcases Act.exceptBind_eq_error h with hbounds | ⟨_, -, h⟩
  · exact Box.notCrossed_of_bounds hbounds
  · rcases Act.exceptBind_eq_error h with hrows | ⟨_, -, hpure⟩
    · exact Fault.notCrossed_of_missing (Vec.get_eq_error hrows)
    · cases hpure

/-- The work on a queue, by induction on the visits that are left. -/
theorem throws_drain (fuel : Nat) (changes : Changes R) (q : Queue) :
    Act.Throws (R := R) Fault.NotCrossed (Propagator.drain fuel changes q) := by
  induction fuel generalizing changes q with
  | zero => exact Act.throws_pure _
  | succ fuel ih =>
      unfold Propagator.drain
      cases q.pending with
      | nil => exact Act.throws_pure _
      | cons r rest =>
          refine Act.throws_bind ?_ fun tightened => Act.throws_bind Act.throws_get fun p =>
            Act.throws_bind (Act.throws_ofExcept fun e he => ?_) fun work => ih _ _
          · unfold Propagator.visit Propagator.onBox
            refine Act.throws_bind Act.throws_get fun p =>
              Act.throws_bind (Act.throws_ofExcept fun e he => ?_) fun row =>
                Act.throws_zoom (throws_propagateRow row)
            exact Fault.notCrossed_of_missing (Vec.get_eq_error he)
          · have hfollow (work : Changes R × Queue) (k : Nat) :
                (∃ work', p.follow r work k = .ok work' ∧ True) ∨
                  ∃ e', p.follow r work k = .error e' ∧ e'.NotCrossed := by
              cases h : p.follow r work k with
              | ok work' => exact .inl ⟨work', rfl, trivial⟩
              | error e' => exact .inr ⟨e', rfl, notCrossed_of_follow h⟩
            rcases Vec.foldlM_cases (I := fun _ => True) (fun work _ k _ => hfollow work k) trivial
              with ⟨work, hok, -⟩ | ⟨e', herror, hfault⟩
            · rw [hok] at he
              cases he
            · rw [herror] at he
              cases he
              exact hfault

/-- **Fixing a variable in a propagator** may find a domain empty, but crosses no bounds. -/
theorem throws_fix (i : Int) (value : R) :
    Act.Throws Fault.NotCrossed (Propagator.fix i value) := by
  unfold Propagator.fix
  refine Act.throws_bind Act.throws_get fun p => ?_
  refine Act.throws_bind (Act.throws_ofExcept fun _ => Box.notCrossed_of_bounds) fun bounds => ?_
  refine Act.throws_ite (Act.throws_bind (Act.throws_throw (Fault.notCrossed_emptied _ _ _))
    fun _ => ?_) ?_
  all_goals
    refine Act.throws_bind (Act.throws_ofExcept fun e he => ?_) fun box => ?_
    · exact Box.notCrossed_of_set he
    refine Act.throws_bind (Act.throws_set _) fun _ => ?_
    refine Act.throws_bind (Act.throws_ofExcept fun e he => ?_) fun rows => ?_
    · exact Fault.notCrossed_of_missing (Vec.get_eq_error he)
    unfold Propagator.propagate
    exact Act.throws_bind Act.throws_get fun p => throws_drain _ _ _

end Faults

end Propagation

namespace Rounding

open Propagation

section Following

variable {R : Type} {b b' : Box R}

/-- When the first of the reported changes was made, the others lead to the same box. -/
theorem reports_of_cons {l u : R} {rest : Changes R}
    (h : Changes.Reports b ((k, l, u) :: rest) b') :
    Changes.Reports ⟨b.lb.set k l, b.ub.set k u⟩ rest b' where
  lower := h.lower.trans (List.length_set ..).symm
  upper := h.upper.trans (List.length_set ..).symm
  entries := fun c hc => h.entries c (List.mem_cons_of_mem _ hc)
  others := fun j hj hnone => by
    by_cases hk : j = k
    · subst hk
      have hread := (h.entries _ (List.mem_cons_self ..)).resolve_left List.not_mem_nil
      obtain ⟨-, hl, hu⟩ := Box.bounds_eq_ok.mp hread
      rw [Vec.at?_natCast] at hl hu
      have hlt := (List.getElem?_eq_some_iff.mp hl).1
      have hut := (List.getElem?_eq_some_iff.mp hu).1
      rw [hl, hu, List.getElem?_set_self (h.lower ▸ hlt), List.getElem?_set_self (h.upper ▸ hut)]
      exact ⟨rfl, rfl⟩
    · rw [List.getElem?_set_ne (Ne.symm hk), List.getElem?_set_ne (Ne.symm hk)]
      refine h.others j hj fun c hc => ?_
      rcases List.mem_cons.mp hc with rfl | hc
      · exact Ne.symm hk
      · exact hnone c hc

theorem eq_of_reports_nil (h : Changes.Reports b [] b') : b' = b := by
  have hsame (j : Nat) := h.others j List.not_mem_nil fun _ hc => absurd hc List.not_mem_nil
  obtain ⟨lb, ub⟩ := b
  obtain ⟨lb', ub'⟩ := b'
  obtain rfl : lb' = lb := List.ext_getElem? fun j => (hsame j).1
  obtain rfl : ub' = ub := List.ext_getElem? fun j => (hsame j).2
  rfl

variable [Arith R]

/-- **To repeat reported changes** through a scope goes through, and leads to the box they were
reported of.  By induction on the changes. -/
theorem followChanges_of_reports {changes : Changes R} {s : Scoped R}
    (h : Changes.Reports s.domain.box changes b) (hb : b.Ordered) :
    ∃ s', followChanges changes s = .ok () s' ∧ s'.domain.box = b := by
  induction changes generalizing s with
  | nil => exact ⟨s, rfl, (eq_of_reports_nil h).symm⟩
  | cons c rest ih =>
      obtain ⟨k, l, u⟩ := c
      have hread := (h.entries _ (List.mem_cons_self ..)).resolve_left List.not_mem_nil
      obtain ⟨⟨l', u', hold⟩, hset⟩ := Box.set_of_bounds hread h.lower.symm h.upper.symm l u
      obtain ⟨s₁, htighten, hbox, -⟩ := Scoped.exists_tighten hold (hb.of_bounds hread) hset
      obtain ⟨s₂, hrest, hfinal⟩ := ih (s := s₁) (hbox ▸ reports_of_cons h)
      refine ⟨s₂, ?_, hfinal⟩
      unfold followChanges
      rw [Act.bind_of_ok htighten]
      exact hrest

end Following

section Steps

variable {R : Type} [Arith R] {n : Nat} {tieBreak : TieBreak} {eps : R} {t : Table R}
  {point : List R}

/-- The domain and the propagator have the same bounds of `n` variables, and these are in order. -/
structure InStep (n : Nat) (s : Scoped R × Fixing R) : Prop where
  same : s.1.domain.box = s.2.propagator.box
  ordered : s.2.propagator.box.Ordered
  lower : s.2.propagator.box.lb.length = n

/-- The bounds of each variable are read in both copies. -/
theorem InStep.bounds {s : Scoped R × Fixing R} (h : InStep n s)
    (hindex : ∀ j < n, requireIndex (R := R) (j : Int) = .ok ()) {j : Nat} (hj : j < n) :
    ∃ l u, s.1.domain.bounds j = .ok (l, u) ∧ s.2.propagator.box.bounds j = .ok (l, u) := by
  have hl : j < s.2.propagator.box.lb.length := h.lower ▸ hj
  have hu : j < s.2.propagator.box.ub.length := h.ordered.length_eq ▸ hl
  obtain ⟨l, u, hread⟩ := Box.exists_bounds (hindex j hj) hl hu
  refine ⟨l, u, ?_, hread⟩
  unfold Domain.bounds
  rw [h.same]
  exact hread

variable (hirrefl : ∀ x : R, ¬ x < x)
include hirrefl

/-- What a propagator did to fix a variable goes through in a scope of the same bounds: the variable
is fixed there, and what followed from it is repeated. -/
theorem exists_followed {s : Scoped R} {p q : Propagator R} (hsame : s.domain.box = p.box)
    (hordered : p.box.Ordered) {j : Int} {value : R} {changes : Changes R}
    (hfix : Propagator.fix j value p = .ok changes q) {bounds : R × R}
    (hbounds : p.box.bounds j = .ok bounds) :
    ∃ s₁ s₂, Scoped.fix j value s = .ok () s₁ ∧ followChanges changes s₁ = .ok () s₂ ∧
      s₂.domain.box = q.box ∧ q.box.Ordered ∧ q.box.lb.length = p.box.lb.length := by
  obtain ⟨box, hset, hreports⟩ := reports_of_fix hfix
  have hq := ordered_of_fix hirrefl hordered hfix
  have hread : s.domain.bounds j = .ok bounds := by
    unfold Domain.bounds
    rw [hsame]
    exact hbounds
  obtain ⟨s₁, htighten, hbox, -⟩ := Scoped.exists_tighten hread (hirrefl value) (hsame ▸ hset)
  obtain ⟨s₂, hfollow, hfinal⟩ := followChanges_of_reports (hbox ▸ hreports) hq
  refine ⟨s₁, s₂, htighten, hfollow, hfinal, hq, ?_⟩
  obtain ⟨i, -, hlb⟩ := Vec.setAt?_eq_some.mp (Box.set_eq_ok.mp hset).2.1
  rw [hreports.lower, ← hlb, List.length_set]

/-- **One variable** leaves domain and propagator in step, or its rounding stops with a fault other
than bounds that cross. -/
theorem tries_fixVariable_inStep (j : Int) :
    Act.Tries Fault.NotCrossed (InStep n) (fixVariable tieBreak eps t point j)
      fun _ => InStep n := by
  unfold fixVariable
  refine Act.tries_get_bind fun s hs => ?_
  refine Act.tries_ofExcept_bind (fun bounds hbounds => ?_) fun _ => Box.notCrossed_of_bounds
  dsimp only
  split
  · exact fun s _ => .inr ⟨_, s, rfl, Fault.notCrossed_emptied _ _ _⟩
  refine Act.tries_ofExcept_bind (fun x _ => ?_) fun e he =>
    Fault.notCrossed_of_missing (Vec.get_eq_error he)
  generalize nearestValue Arith.clampKeep tieBreak eps _ _ x = value
  rintro s rfl
  cases hfix : Propagator.fix j value s.2.propagator with
  | error e q =>
      exact .inr ⟨e, _, Act.bind_of_error (Act.zoom_of_error (Act.zoom_of_error hfix)),
        throws_fix j value hfix⟩
  | ok changes q =>
      obtain ⟨s₁, s₂, htighten, hfollow, hfinal, hq, hlength⟩ :=
        exists_followed hirrefl hs.same hs.ordered hfix hbounds
      have hrun : Act.second (Fixing.onPropagator (Propagator.fix j value)) s =
          .ok changes (s.1, { s.2 with propagator := q }) := Act.zoom_of_ok (Act.zoom_of_ok hfix)
      have hscope : Act.first (Scoped.fix j value) (s.1, { s.2 with propagator := q }) =
          .ok () (s₁, { s.2 with propagator := q }) := Act.zoom_of_ok htighten
      have hrest : Act.first (followChanges changes) (s₁, { s.2 with propagator := q }) =
          .ok () (s₂, { s.2 with propagator := q }) := Act.zoom_of_ok hfollow
      rw [Act.bind_of_ok hrun, Act.bind_of_ok hscope, Act.bind_of_ok hrest]
      refine Act.tries_ofExcept_bind (P := (· = (s₂, { s.2 with propagator := q })))
        (fun place _ => ?_) (fun e he => Fault.notCrossed_of_missing (Vec.get_eq_error he)) _ rfl
      rintro _ rfl
      exact .inl ⟨_, _, rfl, hfinal, hq, hlength.trans hs.lower⟩

/-- The variables of an order, by induction on it. -/
theorem tries_fixAll_inStep (order : List Int) :
    Act.Tries Fault.NotCrossed (InStep n) (fixAll tieBreak eps t point order)
      fun _ => InStep n := by
  induction order with
  | nil => exact Act.tries_pure fun _ hs => hs
  | cons j rest ih =>
      unfold fixAll
      exact Act.tries_bind (tries_fixVariable_inStep hirrefl j) fun _ => ih

/-- The scope around them can be closed, so that the fault is still that of a variable. -/
theorem tries_fixInScope_inStep {b : Box R} (hb : b.Ordered) (order : List Int) :
    Act.Tries Fault.NotCrossed (fun s => s.1.box = b ∧ s.2.propagator.box = b)
      (fixInScope tieBreak eps t point order) fun _ _ => True := by
  rintro ⟨d, f⟩ ⟨hd, hf⟩
  refine ((Scoped.tries_within hb (J := fun g => f.propagator.SameRows g.propagator) (P := (· = f))
    (Q := fun _ _ => True) ?_ ?_ ?_).mono (fun _ hs => hs) fun _ _ _ => trivial) (d, f) ⟨hd, rfl⟩
  · exact Act.keeps_bind (keeps_fixAll b f.propagator tieBreak eps t point order) fun _ =>
      Act.keeps_bind Act.keeps_get fun _ => Act.keeps_pure _
  · rintro _ rfl
    exact Propagator.SameRows.refl _
  · refine Act.tries_bind ((tries_fixAll_inStep (n := b.lb.length) hirrefl order).mono ?_
      fun _ _ h => h) fun _ => Act.tries_get_bind fun _ _ => Act.tries_pure fun _ _ => trivial
    rintro ⟨s, _⟩ ⟨hs, rfl⟩
    exact ⟨hs.trans hf.symm, hf ▸ hb, by rw [hf]⟩

end Steps

section Roundings

variable {R : Type} [Arith R]

/-- The state in which the first variable is rounded. -/
def Workspace.opened (ws : Workspace R) (bounds : List (R × R)) : Scoped R × Fixing R :=
  ( { domain := ws.domain }
  , { propagator :=
        { ws.propagator with box := ⟨bounds.map (·.1), bounds.map (·.2)⟩ } } )

/-- The rounding of a point has come to the state `s` when it has rounded the variables `done`,
which are the first ones of its order. -/
def Reaches (tieBreak : TieBreak) (eps : R) (t : Table R) (k : Ranker R) (point : List R)
    (ws : Workspace R) (done : List Int) (s : Scoped R × Fixing R) : Prop :=
  ∃ bounds order progress,
    ((List.range t.numVars).mapM fun j : Nat => ws.domain.bounds j) = .ok bounds ∧
      k.rank t point none ws.progress = .ok order progress ∧ done <+: order ∧
      fixAll tieBreak eps t point done (ws.opened bounds) = .ok () s

/-- What a rounding is called with besides what the calls share. -/
structure Call (R : Type) where
  domain : Domain R
  progress : Progress R
  point : List R

/-- The propagator after earlier roundings, whether they answered or stopped with a fault. -/
def afterCalls (tieBreak : TieBreak) (eps : R) (t : Table R) (k : Ranker R) (p : Propagator R)
    (calls : List (Call R)) : Propagator R :=
  calls.foldl (fun q c =>
    ((propagatedPoint tieBreak eps t k c.point).after ⟨c.domain, c.progress, q⟩).propagator) p

theorem sameRows_afterCalls (tieBreak : TieBreak) (eps : R) (t : Table R) (k : Ranker R)
    (p : Propagator R) (calls : List (Call R)) :
    p.SameRows (afterCalls tieBreak eps t k p calls) := by
  unfold afterCalls
  refine List.foldlRecOn calls _ (Propagator.SameRows.refl p) fun q hq c _ => ?_
  exact keeps_sameRows_propagatedPoint p tieBreak eps t k c.point ⟨c.domain, c.progress, q⟩ hq

variable {tieBreak : TieBreak} {eps : R} {t : Table R} {k : Ranker R} {point : List R}

/-- Where the bounds can be read, a rounding overwrites the box of the propagator. -/
theorem propagatedPoint_congr {d : Domain R} {bounds : List (R × R)}
    (hbounds : ((List.range t.numVars).mapM fun j : Nat => d.bounds j) = .ok bounds)
    {p q : Propagator R} (h : p.SameRows q) (progress : Progress R) :
    propagatedPoint tieBreak eps t k point ⟨d, progress, q⟩ =
      propagatedPoint tieBreak eps t k point ⟨d, progress, p⟩ := by
  obtain ⟨box, rfl⟩ := h
  unfold propagatedPoint
  rw [Act.bind_of_ok (Act.get_apply _), Act.bind_of_ok (Act.get_apply _),
    Act.ofExcept_bind hbounds, Act.ofExcept_bind hbounds]
  dsimp only
  rw [Act.bind_of_ok (Act.set_apply _ _), Act.bind_of_ok (Act.set_apply _ _)]

variable {n : Nat} (ws : Workspace R)

/-- The bounds in force are taken over, so that domain and propagator begin in step. -/
theorem opened_box (hd : ws.domain.box.Ordered) :
    (ws.opened (ws.domain.box.lb.zip ws.domain.box.ub)).2.propagator.box = ws.domain.box := by
  unfold Workspace.opened
  rw [List.map_fst_zip (Nat.le_of_eq hd.length_eq),
    List.map_snd_zip (Nat.le_of_eq hd.length_eq.symm)]

variable (hirrefl : ∀ x : R, ¬ x < x)
include hirrefl

theorem inStep_of_reaches (hlen : ws.domain.box.lb.length = n) (hd : ws.domain.box.Ordered)
    (hbounds : ((List.range t.numVars).mapM fun j : Nat => ws.domain.bounds j) =
      .ok (ws.domain.box.lb.zip ws.domain.box.ub))
    {done : List Int} {s : Scoped R × Fixing R} (h : Reaches tieBreak eps t k point ws done s) :
    InStep n s := by
  obtain ⟨bounds, order, progress, hread, -, -, hrun⟩ := h
  rw [hbounds] at hread
  cases hread
  have hbox := opened_box ws hd
  have hstart : InStep n (ws.opened (ws.domain.box.lb.zip ws.domain.box.ub)) :=
    ⟨hbox.symm, hbox.symm ▸ hd, by rw [hbox, hlen]⟩
  exact (tries_fixAll_inStep hirrefl done).of_ok hstart hrun

/-- A rounding of bounds in order stops with no bounds that cross. -/
theorem notCrossed_of_propagatedPoint (hd : ws.domain.box.Ordered)
    (hbounds : ((List.range t.numVars).mapM fun j : Nat => ws.domain.bounds j) =
      .ok (ws.domain.box.lb.zip ws.domain.box.ub))
    {e : Fault R} {ws' : Workspace R}
    (h : propagatedPoint tieBreak eps t k point ws = .error e ws') : e.NotCrossed := by
  unfold propagatedPoint at h
  rw [Act.bind_of_ok (Act.get_apply ws), Act.ofExcept_bind hbounds] at h
  dsimp only at h
  rw [Act.bind_of_ok (Act.set_apply _ _)] at h
  refine Act.Tries.of_error (F := Fault.NotCrossed) (Q := fun _ _ => True)
    (P := fun w => w.domain.box = ws.domain.box ∧ w.propagator.box = ws.domain.box)
    (Act.tries_bind (Q := fun _ w => w.domain.box = ws.domain.box ∧
      w.propagator.box = ws.domain.box) ?_ fun order => Act.tries_bind
        (Q := fun _ _ => True) ?_ fun writes => ?_) ⟨rfl, opened_box ws hd⟩ h
  · have hrank : Act.Throws Fault.NotCrossed (k.rank t point none) := fun _ _ _ he =>
      (k.throws_rank t point he).notCrossed
    exact Act.tries_zoom hrank.tries (fun _ _ => trivial) fun _ _ _ hw _ => hw
  · exact Act.tries_zoom (tries_fixInScope_inStep hirrefl hd order) (fun _ hw => hw)
      fun _ _ _ _ _ => trivial
  · exact (Act.throws_ofExcept fun e he =>
      Fault.notCrossed_of_missing (Vec.placeAll_eq_error he)).tries

omit hirrefl in
/-- A rounding that answers has come through its whole order. -/
theorem reaches_of_propagatedPoint {candidate : List R} {ws' : Workspace R}
    (h : propagatedPoint tieBreak eps t k point ws = .ok candidate ws') :
    ∃ order s, order.Perm t.integers ∧ Reaches tieBreak eps t k point ws order s ∧
      (Vec.placeAll (Vec.zeros t.numIntegers) s.2.writes.reverse : Except (Fault R) (List R)) =
        .ok candidate := by
  obtain ⟨bounds, order, progress, s, hbounds, hranked, hall, hplace⟩ := ranked_of_propagatedPoint h
  exact ⟨order, s, Ranker.perm_of_rank hranked,
    ⟨bounds, order, progress, hbounds, hranked, List.prefix_refl _, hall⟩, hplace⟩

/-- **Rounding with propagation keeps domain and propagator in step and carries nothing over.**
After every variable both have the same bounds of all variables; no change of bounds is refused
because it would cross them; and whatever the earlier roundings were, and however they ended, the
answer or the fault, the generator and the changes made in the domain are those of a propagator
without earlier roundings. -/
theorem propagatedPoint_in_step {vars : List (Variable R)} (ht : Table.ofVariables vars = .ok t)
    (horder : InOrder vars) (tieBreak : TieBreak) (eps : R) (k : Ranker R) (p : Propagator R)
    (calls : List (Call R)) {d : Domain R} (hlen : d.box.lb.length = vars.length)
    (hd : d.box.Ordered) (progress : Progress R) (point : List R) :
    let ws : Workspace R := ⟨d, progress, afterCalls tieBreak eps t k p calls⟩
    (∀ done s, Reaches tieBreak eps t k point ws done s → ∀ j < vars.length, ∃ l u,
      s.1.domain.bounds (j : Nat) = .ok (l, u) ∧ s.2.propagator.box.bounds (j : Nat) = .ok (l, u)) ∧
    (∀ candidate ws', propagatedPoint tieBreak eps t k point ws = .ok candidate ws' →
      ∃ order s, order.Perm t.integers ∧ Reaches tieBreak eps t k point ws order s ∧
        (Vec.placeAll (Vec.zeros t.numIntegers) s.2.writes.reverse :
          Except (Fault R) (List R)) = .ok candidate) ∧
    (∀ e ws', propagatedPoint tieBreak eps t k point ws = .error e ws' →
      ∀ j lb ub, e ≠ .crossedBounds j lb ub) ∧
    propagatedPoint tieBreak eps t k point ws =
      propagatedPoint tieBreak eps t k point ⟨d, progress, p⟩ := by
  have h := Table.lists_of_ofVariables ht
  have hindex : ∀ j < vars.length, requireIndex (R := R) (j : Int) = .ok () := fun j hj =>
    requireIndex_of_at? (h.short horder) (Vec.at?_of_getElem? (List.getElem?_eq_getElem hj))
  have hbounds : ((List.range t.numVars).mapM fun j : Nat => d.bounds j) =
      .ok (d.box.lb.zip d.box.ub) := by
    rw [h.numVars_eq]
    exact Box.mapM_bounds hlen (hd.length_eq.symm.trans hlen) hindex
  intro ws
  refine ⟨fun done s hs j hj => ?_, fun candidate ws' hok => reaches_of_propagatedPoint ws hok,
    fun e ws' he => ?_, ?_⟩
  · exact (inStep_of_reaches ws hirrefl hlen hd hbounds hs).bounds hindex hj
  · exact notCrossed_of_propagatedPoint ws hirrefl hd hbounds he
  · exact propagatedPoint_congr hbounds (sameRows_afterCalls tieBreak eps t k p calls) progress

end Roundings

section Examples

/-- Two binary variables `x` and `y` with the row `3x + 2y = 2`. -/
def exchange : List (Variable ExtRat) × Rows ExtRat :=
  ( [ { index := 0, lb := .fin 0, ub := .fin 1, kind := .binary, cost := .fin 0 }
    , { index := 1, lb := .fin 0, ub := .fin 1, kind := .binary, cost := .fin 0 } ]
  , { coefficients := [[.fin 3, .fin 2]], senses := [.equal], rhs := [.fin 2] } )

/-- The lower bounds that a rounding of the point `earlier` leaves in the propagator, and the
candidate of `point` after it. -/
def roundedAfter (vars : List (Variable ExtRat)) (rows : Rows ExtRat) (eps : ExtRat)
    (earlier point : List ExtRat) : Except (Fault ExtRat) (List ExtRat × List ExtRat) := do
  let t ← Table.ofVariables vars
  let box : Box ExtRat := ⟨t.lb, t.ub⟩
  let p ← Propagator.build rows box t.kinds eps defaultEpsilon defaultRounds
  let progress ← Progress.start {} t.numIntegers
  let k ← Ranker.make .displacement t none 0 eps
  let left := afterCalls .range eps t k p [⟨{ box }, progress, earlier⟩]
  let candidate ← ((propagatedPoint .range eps t k point).split ⟨{ box }, progress, left⟩).1
  pure (left.box.lb, candidate)

/-- A rounding of the point `(9/10, 2/5)` stops half-way, with `x` at one in the propagator; the
rounding of `(1/10, 9/10)` after it answers as if there had been none. -/
theorem propagatedPoint_in_step_emptied :
    ∃ (t : Table ExtRat) (p : Propagator ExtRat) (k : Ranker ExtRat) (progress : Progress ExtRat)
      (box : Box ExtRat) (ws' : Workspace ExtRat), Table.ofVariables exchange.1 = .ok t ∧
      InOrder exchange.1 ∧ box.lb.length = exchange.1.length ∧ box.Ordered ∧
      Propagator.build exchange.2 box t.kinds (.fin (1 / 1000000)) defaultEpsilon
        defaultRounds = .ok p ∧
      let left := afterCalls .range (.fin (1 / 1000000)) t k p
        [⟨{ box }, progress, [.fin (9 / 10), .fin (2 / 5)]⟩]
      let ws : Workspace ExtRat := ⟨{ box }, progress, left⟩
      let point : List ExtRat := [.fin (1 / 10), .fin (9 / 10)]
      left.box.lb = [.fin 1, .fin 0] ∧
      propagatedPoint .range (.fin (1 / 1000000)) t k point ws = .ok [.fin 0, .fin 1] ws' ∧
      propagatedPoint .range (.fin (1 / 1000000)) t k point ⟨{ box }, progress, p⟩ =
        .ok [.fin 0, .fin 1] ws' ∧
      ∃ order s, order.Perm t.integers ∧
        Reaches .range (.fin (1 / 1000000)) t k point ws order s ∧ ∀ j < 2, ∃ l u,
          s.1.domain.bounds (j : Nat) = .ok (l, u) ∧
          s.2.propagator.box.bounds (j : Nat) = .ok (l, u) := by
  have hsome : (roundedAfter exchange.1 exchange.2 (.fin (1 / 1000000))
      [.fin (9 / 10), .fin (2 / 5)] [.fin (1 / 10), .fin (9 / 10)]).toOption =
        some ([.fin 1, .fin 0], [.fin 0, .fin 1]) := by decide +kernel
  cases hrun : roundedAfter exchange.1 exchange.2 (.fin (1 / 1000000)) [.fin (9 / 10), .fin (2 / 5)]
      [.fin (1 / 10), .fin (9 / 10)] with
  | error e =>
      rw [hrun] at hsome
      cases hsome
  | ok x =>
      rw [hrun] at hsome
      cases hsome
      unfold roundedAfter at hrun
      obtain ⟨t, ht, hrun⟩ := Act.exceptBind_eq_ok.mp hrun
      obtain ⟨p, hp, hrun⟩ := Act.exceptBind_eq_ok.mp hrun
      obtain ⟨progress, -, hrun⟩ := Act.exceptBind_eq_ok.mp hrun
      obtain ⟨k, -, hrun⟩ := Act.exceptBind_eq_ok.mp hrun
      obtain ⟨candidate, hround, hrun⟩ := Act.exceptBind_eq_ok.mp hrun
      obtain ⟨ws', hround⟩ := Act.exists_of_split hround
      have hlists := Table.lists_of_ofVariables ht
      have hordered : Box.Ordered ⟨t.lb, t.ub⟩ := by
        rw [hlists.lb, hlists.ub]
        exact .cons (by decide +kernel) (.cons (by decide +kernel) .nil)
      have hlen : t.lb.length = exchange.1.length := by rw [hlists.lb, List.length_map]
      obtain ⟨hstep, hreaches, -, hsame⟩ := propagatedPoint_in_step ExtRat.not_lt_self ht rfl .range
        (.fin (1 / 1000000)) k p
        [⟨{ box := ⟨t.lb, t.ub⟩ }, progress, [.fin (9 / 10), .fin (2 / 5)]⟩]
        (d := { box := ⟨t.lb, t.ub⟩ }) hlen hordered progress [.fin (1 / 10), .fin (9 / 10)]
      obtain ⟨hleft, rfl⟩ := Prod.mk.inj (Except.ok.inj hrun)
      obtain ⟨order, s, hperm, hreached, -⟩ := hreaches _ _ hround
      exact ⟨t, p, k, progress, ⟨t.lb, t.ub⟩, ws', ht, rfl, hlen, hordered, hp, hleft, hround,
        hsame ▸ hround, order, s, hperm, hreached, fun j hj => hstep order s hreached j hj⟩

end Examples

end Rounding

end MipPump
