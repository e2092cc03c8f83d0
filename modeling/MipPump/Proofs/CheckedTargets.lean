import MipPump.Proofs.IntegerOrders
import MipPump.Proofs.Laps

/-!
# Targets pass the check

A rounding is checked before it becomes a target.  A perturbation is not checked: it moves entries of
a candidate by whole steps and clamps them into the integral bounds.  For a finite point the result
would pass the check as well.

* `Perturber.Moved.check`: a perturbed candidate passes the check.
* `Decides.target_checked`: so does every candidate that an iteration leaves to the next one.
-/

namespace MipPump

section Candidates

variable {R Key : Type} [Arith R] [LinearOrder Key] (o : IntegerOrder R Key) {s : Settings R}
  {t : Table R} {vars : List (Variable R)} {point candidate : List R} {m : Perturbed R}
include o

/-- The number nearest to an integer is finite. -/
theorem IntegerOrder.finite_nearestNumber {n : Int} {x : R}
    (h : (nearestNumber n : Except (Fault R) R) = .ok x) : Arith.IsFinite x := by
  unfold nearestNumber Amount.nearest? at h
  dsimp only at h
  split_ifs at h with hinf
  cases h
  exact ⟨o.number_ofInt n, Bool.not_eq_true _ ▸ hinf⟩

/-- An entry of a perturbed candidate is inside its bounds: it was so before, or it was moved. -/
theorem Perturber.Moved.entry_between (hmoved : Perturber.Moved s t point candidate m)
    (hlists : t.Lists vars) (hpoint : ∀ x ∈ point, Arith.IsFinite x)
    (hcheck : t.check candidate = .ok ()) {k : Nat} {y lb ub : R} (hy : m.candidate[k]? = some y)
    (hlb : t.intLb[k]? = some lb) (hub : t.intUb[k]? = some ub) : lb ≤ y ∧ y ≤ ub := by
  obtain ⟨hlen, -, hlower, hupper⟩ := check_iff.mp hcheck
  obtain ⟨step, writes, hstep, hplace, hwrites⟩ := hmoved.write
  have hinside {x : R} (hx : candidate[k]? = some x) : lb ≤ x ∧ x ≤ ub :=
    ⟨hlower x lb (List.mem_of_getElem? (List.getElem?_zip_eq_some.mpr ⟨hx, hlb⟩)),
      hupper x ub (List.mem_of_getElem? (List.getElem?_zip_eq_some.mpr ⟨hx, hub⟩))⟩
  rcases Vec.getElem?_placeAll hplace hy with ⟨hold, -⟩ | ⟨w, hw, hwk, rfl⟩
  · exact hinside hold
  · obtain ⟨x, hx, current, l, u, hcurrent, hl, hu, hvalue⟩ := hwrites w hw
    have hcurrent := Vec.getElem?_of_at? hcurrent hwk
    obtain rfl := Option.some.inj (hlb.symm.trans (Vec.getElem?_of_at? hl (by
      rwa [hlists.length_intLb, ← hlen])))
    obtain rfl := Option.some.inj (hub.symm.trans (Vec.getElem?_of_at? hu (by
      rwa [hlists.length_intUb, ← hlen])))
    obtain ⟨hlo, hhi⟩ := hinside hcurrent
    rw [hvalue]
    exact o.moveValue_between (o.le_trans hlo hhi) (o.numbers_of_le hlo).2 (hpoint x hx)
      (o.finite_nearestNumber hstep)

/-- A perturbed candidate passes the check. -/
theorem Perturber.Moved.check (hmoved : Perturber.Moved s t point candidate m)
    (hlists : t.Lists vars) (hpoint : ∀ x ∈ point, Arith.IsFinite x)
    (hcheck : t.check candidate = .ok ()) : t.check m.candidate = .ok () := by
  obtain ⟨hlen, hwhole, -, -⟩ := check_iff.mp hcheck
  have hintegral := hmoved.integers o.integers hlists fun x hx _ => hwhole x hx
  have hlength : m.candidate.length = t.numIntegers := hmoved.length_eq.trans hlen
  have hbounds {k : Nat} {y : R} (hy : m.candidate[k]? = some y) :
      ∃ lb ub, t.intLb[k]? = some lb ∧ t.intUb[k]? = some ub ∧ lb ≤ y ∧ y ≤ ub := by
    have hk := (List.getElem?_eq_some_iff.mp hy).1
    have hlb := List.getElem?_eq_getElem (l := t.intLb) (i := k)
      (by rwa [hlists.length_intLb, ← hlength])
    have hub := List.getElem?_eq_getElem (l := t.intUb) (i := k)
      (by rwa [hlists.length_intUb, ← hlength])
    exact ⟨_, _, hlb, hub, hmoved.entry_between o hlists hpoint hcheck hy hlb hub⟩
  refine check_iff.mpr ⟨hlength, fun y hy => ?_, fun y lb hy => ?_, fun y ub hy => ?_⟩
  · obtain ⟨k, hk⟩ := List.mem_iff_getElem?.mp hy
    obtain ⟨lb, ub, -, -, hlo, -⟩ := hbounds hk
    exact hintegral y hy (o.numbers_of_le hlo).2
  · obtain ⟨k, hk⟩ := List.mem_iff_getElem?.mp hy
    obtain ⟨hy, hlb⟩ := List.getElem?_zip_eq_some.mp hk
    obtain ⟨l, ub, hl, -, hlo, -⟩ := hbounds hy
    rwa [← Option.some.inj (hlb.symm.trans hl)] at hlo
  · obtain ⟨k, hk⟩ := List.mem_iff_getElem?.mp hy
    obtain ⟨hy, hub⟩ := List.getElem?_zip_eq_some.mp hk
    obtain ⟨lb, u, -, hu, -, hhi⟩ := hbounds hy
    rwa [← Option.some.inj (hub.symm.trans hu)] at hhi

end Candidates

section Decisions

variable {R Key σ : Type} [Arith R] [LinearOrder Key] (o : IntegerOrder R Key) {setup : Setup R σ}
  {vars : List (Variable R)} {s : Sighting R} {stage stage' : Stage R} {b b' : Ledger R}
  {phase : Phase} {target : List R}
include o

/-- Every candidate that an iteration leaves to the next one passes the check. -/
theorem Decides.target_checked (h : Decides setup s stage b stage' b' phase)
    (hlists : setup.table.Lists vars) (hpoint : ∀ x ∈ s.point, Arith.IsFinite x)
    (hchecked : setup.table.check s.candidate = .ok ()) (htarget : stage' = .top target) :
    setup.table.check target = .ok () := by
  cases h with
  | converged ok zero solves cost ledger next => cases htarget.symm.trans next
  | rooted root ledger next =>
      cases htarget.symm.trans next
      exact hchecked
  | accepted later fresh ledger next =>
      cases htarget.symm.trans next
      exact hchecked
  | perturbed later stale patient move ledger next =>
      cases htarget.symm.trans next
      exact (Perturber.perturb_eq_ok move).2.check o hlists hpoint hchecked
  | stalledOut later stale impatient spent ledger next => cases htarget.symm.trans next
  | restarted later stale impatient left move ledger next =>
      cases htarget.symm.trans next
      exact (Perturber.restart_eq_ok move).2.check o hlists hpoint hchecked

end Decisions

end MipPump
