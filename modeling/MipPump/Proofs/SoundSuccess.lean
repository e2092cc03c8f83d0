import MipPump.Proofs.Feasibility
import MipPump.Proofs.TraceShape

/-!
# Success is sound

Whatever the oracle answers, a success of a run is a solution of the problem, and it is the only
point that the run has offered to the store.

* `Offered`: what the store holds in each stage.
* `Transition.solves`: a step that ends a run with a success has found a feasible point that joins
  a point of the oracle with an admitted candidate.
* `success_of_run`: the two together, in exact arithmetic.
-/

namespace MipPump

section Stores

variable {R σ : Type} [Arith R]

/-- What is in the store of a run that found `store`: its own point after a success, and nothing new
before that or after a failure. -/
def Offered (name : String) (store : Store R) : Stage R → Ledger R → Prop
  | .ended (.ok o), a =>
      match o.ending with
      | .success point objective => a.store = (store.offer ⟨point, objective, name⟩).2
      | .failure _ => a.store = store
  | .ended (.error _), _ => True
  | _, a => a.store = store

variable {setup : Setup R σ} {env : Surroundings R σ} {stage stage' : Stage R} {a a' : Ledger R}
  {store : Store R}

theorem offered_of_transition (h : Offered setup.name store stage a)
    (ht : Transition setup env stage a stage' a') : Offered setup.name store stage' a' := by
  cases ht with
  | rootConverged _ _ _ _ hb | converged _ _ _ _ _ hb =>
      subst hb
      have hstore : a.store = store := h
      simp only [Offered, World.finished, Ledger.outcome, Ledger.note, Ledger.offer]
      rw [← hstore]
      rfl
  | stalledOut _ _ hb | accepted _ _ hb | perturbed _ _ hb | restarted _ _ hb =>
      subst hb
      exact h
  | _ => exact h

/-- A step that ends a run with a success has found a feasible point. -/
theorem Transition.solves {point : List R} {objective : R} {o : Outcome R}
    (ht : Transition setup env stage a stage' a') (hend : stage' = .ended (.ok o))
    (going : ∀ result, stage ≠ .ended result) (hending : o.ending = .success point objective) :
    ∃ candidate, setup.table.check candidate = .ok () ∧ setup.Solves candidate point ∧
      setup.problem.objective point = .ok objective := by
  cases ht with
  | rootConverged measured zero solves cost hb =>
      cases hend
      cases hending
      exact ⟨_, measured.checked, solves, cost⟩
  | converged aim measured zero solves cost hb =>
      cases hend
      cases hending
      exact ⟨_, measured.checked, solves, cost⟩
  | notAllowed | notStarted | rootFailed | exhausted | stopped | failed | stalledOut =>
      cases hend
      cases hending
  | opened | rootRounded | resumed | accepted | perturbed | restarted => cases hend
  | stays => exact absurd rfl (going _)

end Stores

namespace PumpTask

open ExtRat

variable {σ : Type} {task : PumpTask ExtRat σ} {clock : Nat → ExtRat} {shared : Shared ExtRat}
  {domain : Domain ExtRat} {oracle : σ} {o : Outcome ExtRat}

/-- The oracle answers with finite points only. -/
def AnswersFinite (task : PumpTask ExtRat σ) : Prop :=
  ∀ s box goal point, (task.oracle s box goal).answer = .ok point →
    ∃ q : List ℚ, point = q.map fin ∧ q.length = task.problem.vars.length

theorem Visits.offered {setup : Setup ExtRat σ} {k : Nat} {w : World ExtRat σ}
    (h : task.Visits clock shared domain oracle setup k w) :
    Offered task.name shared.store w.run.stage w.ledger := by
  obtain ⟨run, hlaunch, hvisited⟩ := h
  have hl := launched_of_launch hlaunch
  rw [← hl.name]
  refine hvisited.induct (I := Offered setup.name shared.store) ?_ (fun _ _ => trivial) ?_
  · show Offered _ _ run.stage _
    rw [hl.start.1]
    rfl
  · intro env stage a stage' a' ha ht
    exact offered_of_transition ha ht

/-- The cost of a finite point. -/
theorem objective_eq_ok {p : Problem ExtRat} {x : List ℚ} {objective : ExtRat}
    (h : p.objective (x.map fin) = .ok objective) :
    objective =
        Vec.plainSum (List.zipWith (· * ·) (p.vars.map (·.cost)) (x.map fin)) + p.offset ∧
      ∀ (c : List ℚ) (d : ℚ), p.vars.map (·.cost) = c.map fin → p.offset = fin d →
        objective = fin (dotRat c x + d) := by
  unfold Problem.objective at h
  have hsum : objective =
      Vec.plainSum (List.zipWith (· * ·) (p.vars.map (·.cost)) (x.map fin)) + p.offset := by
    unfold Vec.dot at h
    split at h
    · cases h
      rfl
    · cases h
  refine ⟨hsum, ?_⟩
  intro c d hc hd
  rw [hsum, hc, hd, zipWith_mul_map_fin, plainSum_map_fin, fin_add]
  rfl

theorem toleranceEpsilon_eq {requested : RequestedSettings ExtRat}
    {s : Settings ExtRat} (h : requested.toSettings = .ok s) :
    ∃ eps : ℚ, s.toleranceEpsilon = fin eps ∧ 0 < eps ∧ eps < 1 / 2 := by
  obtain ⟨hpos, hlt⟩ := RequestedSettings.toleranceEpsilon_inside h
  rw [ratio_eq 1 2 (by decide)] at hlt
  obtain ⟨eps, heps⟩ := exists_fin_of_le (le_of_lt hpos) (le_of_lt hlt)
  rw [heps, zero_eq, fin_lt_fin] at hpos
  rw [heps, fin_lt_fin] at hlt
  exact ⟨eps, heps, hpos, by simpa using hlt⟩

/-- **Success is sound.**  Under admitted settings, for a regular problem and for any oracle that
answers with finite points or raises, a success solves the problem up to the tolerance, with exact
integers for the integer variables and with the cost of its point; the store has been offered this
point, and nothing before it.  After a failure the store is as it was. -/
theorem success_of_run {requested : RequestedSettings ExtRat}
    (hsettings : requested.toSettings = .ok task.settings) (hproblem : task.problem.Regular)
    (hfinite : task.AnswersFinite)
    (h : (task.run clock shared domain oracle).result = .ok o) :
    (∀ point objective, o.ending = .success point objective →
      ∃ (eps : ℚ) (x : List ℚ), task.settings.toleranceEpsilon = fin eps ∧ point = x.map fin ∧
        task.problem.SolvedWithin eps x ∧
        objective = Vec.plainSum
          (List.zipWith (· * ·) (task.problem.vars.map (·.cost)) point) + task.problem.offset ∧
        (∀ (c : List ℚ) (d : ℚ), task.problem.vars.map (·.cost) = c.map fin →
          task.problem.offset = fin d → objective = fin (dotRat c x + d)) ∧
        (task.run clock shared domain oracle).shared.store =
          (shared.store.offer ⟨point, objective, task.name⟩).2) ∧
      (∀ reason, o.ending = .failure reason →
        (task.run clock shared domain oracle).shared.store = shared.store) ∧
      ∀ setup k w, task.Visits clock shared domain oracle setup k w →
        (∀ result, w.run.stage ≠ .ended result) → w.shared.store = shared.store := by
  obtain ⟨setup, k, v, hv, going, hend, hreport, ht⟩ := visits_of_run h
  obtain ⟨j, hj, hfinal, -, -⟩ := hv.next h going
  cases hj
  have hoffered := hfinal.offered
  rw [hend] at hoffered
  have hstore : (task.run clock shared domain oracle).shared.store =
      (v.step setup (clock k)).ledger.store := by
    rw [hreport]
    rfl
  obtain ⟨run, hlaunch, -⟩ := hv
  have hl := launched_of_launch hlaunch
  refine ⟨?_, ?_, ?_⟩
  · intro point objective hending
    obtain ⟨candidate, hcheck, ⟨⟨answered, ⟨s, box, goal, hanswer⟩, hjoin⟩, hfeasible⟩, hcost⟩ :=
      ht.solves rfl going hending
    obtain ⟨eps, heps, -, -⟩ := toleranceEpsilon_eq hsettings
    rw [hl.asks] at hanswer
    rw [hl.problem] at hfeasible hcost
    rw [hl.settings, heps] at hfeasible
    obtain ⟨x, rfl, hsolved⟩ := solvedWithin_of_isFeasible hproblem hl.table
      (hfinite _ _ _ _ hanswer) hcheck hjoin hfeasible
    obtain ⟨hsum, hrational⟩ := objective_eq_ok hcost
    simp only [Offered, hending] at hoffered
    exact ⟨eps, x, heps, rfl, hsolved, hsum, hrational, hstore.trans hoffered⟩
  · intro reason hending
    simp only [Offered, hending] at hoffered
    exact hstore.trans hoffered
  · intro setup k w hw hgoing
    have hkept := hw.offered
    cases hstage : w.run.stage with
    | ended result => exact absurd hstage (hgoing result)
    | _ =>
        rw [hstage] at hkept
        exact hkept

/-- The run of the sample problem succeeds, with a solution, and has offered its point. -/
theorem success_of_run_halfway :
    halfway.settings.requested.toSettings = .ok halfway.settings ∧ halfway.problem.Regular ∧
      halfway.AnswersFinite ∧
      ∃ o point objective,
        (halfway.run (fun _ => .fin 0) ⟨{}, none⟩ ⟨⟨[.fin 0], [.fin 1]⟩, []⟩ ()).result = .ok o ∧
        o.ending = .success point objective ∧
        ∃ (eps : ℚ) (x : List ℚ), point = x.map fin ∧ halfway.problem.SolvedWithin eps x := by
  have hsettings : halfway.settings.requested.toSettings = .ok halfway.settings :=
    Settings.toSettings_requested (by decide +kernel)
  have hproblem : halfway.problem.Regular :=
    { inOrder := rfl
      bounds := by
        intro v hv
        rw [List.mem_singleton.mp hv]
        exact ⟨fin_ne_nan 0, fin_ne_nan 1⟩
      coefficients := fun row hrow => ⟨[2], List.mem_singleton.mp hrow⟩
      rhs := ⟨[1], rfl⟩ }
  have hfinite : halfway.AnswersFinite := by
    intro s box goal point hpoint
    have hanswer : (if goal.objective = [fin (-1)] then [fin (1 / 2)] else [fin 0]) = point :=
      Except.ok.inj hpoint
    by_cases hcost : goal.objective = [fin (-1)]
    · rw [if_pos hcost] at hanswer
      exact ⟨[1 / 2], hanswer.symm, rfl⟩
    · rw [if_neg hcost] at hanswer
      exact ⟨[0], hanswer.symm, rfl⟩
  obtain ⟨o, ho⟩ : ∃ o, (halfway.run (fun _ => .fin 0) ⟨{}, none⟩
      ⟨⟨[.fin 0], [.fin 1]⟩, []⟩ ()).result = .ok o := Act.exists_ok_of_isOk (by decide +kernel)
  have hsuccess : ((halfway.run (fun _ => .fin 0) ⟨{}, none⟩
      ⟨⟨[.fin 0], [.fin 1]⟩, []⟩ ()).result.toOption.map (·.ending.isSuccess)) = some true := by
    decide +kernel
  rw [ho] at hsuccess
  cases hending : o.ending with
  | failure reason =>
      have hfalse : some o.ending.isSuccess = some true := hsuccess
      rw [hending] at hfalse
      cases hfalse
  | success point objective =>
      obtain ⟨eps, x, -, hpoint, hsolved, -⟩ :=
        (success_of_run hsettings hproblem hfinite ho).1 point objective hending
      exact ⟨hsettings, hproblem, hfinite, o, point, objective, ho, hending, eps, x, hpoint, hsolved⟩

end PumpTask
end MipPump
