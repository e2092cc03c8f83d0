import MipPump.Proofs.FloatParts
import MipPump.Proofs.SharedStores
import MipPump.Proofs.SoundSuccess

/-!
# Successes and values that are no number

The check of a full point rejects by comparisons, and a value that is no number passes all of them.
Only an integer variable is asked for more, since the distance to the nearest integer has to exist.

* `AtInteger`: the coordinates that integer variables have.  They are finite in a feasible point,
  by `isFinite_of_isFeasible`; the others are those of the answer, by `getElem?_fullPoint`.
* `isNaN_foldl_add`: a sum of finite floating-point terms is a number, even when it overflows.
* `PumpTask.FiniteCosts`: every full point that a run may report has finite terms of the cost.
* `Store.Numeric`: the incumbent has a number as its cost.  Then the store refuses a number only if
  the incumbent costs less or the same, by `Store.Numeric.offer_or_le`.
* `Pool.Numeric`: a run has stopped with a fault, or the store is numeric and stays so.  Each step of
  a pool keeps this, by `Pool.Numeric.move`.

**Result.**  `numbers_of_run`, with the coordinates, the objective value and the stores of successes.
`undetermined_reports_nan` is a success that is no number and blocks the store.
-/

namespace MipPump

section Coordinates

variable {R : Type} [Arith R] {vars : List (Variable R)} {t : Table R} {p : Problem R} {tol : R}
  {point candidate full : List R} {k : ℕ} {x : R}

/-- The coordinate `k` of `n` belongs to an integer variable. -/
def AtInteger (vars : List (Variable R)) (n k : ℕ) : Prop :=
  ∃ v ∈ vars, v.kind.isIntegral = true ∧ Vec.position? n v.index = some k

theorem isFinite_of_admits {v : Variable R} (h : v.admits tol x = .ok true)
    (hv : v.kind.isIntegral = true) : Arith.IsFinite x := by
  unfold Variable.admits integralityGap at h
  rw [if_pos hv] at h
  split at h
  · cases h
  · split at h
    · cases h
    · rename_i hnan
      split at h
      · cases h
      · rename_i hinf
        exact ⟨Bool.eq_false_iff.mpr hnan, Bool.eq_false_iff.mpr hinf⟩

/-- A feasible point has finite values for the integer variables. -/
theorem isFinite_of_isFeasible (h : p.isFeasible tol full = .ok true)
    (hk : AtInteger p.vars full.length k) (hx : full[k]? = some x) : Arith.IsFinite x := by
  obtain ⟨v, hv, hint, hposition⟩ := hk
  obtain ⟨y, hy, hadmits⟩ := (isFeasible_eq_ok h).1 v hv
  obtain ⟨k', hk', hentry⟩ := Vec.at?_eq_some.mp hy
  cases hposition.symm.trans hk'
  cases hx.symm.trans hentry
  exact isFinite_of_admits hadmits hint

/-- The other coordinates are those of the point that was joined with the candidate. -/
theorem getElem?_fullPoint (ht : t.Lists vars) (hcandidate : candidate.length = t.numIntegers)
    (h : t.fullPoint point candidate = .ok full) (hk : ¬ AtInteger vars point.length k)
    (hx : full[k]? = some x) : point[k]? = some x := by
  unfold Table.fullPoint at h
  rw [Vec.place_of_length hcandidate] at h
  rcases Vec.getElem?_placeAll h hx with ⟨hold, -⟩ | ⟨w, hw, hposition, -⟩
  · exact hold
  · have hindex : w.1 ∈ t.integers := (List.of_mem_zip hw).1
    rw [ht.integers, List.mem_map] at hindex
    obtain ⟨v, hv, hvw⟩ := hindex
    obtain ⟨hv, hint⟩ := List.mem_filter.mp hv
    exact absurd ⟨v, hv, hint, hvw ▸ hposition⟩ hk

omit [Arith R] in
theorem length_fullPoint (hcandidate : candidate.length = t.numIntegers)
    (h : t.fullPoint point candidate = .ok full) : full.length = point.length := by
  unfold Table.fullPoint at h
  rw [Vec.place_of_length hcandidate] at h
  exact Vec.length_of_placeAll h

end Coordinates

section Costs

open Binary64

/-- The terms that the cost of a point adds up. -/
def Problem.costTerms {R : Type} [Arith R] (p : Problem R) (point : List R) : List R :=
  List.zipWith (· * ·) (p.vars.map (·.cost)) point

/-- A sum of finite terms is a number, even if it overflows on the way. -/
theorem isNaN_foldl_add {xs : List Float} {a : Float} (ha : Arith.isNaN a = false)
    (h : ∀ x ∈ xs, Arith.IsFinite x) : Arith.isNaN (xs.foldl (· + ·) a) = false := by
  induction xs generalizing a with
  | nil => exact ha
  | cons x xs ih =>
      obtain ⟨hx, hxs⟩ := List.forall_mem_cons.mp h
      exact ih (isNaN_add ha hx.1 hx.2) hxs

theorem isNaN_objective {p : Problem Float} {point : List Float} {objective : Float}
    (h : p.objective point = .ok objective) (hoffset : Arith.IsFinite p.offset)
    (hterms : ∀ x ∈ p.costTerms point, Arith.IsFinite x) : Arith.isNaN objective = false := by
  unfold Problem.objective Vec.dot at h
  split at h
  · cases h
    exact isNaN_add (isNaN_foldl_add (by decide +kernel) hterms) hoffset.1 hoffset.2
  · cases h

end Costs

section Stores

variable {R : Type} [Arith R]

/-- The incumbent, if there is one, has a number as its cost. -/
def Store.Numeric (s : Store R) : Prop := ∀ best ∈ s.best, Arith.isNaN best.cost = false

theorem numeric_empty : ({} : Store R).Numeric := fun _ h => by cases h

theorem Store.Numeric.offer {s : Store R} (h : s.Numeric) {b : Incumbent R}
    (hb : Arith.isNaN b.cost = false) : (s.offer b).2.Numeric := by
  cases himproves : s.improves b.cost with
  | false => rwa [Store.offer_of_not_improves himproves]
  | true =>
      rw [Store.offer_of_improves himproves]
      rintro best ⟨⟩
      exact hb

/-- A numeric store accepts a number unless the incumbent costs less or the same. -/
theorem Store.Numeric.offer_or_le {s : Store Float} (h : s.Numeric) {b : Incumbent Float}
    (hb : Arith.isNaN b.cost = false) : (s.offer b).1 = true ∨
      ∃ best ∈ s.best, best.cost < b.cost ∨ (best.cost == b.cost) = true := by
  cases himproves : s.improves b.cost with
  | true => exact .inl (by rw [Store.offer_of_improves himproves])
  | false =>
      unfold Store.improves at himproves
      split at himproves
      · cases himproves
      · rename_i best hbest
        refine .inr ⟨best, hbest, ?_⟩
        rcases Binary64.lt_or_beq_or_gt (h best hbest) hb with hlt | heq | hgt
        · exact .inl hlt
        · exact .inr heq
        · exact absurd hgt (of_decide_eq_false himproves)

end Stores

section Tasks

variable {R σ : Type} [Arith R] {task : PumpTask R σ} {answered full : List R}

/-- What a run of a task may report: a feasible point that joins an answer of the oracle with an
admitted candidate. -/
structure PumpTask.MayReport (task : PumpTask R σ) (answered full : List R) : Prop where
  answer : ∃ s box goal, (task.oracle s box goal).answer = .ok answered
  joined : ∃ (t : Table R) (candidate : List R), t.Lists task.problem.vars ∧
    t.check candidate = .ok () ∧ t.fullPoint answered candidate = .ok full
  feasible : task.problem.isFeasible task.settings.toleranceEpsilon full = .ok true

/-- The costs of the points that may be reported have finite terms. -/
structure PumpTask.FiniteCosts (task : PumpTask R σ) : Prop where
  offset : Arith.IsFinite task.problem.offset
  terms : ∀ answered full, task.MayReport answered full →
    ∀ x ∈ task.problem.costTerms full, Arith.IsFinite x

theorem PumpTask.MayReport.length (h : task.MayReport answered full) :
    full.length = answered.length := by
  obtain ⟨t, candidate, -, hcheck, hjoin⟩ := h.joined
  exact length_fullPoint (check_iff.mp hcheck).1 hjoin

/-- A coordinate of an integer variable is finite, any other is that of the answer. -/
theorem PumpTask.MayReport.coordinates (h : task.MayReport answered full) {k : ℕ} {x : R}
    (hx : full[k]? = some x) :
    (AtInteger task.problem.vars full.length k → Arith.IsFinite x) ∧
      (¬ AtInteger task.problem.vars full.length k → answered[k]? = some x) := by
  obtain ⟨t, candidate, ht, hcheck, hjoin⟩ := h.joined
  refine ⟨fun hk => isFinite_of_isFeasible h.feasible hk hx, fun hk => ?_⟩
  rw [h.length] at hk
  exact getElem?_fullPoint ht (check_iff.mp hcheck).1 hjoin hk hx

/-- A reported point has a coordinate that is no number exactly if the answer has one where there is
no integer variable. -/
theorem PumpTask.MayReport.exists_nan_iff (h : task.MayReport answered full) :
    (∃ x ∈ full, Arith.isNaN x = true) ↔ ∃ k x, answered[k]? = some x ∧
      ¬ AtInteger task.problem.vars full.length k ∧ Arith.isNaN x = true := by
  constructor
  · rintro ⟨x, hmem, hnan⟩
    obtain ⟨k, hk⟩ := List.mem_iff_getElem?.mp hmem
    have hother : ¬ AtInteger task.problem.vars full.length k := fun hint => by
      rw [((h.coordinates hk).1 hint).1] at hnan
      cases hnan
    exact ⟨k, x, (h.coordinates hk).2 hother, hother, hnan⟩
  · rintro ⟨k, x, hk, hother, hnan⟩
    obtain ⟨hlt, -⟩ := List.getElem?_eq_some_iff.mp hk
    rw [← h.length] at hlt
    have hentry := (h.coordinates (List.getElem?_eq_getElem hlt)).2 hother
    cases hk.symm.trans hentry
    exact ⟨_, List.getElem_mem hlt, hnan⟩

/-- What a prepared run has found to be a solution, its task may report. -/
theorem PumpTask.Launched.mayReport {started : R} {domain : Domain R} {oracle : σ}
    {setup : Setup R σ} {run : Run R σ} (hl : task.Launched started domain oracle setup run)
    {candidate : List R} (hcheck : setup.table.check candidate = .ok ())
    (h : setup.Solves candidate full) : ∃ answered, task.MayReport answered full := by
  obtain ⟨⟨answered, ⟨s, box, goal, hanswer⟩, hjoin⟩, hfeasible⟩ := h
  rw [hl.asks] at hanswer
  rw [hl.problem, hl.settings] at hfeasible
  exact ⟨answered, ⟨s, box, goal, hanswer⟩, ⟨_, candidate, hl.table, hcheck, hjoin⟩, hfeasible⟩

end Tasks

section Pools

variable {R σ : Type} [Arith R] {setup : Setup R σ} {env : Surroundings R σ}
  {stage stage' : Stage R} {a a' : Ledger R}

/-- A step leaves the store as it is, or offers a solution with its cost. -/
theorem Transition.offers (h : Transition setup env stage a stage' a') :
    a'.store = a.store ∨ ∃ candidate full objective, setup.table.check candidate = .ok () ∧
      setup.Solves candidate full ∧ setup.problem.objective full = .ok objective ∧
      a'.store = (a.store.offer ⟨full, objective, setup.name⟩).2 := by
  cases h with
  | rootConverged measured zero solves cost hb =>
      subst hb
      exact .inr ⟨_, _, _, measured.checked, solves, cost, rfl⟩
  | converged aim measured zero solves cost hb =>
      subst hb
      exact .inr ⟨_, _, _, measured.checked, solves, cost, rfl⟩
  | _ =>
      all_goals
        subst_vars
        exact .inl rfl

variable {now : R} {i : ℕ} {p p' : Pool R σ}

/-- A run that has stopped with a fault stays so. -/
theorem Pool.Move.faulted (h : Pool.Move now i p p') (hfault : ∃ slot ∈ p.slots, slot.Faulted) :
    ∃ slot ∈ p'.slots, slot.Faulted := by
  cases h with
  | stays => exact hfault
  | starts h free => exact (exists_mem_set h nofun).mpr (.inr hfault)
  | steps h going hw =>
      exact (exists_mem_set h fun ⟨e, he⟩ => absurd he (going _)).mpr (.inr hfault)
  | ends h ended =>
      refine (exists_mem_set h fun ⟨e, he⟩ => ?_).mpr (.inr hfault)
      exact ⟨e, Stage.ended.inj (ended.symm.trans he)⟩

end Pools

section NumericPools

variable {σ : Type} {p p' : Pool Float σ} {now : Float} {i : ℕ}

/-- The run of a slot, if it has not finished, is one of a task with finite costs. -/
def Slot.FiniteCosts : Slot Float σ → Prop
  | .waiting task _ _ => task.FiniteCosts
  | .active setup _ => ∃ (task : PumpTask Float σ) (started : Float) (domain : Domain Float)
      (oracle : σ) (run : Run Float σ),
      task.FiniteCosts ∧ task.Launched started domain oracle setup run
  | .finished _ _ _ => True

/-- A run has stopped with a fault, or the store is numeric and no run will offer anything else. -/
def Pool.Numeric (p : Pool Float σ) : Prop :=
  (∃ slot ∈ p.slots, slot.Faulted) ∨
    p.shared.store.Numeric ∧ ∀ slot ∈ p.slots, slot.FiniteCosts

/-- A step of a run with finite costs keeps the store numeric. -/
theorem numeric_of_transition {setup : Setup Float σ} {env : Surroundings Float σ}
    {stage stage' : Stage Float} {a a' : Ledger Float} {run : Run Float σ}
    (hcosts : (Slot.active setup run).FiniteCosts) (h : a.store.Numeric)
    (ht : Transition setup env stage a stage' a') : a'.store.Numeric := by
  obtain ⟨task, started, domain, oracle, run, hfinite, hl⟩ := hcosts
  rcases ht.offers with hstore | ⟨candidate, full, objective, hcheck, hsolves, hcost, hstore⟩
  · rwa [hstore]
  · obtain ⟨answered, hreport⟩ := hl.mayReport hcheck hsolves
    rw [hl.problem] at hcost
    rw [hstore]
    exact h.offer (isNaN_objective hcost hfinite.offset (hfinite.terms answered full hreport))

theorem Pool.Numeric.move (h : p.Numeric) (hmove : Pool.Move now i p p') : p'.Numeric := by
  rcases h with hfault | ⟨hstore, hslots⟩
  · exact .inl (hmove.faulted hfault)
  have hset {old new : Slot Float σ} (hslot : p.slots[i]? = some old) (hnew : new.FiniteCosts) :
      ∀ slot ∈ p.slots.set i new, slot.FiniteCosts := forall_mem_set hslots hslot fun _ => hnew
  cases hmove with
  | stays => exact .inr ⟨hstore, hslots⟩
  | @starts task domain oracle hslot free =>
      have hcosts : task.FiniteCosts := hslots _ (List.mem_of_getElem? hslot)
      refine .inr ⟨hstore, hset hslot ?_⟩
      unfold Slot.start
      split
      · rename_i setup run hlaunch
        exact ⟨task, _, domain, oracle, run, hcosts, PumpTask.launched_of_launch hlaunch⟩
      · trivial
  | @steps setup run w hslot going hw =>
      subst hw
      have hcosts : (Slot.active setup run).FiniteCosts := hslots _ (List.mem_of_getElem? hslot)
      rcases World.step_transition setup now { shared := p.shared, run } with ⟨e, he⟩ | ht
      · obtain ⟨hi, -⟩ := List.getElem?_eq_some_iff.mp hslot
        exact .inl ⟨_, List.mem_set hi _, e, he⟩
      · exact .inr ⟨numeric_of_transition hcosts hstore ht, hset hslot hcosts⟩
  | @ends setup run result hslot ended =>
      refine .inr ⟨?_, hset hslot trivial⟩
      show Store.Numeric (Shared.store (if _ then _ else _))
      split <;> exact hstore

end NumericPools

/-- **Successes are numbers where the answers are.**  In a success of a run every coordinate of an
integer variable is finite and every other one is that of an answer of the oracle, so that the point
has a value that is no number exactly if the answer has one where there is no integer variable.  The
objective value is a number if the costs of the points that the run may report have finite terms.
Then the store of a pool of such runs, as long as none of them has stopped with a fault, never holds
anything else, and refuses a number only if the incumbent costs less or the same. -/
theorem numbers_of_run {σ : Type} :
    (∀ (task : PumpTask Float σ) (clock : ℕ → Float) (shared : Shared Float)
      (domain : Domain Float) (oracle : σ) (o : Outcome Float) (point : List Float)
      (objective : Float), (task.run clock shared domain oracle).result = .ok o →
      o.ending = .success point objective →
      (∃ answered, task.MayReport answered point ∧
        (∀ (k : ℕ) x, point[k]? = some x →
          (AtInteger task.problem.vars point.length k → Arith.IsFinite x) ∧
          (¬ AtInteger task.problem.vars point.length k → answered[k]? = some x)) ∧
        ((∃ x ∈ point, Arith.isNaN x = true) ↔ ∃ (k : ℕ) (x : Float), answered[k]? = some x ∧
          ¬ AtInteger task.problem.vars point.length k ∧ Arith.isNaN x = true)) ∧
      (task.FiniteCosts → Arith.isNaN objective = false)) ∧
    ∀ (p : Pool Float σ) (schedule : List (ℕ × Float)), p.shared.store.Numeric →
      (∀ slot ∈ p.slots, ∃ task domain oracle,
        slot = .waiting task domain oracle ∧ task.FiniteCosts) →
      (∀ slot ∈ (p.follow schedule).slots, ¬ slot.Faulted) →
      (p.follow schedule).shared.store.Numeric ∧
      ∀ b : Incumbent Float, Arith.isNaN b.cost = false →
        ((p.follow schedule).shared.store.offer b).1 = true ∨
        ∃ best ∈ (p.follow schedule).shared.store.best,
          best.cost < b.cost ∨ (best.cost == b.cost) = true := by
  constructor
  · intro task clock shared domain oracle o point objective hrun hending
    obtain ⟨setup, k, v, hv, going, -, -, ht⟩ := PumpTask.visits_of_run hrun
    obtain ⟨run, hlaunch, -⟩ := hv
    have hl := PumpTask.launched_of_launch hlaunch
    obtain ⟨candidate, hcheck, hsolves, hcost⟩ := ht.solves rfl going hending
    obtain ⟨answered, hreport⟩ := hl.mayReport hcheck hsolves
    rw [hl.problem] at hcost
    refine ⟨⟨answered, hreport, fun _ _ => hreport.coordinates, hreport.exists_nan_iff⟩, ?_⟩
    exact fun hfinite =>
      isNaN_objective hcost hfinite.offset (hfinite.terms answered point hreport)
  · intro p schedule hstore hwaiting hfaults
    have hnumeric : (p.follow schedule).Numeric := by
      refine Pool.follow_induct (fun _ _ _ _ h hmove => h.move hmove) schedule (.inr ⟨hstore, ?_⟩)
      intro slot hslot
      obtain ⟨task, domain, oracle, rfl, hfinite⟩ := hwaiting slot hslot
      exact hfinite
    rcases hnumeric with ⟨slot, hslot, hfault⟩ | ⟨hkept, -⟩
    · exact absurd hfault (hfaults slot hslot)
    · exact ⟨hkept, fun b hb => hkept.offer_or_le hb⟩

/-- The point and the objective value of a success. -/
def Report.success? {R σ : Type} (r : Report R σ) : Option (List R × R) :=
  match r.result with
  | .ok { ending := .success point objective, .. } => some (point, objective)
  | _ => none

theorem Report.exists_success {R σ : Type} {r : Report R σ} {point : List R} {objective : R}
    (h : r.success? = some (point, objective)) :
    ∃ o, r.result = .ok o ∧ o.ending = .success point objective := by
  unfold success? at h
  split at h
  · rename_i hresult
    cases h
    exact ⟨_, hresult, rfl⟩
  · cases h

/-- A problem of one continuous variable, with an oracle that has one answer. -/
def answering (x : Float) : PumpTask Float Unit where
  name := "answering"
  settings := {}
  problem :=
    { vars := [{ index := 0, lb := 0, ub := 1, kind := .continuous, cost := 1 }]
      rows := { coefficients := [[1]], senses := [.atMost], rhs := [1] }
      offset := 0 }
  oracle := fun _ _ _ => { answer := .ok [x], next := () }

/-- The domain of the problem. -/
def unitDomain : Domain Float := { box := { lb := [0], ub := [1] } }

/-- Two runs of the task, which share a store. -/
def twoAnswering (x : Float) : Pool Float Unit where
  shared := { store := {}, token := none }
  slots := List.replicate 2 (.waiting (answering x) unitDomain ())
  workers := 2
  cancelOnSuccess := false

theorem finiteCosts_answering {x : Float} (h : Arith.IsFinite (1 * x)) :
    (answering x).FiniteCosts where
  offset := by
    show Arith.IsFinite (0 : Float)
    exact ⟨by decide +kernel, by decide +kernel⟩
  terms := by
    intro answered full hreport y hy
    obtain ⟨s, box, goal, hanswer⟩ := hreport.answer
    cases (Except.ok.inj hanswer : [x] = answered)
    obtain ⟨z, rfl⟩ := List.length_eq_one_iff.mp hreport.length
    have hother : ¬ AtInteger (answering x).problem.vars [z].length 0 := by
      rintro ⟨v, hv, hint, -⟩
      rw [List.mem_singleton.mp hv] at hint
      cases hint
    cases (hreport.coordinates (k := 0) rfl).2 hother
    rw [List.mem_singleton.mp hy]
    exact h

/-- The answer `0.5` is reported by a run, and the store of two runs holds its cost. -/
theorem numbers_of_run_answering :
    (answering 0.5).FiniteCosts ∧
    (∃ o, ((answering 0.5).run (fun _ => 0) ⟨{}, none⟩ unitDomain ()).result = .ok o ∧
      o.ending = .success [0.5] 0.5 ∧ Arith.isNaN (0.5 : Float) = false) ∧
    ∃ p : Pool Float Unit,
      p = (twoAnswering 0.5).follow (List.replicate 8 [(0, 0), (1, 0)]).flatten ∧
      p.outcomes.isOk = true ∧ p.shared.store.bestCost = 0.5 ∧ p.shared.store.Numeric := by
  have hfinite : (answering 0.5).FiniteCosts :=
    finiteCosts_answering ⟨by decide +kernel, by decide +kernel⟩
  obtain ⟨hruns, hpools⟩ := numbers_of_run (σ := Unit)
  have hsuccess : ((answering 0.5).run (fun _ => 0) ⟨{}, none⟩ unitDomain ()).success? =
      some ([0.5], 0.5) := by decide +kernel
  obtain ⟨o, ho, hending⟩ := Report.exists_success hsuccess
  obtain ⟨-, hobjective⟩ := hruns _ _ _ _ _ o [0.5] 0.5 ho hending
  refine ⟨hfinite, ⟨o, ho, hending, hobjective hfinite⟩, _, rfl, by decide +kernel,
    by decide +kernel, ?_⟩
  refine (hpools (twoAnswering 0.5) _ numeric_empty (fun slot hslot => ?_) fun slot hslot => ?_).1
  · exact ⟨_, _, _, List.eq_of_mem_replicate hslot, hfinite⟩
  · obtain ⟨os, hos⟩ : ∃ os, ((twoAnswering 0.5).follow
        (List.replicate 8 [(0, 0), (1, 0)]).flatten).outcomes = .ok os :=
      Act.exists_ok_of_isOk (by decide +kernel)
    obtain ⟨o, -, hresult⟩ := Vec.exists_of_mem_left (Pool.outcomes_eq_ok.mp hos) hslot
    rintro hfault
    cases slot with
    | finished result oracle lines =>
        cases hresult
        obtain ⟨e, he⟩ := hfault
        cases he
    | _ => cases hresult

/-- The answer is no number, and so are the point and the objective value of the success; the store
then refuses the cost `0.5`. -/
theorem undetermined_reports_nan :
    (answering Float.nan).settings.requested.toSettings = .ok (answering Float.nan).settings ∧
    ∃ o, ((answering Float.nan).run (fun _ => 0) ⟨{}, none⟩ unitDomain ()).result = .ok o ∧
      o.ending = .success [Float.nan] Float.nan ∧ Arith.isNaN Float.nan = true ∧
      (((answering Float.nan).run (fun _ => 0) ⟨{}, none⟩ unitDomain ()).shared.store.offer
        ⟨[0.5], 0.5, "later"⟩).1 = false := by
  have hsuccess : ((answering Float.nan).run (fun _ => 0) ⟨{}, none⟩ unitDomain ()).success? =
      some ([Float.nan], Float.nan) := by decide +kernel
  obtain ⟨o, ho, hending⟩ := Report.exists_success hsuccess
  exact ⟨Settings.toSettings_requested (by decide +kernel), o, ho, hending, by decide +kernel,
    by decide +kernel⟩

end MipPump
