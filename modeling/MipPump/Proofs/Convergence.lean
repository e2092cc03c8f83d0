import MipPump.Proofs.CoherentProblems
import MipPump.Proofs.ProjectionOptima
import MipPump.Proofs.PropagatedRounding
import MipPump.Proofs.SoundSuccess
import MipPump.Proofs.WholeTargets

/-!
# One-step convergence

An iteration without a share of the cost projects onto its target.  If the target extends to a point
of the relaxation, an exact oracle answers with such a point, no rounding changes it, and the run
ends with it.

* `Setup.IsExact`: what is known of the setup of a run with an exact oracle.
* `runs_round`, `runs_converge`, `runs_iterate`: the parts of such an iteration succeed.
* `PumpTask.attains_of_extension`: a run that may go on from a target that extends ends with it in the
  next iteration.
-/

namespace MipPump

open ExtRat Propagation

variable {σ : Type} {setup : Setup ExtRat σ} {p : Propagator ExtRat} {b : Box ExtRat} {eps : ℚ}
  {x y : List ℚ} {now : ExtRat} {d : Distance ExtRat}

/-- A setup for bounds in the box `b` and the propagator `p`, with an exact oracle. -/
structure Setup.IsExact (setup : Setup ExtRat σ) (p : Propagator ExtRat) (b : Box ExtRat)
    (eps : ℚ) : Prop where
  lists : setup.table.Lists setup.problem.vars
  inOrder : InOrder setup.problem.vars
  integral : ∀ v ∈ setup.problem.vars, v.kind.isIntegral = true → v.IntegralBounds
  within : b.Within setup.problem.vars
  answers : setup.problem.Exact setup.oracle
  tolerance : setup.settings.toleranceEpsilon = fin eps
  positive : 0 < eps
  small : eps < 1 / 2
  locks : setup.ranker.policy = .locks →
    ∃ ps, setup.ranker.lockPressure = some ps ∧ ps.length = setup.table.numIntegers
  rows : setup.settings.rounding = .propagation →
    Propagator.build setup.problem.rows { lb := setup.table.lb, ub := setup.table.ub }
      setup.table.kinds (fin eps) defaultEpsilon defaultRounds = .ok p

/-- A point of the relaxation with integers for the integer variables. -/
structure Setup.Settles (setup : Setup ExtRat σ) (b : Box ExtRat) (x : List ℚ) : Prop where
  relaxed : setup.problem.Relaxed b x
  whole : ∀ q ∈ chosen setup.problem.vars x, ∃ n : ℤ, q = n

section Points

theorem Setup.Settles.of_mem_zip (hx : setup.Settles b x) {v : Variable ExtRat} {q : ℚ}
    (hmem : (v, q) ∈ setup.problem.vars.zip x) (hv : v.kind.isIntegral = true) :
    ∃ n : ℤ, q = n := by
  have hfilter : (v, q) ∈ (setup.problem.vars.zip x).filter (·.1.kind.isIntegral) :=
    List.mem_filter.mpr ⟨hmem, hv⟩
  rw [zip_chosen] at hfilter
  exact hx.whole q (List.of_mem_zip hfilter).2

theorem Setup.IsExact.settled (h : setup.IsExact p b eps) (hx : setup.Settles b x) :
    ∀ c ∈ cellsOf setup.problem.vars x, c.Settled := by
  have hlen := hx.relaxed.length
  have haround := around_of_relaxed h.integral h.within hlen hx.relaxed
  rw [← map_snd_cellsOf hlen, List.forall₂_map_right_iff, List.forall₂_same] at haround
  intro c hc
  constructor
  · refine hx.whole c.2 ?_
    rw [← map_snd_cellsOf hlen]
    exact List.mem_map_of_mem hc
  · exact haround c hc

/-- The propagator stays around the point, whatever box it starts from. -/
theorem Setup.IsExact.around (h : setup.IsExact p b eps) (hx : setup.Settles b x)
    (hpolicy : setup.settings.rounding = .propagation) {q : Propagator ExtRat} (hq : p.SameRows q)
    {box : Box ExtRat} (hbox : box.Contains x) : ∃ m, Propagator.Around x m { q with box } := by
  have hstart : setup.table.lb.length = x.length := by
    rw [h.lists.lb, List.length_map, hx.relaxed.length]
  have hkinds : List.Forall₂ (fun k (q : ℚ) => Kind.isIntegral k = true → ∃ n : ℤ, q = n)
      setup.table.kinds x := by
    rw [h.lists.kinds, List.forall₂_map_left_iff, List.forall₂_iff_zip]
    exact ⟨hx.relaxed.length.symm, fun hmem hv => hx.of_mem_zip hmem hv⟩
  have hbuilt : ∃ m, Propagator.Around x m { p with box } :=
    around_of_build (h.rows hpolicy) hx.relaxed.rows hstart hkinds ⟨eps, rfl, h.positive⟩ hbox
  obtain ⟨_, rfl⟩ := hq
  exact hbuilt

end Points

namespace World

section Parts

/-- The oracle answers with a best point. -/
theorem runs_solve (h : setup.IsExact p b eps) {goal : Goal ExtRat}
    (hgoal : ∃ x, setup.problem.IsBest b goal x) :
    Act.Runs (AtRest p b) (solve setup goal) fun r w =>
      (∃ x : List ℚ, r = .ok (x.map fin) ∧ setup.problem.IsBest b goal x) ∧ AtRest p b w := by
  intro w hw
  obtain ⟨x, hanswer, hbest⟩ := h.answers w.run.oracle b goal hgoal
  rw [← hw.1] at hanswer
  have hsolve : solve setup goal w = .ok (.ok (x.map fin))
      (w.replied (setup.oracle w.run.oracle w.run.workspace.domain.box goal)) := by
    unfold solve
    rw [Act.bind_of_ok (Act.get_apply w)]
    exact orReason_of_ok (ask_of_ok hanswer)
  exact ⟨_, _, hsolve, ⟨x, rfl, hbest⟩, (keeps_solve p setup goal).of_ok hw hsolve⟩

/-- No policy changes a point with integers for the integer variables. -/
theorem exists_roundByPolicy (h : setup.IsExact p b eps) (hfits : setup.DrawsFit)
    (hx : setup.Settles b x) {ws : Rounding.Workspace ExtRat} (hws : Rounding.AtRest b p ws) :
    ∃ ws', roundByPolicy setup (x.map fin) ws = .ok ((chosen setup.problem.vars x).map fin) ws' := by
  have hlen := hx.relaxed.length
  have hsettled := h.settled hx
  cases hpolicy : setup.settings.rounding with
  | nearest =>
      have hround := nearestPoint_of_settled h.lists h.inOrder hlen hsettled h.small
        setup.settings.tieBreak
      rw [roundByPolicy_of_nearest hpolicy, h.tolerance, hround]
      exact ⟨ws, rfl⟩
  | randomized =>
      obtain ⟨q, hq⟩ := randomizedPoint_of_settled h.lists h.inOrder hlen hsettled
        h.positive h.small (hfits (Or.inl hpolicy)) ws.progress
      rw [roundByPolicy_of_randomized hpolicy, h.tolerance]
      exact ⟨{ ws with progress := q }, Act.zoom_of_ok hq⟩
  | propagation =>
      have hbox : ws.domain.box.Contains x := hws.1 ▸ hx.relaxed.inside
      rw [roundByPolicy_of_propagation hpolicy, h.tolerance]
      exact Rounding.propagatedPoint_of_settled h.lists h.inOrder hlen hsettled h.positive h.small _
        h.locks (fun hrandom => hfits (Or.inr ⟨hpolicy, hrandom⟩)) hbox
        fun box => h.around hx hpolicy hws.2

theorem runs_round (h : setup.IsExact p b eps) (hfits : setup.DrawsFit) (hx : setup.Settles b x) :
    Act.Runs (AtRest p b) (World.round setup (x.map fin)) fun r w =>
      r = ((chosen setup.problem.vars x).map fin, true) ∧ AtRest p b w := by
  intro w hw
  obtain ⟨ws, hround⟩ := exists_roundByPolicy h hfits hx hw
  have hchecked := check_of_settled h.lists h.inOrder hx.relaxed.length (h.settled hx)
  have hrounded : roundOrNearest setup (x.map fin) w.run.workspace =
      .ok ((chosen setup.problem.vars x).map fin, true) ws := by
    simp only [roundOrNearest, hround]
  have hall := round_of_ok hrounded hchecked
  exact ⟨_, _, hall, rfl, (keeps_round p hx.relaxed.inside.ordered setup _).of_ok hw hall⟩

/-- The point itself is found feasible. -/
theorem runs_feasiblePoint (h : setup.IsExact p b eps) (hx : setup.Settles b x) :
    Act.Runs (fun _ => True)
      (feasiblePoint setup (x.map fin) ((chosen setup.problem.vars x).map fin)) fun r _ =>
        r = some (x.map fin) ∧ True := by
  have hfull := fullPoint_of_chosen h.lists h.inOrder hx.relaxed.length
  have hfeasible := isFeasible_of_relaxed h.inOrder h.within hx.relaxed
    (fun v q hmem hv => hx.of_mem_zip hmem hv) h.positive
  unfold feasiblePoint
  rw [h.tolerance]
  refine Act.runs_of_ok_bind hfull (Act.runs_of_ok_bind hfeasible ?_)
  rw [if_pos rfl]
  exact Act.runs_pure fun _ _ => ⟨rfl, trivial⟩

/-- The point is reported as a success. -/
theorem runs_converge (h : setup.IsExact p b eps) (hx : setup.Settles b x) :
    Act.Runs (fun _ => True)
      (converge setup now (x.map fin) ((chosen setup.problem.vars x).map fin) d) fun r _ =>
        (∃ o objective, r = some o ∧ o.ending = .success (x.map fin) objective) ∧ True := by
  obtain ⟨objective, hobjective⟩ : ∃ objective,
      setup.problem.objective (x.map fin) = .ok objective :=
    exists_objective (by rw [List.length_map, hx.relaxed.length])
  have hend : Act.Runs (fun _ : World ExtRat σ => True)
      (some <$> outcome (.success (x.map fin) objective)) fun r _ =>
        (∃ o objective, r = some o ∧ o.ending = .success (x.map fin) objective) ∧ True :=
    fun w _ => ⟨_, w, rfl, ⟨_, objective, rfl, rfl⟩, trivial⟩
  unfold converge
  refine Act.runs_bind (runs_feasiblePoint h hx) fun r => Act.runs_of_and ?_
  rintro rfl
  refine Act.runs_of_ok_bind hobjective (Act.runs_bind (Act.runs_modify (Q := fun _ _ => True)
    fun _ _ => trivial) fun _ => ?_)
  have hcount := exists_countFractional h.lists h.inOrder
    (by rw [List.length_map, hx.relaxed.length] : (x.map fin).length = setup.problem.vars.length)
    setup.settings.toleranceEpsilon
  refine Act.runs_bind (runs_record (fun _ _ _ _ => trivial) hcount now _ d) fun _ =>
    Act.runs_bind runs_progress fun q => ?_
  split
  · exact Act.runs_bind (runs_print (fun _ _ _ _ => trivial) _) fun _ => hend
  · exact hend

end Parts

section Iterations

/-- An iteration without a share of the cost, with a target that extends, ends the run. -/
theorem runs_iterate (h : setup.IsExact p b eps) (hfits : setup.DrawsFit)
    (hy : setup.Settles b y) :
    Act.Runs (fun w => AtRest p b w ∧ w.ledger.progress.epoch.alpha = 0)
      (iterate setup now ((chosen setup.problem.vars y).map fin)) fun stage _ =>
        ∃ o objective x, stage = finished o ∧ o.ending = .success (x.map fin) objective ∧
          setup.Settles b x ∧ chosen setup.problem.vars x = chosen setup.problem.vars y := by
  unfold iterate
  refine Act.runs_bind (Q := fun _ w => AtRest p b w ∧ w.ledger.progress.epoch.alpha = 0)
    (fun w hw => ⟨⟨⟩, _, rfl, hw⟩) fun _ => ?_
  refine Act.runs_bind (Q := fun q w => q.epoch.alpha = 0 ∧ AtRest p b w)
    (fun w hw => ⟨_, w, rfl, hw.2, hw.1⟩) fun q => Act.runs_of_and fun halpha => ?_
  have hweight : q.epoch.alpha ≤ 0 := by
    rw [halpha, zero_eq, fin_le_fin]
  obtain ⟨goal, hgoal, hbest, hsame⟩ :=
    chosen_eq_of_isBest h.lists h.inOrder h.integral h.within hy.relaxed hweight
  refine Act.runs_of_ok_bind hgoal (Act.runs_bind (runs_solve h hbest) fun r => Act.runs_of_and ?_)
  rintro ⟨x, rfl, hx⟩
  have hchosen := hsame x hx
  have hsettles : setup.Settles b x := ⟨hx.relaxed, hchosen ▸ hy.whole⟩
  refine Act.runs_bind (runs_round h hfits hsettles) fun r => Act.runs_of_and ?_
  rintro rfl
  obtain ⟨d, hd, hzero⟩ := measure_of_chosen h.lists h.inOrder hx.relaxed.length h.positive
  rw [← h.tolerance] at hd
  refine Act.runs_of_ok_bind hd (Act.runs_bind (Q := fun _ _ => True)
    (fun w _ => ⟨⟨⟩, _, rfl, trivial⟩) fun _ => ?_)
  unfold convergeIfZero
  rw [hzero, Bool.and_true, if_pos rfl]
  refine Act.runs_bind (runs_converge h hsettles) fun r => Act.runs_of_and ?_
  rintro ⟨o, objective, rfl, hending⟩
  exact Act.runs_pure fun _ _ => ⟨o, objective, x, rfl, hending, hsettles, hchosen⟩

end Iterations

section Steps

variable {start w : World ExtRat σ} {target : List ExtRat}

/-- A run that may go on does so. -/
theorem step_of_top (hstage : w.run.stage = .top target)
    (hleft : w.ledger.progress.iteration < setup.settings.maxIterations)
    (hgo : isCancelled setup now w = false) : w.step setup now = w.moveTo (.projecting target) := by
  have hpause : pause setup now target w = .ok (.projecting target) w := by
    unfold pause
    rw [Act.bind_of_ok (Act.get_apply w)]
    split
    · rename_i hmax
      exact absurd hmax (not_le.mpr hleft)
    · rw [hgo]
      rfl
  unfold step
  rw [hstage]
  simp only [act, hpause]

/-- The bounds are at rest in all worlds that are reached. -/
theorem Reachable.atRest (hb : b.Ordered) (hstart : AtRest p b start)
    (h : Reachable setup start w) : AtRest p b w := by
  induction h with
  | start => exact hstart
  | @step w h shared now ih =>
      have hshared : AtRest p b { w with shared } := ih
      exact hshared.step hb setup now

theorem iterations_of_success {env : Surroundings ExtRat σ} {a a' : Ledger ExtRat}
    {o : Outcome ExtRat} {point : List ExtRat} {objective : ExtRat}
    (h : Transition setup env (.projecting target) a (finished o) a')
    (hending : o.ending = .success point objective) : o.iterations = a.progress.iteration + 1 := by
  generalize hstage : finished o = stage at h
  cases h with
  | converged aim measured zero solves cost hb =>
      cases hstage
      rw [hb]
      rfl
  | failed | stalledOut =>
      cases hstage
      cases hending
  | _ => cases hstage

end Steps

end World

/-- The outcome is a success in iteration `k`, with the target for the integer variables. -/
def Outcome.Attains (t : Table ExtRat) (target : List ExtRat) (k : Int) (o : Outcome ExtRat) : Prop :=
  o.iterations = k ∧ ∃ point objective, o.ending = .success point objective ∧
    t.integerValues point = .ok target

namespace World

variable {start w : World ExtRat σ}

/-- The iteration of a target that extends attains it. -/
theorem attains_of_projecting (h : setup.IsExact p b eps) (hfits : setup.DrawsFit)
    (hy : setup.Settles b y) (hrest : AtRest p b w)
    (hstage : w.run.stage = .projecting ((chosen setup.problem.vars y).map fin))
    (halpha : w.ledger.progress.epoch.alpha = 0) :
    ∃ o, (w.step setup now).run.stage = .ended (.ok o) ∧
      o.Attains setup.table ((chosen setup.problem.vars y).map fin)
        (w.ledger.progress.iteration + 1) := by
  obtain ⟨stage, w', hiterate, o, objective, x, rfl, hending, hx, hchosen⟩ :=
    (runs_iterate h hfits hy : Act.Runs _ (iterate setup now _) _) w ⟨hrest, halpha⟩
  have hstep : w.step setup now = w'.moveTo (finished o) := by
    unfold step
    rw [hstage]
    simp only [act, hiterate]
  refine ⟨o, by rw [hstep]; rfl, ?_, x.map fin, objective, hending, ?_⟩
  · exact iterations_of_success (iterate_transition hiterate) hending
  · rw [integerValues_map_fin h.lists h.inOrder hx.relaxed.length, hchosen]

/-- From a world that aims at a target that extends, the next iteration attains it, whatever is
shared meanwhile. -/
theorem Reachable.attains (h : setup.IsExact p b eps) (hstart : start.run.stage = .opening)
    (hrest : AtRest p b start) (hw : Reachable setup start w) (hy : setup.problem.Relaxed b y)
    (hstage : w.run.stage = .top ((chosen setup.problem.vars y).map fin))
    (halpha : w.ledger.progress.epoch.alpha = 0)
    (hleft : w.ledger.progress.iteration < setup.settings.maxIterations) {shared : Shared ExtRat}
    (hgo : isCancelled setup now { w with shared } = false) (shared' : Shared ExtRat)
    (now' : ExtRat) :
    ∃ o, (({ ({ w with shared }.step setup now) with shared := shared' } : World ExtRat σ).step
        setup now').run.stage = .ended (.ok o) ∧
      o.Attains setup.table ((chosen setup.problem.vars y).map fin)
        (w.ledger.progress.iteration + 1) := by
  have hrest : AtRest p b w := hw.atRest hy.inside.ordered hrest
  obtain ⟨hfits, hwhole⟩ : setup.DrawsFit ∧
      ∀ x ∈ (chosen setup.problem.vars y).map fin, NoFraction x := by
    have haimed := hw.aimed h.lists hstart
    rw [hstage] at haimed
    exact haimed
  have hsettles : setup.Settles b y :=
    ⟨hy, fun q hq => hwhole (fin q) (List.mem_map_of_mem hq) q rfl⟩
  rw [step_of_top (w := { w with shared }) hstage hleft hgo]
  exact attains_of_projecting (w := { w.moveTo _ with shared := shared' }) h hfits hsettles hrest rfl
    halpha

end World

namespace PumpTask

variable {task : PumpTask ExtRat σ} {started : ExtRat} {shared : Shared ExtRat}
  {domain : Domain ExtRat} {oracle : σ} {run : Run ExtRat σ} {w : World ExtRat σ}
  {target : List ExtRat}

theorem Launched.isExact {requested : RequestedSettings ExtRat}
    (hl : task.Launched started domain oracle setup run)
    (hsettings : requested.toSettings = .ok task.settings) (horder : InOrder task.problem.vars)
    (hbounds : ∀ v ∈ task.problem.vars, v.kind.isIntegral = true → v.IntegralBounds)
    (hwithin : domain.box.Within task.problem.vars) (hexact : task.problem.Exact task.oracle) :
    ∃ eps, setup.IsExact run.workspace.propagator domain.box eps := by
  obtain ⟨eps, heps, hpos, hsmall⟩ := toleranceEpsilon_eq hsettings
  obtain ⟨hpolicy, hlocks⟩ := Ranker.make_eq_ok hl.ranker
  refine ⟨eps, hl.problem ▸ hl.table, hl.problem ▸ horder, hl.problem ▸ hbounds,
    hl.problem ▸ hwithin, ?_, hl.settings ▸ heps, hpos, hsmall, ?_, ?_⟩
  · rw [hl.problem, hl.asks]
    exact hexact
  · rw [hpolicy]
    exact hlocks
  · intro hrounding
    have hpropagator := hl.propagator
    rw [hl.settings] at hrounding
    simp only [PumpTask.propagator, hrounding, heps] at hpropagator
    rw [hl.problem]
    exact hpropagator

/-- **One-step convergence.**  In exact arithmetic and with an exact oracle, let a run have reached a
target while its weight is zero, and let some point of the relaxation have the target as the values of
its integer variables.  Unless the run is stopped by its budget of iterations or told to stop, the
next iteration ends it with a success that has the target as the values of its integer variables,
whatever the policy of rounding is.  This holds of a run that shares its store and its signal with
others, at any instants of its steps, and of a run by itself. -/
theorem attains_of_extension {requested : RequestedSettings ExtRat}
    (hsettings : requested.toSettings = .ok task.settings) (horder : InOrder task.problem.vars)
    (hbounds : ∀ v ∈ task.problem.vars, v.kind.isIntegral = true → v.IntegralBounds)
    (hwithin : domain.box.Within task.problem.vars) (hexact : task.problem.Exact task.oracle)
    (hlaunch : task.launch started domain oracle = .ok (setup, run))
    (hw : World.Reachable setup { shared, run } w) (hstage : w.run.stage = .top target)
    (halpha : w.run.workspace.progress.epoch.alpha = 0)
    (hleft : w.run.workspace.progress.iteration < task.settings.maxIterations)
    (hy : task.problem.Relaxed domain.box y)
    (htarget : setup.table.integerValues (y.map fin) = .ok target) :
    (∀ s now s' now', World.isCancelled setup now { w with shared := s } = false →
      ∃ o, (({ ({ w with shared := s }.step setup now) with shared := s' } : World ExtRat σ).step
          setup now').run.stage = .ended (.ok o) ∧
        o.Attains setup.table target (w.run.workspace.progress.iteration + 1)) ∧
    ∀ clock k, clock (World.enoughSteps task.settings) = started →
      World.Visited setup clock (World.enoughSteps task.settings) { shared, run } (k + 1) w →
      World.isCancelled setup (clock k) w = false →
      ∃ o, (task.run clock shared domain oracle).result = .ok o ∧
        o.Attains setup.table target (w.run.workspace.progress.iteration + 1) := by
  have hl := launched_of_launch hlaunch
  obtain ⟨eps, h⟩ := hl.isExact hsettings horder hbounds hwithin hexact
  rw [integerValues_map_fin hl.table horder hy.length, ← hl.problem] at htarget
  cases htarget
  rw [← hl.problem] at hy
  rw [← hl.settings] at hleft
  have hattains {shared : Shared ExtRat} {now : ExtRat}
      (hgo : World.isCancelled setup now { w with shared } = false) :=
    hw.attains h hl.start.1 ⟨hl.start.2.2.2 ▸ rfl, Propagator.SameRows.refl _⟩ hy hstage halpha hleft
      hgo
  refine ⟨fun s now s' now' hgo => hattains hgo s' now', ?_⟩
  rintro clock k rfl hvisited hgo
  have hgoing : ∀ result, w.run.stage ≠ .ended result := by
    rw [hstage]
    rintro result ⟨⟩
  have hstep := World.step_of_top hstage hleft hgo
  have hgoing' : ∀ result, (w.step setup (clock k)).run.stage ≠ .ended result := by
    rw [hstep]
    rintro result ⟨⟩
  obtain ⟨j, rfl, hresult⟩ := result_of_visited (RequestedSettings.maxRestarts_nonneg hsettings)
    hlaunch hvisited hgoing hgoing'
  obtain ⟨o, hend, hattained⟩ := hattains hgo (w.step setup (clock (j + 1))).shared (clock j)
  exact ⟨o, hresult _ hend, hattained⟩

section Sample

open Classical in
/-- An oracle that answers with a best point, with a known one if it knows one. -/
noncomputable def bestOracle (p : Problem ExtRat)
    (known? : Box ExtRat → Goal ExtRat → Option (List ℚ)) : Oracle ExtRat Unit := fun _ box goal =>
  { answer :=
      match known? box goal with
      | some x => .ok (x.map fin)
      | none =>
          if h : ∃ x, p.IsBest box goal x then .ok (h.choose.map fin)
          else .error (.relaxationInfeasible none)
    next := () }

theorem exact_bestOracle {p : Problem ExtRat} {known? : Box ExtRat → Goal ExtRat → Option (List ℚ)}
    (hknown : ∀ box goal x, known? box goal = some x → p.IsBest box goal x) :
    p.Exact (bestOracle p known?) := by
  intro s box goal hbest
  unfold bestOracle
  cases hx : known? box goal with
  | some x => exact ⟨x, rfl, hknown box goal x hx⟩
  | none => exact ⟨hbest.choose, by simp only [dif_pos hbest], hbest.choose_spec⟩

/-- The best point of the root of the sample problem. -/
def halfwayRoot? (box : Box ExtRat) (goal : Goal ExtRat) : Option (List ℚ) :=
  if box.lb = [fin 0] ∧ box.ub = [fin 1] ∧ goal.objective = [fin (-1)] ∧ goal.targets.isEmpty = true
  then some [1 / 2] else none

/-- The sample problem with rounding by propagation and an exact oracle. -/
noncomputable def halfwayBest : PumpTask ExtRat Unit :=
  { halfway with
    settings := { rounding := .propagation }
    oracle := bestOracle halfway.problem halfwayRoot? }

/-- The row of the sample problem. -/
theorem satisfiedBy_halfway {q : ℚ} : halfway.problem.rows.SatisfiedBy [q] ↔ 2 * q ≤ 1 := by
  constructor
  · intro h
    obtain ⟨a, s, b, ha, -, hs, hb, hrelates⟩ := h 0 [fin 2] rfl
    cases hs
    cases hb
    obtain rfl : [2] = a := List.map_injective_iff.mpr (fun _ _ h => ExtRat.fin.inj h) ha
    simpa [Sense.Relates, dotRat] using hrelates
  · intro h i row hrow
    cases i with
    | zero =>
        cases hrow
        exact ⟨[2], .atMost, fin 1, rfl, rfl, rfl, rfl, by simpa [Sense.Relates, dotRat] using h⟩
    | succ i => cases hrow

theorem relaxed_halfway {q : ℚ} (hq : 0 ≤ q) (hrow : 2 * q ≤ 1) :
    halfway.problem.Relaxed ⟨[fin 0], [fin 1]⟩ [q] where
  length := rfl
  inside := by
    constructor
    · exact .cons ((fin_le_fin 0 q).mpr hq) .nil
    · exact .cons ((fin_le_fin q 1).mpr (by linarith)) .nil
  rows := satisfiedBy_halfway.mpr hrow

theorem isBest_halfwayRoot {box : Box ExtRat} {goal : Goal ExtRat} {x : List ℚ}
    (h : halfwayRoot? box goal = some x) : halfway.problem.IsBest box goal x := by
  unfold halfwayRoot? at h
  split at h
  · rename_i hroot
    obtain ⟨lb, ub⟩ := box
    obtain ⟨objective, targets⟩ := goal
    obtain ⟨rfl, rfl, rfl, htargets⟩ := hroot
    obtain rfl : targets = [] := List.isEmpty_iff.mp htargets
    cases h
    have hcost (q : ℚ) : Goal.costAt ⟨[fin (-1)], []⟩ [fin q] = fin (-q) := by
      simp [Goal.costAt, Vec.plainSum]
    constructor
    · exact relaxed_halfway (by norm_num) (by norm_num)
    · refine ⟨-(1 / 2), hcost _, ?_⟩
      intro z hz
      obtain ⟨q, rfl⟩ := List.length_eq_one_iff.mp hz.length
      have hrow := satisfiedBy_halfway.mp hz.rows
      rw [List.map_singleton, hcost, fin_le_fin]
      linarith
  · cases h

/-- Whether the run is about to solve the root after one step; and after two steps its target, the
weight, the iteration and whether it has to stop. -/
def afterRoot (setup : Setup ExtRat Unit) (w : World ExtRat Unit) :
    Bool × Option (List ExtRat) × ExtRat × Int × Bool :=
  let v := w.step setup (fin 0)
  let u := v.step setup (fin 0)
  let p := u.run.workspace.progress
  ( match v.run.stage with
    | .root => true
    | _ => false
  , match u.run.stage with
    | .top target => some target
    | _ => none
  , p.epoch.alpha, p.iteration, World.isCancelled setup (fin 0) u )

theorem afterRoot_eq {setup : Setup ExtRat Unit} {w : World ExtRat Unit} {target : List ExtRat}
    {alpha : ExtRat} {k : Int} {stops : Bool}
    (h : afterRoot setup w = (true, some target, alpha, k, stops)) :
    let v := w.step setup (fin 0)
    let u := v.step setup (fin 0)
    v.run.stage = .root ∧ u.run.stage = .top target ∧
      u.run.workspace.progress.epoch.alpha = alpha ∧ u.run.workspace.progress.iteration = k ∧
      World.isCancelled setup (fin 0) u = stops := by
  unfold afterRoot at h
  simp only [Prod.mk.injEq] at h
  obtain ⟨hroot, htarget, halpha, hk, hstops⟩ := h
  refine ⟨?_, ?_, halpha, hk, hstops⟩
  · split at hroot
    · assumption
    · cases hroot
  · split at htarget
    · cases htarget
      assumption
    · cases htarget

/-- The run of the sample problem aims at zero after the root, and ends with it. -/
theorem attains_of_extension_halfway :
    let domain : Domain ExtRat := ⟨⟨[fin 0], [fin 1]⟩, []⟩
    ∃ setup run w o, halfwayBest.launch (fin 0) domain () = .ok (setup, run) ∧
      World.Reachable setup { shared := ⟨{}, none⟩, run } w ∧ w.run.stage = .top [fin 0] ∧
      (halfwayBest.run (fun _ => fin 0) ⟨{}, none⟩ domain ()).result = .ok o ∧
      o.Attains setup.table [fin 0] 1 := by
  intro domain
  have hsettings : halfwayBest.settings.requested.toSettings = .ok halfwayBest.settings :=
    Settings.toSettings_requested (by decide +kernel)
  have horder : InOrder halfwayBest.problem.vars := rfl
  have hbounds : ∀ v ∈ halfwayBest.problem.vars, v.kind.isIntegral = true → v.IntegralBounds := by
    intro v hv _
    rw [List.mem_singleton.mp hv]
    exact ⟨Or.inl ⟨0, rfl⟩, Or.inl ⟨1, rfl⟩⟩
  have hwithin : domain.box.Within halfwayBest.problem.vars := by
    constructor <;> exact .cons ((fin_le_fin _ _).mpr (le_refl _)) .nil
  have hexact : halfwayBest.problem.Exact halfwayBest.oracle :=
    exact_bestOracle fun _ _ _ => isBest_halfwayRoot
  have hy : halfwayBest.problem.Relaxed domain.box [0] := relaxed_halfway (le_refl 0) (by norm_num)
  obtain ⟨⟨setup, run⟩, hlaunch⟩ : ∃ s, halfwayBest.launch (fin 0) domain () = .ok s :=
    Act.exists_ok_of_isOk (by decide +kernel)
  have hl := launched_of_launch hlaunch
  have hrun : ((halfwayBest.launch (fin 0) domain ()).toOption.map fun s =>
      afterRoot s.1 { shared := ⟨{}, none⟩, run := s.2 }) =
        some (true, some [fin 0], fin 0, 0, false) := by decide +kernel
  rw [hlaunch] at hrun
  obtain ⟨hroot, hstage, halpha, hiteration, hgo⟩ := afterRoot_eq (Option.some.inj hrun)
  have hvisited : World.Visited setup (fun _ => fin 0) (World.enoughSteps halfwayBest.settings)
      { shared := ⟨{}, none⟩, run } 2001 _ := .step (.step .start hl.going) (by
    rw [hroot]
    rintro result ⟨⟩)
  have htarget : setup.table.integerValues ([0].map fin) = .ok [fin 0] :=
    integerValues_map_fin hl.table horder rfl
  obtain ⟨o, ho, hattained⟩ := (attains_of_extension hsettings horder hbounds hwithin hexact hlaunch
    hvisited.reachable hstage halpha (by rw [hiteration]; decide) hy htarget).2 _ 2000 rfl hvisited hgo
  rw [hiteration] at hattained
  exact ⟨setup, run, _, o, hlaunch, hvisited.reachable, hstage, ho, hattained⟩

end Sample

end PumpTask

end MipPump
