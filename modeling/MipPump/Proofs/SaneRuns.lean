import MipPump.Proofs.GuardedRounding
import MipPump.Proofs.IntegerOrders
import MipPump.Proofs.Perturbations
import MipPump.Proofs.SoundSuccess

/-!
# Runs on sane input never stop with a fault

Under admitted settings, on a coherent problem and with an oracle that answers with finite points or
refuses, every part of a run comes to an answer: what may go wrong in one part is excluded by what
another part keeps true.

* `Setup.IsSane`: what is known of the setup of such a run.
* `World.Steady`: what every part keeps true.  The bounds in force are those at the start, and the
  moves that the run remembers are moves of its integer variables.
* `runs_solve`, `runs_round`, `runs_feasiblePoint`, …: the parts of a step succeed.
* `Steady.step`, `Steady.advance`: steps end in a stage with a candidate for a target, or with an
  outcome.
* `PumpTask.exists_outcome_of_coherent`: so does the whole run.
-/

namespace MipPump

open ExtRat Propagation

variable {σ : Type}

section Meaning

/-- A finite point with a value for every variable. -/
def Problem.FinitePoint (p : Problem ExtRat) (point : List ExtRat) : Prop :=
  ∃ x : List ℚ, point = x.map fin ∧ x.length = p.vars.length

/-- A solve answers with a finite point or with a reason to end the run. -/
def Problem.FiniteAnswer (p : Problem ExtRat) (r : Except FailureReason (List ExtRat)) : Prop :=
  ∀ point, r = .ok point → p.FinitePoint point

/-- A fault by which an oracle refuses to answer: the relaxation is infeasible or unbounded. -/
def Fault.IsRefusal {R : Type} (e : Fault R) : Prop :=
  (∃ status, e = .relaxationInfeasible status) ∨ ∃ status, e = .relaxationUnbounded status

/-- A setup on sane input, for bounds in the box `b` and the propagator `p`. -/
structure Setup.IsSane (setup : Setup ExtRat σ) (p : Propagator ExtRat) (b : Box ExtRat)
    (eps share : ℚ) : Prop where
  coherent : setup.problem.Coherent
  lists : setup.table.Lists setup.problem.vars
  proper : b.Proper setup.problem.vars
  tolerance : setup.settings.toleranceEpsilon = fin eps
  small : eps < 1 / 2
  shares : setup.settings.perturbationFraction = fin share
  share_le : share ≤ 1
  locks : setup.ranker.policy = .locks →
    ∃ ps, setup.ranker.lockPressure = some ps ∧ ps.length = setup.table.numIntegers
  works : setup.settings.rounding = .propagation →
    p.Works Fault.Emptied (·.Proper setup.problem.vars) setup.problem.vars.length
  points : ∀ s box goal point, (setup.oracle s box goal).answer = .ok point →
    setup.problem.FinitePoint point
  refusals : ∀ s box goal e, (setup.oracle s box goal).answer = .error e → e.IsRefusal

/-- A vector with a value for every integer variable. -/
def Setup.Fits (setup : Setup ExtRat σ) (candidate : List ExtRat) : Prop :=
  candidate.length = setup.table.numIntegers

/-- The bounds are at rest, and the moves that are remembered are moves of integer variables. -/
structure World.Steady (setup : Setup ExtRat σ) (p : Propagator ExtRat) (b : Box ExtRat)
    (w : World ExtRat σ) : Prop where
  rest : AtRest p b w
  tracks : w.run.workspace.progress.Tracks setup.table.numIntegers

/-- A target has a value for every integer variable, and a run that has ended has an outcome. -/
def Setup.Ready (setup : Setup ExtRat σ) : Stage ExtRat → Prop
  | .top target | .projecting target => setup.Fits target
  | .ended result => ∃ o, result = .ok o
  | _ => True

end Meaning

section Boxes

variable {n : Nat}

/-- Integer variables can be fixed to the values of a finite candidate. -/
theorem World.runs_fixIntegers (hfew : (n : Int) < Progress.countLimit) {values : List ℚ}
    {integers : List (Int × Nat)}
    (hrange : ∀ j ∈ integers, Vec.InRange n j.1 ∧ j.2 < values.length) :
    Act.Runs (fun s : Scoped ExtRat => s.domain.box.Sized n) (fixIntegers (values.map fin) integers)
      fun _ s => s.domain.box.Sized n := by
  induction integers with
  | nil => exact Act.runs_pure fun s hs => hs
  | cons jp rest ih =>
      obtain ⟨j, position⟩ := jp
      obtain ⟨hj, hposition⟩ := hrange (j, position) (List.mem_cons_self ..)
      have hvalue : (Vec.get (values.map fin) (position : Int) : Except (Fault ExtRat) ExtRat) =
          .ok (fin values[position]) :=
        Vec.get_eq_ok.mpr (Vec.at?_of_getElem? (by simp [hposition]))
      have hself : ¬ fin values[position] < fin values[position] := by simp
      have hset := Rounding.settable_of_inRange (Progress.short_of_few hfew) hj hself
      unfold fixIntegers
      refine Act.runs_of_ok_bind hvalue (Act.runs_bind (Rounding.runs_tighten hset)
        fun _ => ih fun k hk => ?_)
      exact hrange k (List.mem_cons_of_mem _ hk)

end Boxes

theorem Problem.FinitePoint.length {p : Problem ExtRat} {point : List ExtRat}
    (h : p.FinitePoint point) : point.length = p.vars.length := by
  obtain ⟨x, rfl, hx⟩ := h
  rw [List.length_map, hx]

/-- A refusal is a reason to end a run. -/
theorem Fault.IsRefusal.reason {R : Type} {e : Fault R} (h : e.IsRefusal) :
    ∃ reason, World.reasonOf e = some reason := by
  rcases h with ⟨status, rfl⟩ | ⟨status, rfl⟩
  · exact ⟨.relaxationInfeasible, rfl⟩
  · exact ⟨.relaxationUnbounded, rfl⟩

namespace World

variable {setup : Setup ExtRat σ} {p : Propagator ExtRat} {b : Box ExtRat} {eps share : ℚ}
  {now : ExtRat} {d : Distance ExtRat} {point candidate : List ExtRat}

namespace Steady

section Frames

theorem ignoresReports : IgnoresReports (Steady setup p b) :=
  fun _ _ _ hw => ⟨hw.rest, hw.tracks⟩

/-- Work on the progress that keeps track of the moves leaves the world steady. -/
theorem runs_onProgress {α : Type} {act : Act ExtRat (Progress ExtRat) α} {C : α → Prop}
    (h : Act.Runs (Progress.Tracks setup.table.numIntegers) act
      fun a q => C a ∧ q.Tracks setup.table.numIntegers) :
    Act.Runs (Steady setup p b) (onProgress act) fun a w => C a ∧ Steady setup p b w := by
  refine Act.runs_zoom
    (J := fun ws => Rounding.AtRest b p ws ∧ ws.progress.Tracks setup.table.numIntegers)
    (T := fun a ws => C a ∧ Rounding.AtRest b p ws ∧ ws.progress.Tracks setup.table.numIntegers)
    ?_ (fun _ hw => ⟨hw.rest, hw.tracks⟩) fun _ _ _ _ hws => ⟨hws.1, hws.2.1, hws.2.2⟩
  exact Act.runs_zoom h (fun _ hws => hws.2) fun _ _ _ hws hq => ⟨hq.1, hws.1, hq.2⟩

theorem runs_modify {f : Progress ExtRat → Progress ExtRat}
    (hf : ∀ q, q.Tracks setup.table.numIntegers → (f q).Tracks setup.table.numIntegers) :
    Act.Runs (Steady setup p b) (onProgress (modify f)) fun _ => Steady setup p b :=
  (runs_onProgress (C := fun _ => True) (Act.runs_modify fun q hq => ⟨trivial, hf q hq⟩)).mono
    (fun _ hw => hw) fun _ _ hw => hw.2

/-- To end with a failure is to end with an outcome. -/
theorem runs_finished_fail (reason : FailureReason) :
    Act.Runs (Steady setup p b) (finished <$> fail setup reason)
      fun stage w => setup.Ready stage ∧ Steady setup p b w :=
  Act.runs_map (runs_fail ignoresReports setup reason) fun o _ hw => ⟨⟨o, rfl⟩, hw⟩

end Frames

section Solving

/-- The oracle answers with a finite point or with a reason to end the run. -/
theorem runs_ask (h : setup.IsSane p b eps share) (box : Box ExtRat) (goal : Goal ExtRat) :
    Act.Runs (Steady setup p b) (orReason (ask setup box goal)) fun r w =>
      setup.problem.FiniteAnswer r ∧ Steady setup p b w := by
  intro w hw
  cases ha : (setup.oracle w.run.oracle box goal).answer with
  | ok point =>
      refine ⟨_, _, orReason_of_ok (ask_of_ok ha), ?_, hw.rest, hw.tracks⟩
      rintro _ ⟨⟩
      exact h.points _ _ _ _ ha
  | error e =>
      obtain ⟨reason, hreason⟩ := (h.refusals _ _ _ _ ha).reason
      refine ⟨_, _, orReason_of_error (ask_of_error ha) hreason, ?_, hw.rest, hw.tracks⟩
      rintro _ ⟨⟩

theorem runs_solve (h : setup.IsSane p b eps share) (goal : Goal ExtRat) :
    Act.Runs (Steady setup p b) (solve setup goal) fun r w =>
      setup.problem.FiniteAnswer r ∧ Steady setup p b w :=
  Act.runs_get_bind fun _ hw => (runs_ask h _ goal).mono (fun _ heq => heq ▸ hw) fun _ _ h => h

/-- In the scope with fixed integer variables no bounds are refused. -/
theorem runs_solveFixed (h : setup.IsSane p b eps share) {c : List ℚ}
    (hc : c.length = setup.table.numIntegers) :
    Act.Runs (Steady setup p b) (solveFixed setup (c.map fin)) fun r w =>
      (∀ full ∈ r, setup.problem.FinitePoint full) ∧ Steady setup p b w := by
  have hrange : ∀ j ∈ setup.table.integers.zipIdx,
      Vec.InRange setup.problem.vars.length j.1 ∧ j.2 < c.length := by
    intro j hj
    refine ⟨h.lists.inRange_integers h.coherent.inOrder _ (List.fst_mem_of_mem_zipIdx hj), ?_⟩
    have hlt := List.snd_lt_of_mem_zipIdx hj
    rw [hc]
    simpa [Table.numIntegers] using hlt
  have hsized : b.Sized setup.problem.vars.length :=
    ⟨h.proper.within.lower.length_eq.symm, h.proper.within.upper.length_eq.symm⟩
  unfold solveFixed
  refine Act.runs_bind (Q := fun r w => setup.problem.FiniteAnswer r ∧ Steady setup p b w) ?_
    fun solved => Act.runs_of_and fun hsolved => ?_
  · -- the scope restores the box, whatever is fixed in it
    refine Act.runs_zoom (Scoped.tries_within (J := fun _ => True) (P := Steady setup p b)
      (Q := fun r w => setup.problem.FiniteAnswer r ∧ Steady setup p b w) h.proper.ordered ?_
      (fun _ _ => trivial) (Act.Runs.tries ?_)).runs (fun w hw => ⟨hw.rest.1, hw⟩)
      fun w r s _ hs => ⟨hs.2.1, ⟨hs.1, hs.2.2.rest.2⟩, hs.2.2.tracks⟩
    · refine Act.keeps_bind (Act.keeps_zoom (keeps_fixIntegers b _ _) (fun _ hs => hs.1)
        fun _ _ _ hs => ⟨hs, trivial⟩) fun _ => Act.keeps_bind Act.keeps_get fun _ => ?_
      exact keeps_orReason (Act.keeps_zoom_of_put _ fun _ _ hs => hs)
    · refine Act.runs_bind (Q := fun _ s => Steady setup p b s.2)
        (Act.runs_zoom (runs_fixIntegers h.coherent.few hrange) (fun _ hs => hs.1 ▸ hsized)
          fun _ _ _ hs _ => hs.2) fun _ => Act.runs_get_bind fun s hs => ?_
      obtain ⟨scope, w⟩ := s
      dsimp only
      rw [Act.second, orReason_zoom]
      exact Act.runs_zoom (runs_ask h _ _) (fun _ heq => heq ▸ hs) fun _ _ _ _ hs => hs
  · cases solved with
    | error reason => exact Act.runs_pure fun _ hw => ⟨fun _ hfull => (by cases hfull), hw⟩
    | ok point =>
        obtain ⟨x, rfl, hx⟩ := hsolved point rfl
        obtain ⟨y, hfull, hy⟩ := exists_fullPoint_fin h.lists h.coherent.inOrder hx hc
        refine Act.runs_map (Q := fun full w => full = y.map fin ∧ Steady setup p b w)
          (Act.runs_ofExcept fun _ hw => ⟨_, hfull, rfl, hw⟩) ?_
        rintro _ w ⟨rfl, hw⟩
        refine ⟨?_, hw⟩
        rintro _ ⟨⟩
        exact ⟨y, rfl, hy⟩

end Solving

section Rounding

/-- The rounding of a policy makes a candidate, or finds a domain empty. -/
theorem tries_roundByPolicy (h : setup.IsSane p b eps share)
    (hpoint : setup.problem.FinitePoint point) {ws : Rounding.Workspace ExtRat}
    (hws : Rounding.AtRest b p ws) :
    (∃ candidate ws', roundByPolicy setup point ws = .ok candidate ws' ∧
      List.Forall₂ Variable.Takes (setup.problem.vars.filter (·.kind.isIntegral)) candidate) ∨
      ∃ e ws', roundByPolicy setup point ws = .error e ws' ∧ e.Emptied := by
  obtain ⟨x, rfl, hx⟩ := hpoint
  have hp := h.coherent
  cases hpolicy : setup.settings.rounding with
  | nearest =>
      obtain ⟨candidate, hround, htakes⟩ := exists_nearestPoint h.lists hp.inOrder hp.integral
        hp.ordered hx setup.settings.tieBreak setup.settings.toleranceEpsilon
      rw [roundByPolicy_of_nearest hpolicy, hround]
      exact .inl ⟨candidate, ws, rfl, htakes⟩
  | randomized =>
      obtain ⟨candidate, q, hround, htakes⟩ := exists_randomizedPoint h.lists hp.inOrder hp.few
        hp.integral hp.ordered hx setup.settings.toleranceEpsilon ws.progress
      rw [roundByPolicy_of_randomized hpolicy]
      exact .inl ⟨candidate, { ws with progress := q }, Act.zoom_of_ok hround, htakes⟩
  | propagation =>
      rw [roundByPolicy_of_propagation hpolicy, h.tolerance]
      exact Rounding.tries_propagatedPoint_of_proper h.lists hp.inOrder hp.few hp.integral hx
        h.small _ h.locks (hws.1 ▸ h.proper) ((h.works hpolicy).of_sameRows hws.2)

/-- With the nearest integers to fall back on, a rounding always makes a candidate. -/
theorem exists_roundOrNearest (h : setup.IsSane p b eps share)
    (hpoint : setup.problem.FinitePoint point) {ws : Rounding.Workspace ExtRat}
    (hws : Rounding.AtRest b p ws) :
    ∃ candidate ok ws', roundOrNearest setup point ws = .ok (candidate, ok) ws' ∧
      List.Forall₂ Variable.Takes (setup.problem.vars.filter (·.kind.isIntegral)) candidate := by
  have hp := h.coherent
  rcases tries_roundByPolicy h hpoint hws with
    ⟨candidate, ws', hround, htakes⟩ | ⟨e, ws', hround, j, lb, ub, rfl⟩
  · exact ⟨candidate, true, ws', by simp only [roundOrNearest, hround], htakes⟩
  · obtain ⟨x, rfl, hx⟩ := hpoint
    obtain ⟨candidate, hnearest, htakes⟩ := exists_nearestPoint h.lists hp.inOrder hp.integral
      hp.ordered hx setup.settings.tieBreak setup.settings.toleranceEpsilon
    exact ⟨candidate, false, ws', by simp only [roundOrNearest, hround, hnearest], htakes⟩

/-- No candidate is rejected. -/
theorem runs_round (h : setup.IsSane p b eps share) (hpoint : setup.problem.FinitePoint point) :
    Act.Runs (Steady setup p b) (World.round setup point) fun c w =>
      setup.Fits c.1 ∧ Steady setup p b w := by
  intro w hw
  obtain ⟨candidate, ok, ws, hround, htakes⟩ := exists_roundOrNearest h hpoint hw.rest
  have hall := round_of_ok hround
    (check_of_takes h.lists h.coherent.inOrder h.coherent.integral htakes)
  obtain ⟨-, -, g, hledger⟩ := round_eq_ok hall
  refine ⟨_, _, hall, ?_, (keeps_round p h.proper.ordered setup _).of_ok hw.rest hall, ?_⟩
  · rw [Setup.Fits, h.lists.numIntegers_eq, htakes.length_eq]
  · exact hw.tracks.drawn ⟨g, congrArg Ledger.progress hledger⟩

theorem runs_measure (h : setup.IsSane p b eps share) (hpoint : setup.problem.FinitePoint point)
    (hcandidate : setup.Fits candidate) :
    Act.Runs (Steady setup p b) (World.measure setup point candidate) fun d w =>
      Distance.measure setup.table setup.settings.toleranceEpsilon point candidate = .ok d ∧
        Steady setup p b w := by
  obtain ⟨d, hd⟩ := exists_measure h.lists h.coherent.inOrder setup.settings.toleranceEpsilon
    hpoint.length hcandidate
  exact Act.runs_ofExcept fun _ hw => ⟨d, hd, hd, hw⟩

end Rounding

section Converging

/-- A finite candidate leads to a finite point or to none. -/
theorem runs_feasiblePoint (h : setup.IsSane p b eps share)
    (hpoint : setup.problem.FinitePoint point) {c : List ℚ}
    (hc : c.length = setup.table.numIntegers) :
    Act.Runs (Steady setup p b) (feasiblePoint setup point (c.map fin)) fun r w =>
      (∀ full ∈ r, setup.problem.FinitePoint full) ∧ Steady setup p b w := by
  obtain ⟨x, rfl, hx⟩ := hpoint
  obtain ⟨y, hfull, hy⟩ := exists_fullPoint_fin h.lists h.coherent.inOrder hx hc
  have hnone : Act.Runs (Steady setup p b) (pure none : Act ExtRat (World ExtRat σ) _) fun r w =>
      (∀ full ∈ r, setup.problem.FinitePoint full) ∧ Steady setup p b w :=
    Act.runs_pure fun _ hw => ⟨fun _ hfull => (by cases hfull), hw⟩
  have hsome {z : List ℚ} (hz : z.length = setup.problem.vars.length) :
      Act.Runs (Steady setup p b) (pure (some (z.map fin)) : Act ExtRat (World ExtRat σ) _)
        fun r w => (∀ full ∈ r, setup.problem.FinitePoint full) ∧ Steady setup p b w := by
    refine Act.runs_pure fun _ hw => ⟨?_, hw⟩
    rintro _ ⟨⟩
    exact ⟨z, rfl, hz⟩
  obtain ⟨feasible, hfeasible⟩ : ∃ feasible, setup.problem.isFeasible
      setup.settings.toleranceEpsilon (y.map fin) = .ok feasible := exists_isFeasible h.coherent hy
  unfold feasiblePoint
  refine Act.runs_of_ok_bind hfull (Act.runs_of_ok_bind hfeasible ?_)
  split
  · exact hsome hy
  split
  · exact hnone
  refine Act.runs_bind (runs_solveFixed h hc) fun r => Act.runs_of_and fun hr => ?_
  cases r with
  | none => exact hnone
  | some full =>
      obtain ⟨z, rfl, hz⟩ := hr full rfl
      obtain ⟨feasible, hfeasible⟩ : ∃ feasible, setup.problem.isFeasible
          setup.settings.toleranceEpsilon (z.map fin) = .ok feasible :=
        exists_isFeasible h.coherent hz
      refine Act.runs_of_ok_bind hfeasible ?_
      split
      · exact hsome hz
      · exact hnone

/-- A record can be made of a finite point. -/
theorem runs_record (h : setup.IsSane p b eps share) (hpoint : setup.problem.FinitePoint point)
    (now : ExtRat) (phase : Phase) (d : Distance ExtRat) :
    Act.Runs (Steady setup p b) (record setup now phase d point) fun _ => Steady setup p b :=
  World.runs_record ignoresReports
    (exists_countFractional h.lists h.coherent.inOrder hpoint.length _) now phase d

/-- A candidate at distance zero can be tried: it is finite. -/
theorem runs_convergeIfZero (h : setup.IsSane p b eps share)
    (hpoint : setup.problem.FinitePoint point) (hcandidate : setup.Fits candidate)
    (hd : Distance.measure setup.table setup.settings.toleranceEpsilon point candidate = .ok d)
    (now : ExtRat) (ok : Bool) :
    Act.Runs (Steady setup p b) (convergeIfZero setup now point candidate ok d)
      fun _ => Steady setup p b := by
  unfold convergeIfZero
  split
  · rename_i hzero
    rw [Bool.and_eq_true] at hzero
    obtain ⟨c, rfl⟩ : ∃ c : List ℚ, candidate = c.map fin := by
      rw [h.tolerance] at hd
      exact exists_map_fin_of_isZero hcandidate hd hzero.2
    rw [Setup.Fits, List.length_map] at hcandidate
    unfold converge
    refine Act.runs_bind (runs_feasiblePoint h hpoint hcandidate) fun r =>
      Act.runs_of_and fun hr => ?_
    cases r with
    | none => exact Act.runs_pure fun _ hw => hw
    | some full =>
        obtain ⟨objective, hobjective⟩ := exists_objective (hr full rfl).length
        refine Act.runs_of_ok_bind hobjective (Act.runs_bind (Q := fun _ => Steady setup p b)
          (Act.runs_modify fun _ hw => ⟨hw.rest, hw.tracks⟩) fun _ => ?_)
        refine Act.runs_bind (runs_record h hpoint now _ d) fun _ =>
          Act.runs_bind runs_progress fun q => ?_
        have hend : Act.Runs (Steady setup p b)
            (some <$> outcome (.success full objective)) fun _ => Steady setup p b :=
          Act.runs_map (runs_outcome _) fun _ _ hw => hw
        split
        · exact Act.runs_bind (runs_print ignoresReports _) fun _ => hend
        · exact hend
  · exact Act.runs_pure fun _ hw => hw

end Converging

section Stages

/-- A candidate can be aimed at. -/
theorem runs_aimAt (h : setup.IsSane p b eps share) (hpoint : setup.problem.FinitePoint point)
    (hcandidate : setup.Fits candidate) (now : ExtRat) (phase : Phase) (d : Distance ExtRat) :
    Act.Runs (Steady setup p b) (aimAt setup now phase d point candidate) fun stage w =>
      setup.Ready stage ∧ Steady setup p b w :=
  Act.runs_bind (runs_modify fun _ hq => ⟨hq.count, hq.flips⟩) fun _ =>
    Act.runs_bind (runs_record h hpoint now phase d) fun _ =>
      Act.runs_pure fun _ hw => ⟨hcandidate, hw⟩

theorem runs_aimAtPerturbed (h : setup.IsSane p b eps share)
    (hpoint : setup.problem.FinitePoint point) (hcandidate : setup.Fits candidate) (now : ExtRat)
    (phase : Phase) :
    Act.Runs (Steady setup p b) (aimAtPerturbed setup now phase point candidate) fun stage w =>
      setup.Ready stage ∧ Steady setup p b w :=
  Act.runs_bind (runs_measure h hpoint hcandidate) fun d =>
    Act.runs_of_and fun _ => runs_aimAt h hpoint hcandidate now phase d

/-- A rounding becomes the next target, is perturbed, or leads to a restart. -/
theorem runs_escalate (h : setup.IsSane p b eps share) (hpoint : setup.problem.FinitePoint point)
    (hcandidate : setup.Fits candidate) (now : ExtRat) (d : Distance ExtRat) :
    Act.Runs (Steady setup p b) (escalate setup now d point candidate) fun stage w =>
      setup.Ready stage ∧ Steady setup p b w := by
  have hp := h.coherent
  unfold escalate
  refine Act.runs_bind (runs_modify fun _ hq => ⟨hq.count, hq.flips⟩) fun _ =>
    Act.runs_bind runs_progress fun q => ?_
  split
  · unfold World.perturb
    refine Act.runs_bind (runs_onProgress (C := fun m : Perturbed ExtRat => setup.Fits m.candidate)
      (Perturber.runs_perturb h.lists hp.inOrder hp.few h.shares h.share_le h.locks hpoint.length
        hcandidate)) fun moved => Act.runs_of_and fun hmoved => ?_
    exact Act.runs_bind (runs_modify fun _ hq => ⟨hq.count, hq.flips⟩) fun _ =>
      runs_aimAtPerturbed h hpoint hmoved now _
  · unfold World.restart
    refine Act.runs_bind runs_progress fun q => ?_
    split
    · exact Act.runs_bind (runs_record h hpoint now _ d) fun _ => runs_finished_fail _
    · refine Act.runs_bind (runs_modify fun q hq => ?_) fun _ => ?_
      · exact Progress.Tracks.reset (p := { q with restarts := q.restarts + 1 })
          ⟨hq.count, hq.flips⟩ _
      refine Act.runs_bind (runs_onProgress (C := fun m : Perturbed ExtRat => setup.Fits m.candidate)
        (Perturber.runs_restart h.lists hp.inOrder hp.few h.shares h.share_le h.locks
          hpoint.length hcandidate)) fun moved => Act.runs_of_and fun hmoved => ?_
      exact runs_aimAtPerturbed h hpoint hmoved now _

/-- The root leads to a target or to an outcome. -/
theorem runs_solveRoot (h : setup.IsSane p b eps share) (now : ExtRat) :
    Act.Runs (Steady setup p b) (solveRoot setup now) fun stage w =>
      setup.Ready stage ∧ Steady setup p b w := by
  unfold solveRoot
  refine Act.runs_bind (runs_solve h _) fun r => Act.runs_of_and fun hr => ?_
  cases r with
  | error reason => exact runs_finished_fail reason
  | ok point =>
      have hpoint := hr point rfl
      refine Act.runs_bind (runs_round h hpoint) fun c => Act.runs_of_and fun hc => ?_
      obtain ⟨candidate, ok⟩ := c
      refine Act.runs_bind (runs_measure h hpoint hc) fun d => Act.runs_of_and fun hd => ?_
      refine Act.runs_bind (runs_convergeIfZero h hpoint hc hd now ok) fun o => ?_
      cases o with
      | some o => exact Act.runs_pure fun _ hw => ⟨⟨o, rfl⟩, hw⟩
      | none =>
          exact Act.runs_bind (runs_modify fun _ hq => hq.recordDistance _ _) fun _ =>
            runs_aimAt h hpoint hc now _ d

/-- So does an iteration. -/
theorem runs_iterate (h : setup.IsSane p b eps share) {target : List ExtRat}
    (htarget : setup.Fits target) (now : ExtRat) :
    Act.Runs (Steady setup p b) (iterate setup now target) fun stage w =>
      setup.Ready stage ∧ Steady setup p b w := by
  unfold iterate
  refine Act.runs_bind (runs_modify fun _ hq => ⟨hq.count, hq.flips⟩) fun _ =>
    Act.runs_bind runs_progress fun q => ?_
  obtain ⟨goal, hgoal⟩ := exists_projection h.lists q.epoch.alpha htarget
  refine Act.runs_of_ok_bind hgoal (Act.runs_bind (runs_solve h goal) fun r =>
    Act.runs_of_and fun hr => ?_)
  cases r with
  | error reason => exact runs_finished_fail reason
  | ok point =>
      have hpoint := hr point rfl
      refine Act.runs_bind (runs_round h hpoint) fun c => Act.runs_of_and fun hc => ?_
      obtain ⟨candidate, ok⟩ := c
      refine Act.runs_bind (runs_measure h hpoint hc) fun d => Act.runs_of_and fun hd => ?_
      refine Act.runs_bind (runs_modify fun _ hq => hq.recordDistance _ _) fun _ => ?_
      refine Act.runs_bind (runs_convergeIfZero h hpoint hc hd now ok) fun o => ?_
      cases o with
      | some o => exact Act.runs_pure fun _ hw => ⟨⟨o, rfl⟩, hw⟩
      | none =>
          refine Act.runs_bind runs_progress fun q => ?_
          split
          · refine Act.runs_bind (runs_aimAt h hpoint hc now _ d) fun stage =>
              Act.runs_of_and fun hstage => ?_
            exact Act.runs_bind (runs_modify fun _ hq => ⟨hq.count, hq.flips⟩) fun _ =>
              Act.runs_pure fun _ hw => ⟨hstage, hw⟩
          · exact runs_escalate h hpoint hc now d

/-- **Every stage leads to a stage that is ready.** -/
theorem runs_act (h : setup.IsSane p b eps share) {stage : Stage ExtRat}
    (hstage : setup.Ready stage) (now : ExtRat) :
    Act.Runs (Steady setup p b) (act setup now stage) fun stage w =>
      setup.Ready stage ∧ Steady setup p b w := by
  cases stage with
  | opening =>
      refine Act.runs_get_bind fun w hw => Act.Runs.mono (P := Steady setup p b) ?_
        (fun _ heq => heq ▸ hw) fun _ _ h => h
      split
      · exact runs_finished_fail _
      split
      · exact runs_finished_fail _
      split
      · exact Act.runs_bind (runs_print ignoresReports _) fun _ =>
          Act.runs_pure fun _ hw => ⟨trivial, hw⟩
      · exact Act.runs_pure fun _ hw => ⟨trivial, hw⟩
  | root => exact runs_solveRoot h now
  | top target =>
      refine Act.runs_get_bind fun w hw => Act.Runs.mono (P := Steady setup p b) ?_
        (fun _ heq => heq ▸ hw) fun _ _ h => h
      split
      · exact runs_finished_fail _
      split
      · exact runs_finished_fail _
      · exact Act.runs_pure fun _ hw => ⟨hstage, hw⟩
  | projecting target => exact runs_iterate h hstage now
  | ended result => exact Act.runs_pure fun _ hw => ⟨hstage, hw⟩

/-- A step leads to a stage that is ready. -/
theorem step (h : setup.IsSane p b eps share) {w : World ExtRat σ} (hw : Steady setup p b w)
    (hstage : setup.Ready w.run.stage) (now : ExtRat) :
    setup.Ready (w.step setup now).run.stage ∧ Steady setup p b (w.step setup now) := by
  obtain ⟨stage, w', hact, hready, hsteady⟩ := runs_act h hstage now w hw
  have hstep : w.step setup now = w'.moveTo stage := by
    unfold World.step
    simp only [hact]
  rw [hstep]
  exact ⟨hready, hsteady.rest, hsteady.tracks⟩

/-- So do all steps. -/
theorem advance (h : setup.IsSane p b eps share) (clock : Nat → ExtRat) (fuel : Nat)
    {w : World ExtRat σ} (hw : Steady setup p b w) (hstage : setup.Ready w.run.stage) :
    setup.Ready (World.advance setup clock fuel w).run.stage := by
  induction fuel generalizing w with
  | zero => exact hstage
  | succ fuel ih =>
      unfold World.advance
      split
      · exact hstage
      · have hnext := hw.step h hstage (clock fuel)
        exact ih hnext.2 hnext.1

end Stages

end Steady

end World

section Preparation

/-- A progress begins with a seed that is not negative and a history that a machine word counts. -/
theorem Progress.exists_start {s : Settings ExtRat} (hseed : 0 ≤ s.randomSeed)
    (hpos : 0 < s.cycleHistorySize) (hfits : s.cycleHistorySize < Power.two 63) (n : Nat) :
    ∃ q, start s n = .ok q := by
  have hword : Word.fitsLong s.cycleHistorySize = true :=
    Word.fits_iff.mpr ⟨by omega, hfits⟩
  have hhistory : (History.ofCapacity s.cycleHistorySize : Except (Fault ExtRat) (History ExtRat)) =
      .ok { capacity := s.cycleHistorySize.toNat } := by
    unfold History.ofCapacity requireWord
    rw [if_pos hword, if_neg (by omega)]
    rfl
  unfold start
  rw [if_neg (by omega), hhistory]
  exact ⟨_, rfl⟩

theorem perturbationFraction_eq {requested : RequestedSettings ExtRat} {s : Settings ExtRat}
    (h : requested.toSettings = .ok s) :
    ∃ share : ℚ, s.perturbationFraction = fin share ∧ share ≤ 1 := by
  obtain ⟨hpos, hle⟩ := RequestedSettings.perturbationFraction_inside h
  obtain ⟨share, hshare⟩ := exists_fin_of_le (le_of_lt hpos) hle
  rw [hshare, one_eq, fin_le_fin] at hle
  exact ⟨share, hshare, hle⟩

end Preparation

namespace PumpTask

variable {task : PumpTask ExtRat σ} {setup : Setup ExtRat σ} {requested : RequestedSettings ExtRat}
  {started : ExtRat} {domain : Domain ExtRat} {oracle : σ} {run : Run ExtRat σ}

/-- The oracle raises no faults but refusals. -/
def RaisesRefusals (task : PumpTask ExtRat σ) : Prop :=
  ∀ s box goal e, (task.oracle s box goal).answer = .error e → e.IsRefusal

section Preparation

theorem exists_propagator (hp : task.problem.Coherent) {t : Table ExtRat}
    (h : t.Lists task.problem.vars) : ∃ q, task.propagator t = .ok q := by
  unfold propagator
  split
  · exact exists_build hp.rows (by rw [h.lb, List.length_map]) _ _ _ _
  · exact ⟨_, rfl⟩

/-- A run can be prepared. -/
theorem exists_launch (hsettings : requested.toSettings = .ok task.settings)
    (hseed : 0 ≤ task.settings.randomSeed)
    (hfits : task.settings.cycleHistorySize < Power.two 63) (hp : task.problem.Coherent)
    (started : ExtRat) (domain : Domain ExtRat) (oracle : σ) :
    ∃ setup run, task.launch started domain oracle = .ok (setup, run) := by
  obtain ⟨t, ht⟩ := Table.exists_ofVariables (inRange_of_inOrder hp.inOrder)
    (Progress.short_of_few hp.few)
  have h := Table.lists_of_ofVariables ht
  obtain ⟨progress, hprogress⟩ := Progress.exists_start hseed
    (RequestedSettings.cycleHistorySize_pos hsettings) hfits t.numIntegers
  obtain ⟨ranker, hranker⟩ := Ranker.exists_make h hp.rows task.settings.ranking
    task.settings.visitPenalty task.settings.toleranceEpsilon
  obtain ⟨propagator, hpropagator⟩ := exists_propagator hp h
  have hbegin : task.begin = .ok (t, progress) := by
    unfold begin
    rw [Act.exceptBind_of_ok ht, Act.exceptBind_of_ok hprogress]
    rfl
  unfold launch equip
  rw [Act.exceptBind_of_ok hbegin]
  dsimp only
  rw [Act.exceptBind_of_ok hranker, Act.exceptBind_of_ok hpropagator]
  exact ⟨_, _, rfl⟩

/-- A prepared run is sane. -/
theorem Launched.isSane (hl : task.Launched started domain oracle setup run)
    (hsettings : requested.toSettings = .ok task.settings) (hp : task.problem.Coherent)
    (hproper : domain.box.Proper task.problem.vars) (hfinite : task.AnswersFinite)
    (hrefusals : task.RaisesRefusals) :
    ∃ eps share, setup.IsSane run.workspace.propagator domain.box eps share := by
  obtain ⟨eps, heps, hpos, hsmall⟩ := toleranceEpsilon_eq hsettings
  obtain ⟨share, hshare, hle⟩ := perturbationFraction_eq hsettings
  obtain ⟨hpolicy, hlocks⟩ := Ranker.make_eq_ok hl.ranker
  refine ⟨eps, share, hl.problem ▸ hp, hl.problem ▸ hl.table, hl.problem ▸ hproper,
    hl.settings ▸ heps, hsmall, hl.settings ▸ hshare, hle, hpolicy ▸ hlocks, ?_, ?_, ?_⟩
  · intro hrounding
    have hpropagator := hl.propagator
    rw [hl.settings] at hrounding
    simp only [PumpTask.propagator, hrounding, heps] at hpropagator
    rw [hl.problem]
    have hthousandth : (defaultEpsilon : ExtRat) = fin (1 / 1000) := by decide +kernel
    exact works_of_build hpropagator (Progress.short_of_few hp.few)
      (by rw [hl.table.lb, List.length_map]) (by rw [hl.table.kinds, List.length_map])
      ⟨eps, rfl, le_of_lt hpos⟩ ⟨_, hthousandth, by norm_num⟩
  · rw [hl.problem, hl.asks]
    exact hfinite
  · rw [hl.asks]
    exact hrefusals

end Preparation

/-- **A run on sane input never stops with a fault.**  Under admitted settings with a seed that is
not negative and a history whose size fits a machine word, on a coherent problem, from bounds in
order inside those of the variables and with any oracle that answers with finite points or refuses,
whenever it likes, the run ends with a success or a failure.  This holds for all policies and at any
instants of its steps; there may be no integer variables, no rows, or fixed variables only. -/
theorem exists_outcome_of_coherent (hsettings : requested.toSettings = .ok task.settings)
    (hseed : 0 ≤ task.settings.randomSeed)
    (hfits : task.settings.cycleHistorySize < Power.two 63) (hp : task.problem.Coherent)
    (hwithin : domain.box.Within task.problem.vars) (hordered : domain.box.Ordered)
    (hfinite : task.AnswersFinite) (hrefusals : task.RaisesRefusals) (clock : Nat → ExtRat)
    (shared : Shared ExtRat) (oracle : σ) :
    ∃ o, (task.run clock shared domain oracle).result = .ok o := by
  obtain ⟨setup, run, hlaunch⟩ := exists_launch hsettings hseed hfits hp
    (clock (World.enoughSteps task.settings)) domain oracle
  have hl := launched_of_launch hlaunch
  obtain ⟨eps, share, h⟩ := hl.isSane hsettings hp ⟨hwithin, hordered⟩ hfinite hrefusals
  have hsteady : World.Steady setup run.workspace.propagator domain.box { shared, run } :=
    ⟨⟨hl.start.2.2.2 ▸ rfl, Propagator.SameRows.refl _⟩, Progress.Tracks.of_start hl.progress⟩
  have hready : setup.Ready run.stage := by
    rw [hl.start.1]
    exact trivial
  have hend := hsteady.advance h clock (World.enoughSteps task.settings) hready
  obtain ⟨result, hended⟩ : ∃ result, (World.advance setup clock
      (World.enoughSteps task.settings) { shared, run }).run.stage = .ended result :=
    run_ends (RequestedSettings.maxRestarts_nonneg hsettings) hlaunch
  rw [hended] at hend
  obtain ⟨o, rfl⟩ := hend
  rw [task.run_eq_of_launch clock shared hlaunch]
  exact ⟨o, report_eq_ok.mpr hended⟩

section Sample

/-- The sample problem with rounding by propagation and an oracle that gives up after the root. -/
def halfwayLost : PumpTask ExtRat Unit :=
  { halfway with
    settings := { rounding := .propagation }
    oracle := fun _ _ goal =>
      { answer :=
          if goal.objective = [fin (-1)] then .ok [fin (1 / 2)]
          else .error (.relaxationInfeasible none)
        next := () } }

theorem coherent_halfwayLost : halfwayLost.problem.Coherent where
  inOrder := rfl
  few := by decide +kernel
  ordered := by
    intro v hv
    rw [List.mem_singleton.mp hv]
    exact (fin_le_fin 0 1).mpr (by norm_num)
  integral := by
    intro v hv _
    rw [List.mem_singleton.mp hv]
    exact ⟨.inl ⟨0, rfl⟩, .inl ⟨1, rfl⟩⟩
  rows := ⟨fun row hrow => by rw [List.mem_singleton.mp hrow]; rfl, rfl, rfl⟩

theorem answersFinite_halfwayLost : halfwayLost.AnswersFinite := by
  intro s box goal point hanswer
  simp only [halfwayLost] at hanswer
  split at hanswer
  · cases hanswer
    exact ⟨[1 / 2], rfl, rfl⟩
  · cases hanswer

theorem raisesRefusals_halfwayLost : halfwayLost.RaisesRefusals := by
  intro s box goal e hanswer
  simp only [halfwayLost] at hanswer
  split at hanswer
  · cases hanswer
  · cases hanswer
    exact .inl ⟨none, rfl⟩

/-- The bounds of the sample problem. -/
def halfwayDomain : Domain ExtRat := ⟨⟨[fin 0], [fin 1]⟩, []⟩

theorem proper_halfwayDomain : halfwayDomain.box.Proper halfwayLost.problem.vars := by
  refine ⟨⟨?_, ?_⟩, ?_⟩
  · exact .cons ((fin_le_fin 0 0).mpr (le_refl 0)) .nil
  · exact .cons ((fin_le_fin 1 1).mpr (le_refl 1)) .nil
  · exact .cons (not_lt_of_between ((fin_le_fin 0 1).mpr (by norm_num))
      ((fin_le_fin 1 1).mpr (le_refl 1))) .nil

/-- The oracle gives up, and the run ends with a failure. -/
theorem exists_outcome_of_coherent_halfwayLost :
    halfwayLost.settings.requested.toSettings = .ok halfwayLost.settings ∧
      halfwayLost.problem.Coherent ∧ halfwayLost.AnswersFinite ∧ halfwayLost.RaisesRefusals ∧
      ∃ o, (halfwayLost.run (fun _ => fin 0) ⟨{}, none⟩ halfwayDomain ()).result = .ok o ∧
        o.ending = .failure .relaxationInfeasible := by
  have hsettings : halfwayLost.settings.requested.toSettings = .ok halfwayLost.settings :=
    Settings.toSettings_requested (by decide +kernel)
  obtain ⟨o, ho⟩ := exists_outcome_of_coherent hsettings (by decide) (by decide +kernel)
    coherent_halfwayLost proper_halfwayDomain.within proper_halfwayDomain.ordered
    answersFinite_halfwayLost raisesRefusals_halfwayLost (fun _ => fin 0) ⟨{}, none⟩ ()
  have hending : (halfwayLost.run (fun _ => fin 0) ⟨{}, none⟩ halfwayDomain
      ()).result.toOption.map (fun o => o.ending matches .failure .relaxationInfeasible) =
        some true := by decide +kernel
  rw [ho] at hending
  refine ⟨hsettings, coherent_halfwayLost, answersFinite_halfwayLost, raisesRefusals_halfwayLost, o,
    ho, ?_⟩
  have hfailure : (o.ending matches .failure .relaxationInfeasible) = true := Option.some.inj hending
  split at hfailure
  · assumption
  · cases hfailure

/-- A history may be too long for a machine word: the check of the settings admits its size, and the
run stops with a fault. -/
theorem result_of_endless_history :
    let task : PumpTask ExtRat Unit :=
      { halfwayLost with settings := { cycleHistorySize := Power.two 63 } }
    task.settings.requested.toSettings = .ok task.settings ∧ 0 ≤ task.settings.randomSeed ∧
      task.problem.Coherent ∧ halfwayDomain.box.Within task.problem.vars ∧
      halfwayDomain.box.Ordered ∧ task.AnswersFinite ∧ task.RaisesRefusals ∧
      (task.run (fun _ => fin 0) ⟨{}, none⟩ halfwayDomain ()).result = .error .integerTooLarge := by
  intro task
  have hsettings : task.settings.requested.toSettings = .ok task.settings :=
    Settings.toSettings_requested (by decide +kernel)
  refine ⟨hsettings, by decide, coherent_halfwayLost, proper_halfwayDomain.within,
    proper_halfwayDomain.ordered, answersFinite_halfwayLost, raisesRefusals_halfwayLost, ?_⟩
  have hbegin : task.begin = .error .integerTooLarge := rfl
  simp only [PumpTask.run, hbegin, notStarted]

end Sample

end PumpTask

end MipPump
