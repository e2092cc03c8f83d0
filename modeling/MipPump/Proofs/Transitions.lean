import MipPump.Proofs.Sightings

/-!
# Transitions of a run

One step looks at its surroundings (the oracle, the bounds in force, the signal to stop) and changes
stage and ledger.  `Transition` lists all that can happen, one constructor for each exit of the
stages, with everything the step checked on its way:

* `opening` ends the run or leads to `root`;
* `root` ends the run or leads to `top`;
* `top` ends the run or leads to `projecting`;
* `projecting` ends the run, or accepts, perturbs or restarts and leads back to `top`.

`step_transition` says that a step makes a transition unless it stops with a fault.  The worlds that
steps lead to are

* `Reachable setup start`, where the steps may be taken at any instants, and what is shared may
  change between them;
* `Visited setup clock steps start`, the worlds of one run by itself.
-/

namespace MipPump

section Definitions

variable {R σ : Type}

/-- What a step sees besides the ledger. -/
structure Surroundings (R σ : Type) where
  oracle : σ
  box : Box R
  /-- Whether the run has to stop. -/
  stops : Bool

variable [Arith R]

def World.surroundings (setup : Setup R σ) (now : R) (w : World R σ) : Surroundings R σ :=
  { oracle := w.run.oracle
    box := w.run.workspace.domain.box
    stops := isCancelled setup now w }

/-- The reply of the oracle to a goal. -/
def Surroundings.reply (env : Surroundings R σ) (setup : Setup R σ) (goal : Goal R) : Reply R σ :=
  setup.oracle env.oracle env.box goal

open World in
/-- All that a step can do to stage and ledger, unless it stops with a fault. -/
inductive Transition (setup : Setup R σ) (env : Surroundings R σ) :
    Stage R → Ledger R → Stage R → Ledger R → Prop
  | notAllowed {a : Ledger R} (h : setup.settings.maxIterations ≤ 0) :
      Transition setup env .opening a (finished (a.outcome (.failure .iterationLimit))) a
  | notStarted {a : Ledger R} (h : 0 < setup.settings.maxIterations) (stop : env.stops = true) :
      Transition setup env .opening a (finished (a.outcome (.failure .cancelled))) a
  | opened {a : Ledger R} (h : 0 < setup.settings.maxIterations) (go : env.stops = false) :
      Transition setup env .opening a .root a
  | rootFailed {a : Ledger R} {reason : FailureReason}
      (refused : (env.reply setup (Goal.ofCost setup.table)).Refuses reason) :
      Transition setup env .root a (finished (a.outcome (.failure reason))) a
  | rootConverged {a b : Ledger R} {g : Random.Generator} {point candidate full : List R}
      {objective : R} {d : Distance R} {k : Nat}
      (measured : setup.Measured (env.reply setup (Goal.ofCost setup.table)) point candidate d)
      (zero : d.isZero = true) (solves : setup.Solves candidate full)
      (cost : setup.problem.objective full = .ok objective)
      (hb : b = ((a.draw g).offer ⟨full, objective, setup.name⟩).note .converged d k) :
      Transition setup env .root a (finished (b.outcome (.success full objective))) b
  | rootRounded {a : Ledger R} {g : Random.Generator} {point candidate : List R} {d : Distance R}
      {k : Nat}
      (measured : setup.Measured (env.reply setup (Goal.ofCost setup.table)) point candidate d) :
      Transition setup env .root a (.top candidate)
        ((((a.draw g).measure setup.settings.toleranceEpsilon d).onProgress
          (Progress.remember candidate)).note .init d k)
  | exhausted {a : Ledger R} {target : List R}
      (h : setup.settings.maxIterations ≤ a.progress.iteration) :
      Transition setup env (.top target) a (finished (a.outcome (.failure .iterationLimit))) a
  | stopped {a : Ledger R} {target : List R}
      (h : a.progress.iteration < setup.settings.maxIterations) (stop : env.stops = true) :
      Transition setup env (.top target) a (finished (a.outcome (.failure .cancelled))) a
  | resumed {a : Ledger R} {target : List R}
      (h : a.progress.iteration < setup.settings.maxIterations) (go : env.stops = false) :
      Transition setup env (.top target) a (.projecting target) a
  | failed {a : Ledger R} {target : List R} {goal : Goal R} {reason : FailureReason}
      (aim : Goal.projection setup.table a.progress.epoch.alpha target = .ok goal)
      (refused : (env.reply setup goal).Refuses reason) :
      Transition setup env (.projecting target) a
        (finished (a.begin.outcome (.failure reason))) a.begin
  | converged {a b : Ledger R} {target : List R} {goal : Goal R} {g : Random.Generator}
      {point candidate full : List R} {objective : R} {d : Distance R} {k : Nat}
      (aim : Goal.projection setup.table a.progress.epoch.alpha target = .ok goal)
      (measured : setup.Measured (env.reply setup goal) point candidate d)
      (zero : d.isZero = true) (solves : setup.Solves candidate full)
      (cost : setup.problem.objective full = .ok objective)
      (hb : b = ((a.measured setup g d).offer ⟨full, objective, setup.name⟩).note .converged d k) :
      Transition setup env (.projecting target) a (finished (b.outcome (.success full objective))) b
  | accepted {a b : Ledger R} {target : List R} {goal : Goal R} {g : Random.Generator}
      {point candidate : List R} {d : Distance R} {k : Nat}
      (aim : Goal.projection setup.table a.progress.epoch.alpha target = .ok goal)
      (measured : setup.Measured (env.reply setup goal) point candidate d)
      (hb : b = a.measured setup g d)
      (nonzero : d.isZero = false) (fresh : b.progress.hasCycled setup.settings candidate = false)
      (moving : b.progress.isStalled setup.settings = false) :
      Transition setup env (.projecting target) a (.top candidate)
        (((b.onProgress (Progress.remember candidate)).note .measuring d k).onProgress
          (Progress.advanceAlpha setup.settings))
  | perturbed {a b : Ledger R} {target : List R} {goal : Goal R} {g : Random.Generator}
      {point candidate : List R} {d d' : Distance R} {moved : Perturbed R} {p : Progress R}
      {k : Nat}
      (aim : Goal.projection setup.table a.progress.epoch.alpha target = .ok goal)
      (measured : setup.Measured (env.reply setup goal) point candidate d)
      (hb : b = (a.measured setup g d).stalled)
      (patient : b.progress.epoch.stallCounter ≤ setup.settings.stallCeiling)
      (move : Perturber.perturb setup.settings setup.table setup.ranker point candidate b.progress
        = .ok moved p) :
      Transition setup env (.projecting target) a (.top moved.candidate)
        (({ b with progress := (p.advanceAlpha setup.settings).remember moved.candidate }).note
          .perturbing d' k)
  | stalledOut {a b : Ledger R} {target : List R} {goal : Goal R} {g : Random.Generator}
      {point candidate : List R} {d : Distance R} {k : Nat}
      (aim : Goal.projection setup.table a.progress.epoch.alpha target = .ok goal)
      (measured : setup.Measured (env.reply setup goal) point candidate d)
      (hb : b = (a.measured setup g d).stalled.note .stalledOut d k)
      (impatient : setup.settings.stallCeiling < b.progress.epoch.stallCounter)
      (spent : setup.settings.maxRestarts ≤ b.progress.restarts) :
      Transition setup env (.projecting target) a
        (finished (b.outcome (.failure .maxRestartsExceeded))) b
  | restarted {a b : Ledger R} {target : List R} {goal : Goal R} {g : Random.Generator}
      {point candidate : List R} {d d' : Distance R} {moved : Perturbed R} {p : Progress R}
      {k : Nat}
      (aim : Goal.projection setup.table a.progress.epoch.alpha target = .ok goal)
      (measured : setup.Measured (env.reply setup goal) point candidate d)
      (hb : b = (a.measured setup g d).stalled)
      (impatient : setup.settings.stallCeiling < b.progress.epoch.stallCounter)
      (left : b.progress.restarts < setup.settings.maxRestarts)
      (move : Perturber.restart setup.settings setup.table setup.ranker point candidate
        (b.renewed setup).progress = .ok moved p) :
      Transition setup env (.projecting target) a (.top moved.candidate)
        (({ b with progress := p.remember moved.candidate }).note .restarting d' k)
  | stays {a : Ledger R} {result : Except (Fault R) (Outcome R)} :
      Transition setup env (.ended result) a (.ended result) a

end Definitions

namespace World

variable {R σ : Type} [Arith R] {setup : Setup R σ} {now : R} {w w' : World R σ} {stage : Stage R}

section Openings

theorem openRun_transition (h : openRun setup now w = .ok stage w') :
    Transition setup (w.surroundings setup now) .opening w.ledger stage w'.ledger := by
  unfold openRun at h
  rw [Act.bind_of_ok (Act.get_apply w)] at h
  split at h
  · rename_i hmax
    obtain ⟨rfl, hw⟩ := finished_fail_eq_ok h
    rw [hw]
    exact .notAllowed hmax
  · rename_i hmax
    have hpos : 0 < setup.settings.maxIterations := by omega
    split at h
    · rename_i hstop
      obtain ⟨rfl, hw⟩ := finished_fail_eq_ok h
      rw [hw]
      exact .notStarted hpos hstop
    · rename_i hgo
      have hroot : stage = .root ∧ w'.ledger = w.ledger := by
        dsimp only at h
        split at h
        · obtain ⟨_, w₁, hprint, h⟩ := Act.bind_eq_ok.mp h
          cases h
          exact ⟨rfl, print_eq_ok hprint⟩
        · cases h
          exact ⟨rfl, rfl⟩
      obtain ⟨rfl, hw⟩ := hroot
      rw [hw]
      exact .opened hpos (Bool.eq_false_iff.mpr hgo)

/-- The opening leaves to the root what it found. -/
theorem openRun_eq_root (h : openRun setup now w = .ok .root w') :
    w'.run.oracle = w.run.oracle ∧ w'.run.workspace = w.run.workspace := by
  unfold openRun at h
  rw [Act.bind_of_ok (Act.get_apply w)] at h
  split at h
  · cases (finished_fail_eq_ok h).1
  · split at h
    · cases (finished_fail_eq_ok h).1
    · dsimp only at h
      split at h
      · obtain ⟨_, w₁, hprint, h⟩ := Act.bind_eq_ok.mp h
        cases h
        cases hprint
        exact ⟨rfl, rfl⟩
      · cases h
        exact ⟨rfl, rfl⟩

theorem pause_transition {target : List R} (h : pause setup now target w = .ok stage w') :
    Transition setup (w.surroundings setup now) (.top target) w.ledger stage w'.ledger := by
  unfold pause at h
  rw [Act.bind_of_ok (Act.get_apply w)] at h
  split at h
  · rename_i hmax
    obtain ⟨rfl, hw⟩ := finished_fail_eq_ok h
    rw [hw]
    exact .exhausted hmax
  · rename_i hmax
    have hleft : w.ledger.progress.iteration < setup.settings.maxIterations := Int.not_le.mp hmax
    split at h
    · rename_i hstop
      obtain ⟨rfl, hw⟩ := finished_fail_eq_ok h
      rw [hw]
      exact .stopped hleft hstop
    · rename_i hgo
      cases h
      exact .resumed hleft (Bool.eq_false_iff.mpr hgo)

/-- A pause that lets the run go on changes nothing. -/
theorem pause_eq_projecting {target next : List R}
    (h : pause setup now target w = .ok (.projecting next) w') : w = w' := by
  unfold pause at h
  rw [Act.bind_of_ok (Act.get_apply w)] at h
  split at h
  · cases (finished_fail_eq_ok h).1
  · split at h
    · cases (finished_fail_eq_ok h).1
    · cases h
      rfl

end Openings

section Roots

theorem solveRoot_transition (h : solveRoot setup now w = .ok stage w') :
    Transition setup (w.surroundings setup now) .root w.ledger stage w'.ledger := by
  rcases solveRoot_eq_ok h with ⟨reason, hrefused, rfl, hw⟩ | ⟨s, g, phase, hgoal, hshows, hd⟩
  · rw [hw]
    exact .rootFailed hrefused
  · have hm : setup.Measured ((w.surroundings setup now).reply setup (Goal.ofCost setup.table))
        s.point s.candidate s.distance := hgoal ▸ hshows.toMeasured
    cases hd with
    | converged ok zero solves cost ledger next =>
        rw [next]
        exact .rootConverged hm zero solves cost ledger
    | rooted root ledger next =>
        rw [ledger, next]
        exact .rootRounded hm
    | accepted later | perturbed later | stalledOut later | restarted later =>
        exact absurd rfl later

end Roots

section Iterations

/-- An iteration makes a transition: it ends the run or leads to the next target. -/
theorem iterate_transition {target : List R} (h : iterate setup now target w = .ok stage w') :
    Transition setup (w.surroundings setup now) (.projecting target) w.ledger stage w'.ledger := by
  obtain ⟨goal, aim, ⟨reason, hrefused, rfl, hw⟩ | ⟨s, g, phase, hgoal, hshows, hd⟩⟩ := iterate_eq_ok h
  · rw [hw]
    exact .failed aim hrefused
  · have hm : setup.Measured ((w.surroundings setup now).reply setup goal) s.point s.candidate
        s.distance := hgoal ▸ hshows.toMeasured
    cases hd with
    | converged ok zero solves cost ledger next =>
        rw [next]
        exact .converged aim hm zero solves cost ledger
    | rooted root => cases root
    | accepted later fresh ledger next =>
        rw [ledger, next]
        simp only [Sighting.isFresh, Bool.and_eq_true, Bool.not_eq_true'] at fresh
        exact .accepted aim hm rfl fresh.1.1.2 fresh.1.2 fresh.2
    | perturbed later stale patient move ledger next =>
        rw [ledger, next]
        exact .perturbed (b := (w.ledger.measured setup g s.distance).stalled) aim hm rfl patient move
    | stalledOut later stale impatient spent ledger next =>
        rw [next]
        exact .stalledOut aim hm ledger (by rw [ledger]; exact impatient) (by rw [ledger]; exact spent)
    | restarted later stale impatient left move ledger next =>
        rw [ledger, next]
        exact .restarted (b := (w.ledger.measured setup g s.distance).stalled) aim hm rfl impatient
          left move

end Iterations

section Steps

theorem act_transition {now : R} {stage next : Stage R} (h : act setup now stage w = .ok next w') :
    Transition setup (w.surroundings setup now) stage w.ledger next w'.ledger := by
  cases stage with
  | opening => exact openRun_transition h
  | root => exact solveRoot_transition h
  | top target => exact pause_transition h
  | projecting target => exact iterate_transition h
  | ended result =>
      cases h
      exact .stays

/-- A step stops with a fault or makes a transition. -/
theorem step_transition (setup : Setup R σ) (now : R) (w : World R σ) :
    (∃ e, (w.step setup now).run.stage = .ended (.error e)) ∨
      Transition setup (w.surroundings setup now) w.run.stage w.ledger
        (w.step setup now).run.stage (w.step setup now).ledger := by
  unfold step
  cases h : act setup now w.run.stage w with
  | ok next w' =>
      right
      rw [stage_moveTo, ledger_moveTo]
      exact act_transition h
  | error e w' => exact Or.inl ⟨e, rfl⟩

theorem step_of_opening {now : R} (hw : w.run.stage = .opening)
    (hroot : (w.step setup now).run.stage = .root) :
    (w.step setup now).run.oracle = w.run.oracle ∧
      (w.step setup now).run.workspace = w.run.workspace := by
  unfold step at hroot ⊢
  rw [hw] at hroot ⊢
  cases h : act setup now .opening w with
  | ok stage w' =>
      rw [h] at hroot
      cases hroot
      have hopen : openRun setup now w = .ok .root w' := h
      obtain ⟨horacle, hworkspace⟩ := openRun_eq_root hopen
      exact ⟨horacle, hworkspace⟩
  | error e w' =>
      rw [h] at hroot
      cases hroot

end Steps

section Reachability

/-- The worlds that steps lead to.  Each step is taken at an instant of its own, and other runs may
have changed what is shared. -/
inductive Reachable (setup : Setup R σ) (start : World R σ) : World R σ → Prop
  | start : Reachable setup start start
  | step {w : World R σ} (h : Reachable setup start w) (shared : Shared R) (now : R) :
      Reachable setup start (({ w with shared }).step setup now)

/-- The worlds that a run goes through by itself, with the number of steps it has left. -/
inductive Visited (setup : Setup R σ) (clock : Nat → R) (steps : Nat) (start : World R σ) :
    Nat → World R σ → Prop
  | start : Visited setup clock steps start steps start
  | step {k : Nat} {w : World R σ} (h : Visited setup clock steps start (k + 1) w)
      (going : ∀ result, w.run.stage ≠ .ended result) :
      Visited setup clock steps start k (w.step setup (clock k))

variable {start : World R σ} {clock : Nat → R} {steps k : Nat}

theorem Visited.reachable (h : Visited setup clock steps start k w) :
    Reachable setup start w := by
  induction h with
  | start => exact .start
  | step h going ih => exact .step ih _ _

/-- A property of stage and ledger that transitions preserve holds of all visited worlds. -/
theorem Visited.induct {I : Stage R → Ledger R → Prop} (hstart : I start.run.stage start.ledger)
    (hfault : ∀ e a, I (.ended (.error e)) a)
    (hstep : ∀ env stage a stage' a', I stage a → Transition setup env stage a stage' a' →
      I stage' a') (h : Visited setup clock steps start k w) : I w.run.stage w.ledger := by
  induction h with
  | start => exact hstart
  | @step k w h going ih =>
      rcases step_transition setup (clock k) w with ⟨e, he⟩ | htransition
      · rw [he]
        exact hfault e _
      · exact hstep _ _ _ _ _ ih htransition

/-- The same for reachable worlds, if the property does not look at the store. -/
theorem Reachable.induct {I : Stage R → Ledger R → Prop} (hstart : I start.run.stage start.ledger)
    (hstore : ∀ stage a store, I stage a → I stage { a with store })
    (hfault : ∀ e a, I (.ended (.error e)) a)
    (hstep : ∀ env stage a stage' a', I stage a → Transition setup env stage a stage' a' →
      I stage' a') (h : Reachable setup start w) : I w.run.stage w.ledger := by
  induction h with
  | start => exact hstart
  | @step w h shared now ih =>
      have hshared : I w.run.stage ({ w with shared }).ledger := hstore _ _ shared.store ih
      rcases step_transition setup now { w with shared } with ⟨e, he⟩ | htransition
      · rw [he]
        exact hfault e _
      · exact hstep _ _ _ _ _ hshared htransition

/-- A run that has ended took its last step from a world that it had visited before. -/
theorem Visited.last {result : Except (Fault R) (Outcome R)}
    (h : Visited setup clock steps start k w) (hw : w.run.stage = .ended result)
    (hstart : ∀ result, start.run.stage ≠ .ended result) :
    ∃ v, Visited setup clock steps start (k + 1) v ∧ (∀ result, v.run.stage ≠ .ended result) ∧
      w = v.step setup (clock k) := by
  cases h with
  | start => exact absurd hw (hstart result)
  | step h going => exact ⟨_, h, going, rfl⟩

theorem advance_of_ended {fuel : Nat} {result : Except (Fault R) (Outcome R)}
    (h : w.run.stage = .ended result) : World.advance setup clock fuel w = w := by
  cases fuel with
  | zero => rfl
  | succ fuel => rw [World.advance.eq_2, h]

theorem advance_of_going {fuel : Nat} (h : ∀ result, w.run.stage ≠ .ended result) :
    World.advance setup clock (fuel + 1) w =
      World.advance setup clock fuel (w.step setup (clock fuel)) := by
  rw [World.advance.eq_2]
  cases hs : w.run.stage with
  | ended result => exact absurd hs (h result)
  | _ => rfl

/-- The world that a run comes to is the same from all worlds on its way. -/
theorem Visited.advance_eq (h : Visited setup clock steps start k w) :
    World.advance setup clock k w = World.advance setup clock steps start := by
  induction h with
  | start => rfl
  | step h going ih => rw [← ih, advance_of_going going]

/-- A run comes to a visited world, and stops there only if it has ended or has no step left. -/
theorem Visited.advance {fuel : Nat} (h : Visited setup clock steps start fuel w) :
    ∃ k, Visited setup clock steps start k (World.advance setup clock fuel w) ∧
      (k = 0 ∨ ∃ result, (World.advance setup clock fuel w).run.stage = .ended result) := by
  induction fuel generalizing w with
  | zero => exact ⟨0, h, Or.inl rfl⟩
  | succ fuel ih =>
      by_cases hw : ∃ result, w.run.stage = .ended result
      · obtain ⟨result, hw⟩ := hw
        rw [advance_of_ended hw]
        exact ⟨fuel + 1, h, Or.inr ⟨result, hw⟩⟩
      · have going : ∀ result, w.run.stage ≠ .ended result := not_exists.mp hw
        rw [advance_of_going going]
        exact ih (.step h going)

theorem visited_final (setup : Setup R σ) (clock : Nat → R) (steps : Nat) (start : World R σ) :
    ∃ k, Visited setup clock steps start k (World.advance setup clock steps start) ∧
      (k = 0 ∨ ∃ result, (World.advance setup clock steps start).run.stage = .ended result) :=
  Visited.advance .start

end Reachability

end World

end MipPump
