import MipPump.Proofs.Launches
import MipPump.Proofs.Lockstep
import MipPump.Proofs.Transitions

/-!
# Twin runs

Two runs of one task are twins if they differ in the store, in the lines they have printed and in the
instant at which they started.  A run looks at none of these, so twins take the same steps, except
where they look at the signal to stop.

* `Twins tokens tokens' w v`: the worlds `w` and `v` of twins, whose tokens are the given ones.
* `Twins.pace`, `Twins.asks`: in each part of a step twins answer alike and are twins afterwards.
* `Twins.step`: twins are twins after a step, and in the same stage, unless one of them was told to
  stop and ended with the trace that it had.
-/

namespace MipPump

section Definitions

variable {R σ : Type}

/-- The oracle never tells the runs to stop. -/
def Oracle.Silent (oracle : Oracle R σ) : Prop :=
  ∀ s box goal, (oracle s box goal).cancels = false

variable [Arith R]

/-- The same setup for a run that starts at another instant. -/
def Setup.startedAt (setup : Setup R σ) (started : R) : Setup R σ := { setup with started }

/-- The worlds of two runs that differ in what is shared and in the printed lines only. -/
structure World.Twins (token token' : Option (Token R)) (w v : World R σ) : Prop where
  workspace : w.run.workspace = v.run.workspace
  oracle : w.run.oracle = v.run.oracle
  trace : w.run.trace = v.run.trace
  token_eq : w.shared.token = token
  token_eq' : v.shared.token = token'

end Definitions

namespace World

open Act

variable {R σ : Type} {token token' : Option (Token R)}

section Parts

theorem agree_onWorkspace {α : Type} (act : Act R (Rounding.Workspace R) α) :
    Agree (Twins (σ := σ) token token') (onWorkspace act) (onWorkspace act) := by
  refine agree_zoom (agree_refl act) (fun w v h => h.workspace) ?_
  intro w v x y h hxy
  exact { h with workspace := hxy }

/-- Twins may print different lines. -/
theorem agree_print (line line' : Line R) :
    Agree (Twins (σ := σ) token token') (print line) (print line') :=
  agree_modify fun _ _ h => { h with }

end Parts

variable [Arith R] {setup : Setup R σ} (started now now' : R)

section Leaves

theorem agree_record (phase : Phase) (distance : Distance R) (point : List R) :
    Agree (Twins token token') (record (setup.startedAt started) now phase distance point)
      (record setup now' phase distance point) := by
  refine agree_get_bind fun w v h => ?_
  dsimp only
  rw [h.workspace]
  refine agree_bind (agree_ofExcept _) fun k => ?_
  refine agree_bind (agree_modify ?_) fun _ => agree_ite (agree_print _ _) (agree_pure _)
  intro w v h
  exact { h with trace := congrArg (· ++ _) h.trace }

/-- Twins ask the same question in the same state of the oracle. -/
theorem agree_ask (hsilent : setup.oracle.Silent) (box : Box R) (goal : Goal R) :
    Agree (Twins token token') (ask (setup.startedAt started) box goal) (ask setup box goal) := by
  intro w v h
  have hreplied : Twins token token' (w.replied (setup.oracle v.run.oracle box goal))
      (v.replied (setup.oracle v.run.oracle box goal)) := by
    unfold replied
    rw [hsilent]
    exact { h with oracle := rfl }
  cases hanswer : (setup.oracle v.run.oracle box goal).answer with
  | ok x =>
      have hv := ask_of_ok hanswer
      have hw : ask (setup.startedAt started) box goal w =
          .ok x (w.replied (setup.oracle v.run.oracle box goal)) := by
        rw [← h.oracle] at hanswer ⊢
        exact ask_of_ok hanswer
      rw [split_of_ok hw, split_of_ok hv, after_of_ok hw, after_of_ok hv]
      exact ⟨rfl, hreplied⟩
  | error e =>
      have hv := ask_of_error hanswer
      have hw : ask (setup.startedAt started) box goal w =
          .error e (w.replied (setup.oracle v.run.oracle box goal)) := by
        rw [← h.oracle] at hanswer ⊢
        exact ask_of_error hanswer
      rw [split_of_error hw, split_of_error hv, after_of_error hw, after_of_error hv]
      exact ⟨rfl, hreplied⟩

theorem alike_startedAt (setup : Setup R σ) : (setup.startedAt started).Alike setup :=
  ⟨setup.oracle, setup.settings.randomSeed, setup.started, rfl⟩

theorem Twins.pace : Pace (Twins token token') (setup.startedAt started) setup now now' where
  alike := alike_startedAt started setup
  progress h := ⟨_, congrArg (·.progress) h.workspace.symm⟩
  trace h := h.trace.symm
  edit _ := agree_onWorkspace _
  print line := agree_print line line
  record := agree_record started now now'
  perturb _ _ := agree_onWorkspace _
  restart _ _ := agree_onWorkspace _

theorem Twins.asks (hsilent : setup.oracle.Silent) :
    Asks (Twins token token') (setup.startedAt started) setup where
  solve := agree_solve (fun h => congrArg (·.domain) h.workspace.symm) (agree_ask started hsilent)
  solveFixed := agree_solveFixed (fun h => congrArg (·.domain) h.workspace.symm)
    (agree_ask started hsilent) (alike_startedAt started setup)
    fun _ h => { h with workspace := by dsimp only; rw [h.workspace] }
  round _ := agree_bind (agree_onWorkspace _) fun _ => agree_bind (agree_ofExcept _) fun _ =>
    agree_pure _
  -- the stores may differ, so that an offer may have different effects
  offer _ h := { h with }

end Leaves

section Stages

/-- A look at the signal to stop, which comes after a look at the number of iterations. -/
def poll (setup : Setup R σ) (exhausted stop : Bool) (next : Act R (World R σ) (Stage R)) :
    Act R (World R σ) (Stage R) :=
  if exhausted then finished <$> fail setup .iterationLimit
  else if stop then finished <$> fail setup .cancelled
  else next

/-- A run looks at the signal before the root. -/
theorem openRun_eq_poll (setup : Setup R σ) (now : R) (w : World R σ) :
    openRun setup now w =
      poll setup (decide (setup.settings.maxIterations ≤ 0)) (isCancelled setup now w)
        (do
          if setup.settings.verbose then
            print (.header setup.table.numVars setup.table.numIntegers)
          pure .root) w := by
  unfold poll
  simp only [decide_eq_true_eq]
  rfl

/-- A run looks at the signal between two iterations. -/
theorem pause_eq_poll (setup : Setup R σ) (now : R) (target : List R) (w : World R σ) :
    pause setup now target w =
      poll setup (decide (setup.settings.maxIterations ≤ w.run.workspace.progress.iteration))
        (isCancelled setup now w) (pure (.projecting target)) w := by
  unfold poll
  simp only [decide_eq_true_eq]
  rfl

/-- A failure is reported in every world. -/
theorem finished_fail (setup : Setup R σ) (reason : FailureReason) (w : World R σ) :
    ∃ w', (finished <$> fail setup reason) w =
      .ok (finished (w.ledger.outcome (.failure reason))) w' ∧ w'.shared = w.shared := by
  unfold fail
  cases hverbose : setup.settings.verbose with
  | true => exact ⟨_, rfl, rfl⟩
  | false => exact ⟨_, rfl, rfl⟩

end Stages

section Steps

variable {w v : World R σ} {now'}

/-- Two actions of twins answer alike, or the first run was told to stop and ends with the trace that
it has. -/
def AgreeOrStop (token token' : Option (Token R)) (stop : Bool)
    (act other : Act R (World R σ) (Stage R)) (w v : World R σ) : Prop :=
  ((split act w).1 = (split other v).1 ∧ Twins token token' (after act w) (after other v)) ∨
    stop = true ∧ (after act w).shared.token = token ∧
      ∃ o, (split act w).1 = .ok (.ended (.ok o)) ∧ o.ending = .failure .cancelled ∧
        o.trace = v.run.trace

/-- Twins of which only the first may be told to stop look at the signal. -/
theorem Twins.poll (setup : Setup R σ) {next next' : Act R (World R σ) (Stage R)} (exhausted stop : Bool)
    (h : Twins token token' w v) (hnext : Agree (Twins token token') next next') :
    AgreeOrStop token token' stop (poll (setup.startedAt started) exhausted stop next)
      (poll setup exhausted false next') w v := by
  cases exhausted with
  | true => exact .inl ((Twins.pace started started started).finished_fail _ w v h)
  | false =>
      cases stop with
      | false => exact .inl (hnext w v h)
      | true =>
          obtain ⟨w', hw', hshared⟩ := finished_fail (setup.startedAt started) .cancelled w
          have hpoll : World.poll (setup.startedAt started) false true next w = _ := hw'
          unfold AgreeOrStop
          rw [split_of_ok hpoll, after_of_ok hpoll, hshared]
          exact .inr ⟨rfl, h.token_eq, _, rfl, rfl, h.trace⟩

/-- Twins of which only the first may be told to stop do the same in every stage, or the first one
stops. -/
theorem Twins.act (hsilent : setup.oracle.Silent) (h : Twins token token' w v)
    (go : isCancelled setup now' v = false) (stage : Stage R) :
    AgreeOrStop token token' (isCancelled (setup.startedAt started) now w)
      (act (setup.startedAt started) now stage) (act setup now' stage) w v := by
  cases stage with
  | opening =>
      have hpoll := h.poll started setup
        (decide (setup.settings.maxIterations ≤ 0))
        (isCancelled (setup.startedAt started) now w)
        (agree_ite (c := setup.settings.verbose = true)
          (agree_bind (agree_print (.header setup.table.numVars setup.table.numIntegers)
            (.header setup.table.numVars setup.table.numIntegers)) fun _ =>
              agree_pure (.root : Stage R))
          (agree_pure .root))
      simp only [World.act, AgreeOrStop, split, after, openRun_eq_poll, go]
      exact hpoll
  | root => exact .inl ((Twins.pace started now now').solveRoot (asks started hsilent) w v h)
  | top target =>
      have hpoll := h.poll started setup
        (decide (setup.settings.maxIterations ≤ v.run.workspace.progress.iteration))
        (isCancelled (setup.startedAt started) now w) (agree_pure (.projecting target : Stage R))
      simp only [World.act, AgreeOrStop, split, after, pause_eq_poll, go, h.workspace]
      exact hpoll
  | projecting target =>
      exact .inl ((Twins.pace started now now').iterate (asks started hsilent) target w v h)
  | ended result => exact .inl (agree_pure _ w v h)

/-- Twins in the same stage, of which only the first may be told to stop, are twins in the same stage
after a step, or the first one has ended with the trace that it had. -/
theorem Twins.step (hsilent : setup.oracle.Silent) (h : Twins token token' w v)
    (hstage : w.run.stage = v.run.stage) (go : isCancelled setup now' v = false) :
    (Twins token token' (w.step (setup.startedAt started) now) (v.step setup now') ∧
      (w.step (setup.startedAt started) now).run.stage = (v.step setup now').run.stage) ∨
    isCancelled (setup.startedAt started) now w = true ∧
      (w.step (setup.startedAt started) now).shared.token = token ∧
      ∃ o, (w.step (setup.startedAt started) now).run.stage = .ended (.ok o) ∧
        o.ending = .failure .cancelled ∧ o.trace = v.run.trace := by
  rw [step_eq_moveTo, step_eq_moveTo, hstage]
  rcases h.act started now hsilent go v.run.stage with
    ⟨hanswer, htwins⟩ | ⟨stop, htoken, o, hanswer, ho⟩
  · rw [hanswer]
    exact .inl ⟨{ htwins with }, rfl⟩
  · rw [hanswer]
    exact .inr ⟨stop, htoken, o, rfl, ho⟩

end Steps

end World

/-- A run may be prepared at another instant. -/
theorem PumpTask.launch_startedAt {R σ : Type} [Arith R] {task : PumpTask R σ} {domain : Domain R}
    {oracle : σ} {setup : Setup R σ} {run : Run R σ} {earlier : R}
    (h : task.launch earlier domain oracle = .ok (setup, run)) (started : R) :
    task.launch started domain oracle = .ok (setup.startedAt started, run) := by
  unfold launch at h ⊢
  obtain ⟨⟨table, progress⟩, hbegin, h⟩ := Act.exceptBind_eq_ok.mp h
  obtain ⟨⟨_, propagator⟩, hequip, h⟩ := Act.exceptBind_eq_ok.mp h
  unfold equip at hequip ⊢
  obtain ⟨ranker, hranker, hequip⟩ := Act.exceptBind_eq_ok.mp hequip
  obtain ⟨propagator', hpropagator, hequip⟩ := Act.exceptBind_eq_ok.mp hequip
  cases hequip
  cases h
  rw [Act.exceptBind_of_ok hbegin]
  dsimp only
  rw [Act.exceptBind_of_ok hranker, Act.exceptBind_of_ok hpropagator]
  rfl

end MipPump
