import MipPump.Pump.Run
import MipPump.Proofs.Tables

/-!
# What a run starts from

A run is prepared from admitted settings and a problem.

* `admitted_of_toSettings`: every option of admitted settings has passed its check.
* `PumpTask.Launched` collects what is known of a prepared run, and `run_eq_of_launch` says that a
  run is the preparation followed by its steps.
-/

namespace MipPump

section Admission

variable {R : Type} [Arith R]

/-- Every option of admitted settings has passed its check. -/
theorem RequestedSettings.admitted_of_toSettings {requested : RequestedSettings R}
    {s : Settings R} (h : requested.toSettings = .ok s) :
    ∀ c ∈ s.toOptions.checks, c.admitted = true := by
  unfold toSettings at h
  obtain ⟨rounding, -, h⟩ := Act.exceptBind_eq_ok.mp h
  obtain ⟨tieBreak, -, h⟩ := Act.exceptBind_eq_ok.mp h
  obtain ⟨ranking, -, h⟩ := Act.exceptBind_eq_ok.mp h
  obtain ⟨schedule, -, h⟩ := Act.exceptBind_eq_ok.mp h
  obtain ⟨_, hcheck, h⟩ := Act.exceptBind_eq_ok.mp h
  cases h
  intro c hc
  have hrun := Vec.forM_eq_ok hcheck c hc
  split at hrun
  · cases hrun
  · unfold RangeCheck.run at hrun
    split at hrun
    · assumption
    · cases hrun

/-- Settings whose options pass their checks are admitted. -/
theorem Settings.toSettings_requested {s : Settings R}
    (h : s.toOptions.checks.all (·.admitted) = true) : s.requested.toSettings = .ok s := by
  have hchoice {α : Type} (family : ChoiceFamily) {ofName? : String → Option α} {name : String}
      {a : α} (hname : ofName? name = some a) : s.requested.choice family ofName? name = .ok a := by
    simp [RequestedSettings.choice, choose, requested, hname]
  have hcheck : s.requested.check = .ok () := by
    refine Vec.forM_of_ok fun c hc => ?_
    have hrun : c.run = .ok () := by
      unfold RangeCheck.run
      rw [if_pos (List.all_eq_true.mp h c hc)]
    rw [if_neg (by simp [requested]), hrun]
  show (s.requested.choice .rounding RoundingPolicy.ofName? s.rounding.name >>= fun _ =>
    s.requested.choice .tieBreak TieBreak.ofName? s.tieBreak.name >>= fun _ =>
    s.requested.choice .ranking RankingPolicy.ofName? s.ranking.name >>= fun _ =>
    s.requested.choice .alphaSchedule AlphaSchedule.ofName? s.alphaSchedule.name >>= fun _ =>
    s.requested.check >>= fun _ => _) = _
  rw [Act.exceptBind_of_ok (hchoice _ (RoundingPolicy.ofName?_name _)),
    Act.exceptBind_of_ok (hchoice _ (TieBreak.ofName?_name _)),
    Act.exceptBind_of_ok (hchoice _ (RankingPolicy.ofName?_name _)),
    Act.exceptBind_of_ok (hchoice _ (AlphaSchedule.ofName?_name _)), Act.exceptBind_of_ok hcheck]
  rfl

theorem RequestedSettings.maxRestarts_nonneg {requested : RequestedSettings R} {s : Settings R}
    (h : requested.toSettings = .ok s) : 0 ≤ s.maxRestarts := by
  have hcheck := admitted_of_toSettings h (.atLeast .maxRestarts 0 s.maxRestarts)
    (by simp [Options.checks])
  simpa [RangeCheck.atLeast] using hcheck

theorem RequestedSettings.cycleHistorySize_pos {requested : RequestedSettings R} {s : Settings R}
    (h : requested.toSettings = .ok s) : 0 < s.cycleHistorySize := by
  have hcheck := admitted_of_toSettings h (.atLeast .cycleHistorySize 1 s.cycleHistorySize)
    (by simp [Options.checks])
  have hle : 1 ≤ s.cycleHistorySize := by simpa [RangeCheck.atLeast] using hcheck
  omega

theorem RequestedSettings.stallPatience_pos {requested : RequestedSettings R} {s : Settings R}
    (h : requested.toSettings = .ok s) : 0 < s.stallPatience := by
  have hcheck := admitted_of_toSettings h (.atLeast .stallPatience 1 s.stallPatience)
    (by simp [Options.checks])
  have hle : 1 ≤ s.stallPatience := by simpa [RangeCheck.atLeast] using hcheck
  omega

theorem RequestedSettings.stallCeiling_nonneg {requested : RequestedSettings R} {s : Settings R}
    (h : requested.toSettings = .ok s) : 0 ≤ s.stallCeiling := by
  have hcheck := admitted_of_toSettings h (.atLeast .stallCeiling 0 s.stallCeiling)
    (by simp [Options.checks])
  simpa [RangeCheck.atLeast] using hcheck

theorem RequestedSettings.perturbationFraction_inside {requested : RequestedSettings R}
    {s : Settings R} (h : requested.toSettings = .ok s) :
    0 < s.perturbationFraction ∧ s.perturbationFraction ≤ 1 := by
  have hcheck := admitted_of_toSettings h (.inside .perturbationFraction s.perturbationFraction
    (0 < s.perturbationFraction && s.perturbationFraction ≤ 1)) (by simp [Options.checks])
  simpa [RangeCheck.inside] using hcheck

theorem RequestedSettings.initialAlpha_inside {requested : RequestedSettings R} {s : Settings R}
    (h : requested.toSettings = .ok s) : 0 ≤ s.initialAlpha ∧ s.initialAlpha ≤ 1 := by
  have hcheck := admitted_of_toSettings h (.inside .initialAlpha s.initialAlpha
    (0 ≤ s.initialAlpha && s.initialAlpha ≤ 1)) (by simp [Options.checks])
  simpa [RangeCheck.inside] using hcheck

theorem RequestedSettings.alphaDecay_inside {requested : RequestedSettings R} {s : Settings R}
    (h : requested.toSettings = .ok s) : 0 ≤ s.alphaDecay ∧ s.alphaDecay ≤ 1 := by
  have hcheck := admitted_of_toSettings h (.inside .alphaDecay s.alphaDecay
    (0 ≤ s.alphaDecay && s.alphaDecay ≤ 1)) (by simp [Options.checks])
  simpa [RangeCheck.inside] using hcheck

theorem RequestedSettings.alphaStep_nonneg {requested : RequestedSettings R} {s : Settings R}
    (h : requested.toSettings = .ok s) : ¬ s.alphaStep < 0 := by
  have hcheck := admitted_of_toSettings h (.nonnegative .alphaStep s.alphaStep)
    (by simp [Options.checks])
  simpa [RangeCheck.nonnegative] using hcheck

theorem RequestedSettings.toleranceEpsilon_inside {requested : RequestedSettings R}
    {s : Settings R} (h : requested.toSettings = .ok s) :
    0 < s.toleranceEpsilon ∧ s.toleranceEpsilon < Arith.ratio 1 2 := by
  have hcheck := admitted_of_toSettings h (.inside .toleranceEpsilon s.toleranceEpsilon
    (0 < s.toleranceEpsilon && s.toleranceEpsilon < Arith.ratio 1 2)) (by simp [Options.checks])
  simpa [RangeCheck.inside] using hcheck

end Admission

namespace PumpTask

variable {R σ : Type} [Arith R] {task : PumpTask R σ} {started : R} {domain : Domain R} {oracle : σ}
  {setup : Setup R σ} {run : Run R σ}

/-- What is known of a prepared run. -/
structure Launched (task : PumpTask R σ) (started : R) (domain : Domain R) (oracle : σ)
    (setup : Setup R σ) (run : Run R σ) : Prop where
  name : setup.name = task.name
  settings : setup.settings = task.settings
  problem : setup.problem = task.problem
  asks : setup.oracle = task.oracle
  started_eq : setup.started = started
  table : setup.table.Lists task.problem.vars
  ranker : Ranker.make task.settings.ranking setup.table (some task.problem.rows)
    task.settings.visitPenalty task.settings.toleranceEpsilon = .ok setup.ranker
  progress : Progress.start task.settings setup.table.numIntegers = .ok run.workspace.progress
  propagator : task.propagator setup.table = .ok run.workspace.propagator
  run_eq : run = { workspace := ⟨domain, run.workspace.progress, run.workspace.propagator⟩, oracle }

theorem start_eq_ok {s : Settings R} {n : Nat} {p : Progress R} (h : Progress.start s n = .ok p) :
    p.iteration = 0 ∧ p.restarts = 0 ∧ p.perturbations = 0 := by
  unfold Progress.start at h
  dsimp only at h
  split at h
  · cases h
  · obtain ⟨history, -, h⟩ := Act.exceptBind_eq_ok.mp h
    cases h
    exact ⟨rfl, rfl, rfl⟩

/-- A run starts with a fresh epoch. -/
theorem Launched.epoch (h : task.Launched started domain oracle setup run) :
    0 ≤ task.settings.cycleHistorySize ∧ run.workspace.progress.epoch =
      Epoch.fresh task.settings ⟨task.settings.cycleHistorySize.toNat, []⟩
        ⟨task.settings.cycleHistorySize.toNat, []⟩ := by
  have hp := h.progress
  unfold Progress.start at hp
  dsimp only at hp
  split at hp
  · cases hp
  · obtain ⟨history, hhistory, hp⟩ := Act.exceptBind_eq_ok.mp hp
    unfold History.ofCapacity at hhistory
    obtain ⟨_, -, hhistory⟩ := Act.exceptBind_eq_ok.mp hhistory
    split at hhistory
    · cases hhistory
    · cases hhistory
      rw [← Except.ok.inj hp]
      exact ⟨by omega, rfl⟩

/-- The world that a run starts from. -/
theorem Launched.start (h : task.Launched started domain oracle setup run) :
    run.stage = .opening ∧ run.trace = [] ∧ run.oracle = oracle ∧
      run.workspace.domain = domain := by
  rw [h.run_eq]
  exact ⟨rfl, rfl, rfl, rfl⟩

theorem Launched.going (h : task.Launched started domain oracle setup run)
    (result : Except (Fault R) (Outcome R)) : run.stage ≠ .ended result := by
  rw [h.start.1]
  rintro ⟨⟩

theorem launched_of_launch (h : task.launch started domain oracle = .ok (setup, run)) :
    task.Launched started domain oracle setup run := by
  unfold launch at h
  obtain ⟨⟨table, progress⟩, hbegin, h⟩ := Act.exceptBind_eq_ok.mp h
  obtain ⟨⟨setup', propagator⟩, hequip, h⟩ := Act.exceptBind_eq_ok.mp h
  cases h
  unfold begin at hbegin
  obtain ⟨table', htable, hbegin⟩ := Act.exceptBind_eq_ok.mp hbegin
  obtain ⟨progress', hprogress, hbegin⟩ := Act.exceptBind_eq_ok.mp hbegin
  cases hbegin
  unfold equip at hequip
  obtain ⟨ranker, hranker, hequip⟩ := Act.exceptBind_eq_ok.mp hequip
  obtain ⟨propagator', hpropagator, hequip⟩ := Act.exceptBind_eq_ok.mp hequip
  cases hequip
  exact ⟨rfl, rfl, rfl, rfl, rfl, Table.lists_of_ofVariables htable, hranker, hprogress, hpropagator, rfl⟩

variable (task)

/-- A run is its preparation followed by its steps. -/
theorem run_eq_of_launch (clock : Nat → R) (shared : Shared R)
    (h : task.launch (clock (World.enoughSteps task.settings)) domain oracle = .ok (setup, run)) :
    task.run clock shared domain oracle =
      report (World.advance setup clock (World.enoughSteps task.settings) { shared, run }) := by
  unfold launch at h
  obtain ⟨⟨table, progress⟩, hbegin, h⟩ := Act.exceptBind_eq_ok.mp h
  obtain ⟨⟨setup', propagator⟩, hequip, h⟩ := Act.exceptBind_eq_ok.mp h
  cases h
  simp only [PumpTask.run, hbegin, hequip]

omit [Arith R] in
/-- A report is of an outcome if the run has ended with it. -/
theorem report_eq_ok {w : World R σ} {o : Outcome R} :
    (report w).result = .ok o ↔ w.run.stage = .ended (.ok o) := by
  unfold report
  cases hstage : w.run.stage with
  | ended result => simp
  | _ => simp

theorem launch_of_run {clock : Nat → R} {shared : Shared R} {o : Outcome R}
    (h : (task.run clock shared domain oracle).result = .ok o) :
    ∃ setup run,
      task.launch (clock (World.enoughSteps task.settings)) domain oracle = .ok (setup, run) := by
  unfold PumpTask.run at h
  dsimp only at h
  split at h
  · cases h
  · rename_i table progress hbegin
    split at h
    · cases h
    · rename_i setup propagator hequip
      refine ⟨setup, { workspace := ⟨domain, progress, propagator⟩, oracle }, ?_⟩
      rw [launch, Act.exceptBind_of_ok hbegin]
      dsimp only
      rw [Act.exceptBind_of_ok hequip]
      rfl

end PumpTask
end MipPump
