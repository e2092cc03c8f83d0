import MipPump.Proofs.SolveLogs
import MipPump.Proofs.Twins

/-!
# Runs that are told to stop

A run looks at the signal to stop before the root and after each lap, and nowhere else.  A signal
that is raised while the oracle is at work does not break the lap off: the lap may still ask its
second question, and it may end the run by itself.  If it does not, the look after it ends the run.

* `Lap.Cancels`: the signal is raised during a solve of the lap.
* `Lap.Concludes`: what there is to say of the outcome of a run whose last lap is given.
* `PumpTask.stops_at_next_look`: when a run ends that was told to stop, and how.
-/

namespace MipPump

section Definitions

variable {R σ : Type} [Arith R]

/-- The signal to stop is raised while the oracle is at work on a question of the lap. -/
def Lap.Cancels (setup : Setup R (Logged R σ)) (l : Lap R (Logged R σ)) : Prop :=
  ∃ reply ∈ setup.oracle.replies l.before.run.oracle l.calls, reply.cancels = true

/-- The lap ends the run by itself: it converges or stalls out, or its first question is refused. -/
def Lap.Final (setup : Setup R σ) (goal : Goal R) (l : Lap R σ) : Prop :=
  l.phase? = some .converged ∨ l.phase? = some .stalledOut ∨
    ∃ reason, (l.before.reply setup goal).Refuses reason

/-- The outcome of a run whose last lap is the given one, which begins with the question `goal`.
What the lap itself has come to goes first, then the limit of the iterations, then the signal. -/
structure Lap.Concludes (setup : Setup R σ) (goal : Goal R) (m : Nat) (l : Lap R σ)
    (o : Outcome R) : Prop where
  iterations : o.iterations = m
  success : o.ending.isSuccess = true ↔ l.phase? = some .converged
  stalledOut : o.ending = .failure .maxRestartsExceeded ↔ l.phase? = some .stalledOut
  refused : ∀ reason : FailureReason, reason.IsRefusal →
    (o.ending = .failure reason ↔ (l.before.reply setup goal).Refuses reason)
  own : l.Final setup goal → l.after.run.stage = .ended (.ok o)
  exhausted : o.ending = .failure .iterationLimit ↔
    ¬ l.Final setup goal ∧ setup.settings.maxIterations = m
  cancelled : o.ending = .failure .cancelled ↔
    ¬ l.Final setup goal ∧ setup.settings.maxIterations ≠ m

/-- The reason for which a run fails that finds the signal up after `n` iterations. -/
def Settings.stopReason (s : Settings R) (n : Int) : FailureReason :=
  if s.maxIterations ≤ n then .iterationLimit else .cancelled

end Definitions

section Reasons

variable {R : Type} [Arith R] {s : Settings R} {o : Outcome R} {n : Int}

/-- Within the limit of the iterations the reason tells whether the limit is reached. -/
theorem Settings.stopReason_eq_iff (h : n ≤ s.maxIterations) :
    (s.stopReason n = .iterationLimit ↔ s.maxIterations = n) ∧
      (s.stopReason n = .cancelled ↔ s.maxIterations ≠ n) := by
  unfold stopReason
  split
  · have heq : s.maxIterations = n := Int.le_antisymm ‹_› h
    simp [heq]
  · have hne : s.maxIterations ≠ n := fun heq => ‹¬ _› (Int.le_of_eq heq)
    simp [hne]

theorem Settings.stopReason_ne (s : Settings R) (n : Int) :
    s.stopReason n ≠ .maxRestartsExceeded ∧ ¬ (s.stopReason n).IsRefusal := by
  unfold stopReason
  split
  · exact ⟨by decide, fun h => h.ne.2.1 rfl⟩
  · exact ⟨by decide, fun h => h.ne.2.2 rfl⟩

/-- A run that ends with a refusal has a record for each iteration but the last. -/
theorem Outcome.WellShaped.length_of_refusal (h : o.WellShaped s)
    (hrefusal : o.ending.IsRefusal) : o.iterations = o.trace.length := by
  by_cases hnil : o.trace = []
  · rw [(h.empty hnil).1, hnil]
    rfl
  · exact (h.refused hnil hrefusal).symm

end Reasons

namespace World

open Act

variable {R σ : Type} [Arith R] {setup : Setup R σ} {start w v : World R σ}
  {calls : List (Question R)} {done : List (Lap R σ)} {now : R}

section Signals

variable {token : Token R}

/-- What a lap does to the signal. -/
theorem token_of_lap {setup : Setup R (Logged R σ)} (hrecords : setup.Records)
    {l : Lap R (Logged R σ)} (hafter : l.after = l.before.step setup now) :
    l.after.shared.token =
      l.before.shared.token.map (·.heard (setup.oracle.replies l.before.run.oracle l.calls)) := by
  obtain ⟨calls, hasked⟩ : l.before.Leads setup l.after :=
    hafter ▸ Leads.step ⟨[], asked_nil setup l.before⟩ now
  rw [calls_of_log (hasked.log_eq hrecords)]
  exact hasked.token

theorem isCancelled_of_token (htoken : w.shared.token = some token)
    (h : token.isCancelled now = true) : isCancelled setup now w = true := by
  simp [isCancelled, Shared.isCancelled, htoken, h]

/-- The signal is up after a lap in which it was raised, or once its deadline has passed. -/
theorem isCancelled_of_lap {setup : Setup R (Logged R σ)} (hrecords : setup.Records)
    {start : World R (Logged R σ)} {done : List (Lap R (Logged R σ))} {l : Lap R (Logged R σ)}
    (h : Lapped setup start done l.before) (htoken : start.shared.token = some token)
    (hafter : l.after = l.before.step setup now) {later : R}
    (hstop : l.Cancels setup ∨ token.deadline.any (Arith.reached later) = true) :
    isCancelled setup later l.after = true := by
  obtain ⟨t, ht, hdeadline⟩ := h.exists_token htoken
  refine isCancelled_of_token ((token_of_lap hrecords hafter).trans (congrArg _ ht)) ?_
  simp only [Token.isCancelled, Token.heard, hdeadline, Bool.or_eq_true]
  exact hstop.imp_left fun hcancels => .inr (List.any_eq_true.mpr hcancels)

end Signals

section Looking

theorem poll_of_stop (setup : Setup R σ) (exhausted : Bool) (next : Act R (World R σ) (Stage R))
    (w : World R σ) : ∃ v, poll setup exhausted true next w = .ok (finished (w.ledger.outcome
      (.failure (if exhausted then .iterationLimit else .cancelled)))) v := by
  cases exhausted with
  | true => exact (finished_fail setup .iterationLimit w).imp fun _ h => h.1
  | false => exact (finished_fail setup .cancelled w).imp fun _ h => h.1

theorem stage_step_of_ok {stage : Stage R} (h : World.act setup now w.run.stage w = .ok stage v) :
    (w.step setup now).run.stage = stage := by
  unfold step
  rw [h]
  rfl

/-- A run that finds the signal up ends at once. -/
theorem Looks.stage_step (h : w.Looks)
    (hfresh : w.run.stage = .opening → w.run.workspace.progress.iteration = 0)
    (hstop : isCancelled setup now w = true) : (w.step setup now).run.stage =
      finished (w.ledger.outcome (.failure
        (setup.settings.stopReason w.run.workspace.progress.iteration))) := by
  obtain ⟨v, hact⟩ : ∃ v, World.act setup now w.run.stage w = .ok (finished (w.ledger.outcome
      (.failure (if decide (setup.settings.maxIterations ≤ w.run.workspace.progress.iteration)
        then .iterationLimit else .cancelled)))) v := by
    rcases h with h | ⟨target, h⟩
    · rw [h, World.act, openRun_eq_poll, hstop, hfresh h]
      exact poll_of_stop ..
    · rw [h, World.act, pause_eq_poll, hstop]
      exact poll_of_stop ..
  rw [stage_step_of_ok hact]
  simp only [decide_eq_true_eq]
  rfl

end Looking

section Endings

variable {goal : Goal R} {o : Outcome R}

/-- The question of a lap is the one that it sees answered. -/
theorem Poses.not_refuses (h : w.Poses setup goal) {s : Sighting R} (hs : w.Sees setup s)
    (reason : FailureReason) : ¬ (w.reply setup goal).Refuses reason := by
  obtain ⟨hgoal, hanswer⟩ := hs.poses
  rw [h.unique hgoal]
  exact Reply.not_refuses_of_answer hanswer reason

variable (hrestarts : 0 ≤ setup.settings.maxRestarts)
  (hstart : Shaped setup.settings start.run.stage start.ledger) (htrace : start.run.trace = [])

include hrestarts hstart htrace

/-- What the outcome is if the lap itself ends the run. -/
theorem Lapped.concludes_of_ended (h : Lapped setup start done w) (begins : w.Begins)
    (hposes : w.Poses setup goal) (hend : (w.step setup now).run.stage = .ended (.ok o)) :
    Lap.Concludes setup goal done.length ⟨w, w.step setup now⟩ o := by
  have hfault (e : Fault R) : (w.step setup now).run.stage ≠ .ended (.error e) := fun he => by
    cases he.symm.trans hend
  have hshape := (h.lap begins now).shaped hrestarts hstart
  rw [hend] at hshape
  obtain ⟨hwell, hsame⟩ := hshape
  have hlength := h.length_trace htrace begins.goes
  obtain ⟨goal', hgoal, hcases⟩ := (begins.refused_or_decides setup now).resolve_left
    fun ⟨e, he⟩ => hfault e he
  rcases hcases with ⟨reason, o', hrefused, ho, hending, hkept⟩ | ⟨s, g, phase, hsees, -, hd⟩
  · cases ho.symm.trans hend
    cases hgoal.unique hposes
    have hphase : Lap.phase? ⟨w, w.step setup now⟩ = none := by
      rw [Lap.phase?, Lap.record?_of_same hkept, Option.map_none]
    have hrefusal := FailureReason.isRefusal_of_refuses hrefused
    have hiterations : o.iterations = done.length := by
      rw [hwell.length_of_refusal ⟨reason, hrefusal, hending⟩, hsame, ← hlength, ← hkept]
      rfl
    have hfinal : Lap.Final setup goal ⟨w, w.step setup now⟩ := .inr (.inr ⟨reason, hrefused⟩)
    obtain ⟨hspent, hlimit, hstop⟩ := hrefusal.ne
    refine ⟨hiterations, ?_, ?_, fun other _ => ?_, fun _ => hend, ?_, ?_⟩
    · simp [hending, hphase, Ending.isSuccess]
    · simp [hending, hphase, hspent]
    · rw [hending, Ending.failure.injEq]
      exact ⟨fun heq => heq ▸ hrefused, hrefused.unique⟩
    · simp [hending, hfinal, hlimit]
    · simp [hending, hfinal, hstop]
  · have hunrefused := hposes.not_refuses hsees
    have hphase := phase_of_decides hd hfault
    obtain ⟨r, -, -, happend⟩ := record_of_decides hd hfault
    have hiterations (hending : ¬ o.ending.IsRefusal) : o.iterations = done.length := by
      have hcovered := hwell.covered (by simp [hsame, World.ledger, happend]) hending
      rw [hsame, World.ledger, happend, List.length_append, hlength] at hcovered
      simpa using hcovered.symm
    cases hd with
    | converged _ _ _ _ _ next =>
        cases hend.symm.trans next
        refine ⟨hiterations ?_, ?_, ?_, fun other _ => ?_, fun _ => hend, ?_, ?_⟩
        · rintro ⟨_, -, ⟨⟩⟩
        · simp [hphase, Ending.isSuccess]
        · simp [hphase]
        · simp [hunrefused]
        · simp [Lap.Final, hphase]
        · simp [Lap.Final, hphase]
    | stalledOut _ _ _ _ _ next =>
        cases hend.symm.trans next
        refine ⟨hiterations ?_, ?_, ?_, fun other hother => ?_, fun _ => hend, ?_, ?_⟩
        · rintro ⟨reason, hrefusal, ⟨⟩⟩
          exact hrefusal.ne.1 rfl
        · simp [hphase, Ending.isSuccess]
        · simp [hphase]
        · simp [hunrefused, hother.ne.1.symm]
        · simp [Lap.Final, hphase]
        · simp [Lap.Final, hphase]
    | rooted _ _ next | accepted _ _ _ next | perturbed _ _ _ _ _ next
    | restarted _ _ _ _ _ _ next => cases hend.symm.trans next

/-- What the outcome is if the lap leaves a target and the look after it ends the run. -/
theorem Lapped.concludes_of_goes (hstage : start.run.stage = .opening)
    (h : Lapped setup start done w) (begins : w.Begins)
    (hposes : w.Poses setup goal) (goes : (w.step setup now).Goes)
    (hend : o = (w.step setup now).ledger.outcome (.failure (setup.settings.stopReason
      (w.step setup now).run.workspace.progress.iteration))) :
    Lap.Concludes setup goal done.length ⟨w, w.step setup now⟩ o := by
  have hdone := h.lap begins now
  obtain ⟨s, g, phase, hsees, hd⟩ := begins.decides goes
  have hunrefused := hposes.not_refuses hsees
  have hphase := phase_of_decides hd fun e => goes _
  obtain ⟨hstalled, hconverged⟩ := hd.phase_of_goes goes
  have hnot : ¬ Lap.Final setup goal ⟨w, w.step setup now⟩ := by
    simp [Lap.Final, hphase, hstalled, hconverged, hunrefused]
  have hiteration : (w.step setup now).run.workspace.progress.iteration = done.length := by
    have hrunning := (hdone.running hrestarts hstage hstart goes (by simp)).length
    have hlength := hdone.length_trace htrace goes
    simp only [World.ledger, hlength, List.length_append, List.length_singleton] at hrunning
    omega
  have hle : (done.length : Int) ≤ setup.settings.maxIterations := by
    have hshape := hdone.shaped hrestarts hstart
    obtain ⟨target, htop⟩ := begins.exists_top goes
    rw [htop] at hshape
    exact hiteration ▸ hshape.2
  rw [hiteration] at hend
  subst hend
  obtain ⟨hlimit, hcancelled⟩ := Settings.stopReason_eq_iff hle
  obtain ⟨hspent, hrefusal⟩ := setup.settings.stopReason_ne done.length
  refine ⟨hiteration, ?_, ?_, fun other hother => ?_, fun hfinal => absurd hfinal hnot, ?_, ?_⟩
  · simp [hphase, hconverged, Ending.isSuccess]
  · simp [hphase, hstalled, hspent]
  · refine iff_of_false (fun heq => hrefusal ?_) (hunrefused other)
    exact Ending.failure.inj heq ▸ hother
  · simp [hnot, hlimit]
  · simp [hnot, hcancelled]

end Endings

section Runs

variable {clock : Nat → R} {fuel : Nat} {before after : List (Lap R σ)} {l : Lap R σ}

/-- If the signal is up at the look after a lap, then this lap is the last one: it ends the run
itself, or the look does. -/
theorem ends_after_lap (looks : w.Looks) (hl : laps setup clock fuel w = before ++ l :: after)
    (begins : l.before.Begins)
    (hends : ∃ result, (World.advance setup clock fuel w).run.stage = .ended result)
    (hstop : isCancelled setup (clock (fuel - (2 * before.length + 3))) l.after = true) :
    after = [] ∧
      ((∃ result, l.after.run.stage = .ended result ∧ World.advance setup clock fuel w = l.after) ∨
        l.after.Goes ∧ (World.advance setup clock fuel w).run.stage =
          finished (l.after.ledger.outcome (.failure
            (setup.settings.stopReason l.after.run.workspace.progress.iteration)))) := by
  obtain ⟨k, hfuel, hafter, hrest, hadvance⟩ := laps_split looks hl
  rw [← hadvance] at hends ⊢
  by_cases goes : l.after.Goes
  · obtain ⟨target, htop⟩ := begins.exists_top (hafter ▸ goes)
    rw [← hafter] at htop
    have hlooks : l.after.Looks := .inr ⟨target, htop⟩
    cases k with
    | zero =>
        -- the run would be out of steps before the look
        obtain ⟨result, hend⟩ := hends
        exact absurd hend (goes result)
    | succ k =>
        have hk : fuel - (2 * before.length + 3) = k := by omega
        rw [hk] at hstop
        have hend := hlooks.stage_step (fun h => nomatch htop.symm.trans h) hstop
        rw [advance_of_going goes, advance_of_ended hend, hrest, laps_of_looks hlooks,
          laps_of_ended hend]
        exact ⟨rfl, .inr ⟨goes, hend⟩⟩
  · obtain ⟨result, hend⟩ := exists_of_not_goes goes
    rw [hrest, laps_of_ended hend, advance_of_ended hend]
    exact ⟨rfl, .inl ⟨result, hend, rfl⟩⟩

/-- The first question in the log of a lap is the one that it poses. -/
theorem poses_of_calls {setup : Setup R (Logged R σ)} (hrecords : setup.Records)
    {l : Lap R (Logged R σ)} (begins : l.before.Begins) (hafter : l.after = l.before.step setup now)
    (hfault : ∀ e, l.after.run.stage ≠ .ended (.error e)) {goal : Goal R}
    {extra : List (Question R)} (hcalls : l.calls = ⟨l.before.box, goal⟩ :: extra) :
    l.before.Poses setup goal := by
  obtain ⟨goal', hposes, -⟩ := (begins.refused_or_decides setup now).resolve_left
    fun ⟨e, he⟩ => hfault e (hafter ▸ he)
  obtain ⟨extra', -, hlog⟩ := hposes.exists_log hrecords now
  rw [← hafter] at hlog
  rw [calls_of_log hlog] at hcalls
  cases hcalls
  exact hposes

end Runs

end World

namespace PumpTask

section Openings

variable {R σ : Type} [Arith R] {task : PumpTask R σ} {clock : Nat → R} {shared : Shared R}
  {domain : Domain R} {oracle : σ} {setup : Setup R σ} {run : Run R σ} {token : Token R}

/-- A run that is told to stop before it starts ends at its first look. -/
theorem ends_at_first_look
    (hlaunch : task.launch (clock (World.enoughSteps task.settings)) domain oracle =
      .ok (setup, run)) (htoken : shared.token = some token)
    (hstop : token.isCancelled (clock (World.enoughSteps task.settings - 1)) = true) :
    World.laps setup clock (World.enoughSteps task.settings) { shared, run } = [] ∧
      (task.run clock shared domain oracle).oracle = oracle ∧
      ∃ o, (task.run clock shared domain oracle).result = .ok o ∧ o.iterations = 0 ∧
        o.ending = .failure (task.settings.stopReason 0) := by
  have hl := launched_of_launch hlaunch
  have hrun := task.run_eq_of_launch clock shared hlaunch
  have looks : World.Looks { shared, run } := .inl hl.start.1
  have hiteration : run.workspace.progress.iteration = 0 := (hl.fresh shared).iteration
  obtain ⟨n, hn⟩ : ∃ n, World.enoughSteps task.settings = n + 1 := ⟨_, rfl⟩
  rw [hn] at hrun hstop ⊢
  have hup : World.isCancelled setup (clock n) { shared, run } = true :=
    World.isCancelled_of_token htoken hstop
  have hend := looks.stage_step (fun _ => hiteration) hup
  rw [World.advance_of_going looks.goes, World.advance_of_ended hend] at hrun
  rw [World.laps_of_looks looks, World.laps_of_ended hend, hrun]
  refine ⟨rfl, (looks.oracle_step setup _).trans hl.start.2.2.1, _, report_eq_ok.mpr hend,
    hiteration, ?_⟩
  show Ending.failure (setup.settings.stopReason run.workspace.progress.iteration) = _
  rw [hl.settings, hiteration]

end Openings

variable {R σ : Type} [Arith R] {clock : Nat → R} {shared : Shared R} {domain : Domain R}
  {setup : Setup R (Logged R σ)} {run : Run R (Logged R σ)} {token : Token R}
  {laps : List (Lap R (Logged R σ))}

/-- A run that is told to stop during a lap ends with the lap or at the look after it. -/
theorem ends_at_next_look {task : PumpTask R (Logged R σ)} {oracle : Logged R σ}
    (hrestarts : 0 ≤ task.settings.maxRestarts)
    (hlaunch : task.launch (clock (World.enoughSteps task.settings)) domain oracle =
      .ok (setup, run)) (hrecords : setup.Records)
    (hlaps : laps = World.laps setup clock (World.enoughSteps task.settings) { shared, run })
    (htoken : shared.token = some token) {m : Nat} {l : Lap R (Logged R σ)}
    (hm : laps[m]? = some l)
    (hstop : l.Cancels setup ∨ token.deadline.any (Arith.reached
      (clock (World.enoughSteps task.settings - (2 * m + 3)))) = true) :
    laps = laps.take m ++ [l] ∧ ∃ goal extra, l.calls = ⟨l.before.box, goal⟩ :: extra ∧
      Aims setup laps m goal ∧ l.before.Continues setup extra ∧
      ((∃ e, l.after.run.stage = .ended (.error e) ∧
          (task.run clock shared domain oracle).result = .error e) ∨
        ∃ o, (task.run clock shared domain oracle).result = .ok o ∧
          l.Concludes setup goal m o) := by
  have hl := launched_of_launch hlaunch
  obtain ⟨hstage, htrace, -, -⟩ := hl.start
  have halpha : World.alpha { shared, run } = setup.settings.initialAlpha := by
    rw [World.alpha, hl.epoch.2, hl.settings]
    rfl
  have hshaped : Shaped setup.settings run.stage (World.ledger { shared, run }) := by
    rw [hstage]
    exact hl.fresh shared
  obtain ⟨hlen, hbefore, begins, now, hafter⟩ := World.lapped_of_getElem? (hlaps ▸ hm)
  rw [← hlaps] at hlen hbefore
  obtain ⟨goal, extra, hcalls, haims, hcontinues⟩ :=
    World.calls_of_laps hrecords hl.table hstage halpha hlaps hm
  have hsplit := eq_take_cons_drop hm
  have hup := World.isCancelled_of_lap hrecords hbefore htoken hafter hstop
  rw [← hlen] at hup
  obtain ⟨hlast, hend⟩ := World.ends_after_lap (.inl hstage) (hlaps.symm.trans hsplit) begins
    (run_ends hrestarts hlaunch) hup
  rw [hlast] at hsplit
  refine ⟨hsplit, goal, extra, hcalls, haims, hcontinues, ?_⟩
  rw [task.run_eq_of_launch clock shared hlaunch]
  rw [← hl.settings] at hrestarts
  rcases hend with ⟨result, hend, hadvance⟩ | ⟨goes, hend⟩
  · cases result with
    | error e => exact .inl ⟨e, hend, by rw [hadvance, report, hend]⟩
    | ok o =>
        have hfault (e : Fault R) : l.after.run.stage ≠ .ended (.error e) := by
          rw [hend]
          rintro ⟨⟩
        have hposes := World.poses_of_calls hrecords begins hafter hfault hcalls
        have hconcludes := hbefore.concludes_of_ended hrestarts hshaped htrace begins hposes
          (hafter ▸ hend)
        rw [hlen, ← hafter] at hconcludes
        exact .inr ⟨o, report_eq_ok.mpr (hadvance ▸ hend), hconcludes⟩
  · have hposes := World.poses_of_calls hrecords begins hafter (fun e => goes _) hcalls
    have hconcludes := hbefore.concludes_of_goes hrestarts hshaped htrace hstage begins hposes
      (hafter ▸ goes) rfl
    rw [hlen, ← hafter] at hconcludes
    exact .inr ⟨_, report_eq_ok.mpr hend, hconcludes⟩

/-- **Told to stop, a run stops at its next look.**  A run has a signal to stop, and its laps are
the root and the iterations.  If the signal is up before the run starts, then the run asks nothing
and fails, in no iteration.  If the signal is raised during a solve of iteration `m`, or by its
deadline before the look that follows, then no iteration comes after that: the oracle is asked what
iteration `m` asks, which is one question and perhaps a completion, and no more.  The outcome, if
iteration `m` does not stop with a fault, is that of iteration `m`: a success that it has found, or a failure
for want of restarts or for a refusal of its first question.  If there is none of these, then the
run fails for the limit of the iterations if this has been reached, and for the signal otherwise. -/
theorem stops_at_next_look {task : PumpTask R σ} {oracle : σ} {requested : RequestedSettings R}
    (hsettings : requested.toSettings = .ok task.settings)
    (hlaunch : task.recording.launch (clock (World.enoughSteps task.settings)) domain (oracle, []) =
      .ok (setup, run))
    (hlaps : laps = World.laps setup clock (World.enoughSteps task.settings) { shared, run })
    (htoken : shared.token = some token) :
    (token.isCancelled (clock (World.enoughSteps task.settings - 1)) = true →
      laps = [] ∧ (task.recording.run clock shared domain (oracle, [])).oracle.2 = [] ∧
      ∃ o, (task.run clock shared domain oracle).result = .ok o ∧ o.iterations = 0 ∧
        o.ending = .failure (task.settings.stopReason 0)) ∧
    ∀ (m : Nat) (l : Lap R (Logged R σ)), laps[m]? = some l →
      (l.Cancels setup ∨ token.deadline.any (Arith.reached
        (clock (World.enoughSteps task.settings - (2 * m + 3)))) = true) →
      laps.length = m + 1 ∧ (∀ r, l.record? = some r → r.iteration = m) ∧
      ∃ goal extra, l.calls = ⟨l.before.box, goal⟩ :: extra ∧
        Aims setup laps m goal ∧ l.before.Continues setup extra ∧
        (task.recording.run clock shared domain (oracle, [])).oracle.2 =
          (laps.take m).flatMap (·.calls) ++ l.calls ∧
        ((∃ e, l.after.run.stage = .ended (.error e) ∧
            (task.run clock shared domain oracle).result = .error e) ∨
          ∃ o, (task.run clock shared domain oracle).result = .ok o ∧
            l.Concludes setup goal m o) := by
  have hresult := (task.report_recording clock shared domain oracle []).result
  have hl := launched_of_launch hlaunch
  rw [← hresult]
  refine ⟨fun hstop => ?_, fun m l hm hstop => ?_⟩
  · obtain ⟨hnil, hlog, ho⟩ := ends_at_first_look hlaunch htoken hstop
    exact ⟨hlaps.trans hnil, congrArg Prod.snd hlog, ho⟩
  · have hrecords : setup.Records := ⟨task.oracle, hl.asks⟩
    have hrestarts : 0 ≤ task.recording.settings.maxRestarts :=
      RequestedSettings.maxRestarts_nonneg hsettings
    obtain ⟨hall, goal, extra, hcalls, haims, hcontinues, hend⟩ :=
      ends_at_next_look hrestarts hlaunch hrecords hlaps htoken hm hstop
    have hlength : laps.length = m + 1 := by
      obtain ⟨hlt, -⟩ := List.getElem?_eq_some_iff.mp hm
      calc laps.length = (laps.take m ++ [l]).length := congrArg _ hall
        _ = m + 1 := by rw [List.length_append, List.length_take_of_le (Nat.le_of_lt hlt)]; rfl
    refine ⟨hlength, fun r hr => iteration_of_laps hrestarts hlaunch (hlaps ▸ hm) hr, goal, extra,
      hcalls, haims, hcontinues, ?_, hend⟩
    have hlog := (World.lapped_advance setup clock (World.enoughSteps task.settings)
      { shared, run }).log hrecords
    have hnil : World.log { shared, run } = [] := congrArg Prod.snd hl.start.2.2.1
    rw [← hlaps, hnil, List.nil_append, hall, List.flatMap_append, List.flatMap_singleton] at hlog
    rw [task.recording.run_eq_of_launch clock shared hlaunch]
    exact hlog

/-- The problem with one binary variable and an oracle that is stuck and counts its solves; the
signal is raised during the second one. -/
def recalled : PumpTask ExtRat Nat where
  name := "recalled"
  settings := { maxIterations := 2 }
  problem := halfway.problem
  oracle := fun n _ _ => { answer := .ok [.fin (1 / 2)], cancels := n == 1, next := n + 1 }

/-- The run stops after the first of two iterations that it may make, and at once if the signal is
up when it starts. -/
theorem stops_at_next_look_recalled :
    ∃ setup run laps l, recalled.settings.requested.toSettings = .ok recalled.settings ∧
      recalled.recording.launch (.fin 0) ⟨⟨[.fin 0], [.fin 1]⟩, []⟩ (0, []) = .ok (setup, run) ∧
      laps = World.laps setup (fun _ => .fin 0) (World.enoughSteps recalled.settings)
        { shared := ⟨{}, some {}⟩, run } ∧
      laps[1]? = some l ∧ l.Cancels setup ∧ laps.length = 2 ∧
      (∃ o, (recalled.run (fun _ => .fin 0) ⟨{}, some {}⟩ ⟨⟨[.fin 0], [.fin 1]⟩, []⟩ 0).result =
        .ok o ∧ o.iterations = 1 ∧ o.ending = .failure .cancelled) ∧
      (recalled.recording.run (fun _ => .fin 0) ⟨{}, some { raised := true }⟩
        ⟨⟨[.fin 0], [.fin 1]⟩, []⟩ (0, [])).oracle.2 = [] := by
  have hsettings : recalled.settings.requested.toSettings = .ok recalled.settings :=
    Settings.toSettings_requested (by decide +kernel)
  obtain ⟨setup, run, laps, hlaunch, hlaps, heard⟩ : ∃ setup run laps,
      recalled.recording.launch (.fin 0) ⟨⟨[.fin 0], [.fin 1]⟩, []⟩ (0, []) = .ok (setup, run) ∧
      laps = World.laps setup (fun _ => .fin 0) (World.enoughSteps recalled.settings)
        { shared := ⟨{}, some {}⟩, run } ∧
      laps.map (fun l => (l.phase?,
        (setup.oracle.replies l.before.run.oracle l.calls).map (·.cancels))) =
          [(some .init, [false]), (some .perturbing, [true])] :=
    ⟨_, _, _, rfl, rfl, by decide +kernel⟩
  have hlaunched := launched_of_launch hlaunch
  obtain ⟨l, hl, hphase, hcancels⟩ : ∃ l, laps[1]? = some l ∧ l.phase? = some .perturbing ∧
      (setup.oracle.replies l.before.run.oracle l.calls).map (·.cancels) = [true] := by
    obtain ⟨l, hl, hpair⟩ := Option.map_eq_some_iff.mp
      ((List.getElem?_map ..).symm.trans (congrArg (·[1]?) heard))
    exact ⟨l, hl, congrArg Prod.fst hpair, congrArg Prod.snd hpair⟩
  have hstop : l.Cancels setup := List.mem_map.mp (hcancels ▸ List.mem_singleton_self true)
  obtain ⟨hlength, -, goal, -, -, -, -, -, hend⟩ :=
    (stops_at_next_look hsettings hlaunch hlaps rfl).2 1 l hl (.inl hstop)
  have hanswer : (l.before.reply setup goal).answer = .ok [.fin (1 / 2)] := by
    rw [World.reply, hlaunched.asks]
    rfl
  have hunrefused := Reply.not_refuses_of_answer hanswer
  obtain ⟨r, hr, -⟩ := Option.map_eq_some_iff.mp hphase
  rcases hend with ⟨e, he, -⟩ | ⟨o, ho, hconcludes⟩
  · exact absurd he (Lap.ne_error_of_record hr e)
  · refine ⟨setup, run, laps, l, hsettings, hlaunch, hlaps, hl, hstop, hlength,
      ⟨o, ho, hconcludes.iterations, hconcludes.cancelled.mpr ⟨?_, ?_⟩⟩, ?_⟩
    · simp [Lap.Final, hphase, hunrefused]
    · rw [hlaunched.settings]
      decide
    · exact ((stops_at_next_look hsettings hlaunch rfl rfl).1 rfl).2.1

end PumpTask

end MipPump
