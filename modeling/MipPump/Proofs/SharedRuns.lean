import MipPump.Proofs.Pools
import MipPump.Proofs.TraceShape
import MipPump.Proofs.Twins

/-!
# Runs beside each other

The runs of a pool share the store, which none of them reads, and the signal to stop.  Until the
signal is up each of them is a twin of the run that its task makes alone; afterwards it may end early,
with the trace it has.

* `Slot.Tracks`: a slot is on the way of the run alone, or the signal is up and it was cut off.
* `Pool.Tracked`: all slots are, and the signal is up only if some run has finished with a success.
  Every move keeps this.
* `Pool.outcomes_of_follow`: what the outcomes of the runs beside each other have to do with those of
  the runs alone; and every schedule can be carried on until there are outcomes.
-/

namespace MipPump

section Definitions

variable {R σ : Type}

/-- An outcome that was cut off on the way to another one. -/
def Outcome.CutOff (cut o : Outcome R) : Prop :=
  cut.ending = .failure .cancelled ∧ cut.trace <+: o.trace

/-- Two runs that differ in the printed lines only. -/
structure Run.SameAs (run other : Run R σ) : Prop where
  workspace : run.workspace = other.workspace
  oracle : run.oracle = other.oracle
  trace : run.trace = other.trace
  stage : run.stage = other.stage

variable [Arith R]

/-- What a run has that is made alone: nobody stops it and it has an outcome. -/
structure PumpTask.PlaysAlone (task : PumpTask R σ) (clock : Nat → R) (store : Store R)
    (domain : Domain R) (oracle : σ) (o : Outcome R) : Prop where
  silent : task.oracle.Silent
  unhurried : task.settings.timeBudget = none
  solo : (task.run clock { store, token := some {} } domain oracle).result = .ok o

/-- A run is in the world that the run of the task alone visits with `k` steps left. -/
def PumpTask.OnTheWay (task : PumpTask R σ) (clock : Nat → R) (store : Store R) (domain : Domain R)
    (oracle : σ) (setup : Setup R σ) (run : Run R σ) (k : Nat) : Prop :=
  ∃ alone v, task.Visits clock { store, token := some {} } domain oracle alone k v ∧
    v.shared.token = some {} ∧ setup = alone.startedAt setup.started ∧ run.SameAs v.run

/-- A slot is on the way of the run alone, or the signal is up and it was cut off. -/
def Slot.Tracks (clock : Nat → R) (store : Store R) (domain : Domain R) (oracle : σ) (raised : Prop)
    (slot : Slot R σ) (job : PumpTask R σ × Outcome R) : Prop :=
  match slot with
  | .waiting task domain' oracle' => task = job.1 ∧ domain' = domain ∧ oracle' = oracle
  | .active setup run =>
      (∃ k, job.1.OnTheWay clock store domain oracle setup run k) ∨
        raised ∧ ∃ cut, run.stage = .ended (.ok cut) ∧ cut.CutOff job.2
  | .finished result _ _ => result = .ok job.2 ∨ raised ∧ ∃ cut, result = .ok cut ∧ cut.CutOff job.2

/-- A slot has finished with a success. -/
def Slot.Succeeded (slot : Slot R σ) : Prop :=
  ∃ o, slot.result? = some (.ok o) ∧ o.ending.isSuccess = true

/-- The signal of a pool is up. -/
def Pool.Raised (p : Pool R σ) : Prop := p.shared.token = some { raised := true }

/-- All slots of a pool track their runs alone, and the signal is up only if a run that may raise it
has finished with a success. -/
structure Pool.Tracked (clock : Nat → R) (store : Store R) (domain : Domain R) (oracle : σ)
    (jobs : List (PumpTask R σ × Outcome R)) (p : Pool R σ) : Prop where
  slots : List.Forall₂ (Slot.Tracks clock store domain oracle p.Raised) p.slots jobs
  signal : p.shared.token = some {} ∨
    p.Raised ∧ p.cancelOnSuccess = true ∧ ∃ slot ∈ p.slots, slot.Succeeded

end Definitions

section Alone

variable {R σ : Type} [Arith R] {setup : Setup R σ} {env : Surroundings R σ}

/-- The outcome of a run has the trace of its ledger. -/
theorem Transition.trace_eq_of_ended {stage : Stage R} {a a' : Ledger R} {o : Outcome R}
    (h : Transition setup env stage a (.ended (.ok o)) a')
    (going : ∀ result, stage ≠ .ended result) : o.trace = a'.trace := by
  generalize hstage : Stage.ended (.ok o) = stage' at h
  cases h with
  | stays => exact absurd rfl (going _)
  | opened | rootRounded | resumed | accepted | perturbed | restarted => cases hstage
  | _ =>
      cases hstage
      rfl

/-- A run that is not told to stop does not end for that reason. -/
theorem Transition.not_cancelled {stage : Stage R} {a a' : Ledger R} {o : Outcome R}
    (h : Transition setup env stage a (.ended (.ok o)) a')
    (going : ∀ result, stage ≠ .ended result) (go : env.stops = false) :
    o.ending ≠ .failure .cancelled := by
  generalize hstage : Stage.ended (.ok o) = stage' at h
  cases h with
  | stays => exact absurd rfl (going _)
  | opened | rootRounded | resumed | accepted | perturbed | restarted => cases hstage
  | notStarted _ stop | stopped _ stop =>
      rw [go] at stop
      cases stop
  | rootFailed refused | failed _ refused =>
      cases hstage
      intro hreason
      cases hreason
      rcases FailureReason.isRefusal_of_refuses refused with h | h <;> cases h
  | _ =>
      cases hstage
      rintro ⟨⟩

namespace PumpTask

variable {task : PumpTask R σ} {clock : Nat → R} {store : Store R} {domain : Domain R} {oracle : σ}
  {o : Outcome R} {run : Run R σ} {k : Nat} {w : World R σ}

/-- Nobody tells a run to stop that has the signal for itself and no time limit. -/
theorem PlaysAlone.not_stopped (h : task.PlaysAlone clock store domain oracle o)
    (hw : task.Visits clock { store, token := some {} } domain oracle setup k w)
    (htoken : w.shared.token = some {}) (now : R) : World.isCancelled setup now w = false := by
  obtain ⟨run, hlaunch, -⟩ := hw
  unfold World.isCancelled Shared.isCancelled
  rw [htoken, (launched_of_launch hlaunch).settings, h.unhurried]
  rfl

theorem PlaysAlone.silent_setup (h : task.PlaysAlone clock store domain oracle o)
    (hw : task.Visits clock { store, token := some {} } domain oracle setup k w) :
    setup.oracle.Silent := by
  obtain ⟨run, hlaunch, -⟩ := hw
  rw [(launched_of_launch hlaunch).asks]
  exact h.silent

/-- The signal of a run alone stays down. -/
theorem PlaysAlone.token_eq (h : task.PlaysAlone clock store domain oracle o)
    (hw : task.Visits clock { store, token := some {} } domain oracle setup k w) :
    w.shared.token = some {} := by
  obtain ⟨run, hlaunch, hvisited⟩ := hw
  induction hvisited with
  | start => rfl
  | @step k w hvisited going ih =>
      have hw : task.Visits clock { store, token := some {} } domain oracle setup (k + 1) w :=
        ⟨run, hlaunch, hvisited⟩
      have go := h.not_stopped hw ih (clock k)
      have htwins : World.Twins (some {}) (some {}) w w := ⟨rfl, rfl, rfl, ih, ih⟩
      rcases htwins.step setup.started (clock k) (h.silent_setup hw) rfl go with
        ⟨hstep, -⟩ | ⟨stop, -⟩
      · exact hstep.token_eq'
      · exact absurd stop (Bool.eq_false_iff.mp go)

/-- A run that goes on has a part of the trace with which it ends. -/
theorem PlaysAlone.trace_isPrefix (h : task.PlaysAlone clock store domain oracle o)
    (hw : task.Visits clock { store, token := some {} } domain oracle setup k w)
    (going : ∀ result, w.run.stage ≠ .ended result) : w.run.trace <+: o.trace := by
  induction k generalizing w with
  | zero =>
      obtain ⟨j, hj, -⟩ := hw.next h.solo going
      cases hj
  | succ k ih =>
      obtain ⟨j, hj, hnext, ht, honly⟩ := hw.next h.solo going
      cases hj
      have hgrows : w.run.trace <+: (w.step setup (clock k)).run.trace := ht.trace_isPrefix
      by_cases hended : ∃ result, (w.step setup (clock k)).run.stage = .ended result
      · obtain ⟨result, hresult⟩ := hended
        cases honly result hresult
        rw [hresult] at ht
        rw [ht.trace_eq_of_ended going]
        exact hgrows
      · exact hgrows.trans (ih hnext fun result hresult => hended ⟨result, hresult⟩)

/-- A run alone ends with its outcome. -/
theorem PlaysAlone.result_eq (h : task.PlaysAlone clock store domain oracle o)
    (hw : task.Visits clock { store, token := some {} } domain oracle setup k w)
    {result : Except (Fault R) (Outcome R)} (hended : w.run.stage = .ended result) :
    result = .ok o := by
  obtain ⟨run, hlaunch, hvisited⟩ := hw
  have hsolo := h.solo
  rw [task.run_eq_of_launch clock _ hlaunch, ← hvisited.advance_eq,
    World.advance_of_ended hended, report_eq_ok, hended] at hsolo
  exact Stage.ended.inj hsolo

/-- A run alone is not cancelled. -/
theorem PlaysAlone.not_cancelled (h : task.PlaysAlone clock store domain oracle o) :
    o.ending ≠ .failure .cancelled := by
  obtain ⟨setup, k, v, hv, going, -, -, ht⟩ := visits_of_run h.solo
  exact ht.not_cancelled going (h.not_stopped hv (h.token_eq hv) _)

end PumpTask

end Alone

section Slots

variable {R σ : Type} [Arith R] {task : PumpTask R σ} {clock : Nat → R} {store : Store R}
  {domain : Domain R} {oracle : σ} {o : Outcome R} {setup : Setup R σ} {run : Run R σ} {k : Nat}

/-- A task that plays alone starts, at whatever instant, with all its steps before it. -/
theorem PumpTask.PlaysAlone.start (h : task.PlaysAlone clock store domain oracle o) (now : R) :
    ∃ setup run, Slot.start now task domain oracle = .active setup run ∧
      task.OnTheWay clock store domain oracle setup run (World.enoughSteps task.settings) := by
  obtain ⟨alone, run, hlaunch⟩ := task.launch_of_run h.solo
  refine ⟨alone.startedAt now, run, ?_, alone, { shared := { store, token := some {} }, run },
    ⟨run, hlaunch, .start⟩, rfl, rfl, ⟨rfl, rfl, rfl, rfl⟩⟩
  unfold Slot.start
  rw [PumpTask.launch_startedAt hlaunch now]

/-- A step on the way of the run alone leads on, or the signal is up and cuts the run off. -/
theorem PumpTask.OnTheWay.step (hon : task.OnTheWay clock store domain oracle setup run k)
    (h : task.PlaysAlone clock store domain oracle o)
    (going : ∀ result, run.stage ≠ .ended result) (now : R) {shared : Shared R} {raised : Bool}
    (htoken : shared.token = some { raised }) :
    (World.step setup now { shared, run }).shared.token = shared.token ∧
      ((∃ j, k = j + 1 ∧ task.OnTheWay clock store domain oracle setup
          (World.step setup now { shared, run }).run j) ∨
        raised = true ∧ ∃ cut,
          (World.step setup now { shared, run }).run.stage = .ended (.ok cut) ∧ cut.CutOff o) := by
  obtain ⟨alone, v, hv, hdown, hsetup, hsame⟩ := hon
  have going' : ∀ result, v.run.stage ≠ .ended result := by
    rw [← hsame.stage]
    exact going
  obtain ⟨j, rfl, hnext, -, -⟩ := hv.next h.solo going'
  have go := h.not_stopped hv hdown (clock j)
  have htwins : World.Twins shared.token (some {}) { shared, run } v :=
    ⟨hsame.workspace, hsame.oracle, hsame.trace, rfl, hdown⟩
  have hstep := htwins.step setup.started now (h.silent_setup hv) hsame.stage go
  rw [← hsetup] at hstep
  rcases hstep with ⟨hstep, hstage⟩ | ⟨stop, hkept, cut, hcut, hending, htrace⟩
  · refine ⟨hstep.token_eq, .inl ⟨j, rfl, alone, _, hnext, h.token_eq hnext, hsetup, ?_⟩⟩
    exact ⟨hstep.workspace, hstep.oracle, hstep.trace, hstage⟩
  · refine ⟨hkept, .inr ⟨?_, cut, hcut, hending, ?_⟩⟩
    · have hlimit : setup.settings.timeBudget = none := by
        obtain ⟨run, hlaunch, -⟩ := hv
        rw [hsetup]
        show alone.settings.timeBudget = none
        rw [(PumpTask.launched_of_launch hlaunch).settings, h.unhurried]
      simpa [World.isCancelled, Shared.isCancelled, Token.isCancelled, htoken, hlimit] using stop
    · rw [htrace]
      exact h.trace_isPrefix hv going'

/-- On the way of the run alone a run ends with the outcome of the run alone. -/
theorem PumpTask.OnTheWay.result_eq (hon : task.OnTheWay clock store domain oracle setup run k)
    (h : task.PlaysAlone clock store domain oracle o) {result : Except (Fault R) (Outcome R)}
    (hended : run.stage = .ended result) : result = .ok o := by
  obtain ⟨alone, v, hv, -, -, hsame⟩ := hon
  rw [hsame.stage] at hended
  exact h.result_eq hv hended

/-- A slot that tracks its run goes on to do so when the signal goes up. -/
theorem Slot.Tracks.mono {raised raised' : Prop} {slot : Slot R σ} {job : PumpTask R σ × Outcome R}
    (h : slot.Tracks clock store domain oracle raised job) (hraised : raised → raised') :
    slot.Tracks clock store domain oracle raised' job := by
  cases slot with
  | waiting task domain' oracle' => exact h
  | active setup run => exact h.imp_right fun h => ⟨hraised h.1, h.2⟩
  | finished result oracle' lines => exact h.imp_right fun h => ⟨hraised h.1, h.2⟩

end Slots

section Pools

variable {R σ : Type} [Arith R] {clock : Nat → R} {store : Store R} {domain : Domain R}
  {oracle : σ} {jobs : List (PumpTask R σ × Outcome R)} {p p' : Pool R σ} {now : R} {i : Nat}

/-- A slot that has not finished has not succeeded. -/
theorem Slot.not_succeeded {slot : Slot R σ} (h : slot.result? = none) : ¬ slot.Succeeded := by
  rintro ⟨o, ho, -⟩
  rw [h] at ho
  cases ho

/-- The signal is down or up. -/
theorem Pool.Tracked.token_eq (h : p.Tracked clock store domain oracle jobs) :
    ∃ raised : Bool, p.shared.token = some { raised } ∧ (raised = true → p.Raised) := by
  rcases h.signal with hdown | ⟨hup, -⟩
  · exact ⟨false, hdown, nofun⟩
  · exact ⟨true, hup, fun _ => hup⟩

/-- A slot that has not finished may change, while the signal stays as it is. -/
theorem Pool.Tracked.replace (h : p.Tracked clock store domain oracle jobs)
    {old new : Slot R σ} {job : PumpTask R σ × Outcome R} (hold : p.slots[i]? = some old)
    (hjob : jobs[i]? = some job) (hrunning : old.result? = none)
    (hnew : new.Tracks clock store domain oracle p.Raised job) {shared : Shared R}
    (htoken : shared.token = p.shared.token) :
    ({ p with shared, slots := p.slots.set i new } : Pool R σ).Tracked
      clock store domain oracle jobs := by
  have hraised : ({ p with shared, slots := p.slots.set i new } : Pool R σ).Raised ↔ p.Raised := by
    unfold Pool.Raised
    rw [htoken]
  constructor
  · rw [hraised]
    exact Vec.forall₂_set_left h.slots hjob hnew
  · rw [hraised]
    show shared.token = some {} ∨ _
    rw [htoken]
    refine h.signal.imp_right fun ⟨hup, hcancel, hwon⟩ => ⟨hup, hcancel, ?_⟩
    exact (exists_mem_set hold fun hsuccess =>
      absurd hsuccess (Slot.not_succeeded hrunning)).mpr (.inr hwon)

/-- A slot that finishes with a success may raise the signal. -/
theorem Pool.Tracked.raise (h : p.Tracked clock store domain oracle jobs)
    {old new : Slot R σ} {job : PumpTask R σ × Outcome R} (hold : p.slots[i]? = some old)
    (hjob : jobs[i]? = some job) (hnew : new.Tracks clock store domain oracle p.Raised job)
    (hcancel : p.cancelOnSuccess = true) (hsuccess : new.Succeeded) :
    ({ p with shared := p.shared.cancel, slots := p.slots.set i new } : Pool R σ).Tracked
      clock store domain oracle jobs := by
  obtain ⟨raised, htoken, -⟩ := h.token_eq
  have hraised : ({ p with shared := p.shared.cancel, slots := p.slots.set i new } :
      Pool R σ).Raised := by
    show p.shared.token.map Token.cancel = _
    rw [htoken]
    rfl
  obtain ⟨hi, -⟩ := List.getElem?_eq_some_iff.mp hold
  constructor
  · refine (Vec.forall₂_set_left h.slots hjob hnew).imp fun slot job hslot => ?_
    exact hslot.mono fun _ => hraised
  · exact .inr ⟨hraised, hcancel, new, List.mem_set hi _, hsuccess⟩

/-- Every move keeps a pool on the way of the runs alone. -/
theorem Pool.Tracked.move (hjobs : ∀ job ∈ jobs, job.1.PlaysAlone clock store domain oracle job.2)
    (h : p.Tracked clock store domain oracle jobs) (hmove : Pool.Move now i p p') :
    p'.Tracked clock store domain oracle jobs := by
  cases hmove with
  | stays => exact h
  | starts hslot free =>
      obtain ⟨job, hjob, htracks⟩ := Vec.forall₂_getElem? h.slots hslot
      obtain ⟨rfl, rfl, rfl⟩ := htracks
      have hplays := hjobs job (List.mem_of_getElem? hjob)
      obtain ⟨setup, run, hstart, hon⟩ := hplays.start now
      rw [hstart]
      have hnew : (Slot.active setup run).Tracks clock store _ _ p.Raised job := Or.inl ⟨_, hon⟩
      exact h.replace hslot hjob rfl hnew rfl
  | steps hslot going hw =>
      subst hw
      obtain ⟨job, hjob, htracks⟩ := Vec.forall₂_getElem? h.slots hslot
      have hplays := hjobs job (List.mem_of_getElem? hjob)
      obtain ⟨raised, htoken, hup⟩ := h.token_eq
      rcases htracks with ⟨k, hon⟩ | ⟨-, cut, hcut, -⟩
      · obtain ⟨hkept, hnext⟩ := hon.step hplays going now htoken
        refine h.replace hslot hjob rfl ?_ hkept
        rcases hnext with ⟨j, -, hon⟩ | ⟨hraised, cut⟩
        · exact .inl ⟨j, hon⟩
        · exact .inr ⟨hup hraised, cut⟩
      · exact absurd hcut (going _)
  | @ends setup run result hslot ended =>
      obtain ⟨job, hjob, htracks⟩ := Vec.forall₂_getElem? h.slots hslot
      have hplays := hjobs job (List.mem_of_getElem? hjob)
      have hresult : (Slot.finished result run.oracle run.lines).Tracks clock store domain oracle
          p.Raised job := by
        rcases htracks with ⟨k, hon⟩ | ⟨hup, cut, hcut, hcutOff⟩
        · exact .inl (hon.result_eq hplays ended)
        · exact .inr ⟨hup, cut, Stage.ended.inj (ended.symm.trans hcut), hcutOff⟩
      split
      · rename_i hcancel
        rw [Bool.and_eq_true] at hcancel
        refine h.raise hslot hjob hresult hcancel.1 ?_
        cases result with
        | ok o => exact ⟨o, rfl, hcancel.2⟩
        | error e => cases hcancel.2
      · exact h.replace hslot hjob rfl hresult rfl

end Pools

section Completion

variable {R σ : Type} [Arith R] {clock : Nat → R} {store : Store R} {domain : Domain R}
  {oracle : σ} {jobs : List (PumpTask R σ × Outcome R)} {p : Pool R σ} {i : Nat}

/-- What every move keeps is true after every schedule. -/
theorem Pool.Tracked.follow
    (hjobs : ∀ job ∈ jobs, job.1.PlaysAlone clock store domain oracle job.2)
    (h : p.Tracked clock store domain oracle jobs) (schedule : List (Nat × R)) :
    (p.follow schedule).Tracked clock store domain oracle jobs :=
  Pool.follow_induct (fun _ _ _ _ h hmove => h.move hjobs hmove) schedule h

/-- A run on its way finishes if it takes enough steps. -/
theorem Pool.Tracked.finish_of_onTheWay
    (hjobs : ∀ job ∈ jobs, job.1.PlaysAlone clock store domain oracle job.2) {setup : Setup R σ}
    {run : Run R σ} {k : Nat} {job : PumpTask R σ × Outcome R} (hjob : jobs[i]? = some job)
    (h : p.Tracked clock store domain oracle jobs)
    (hslot : p.slots[i]? = some (.active setup run))
    (hon : job.1.OnTheWay clock store domain oracle setup run k) :
    ∃ more slot, slot.isFinished = true ∧ (p.follow more).slots = p.slots.set i slot := by
  induction k using Nat.strongRecOn generalizing p run with
  | ind k ih =>
    by_cases hended : ∃ result, run.stage = .ended result
    · obtain ⟨result, hended⟩ := hended
      exact ⟨[(i, clock 0)], _, rfl, Pool.slots_step_of_ended hslot hended _⟩
    · have going : ∀ result, run.stage ≠ .ended result := not_exists.mp hended
      have hplays := hjobs job (List.mem_of_getElem? hjob)
      have hstep := Pool.slots_step_of_going hslot going (clock 0)
      have htracked := h.move hjobs (Pool.step_move (clock 0) i p)
      obtain ⟨raised, htoken, -⟩ := h.token_eq
      obtain ⟨-, hnext⟩ := hon.step hplays going (clock 0) htoken
      generalize (World.step setup (clock 0) { shared := p.shared, run }).run = run' at hstep hnext
      obtain ⟨hi, -⟩ := List.getElem?_eq_some_iff.mp hslot
      have hslot' : (p.step (clock 0) i).slots[i]? = some (.active setup run') := by
        rw [hstep]
        exact List.getElem?_set_self hi
      rcases hnext with ⟨j, rfl, hon'⟩ | ⟨-, cut, hcut, -⟩
      · obtain ⟨more, slot, hfinished, hslots⟩ := ih j (Nat.lt_succ_self j) htracked hslot' hon'
        refine ⟨(i, clock 0) :: more, slot, hfinished, ?_⟩
        show ((p.step (clock 0) i).follow more).slots = _
        rw [hslots, hstep, List.set_set]
      · have hend := Pool.slots_step_of_ended hslot' hcut (clock 0)
        rw [hstep, List.set_set] at hend
        exact ⟨[(i, clock 0), (i, clock 0)], _, rfl, hend⟩

/-- A run that is under way finishes if it takes enough steps. -/
theorem Pool.Tracked.finish
    (hjobs : ∀ job ∈ jobs, job.1.PlaysAlone clock store domain oracle job.2)
    (h : p.Tracked clock store domain oracle jobs) {setup : Setup R σ} {run : Run R σ}
    (hslot : p.slots[i]? = some (.active setup run)) :
    ∃ more slot, slot.isFinished = true ∧ (p.follow more).slots = p.slots.set i slot := by
  obtain ⟨job, hjob, ⟨k, hon⟩ | ⟨-, cut, hcut, -⟩⟩ := Vec.forall₂_getElem? h.slots hslot
  · exact h.finish_of_onTheWay hjobs hjob hslot hon
  · exact ⟨[(i, clock 0)], _, rfl, Pool.slots_step_of_ended hslot hcut _⟩

/-- When all slots have finished there are outcomes. -/
theorem Pool.Tracked.exists_outcomes (h : p.Tracked clock store domain oracle jobs)
    (hfinished : ∀ slot ∈ p.slots, slot.isFinished = true) : ∃ os, p.outcomes = .ok os := by
  refine Vec.exists_mapM fun slot hslot => ?_
  obtain ⟨job, -, htracks⟩ := Vec.exists_of_mem_left h.slots hslot
  have hkind := hfinished slot hslot
  cases slot with
  | waiting task domain' oracle' => cases hkind
  | active setup run => cases hkind
  | finished result oracle' lines =>
      rcases htracks with rfl | ⟨-, cut, rfl, -⟩
      · exact ⟨job.2, rfl⟩
      · exact ⟨cut, rfl⟩

/-- Number of slots that have not finished. -/
def Pool.unfinished (p : Pool R σ) : Nat := p.slots.countP fun slot => !slot.isFinished

theorem Pool.unfinished_of_set {p' : Pool R σ} {old new : Slot R σ} (hold : p.slots[i]? = some old)
    (hslots : p'.slots = p.slots.set i new) (hrunning : old.isFinished = false)
    (hfinished : new.isFinished = true) : p'.unfinished < p.unfinished := by
  obtain ⟨hi, rfl⟩ := List.getElem?_eq_some_iff.mp hold
  unfold unfinished
  rw [hslots, List.countP_set hi, hrunning, hfinished]
  have hpos : 0 < p.slots.countP fun slot => !slot.isFinished :=
    List.countP_pos_iff.mpr ⟨_, List.getElem_mem hi, by rw [hrunning]; rfl⟩
  rw [Bool.not_false, Bool.not_true, if_pos rfl, if_neg Bool.false_ne_true]
  omega

/-- If a worker is there, one more slot can finish. -/
theorem Pool.Tracked.finish_one
    (hjobs : ∀ job ∈ jobs, job.1.PlaysAlone clock store domain oracle job.2)
    (h : p.Tracked clock store domain oracle jobs) (hworkers : 1 ≤ p.workers)
    (hrunning : ∃ slot ∈ p.slots, slot.isFinished = false) :
    ∃ more, (p.follow more).unfinished < p.unfinished := by
  by_cases hactive : ∃ slot ∈ p.slots, slot.isActive = true
  · obtain ⟨slot, hslot, hkind⟩ := hactive
    obtain ⟨i, hslot⟩ := List.getElem?_of_mem hslot
    cases slot with
    | waiting task domain' oracle' => cases hkind
    | finished result oracle' lines => cases hkind
    | active setup run =>
        obtain ⟨more, slot, hfinished, hslots⟩ := h.finish hjobs hslot
        exact ⟨more, Pool.unfinished_of_set hslot hslots rfl hfinished⟩
  · have hidle : ∀ slot ∈ p.slots, slot.isActive = false := fun slot hslot =>
      Bool.eq_false_iff.mpr fun hkind => hactive ⟨slot, hslot, hkind⟩
    obtain ⟨i, task, domain', oracle', hslot, hfree⟩ := Pool.exists_mayStart hworkers hidle (by
      obtain ⟨slot, hslot, hkind⟩ := hrunning
      have hslotIdle := hidle slot hslot
      cases slot with
      | waiting task domain' oracle' => exact ⟨_, hslot, rfl⟩
      | finished result oracle' lines => cases hkind
      | active setup run => cases hslotIdle)
    have htracked := h.move hjobs (Pool.step_move (clock 0) i p)
    obtain ⟨job, hjob, rfl, rfl, rfl⟩ := Vec.forall₂_getElem? h.slots hslot
    obtain ⟨setup, run, hstart, -⟩ := (hjobs job (List.mem_of_getElem? hjob)).start (clock 0)
    have hstep := Pool.step_of_waiting hslot hfree (clock 0)
    rw [hstart] at hstep
    obtain ⟨hi, -⟩ := List.getElem?_eq_some_iff.mp hslot
    have hslot' : (p.step (clock 0) i).slots[i]? = some (.active setup run) := by
      rw [hstep]
      exact List.getElem?_set_self hi
    obtain ⟨more, slot, hfinished, hslots⟩ := htracked.finish hjobs hslot'
    refine ⟨(i, clock 0) :: more, Pool.unfinished_of_set hslot ?_ rfl hfinished⟩
    show ((p.step (clock 0) i).follow more).slots = _
    rw [hslots, hstep, List.set_set]

/-- If a worker is there, every pool on its way comes to outcomes. -/
theorem Pool.Tracked.complete
    (hjobs : ∀ job ∈ jobs, job.1.PlaysAlone clock store domain oracle job.2)
    (h : p.Tracked clock store domain oracle jobs) (hworkers : 1 ≤ p.workers) :
    ∃ more os, (p.follow more).outcomes = .ok os := by
  induction hn : p.unfinished using Nat.strongRecOn generalizing p with
  | ind n ih =>
    by_cases hrunning : ∃ slot ∈ p.slots, slot.isFinished = false
    · obtain ⟨more, hless⟩ := h.finish_one hjobs hworkers hrunning
      rw [hn] at hless
      obtain ⟨rest, os, hos⟩ := ih _ hless (h.follow hjobs more)
        (by rw [(Pool.follow_frame p more).1]; exact hworkers) rfl
      exact ⟨more ++ rest, os, by rw [Pool.follow_append]; exact hos⟩
    · obtain ⟨os, hos⟩ := h.exists_outcomes fun slot hslot => by
        cases hkind : slot.isFinished with
        | true => rfl
        | false => exact absurd ⟨slot, hslot, hkind⟩ hrunning
      exact ⟨[], os, hos⟩

end Completion

section Results

variable {R σ : Type} [Arith R]

/-- The task of one seed. -/
def PumpTask.ofSeed (settings : Settings R) (seed : Int) (problem : Problem R)
    (oracle : Oracle R σ) : PumpTask R σ :=
  { name := "fp-seed" ++ toString seed
    settings := { settings with randomSeed := seed }
    problem, oracle }

/-- The runs of several seeds before their first steps, with the signal down. -/
def Pool.ofSeeds (settings : Settings R) (problem : Problem R) (oracle : Oracle R σ)
    (domain : Domain R) (state : σ) (store : Store R) (seeds : List Int) (workers : Nat)
    (cancelOnSuccess : Bool) : Pool R σ :=
  { shared := { store, token := some {} }
    slots := seeds.map fun seed => Pool.seeded settings seed problem oracle domain state
    workers, cancelOnSuccess }

variable {clock : Nat → R} {domain : Domain R}

/-- Before the first step all slots track their runs, which have not started. -/
theorem Pool.tracked_ofSeeds (settings : Settings R) (problem : Problem R) (oracle : Oracle R σ)
    (clock : Nat → R) (domain : Domain R) (state : σ) (store alone : Store R) (seeds : List Int)
    (workers : Nat) (cancelOnSuccess : Bool) (solo : Int → Outcome R) :
    (Pool.ofSeeds settings problem oracle domain state store seeds workers cancelOnSuccess).Tracked
      clock alone domain state
      (seeds.map fun seed => (PumpTask.ofSeed settings seed problem oracle, solo seed)) where
  slots := by
    refine List.forall₂_map_left_iff.mpr (List.forall₂_map_right_iff.mpr ?_)
    exact List.forall₂_same.mpr fun seed _ => ⟨rfl, rfl, rfl⟩
  signal := .inl rfl

variable {oracle : σ} {store : Store R} {jobs : List (PumpTask R σ × Outcome R)} {p : Pool R σ}
  {os : List (Outcome R)}

/-- The outcomes are those of the runs alone, or the signal is up and they were cut off. -/
theorem Pool.Tracked.outcomes (h : p.Tracked clock store domain oracle jobs)
    (hos : p.outcomes = .ok os) :
    List.Forall₂ (fun o (job : PumpTask R σ × Outcome R) =>
      o = job.2 ∨ p.Raised ∧ o.CutOff job.2) os jobs := by
  refine Vec.forall₂_combine (fun slot o job hresult htracks => ?_)
    (Pool.outcomes_eq_ok.mp hos) h.slots
  cases slot with
  | waiting task domain' oracle' => cases hresult
  | active setup run => cases hresult
  | finished result oracle' lines =>
      cases hresult
      rcases htracks with hsame | ⟨hup, cut, hcut, hcutOff⟩
      · exact .inl (Except.ok.inj hsame)
      · cases hcut
        exact .inr ⟨hup, hcutOff⟩

/-- If the signal is up some outcome is a success. -/
theorem Pool.Tracked.exists_success (h : p.Tracked clock store domain oracle jobs)
    (hos : p.outcomes = .ok os) (hup : p.Raised) :
    p.cancelOnSuccess = true ∧ ∃ o ∈ os, o.ending.isSuccess = true := by
  rcases h.signal with hdown | ⟨-, hcancel, slot, hslot, o, ho, hsuccess⟩
  · rw [Pool.Raised, hdown] at hup
    cases hup
  · obtain ⟨o', ho', hresult⟩ := Vec.exists_of_mem_left (Pool.outcomes_eq_ok.mp hos) hslot
    rw [ho] at hresult
    cases hresult
    exact ⟨hcancel, o, ho', hsuccess⟩

/-- **Runs beside each other.**  Take runs that differ in their seeds only, share a signal that nobody
else raises and have no time limit, and that have outcomes when each is made alone.  In whatever order
they take their steps, each outcome is the one of the run alone, or the run was cancelled on the way to
it; it is always the one of the run alone if a success does not raise the signal; a run is cancelled
only if some outcome is a success; and some outcome is a success if and only if this is so for the
runs alone.  Every order of steps can be carried on until there are outcomes. -/
theorem Pool.outcomes_of_follow {settings : Settings R} {problem : Problem R}
    {oracle : Oracle R σ} {state : σ} {store alone : Store R} {seeds : List Int}
    {workers : Nat} {cancelOnSuccess : Bool} {solo : Int → Outcome R}
    (hsilent : oracle.Silent) (hunhurried : settings.timeBudget = none)
    (hsolo : ∀ seed ∈ seeds, ((PumpTask.ofSeed settings seed problem oracle).run clock
      { store := alone, token := some {} } domain state).result = .ok (solo seed))
    (hworkers : 1 ≤ workers) :
    (∀ schedule os,
      ((Pool.ofSeeds settings problem oracle domain state store seeds workers
        cancelOnSuccess).follow schedule).outcomes = .ok os →
      List.Forall₂ (fun o seed => o = solo seed ∨ o.CutOff (solo seed)) os seeds ∧
      (cancelOnSuccess = false → os = seeds.map solo) ∧
      ((∃ o ∈ os, o.ending = .failure .cancelled) → ∃ o ∈ os, o.ending.isSuccess = true) ∧
      ((∃ o ∈ os, o.ending.isSuccess = true) ↔
        ∃ seed ∈ seeds, (solo seed).ending.isSuccess = true)) ∧
    ∀ schedule, ∃ more os,
      ((Pool.ofSeeds settings problem oracle domain state store seeds workers
        cancelOnSuccess).follow (schedule ++ more)).outcomes = .ok os := by
  have hstart := Pool.tracked_ofSeeds settings problem oracle clock domain state store alone seeds
    workers cancelOnSuccess solo
  have hplays : ∀ seed ∈ seeds, (PumpTask.ofSeed settings seed problem oracle).PlaysAlone clock
      alone domain state (solo seed) := fun seed hseed => ⟨hsilent, hunhurried, hsolo seed hseed⟩
  have hjobs : ∀ job ∈ seeds.map fun seed =>
      (PumpTask.ofSeed settings seed problem oracle, solo seed),
      job.1.PlaysAlone clock alone domain state job.2 := by
    intro job hjob
    obtain ⟨seed, hseed, rfl⟩ := List.mem_map.mp hjob
    exact hplays seed hseed
  refine ⟨fun schedule os hos => ?_, fun schedule => ?_⟩
  · have htracked := hstart.follow hjobs schedule
    have hresults := List.forall₂_map_right_iff.mp (htracked.outcomes hos)
    have hsuccess := htracked.exists_success hos
    rw [(Pool.follow_frame _ schedule).2] at hsuccess
    refine ⟨hresults.imp fun o seed h => h.imp_right And.right, fun hkeep => ?_, ?_, ?_, ?_⟩
    · have hsame : List.Forall₂ (fun o seed => o = solo seed) os seeds := hresults.imp
        fun o seed h => h.resolve_right fun hcut =>
          absurd ((hsuccess hcut.1).1.symm.trans hkeep) (by decide)
      rw [← List.forall₂_map_right_iff (R := Eq), List.forall₂_eq_eq_eq] at hsame
      exact hsame
    · rintro ⟨o, ho, hcancelled⟩
      obtain ⟨seed, hseed, rfl | ⟨hup, -⟩⟩ := Vec.exists_of_mem_left hresults ho
      · exact absurd hcancelled (hplays seed hseed).not_cancelled
      · exact (hsuccess hup).2
    · rintro ⟨o, ho, hwon⟩
      obtain ⟨seed, hseed, rfl | ⟨-, hending, -⟩⟩ := Vec.exists_of_mem_left hresults ho
      · exact ⟨seed, hseed, hwon⟩
      · rw [hending] at hwon
        cases hwon
    · rintro ⟨seed, hseed, hwon⟩
      obtain ⟨o, ho, rfl | ⟨hup, -⟩⟩ := Vec.exists_of_mem_left hresults.flip hseed
      · exact ⟨_, ho, hwon⟩
      · exact (hsuccess hup).2
  · have htracked := hstart.follow hjobs schedule
    obtain ⟨more, os, hos⟩ := htracked.complete hjobs
      (by rw [(Pool.follow_frame _ schedule).1]; exact hworkers)
    exact ⟨more, os, by rw [Pool.follow_append]; exact hos⟩

/-- Two seeds for one problem, where the first success stops the other run. -/
def halfwayPair : Pool ExtRat Unit :=
  Pool.ofSeeds PumpTask.halfway.settings PumpTask.halfway.problem PumpTask.halfway.oracle
    { box := { lb := [.fin 0], ub := [.fin 1] } } () {} [1, 2] 2 true

/-- Both runs start, and then the first one takes its steps before the second one goes on. -/
def firstThenSecond : List (Nat × ExtRat) :=
  (List.replicate 2 (1, .fin 0)) ++ (List.replicate 8 (0, .fin 0)) ++ List.replicate 8 (1, .fin 0)

/-- The second run is cut off and the first one is not. -/
theorem Pool.outcomes_of_follow_halfway :
    ∃ (solo : Int → Outcome ExtRat) (os : List (Outcome ExtRat)),
      (halfwayPair.follow firstThenSecond).outcomes = .ok os ∧
      List.Forall₂ (fun o seed => o = solo seed ∨ o.CutOff (solo seed)) os [1, 2] ∧
      os.map (·.ending.isSuccess) = [true, false] ∧
      ∃ seed ∈ [1, 2], (solo seed).ending.isSuccess = true := by
  have hruns (seed : Int) (hseed : seed ∈ [(1 : Int), 2]) :
      ∃ o, ((PumpTask.ofSeed PumpTask.halfway.settings seed PumpTask.halfway.problem
        PumpTask.halfway.oracle).run (fun _ => .fin 0) { store := {}, token := some {} }
        { box := { lb := [.fin 0], ub := [.fin 1] } } ()).result = .ok o := by
    refine Act.exists_ok_of_isOk ?_
    rcases List.mem_pair.mp hseed with rfl | rfl <;> decide +kernel
  have : Nonempty (Outcome ExtRat) := ⟨(hruns 1 (List.mem_cons_self ..)).choose⟩
  choose! solo hsolo using hruns
  obtain ⟨os, hos⟩ : ∃ os, (halfwayPair.follow firstThenSecond).outcomes = .ok os :=
    Act.exists_ok_of_isOk (by decide +kernel)
  have hwon : (halfwayPair.follow firstThenSecond).outcomes.toOption.map
      (fun os => os.map (·.ending.isSuccess)) = some [true, false] := by decide +kernel
  rw [hos] at hwon
  have hwon : os.map (·.ending.isSuccess) = [true, false] := Option.some.inj hwon
  obtain ⟨hresults, -, -, hsuccess⟩ :=
    (Pool.outcomes_of_follow (fun _ _ _ => by rfl) (by rfl) hsolo (by decide)).1
      firstThenSecond os hos
  refine ⟨solo, os, hos, hresults, hwon, hsuccess.mp ?_⟩
  have hmem : true ∈ os.map (·.ending.isSuccess) := by
    rw [hwon]
    exact List.mem_cons_self ..
  obtain ⟨o, ho, htrue⟩ := List.mem_map.mp hmem
  exact ⟨o, ho, htrue⟩

end Results

end MipPump
