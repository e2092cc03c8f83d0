import MipPump.Proofs.Launches
import MipPump.Proofs.Ledger
import MipPump.Proofs.Lockstep

/-!
# Runs that mirror each other

Two runs of one task may differ in the seed, in the oracle and in the clock.  If the oracles reply
alike, if drawing comes to the same in both runs and if they are stopped by time together, then the
runs mirror each other: step by step they have the same trace, the same bounds and the same store.

* `World.Mirrors Q T deadline w v`: the worlds of two such runs, with progress related by `Q` and
  oracles in states related by `T`.
* `Setup.Couples Q setup other`: what draws takes progress related by `Q` to such progress.
* `Mirrors.pace`, `Mirrors.asks`: the parts of a step keep worlds mirrored; `Mirrors.advance` does so
  for the steps of a run.
* `PumpTask.run_mirrors`: the reports of the runs.
* `Oracle.recording`: an oracle that keeps a log of what it is asked.  By `report_recording` a run
  does not notice the log.
-/

namespace MipPump

section Definitions

variable {R σ τ : Type}

/-- Workspaces with related progress that are the same otherwise. -/
structure Rounding.Workspace.Mirrors (Q : Progress R → Progress R → Prop)
    (a b : Rounding.Workspace R) : Prop where
  domain : b.domain = a.domain
  propagator : b.propagator = a.propagator
  progress : Q a.progress b.progress

/-- The instant from which on the signal to stop is up by itself. -/
def Shared.deadline? (s : Shared R) : Option R := s.token.bind (·.deadline)

/-- The worlds of two runs with related progress and with oracles in related states, which are the
same otherwise.  What they print may differ. -/
structure World.Mirrors (Q : Progress R → Progress R → Prop) (T : σ → τ → Prop)
    (deadline : Option R) (w : World R σ) (v : World R τ) : Prop where
  shared : v.shared = w.shared
  trace : v.run.trace = w.run.trace
  workspace : w.run.workspace.Mirrors Q v.run.workspace
  oracle : T w.run.oracle v.run.oracle
  deadline_eq : w.shared.deadline? = deadline

variable [Arith R]

/-- In related states the oracles reply alike, and they come to related states. -/
def Oracle.Mirrors (T : σ → τ → Prop) (oracle : Oracle R σ) (other : Oracle R τ) : Prop :=
  ∀ s t box goal, T s t →
    (other t box goal).answer = (oracle s box goal).answer ∧
    (other t box goal).cancels = (oracle s box goal).cancels ∧
    T (oracle s box goal).next (other t box goal).next

/-- The parts of a step that may draw agree on related progress. -/
structure Setup.Couples (Q : Progress R → Progress R → Prop) (setup : Setup R σ)
    (other : Setup R τ) : Prop where
  alike : setup.Alike other
  drawn : ∀ {p q}, Q p q → p.Drawn q
  edit : ∀ {f p q}, Progress.Blind f → Q p q → Q (f p) (f q)
  round : ∀ point, Act.Agree (Rounding.Workspace.Mirrors Q) (World.roundOrNearest setup point)
    (World.roundOrNearest other point)
  perturb : ∀ point candidate, Act.Agree Q
    (Perturber.perturb setup.settings setup.table setup.ranker point candidate)
    (Perturber.perturb other.settings other.table other.ranker point candidate)
  restart : ∀ point candidate, Act.Agree Q
    (Perturber.restart setup.settings setup.table setup.ranker point candidate)
    (Perturber.restart other.settings other.table other.ranker point candidate)

/-- At the two instants either none or both of the runs are stopped by time. -/
structure Setup.InStep (deadline : Option R) (setup : Setup R σ) (other : Setup R τ)
    (now now' : R) : Prop where
  deadline : deadline.any (Arith.reached now') = deadline.any (Arith.reached now)
  budget : setup.settings.timeBudget.any (Arith.reached (now' - other.started)) =
    setup.settings.timeBudget.any (Arith.reached (now - setup.started))

/-- The same task with another oracle and seed. -/
def PumpTask.replaced (task : PumpTask R σ) (oracle : Oracle R τ) (seed : Int) : PumpTask R τ :=
  { name := task.name
    settings := { task.settings with randomSeed := seed }
    problem := task.problem
    oracle }

/-- Under either clock the runs of a task are stopped by time at the same steps. -/
def PumpTask.StopsAlike (task : PumpTask R σ) (deadline : Option R) (clock clock' : Nat → R) :
    Prop :=
  ∀ k, deadline.any (Arith.reached (clock' k)) = deadline.any (Arith.reached (clock k)) ∧
    task.settings.timeBudget.any
        (Arith.reached (clock' k - clock' (World.enoughSteps task.settings))) =
      task.settings.timeBudget.any
        (Arith.reached (clock k - clock (World.enoughSteps task.settings)))

/-- A question to an oracle. -/
structure Question (R : Type) where
  box : Box R
  goal : Goal R

/-- The state of an oracle, with what the oracle was asked, the earliest first. -/
abbrev Logged (R σ : Type) := σ × List (Question R)

/-- The oracle with a log of what it is asked. -/
def Oracle.recording (oracle : Oracle R σ) : Oracle R (Logged R σ) := fun s box goal =>
  let reply := oracle s.1 box goal
  { answer := reply.answer
    cancels := reply.cancels
    next := (reply.next, s.2 ++ [{ box, goal }]) }

/-- The same task with a log of what its oracle is asked. -/
def PumpTask.recording (task : PumpTask R σ) : PumpTask R (Logged R σ) :=
  task.replaced task.oracle.recording task.settings.randomSeed

/-- Reports that agree in everything but the printed lines, with oracles in related states. -/
structure Report.Mirrors (T : σ → τ → Prop) (a : Report R σ) (b : Report R τ) : Prop where
  result : b.result = a.result
  trace : b.trace = a.trace
  domain : b.domain = a.domain
  shared : b.shared = a.shared
  oracle : T a.oracle b.oracle

end Definitions

namespace World

open Act

variable {R σ τ : Type} [Arith R] {Q : Progress R → Progress R → Prop} {T : σ → τ → Prop}
  {deadline : Option R} {setup : Setup R σ} {other : Setup R τ} {w : World R σ} {v : World R τ}
  {now now' : R}

section Parts

omit [Arith R] in
theorem Mirrors.agree_onWorkspace {α : Type} {act other : Act R (Rounding.Workspace R) α}
    (h : Agree (Rounding.Workspace.Mirrors Q) act other) :
    Agree (Mirrors Q T deadline) (onWorkspace act) (onWorkspace other) := by
  refine agree_zoom h (fun w v hwv => hwv.workspace) ?_
  intro w v x y hwv hxy
  exact { hwv with workspace := hxy }

omit [Arith R] in
theorem Mirrors.agree_onProgress {α : Type} {act other : Act R (Progress R) α}
    (h : Agree Q act other) :
    Agree (Mirrors Q T deadline) (onProgress act) (onProgress other) := by
  refine agree_onWorkspace (agree_zoom h (fun a b hab => hab.progress) ?_)
  intro a b x y hab hxy
  exact { hab with progress := hxy }

omit [Arith R] in
theorem Mirrors.agree_print (line line' : Line R) :
    Agree (Mirrors (σ := σ) (τ := τ) Q T deadline) (print line) (print line') :=
  agree_modify fun _ _ h => { h with }

theorem Mirrors.agree_record (h : setup.Couples Q other) (phase : Phase) (d : Distance R)
    (point : List R) : Agree (Mirrors Q T deadline) (record setup now phase d point)
      (record other now' phase d point) := by
  obtain ⟨_, _, _, rfl⟩ := h.alike
  refine agree_get_bind fun w v hwv => ?_
  obtain ⟨g, hg⟩ := h.drawn hwv.workspace.progress
  dsimp only
  rw [hg]
  refine agree_bind (agree_ofExcept _) fun k => ?_
  refine agree_bind (agree_modify ?_) fun _ => agree_ite (agree_print _ _) (agree_pure _)
  intro w v hwv
  exact { hwv with trace := congrArg (· ++ _) hwv.trace }

theorem Mirrors.pace (h : setup.Couples Q other) :
    Pace (Mirrors Q T deadline) setup other now now' where
  alike := h.alike
  progress hwv := h.drawn hwv.workspace.progress
  trace hwv := hwv.trace
  edit hf := agree_onProgress (agree_modify fun _ _ hpq => h.edit hf hpq)
  print line := agree_print line line
  record := agree_record h
  perturb point candidate := agree_onProgress (h.perturb point candidate)
  restart point candidate := agree_onProgress (h.restart point candidate)

omit [Arith R] in
theorem deadline?_cancel (s : Shared R) : s.cancel.deadline? = s.deadline? := by
  unfold Shared.deadline? Shared.cancel
  cases s.token <;> rfl

theorem Mirrors.agree_ask (h : setup.oracle.Mirrors T other.oracle) (box : Box R) (goal : Goal R) :
    Agree (Mirrors Q T deadline) (ask setup box goal) (ask other box goal) := by
  intro w v hwv
  obtain ⟨hanswer, hcancels, hnext⟩ := h _ _ box goal hwv.oracle
  have hreplied : Mirrors Q T deadline (w.replied (setup.oracle w.run.oracle box goal))
      (v.replied (other.oracle v.run.oracle box goal)) := by
    have hdeadline := deadline?_cancel w.shared
    unfold replied
    rw [hcancels, hwv.shared]
    refine ⟨rfl, hwv.trace, hwv.workspace, hnext, ?_⟩
    cases (setup.oracle w.run.oracle box goal).cancels with
    | true => exact hdeadline.trans hwv.deadline_eq
    | false => exact hwv.deadline_eq
  cases ha : (setup.oracle w.run.oracle box goal).answer with
  | ok x =>
      rw [ha] at hanswer
      rw [split_of_ok (ask_of_ok ha), split_of_ok (ask_of_ok hanswer), after_of_ok (ask_of_ok ha),
        after_of_ok (ask_of_ok hanswer)]
      exact ⟨rfl, hreplied⟩
  | error e =>
      rw [ha] at hanswer
      rw [split_of_error (ask_of_error ha), split_of_error (ask_of_error hanswer),
        after_of_error (ask_of_error ha), after_of_error (ask_of_error hanswer)]
      exact ⟨rfl, hreplied⟩

theorem Mirrors.asks (h : setup.Couples Q other) (ho : setup.oracle.Mirrors T other.oracle) :
    Asks (Mirrors Q T deadline) setup other where
  solve := agree_solve (fun hwv => hwv.workspace.domain) (agree_ask ho)
  solveFixed := agree_solveFixed (fun hwv => hwv.workspace.domain) (agree_ask ho) h.alike
    fun _ hwv => { hwv with workspace := { hwv.workspace with domain := rfl } }
  round point := by
    have hround : Agree (Mirrors Q T deadline) _ _ := agree_onWorkspace (h.round point)
    obtain ⟨_, _, _, rfl⟩ := h.alike
    exact agree_bind hround fun _ => agree_bind (agree_ofExcept _) fun _ => agree_pure _
  offer offered hwv := by
    refine ⟨?_, hwv.trace, hwv.workspace, hwv.oracle, hwv.deadline_eq⟩
    rw [hwv.shared]

/-- The signal to stop is up for both runs or for none of them. -/
theorem Mirrors.isCancelled_eq (h : Mirrors Q T deadline w v) (halike : setup.Alike other)
    (hstep : setup.InStep deadline other now now') :
    isCancelled other now' v = isCancelled setup now w := by
  have hshared : w.shared.isCancelled now' = w.shared.isCancelled now := by
    have hdeadline := hstep.deadline
    rw [← h.deadline_eq] at hdeadline
    unfold Shared.deadline? at hdeadline
    unfold Shared.isCancelled
    cases htoken : w.shared.token with
    | none => rfl
    | some token =>
        rw [htoken, Option.bind_some] at hdeadline
        simp only [Option.any_some, Token.isCancelled, hdeadline]
  have hbudget := hstep.budget
  obtain ⟨_, _, _, rfl⟩ := halike
  unfold isCancelled
  rw [h.shared, hshared]
  exact congrArg _ hbudget

end Parts

section Steps

variable (hc : setup.Couples Q other) (ho : setup.oracle.Mirrors T other.oracle)

include hc ho

/-- A step keeps worlds mirrored. -/
theorem Mirrors.step (h : Mirrors Q T deadline w v) (hstage : v.run.stage = w.run.stage)
    (hstep : setup.InStep deadline other now now') :
    Mirrors Q T deadline (w.step setup now) (v.step other now') ∧
      (v.step other now').run.stage = (w.step setup now).run.stage :=
  step_of_agree hstage
    ((Mirrors.pace hc).act (fun hwv => hwv.isCancelled_eq hc.alike hstep) (Mirrors.asks hc ho) _)
    (fun _ hwv => { hwv with }) h

/-- So do the steps of a run. -/
theorem Mirrors.advance {clock clock' : Nat → R}
    (hstep : ∀ k, setup.InStep deadline other (clock k) (clock' k)) (fuel : Nat)
    (h : Mirrors Q T deadline w v) (hstage : v.run.stage = w.run.stage) :
    Mirrors Q T deadline (World.advance setup clock fuel w) (World.advance other clock' fuel v) ∧
      (World.advance other clock' fuel v).run.stage =
        (World.advance setup clock fuel w).run.stage := by
  induction fuel generalizing w v with
  | zero => exact ⟨h, hstage⟩
  | succ fuel ih =>
      obtain ⟨hnext, hnextStage⟩ := h.step hc ho hstage (hstep fuel)
      unfold World.advance
      rw [hstage]
      cases w.run.stage with
      | ended result => exact ⟨h, hstage⟩
      | _ => exact ih hnext hnextStage

end Steps

end World

namespace PumpTask

open World

variable {R σ τ : Type} [Arith R] {Q : Progress R → Progress R → Prop} {T : σ → τ → Prop}
  {task : PumpTask R σ} {other : Oracle R τ} {seed : Int}

/-- The parts that do not draw are the same in both runs. -/
theorem equip_replaced (task : PumpTask R σ) (other : Oracle R τ) (seed : Int)
    (started started' : R) (t : Table R) :
    (task.replaced other seed).equip started' t =
      (task.equip started t).map fun x => (x.1.replaced other seed started', x.2) := by
  unfold equip
  show (Ranker.make task.settings.ranking t (some task.problem.rows) task.settings.visitPenalty
      task.settings.toleranceEpsilon >>= fun ranker => task.propagator t >>= fun propagator => _) =
    Except.map _ (Ranker.make task.settings.ranking t (some task.problem.rows)
      task.settings.visitPenalty task.settings.toleranceEpsilon >>= fun ranker =>
        task.propagator t >>= fun propagator => _)
  cases Ranker.make task.settings.ranking t (some task.problem.rows) task.settings.visitPenalty
      task.settings.toleranceEpsilon with
  | error e => rfl
  | ok ranker =>
      rw [Act.exceptBind_of_ok rfl, Act.exceptBind_of_ok rfl]
      cases task.propagator t <;> rfl

omit [Arith R] in
theorem report_mirrors {deadline : Option R} {w : World R σ} {v : World R τ}
    (h : World.Mirrors Q T deadline w v) (hstage : v.run.stage = w.run.stage) :
    (report w).Mirrors T (report v) where
  result := by
    unfold report
    rw [hstage]
  trace := congrArg some h.trace
  domain := h.workspace.domain
  shared := h.shared
  oracle := h.oracle

/-- Runs that draw alike, ask oracles that reply alike and are stopped by time together report the
same. -/
theorem run_mirrors {clock clock' : Nat → R} {shared : Shared R} {domain : Domain R} {s : σ} {t : τ}
    (hstart : ∀ n,
      (∃ p q, Progress.start task.settings n = .ok p ∧
        Progress.start { task.settings with randomSeed := seed } n = .ok q ∧ Q p q) ∨
      ∃ e, Progress.start task.settings n = .error e ∧
        Progress.start { task.settings with randomSeed := seed } n = .error e)
    (hcouples : ∀ started started' table setup propagator,
      task.equip started table = .ok (setup, propagator) →
        setup.Couples Q (setup.replaced other seed started'))
    (ho : task.oracle.Mirrors T other) (hst : T s t)
    (htime : task.StopsAlike shared.deadline? clock clock') :
    (task.run clock shared domain s).Mirrors T
      ((task.replaced other seed).run clock' shared domain t) := by
  have hfailed (e : Fault R) (trace : Option (List (Record R))) :
      (notStarted e trace domain s shared).Mirrors T (notStarted e trace domain t shared) :=
    ⟨rfl, rfl, rfl, rfl, hst⟩
  have hequip := equip_replaced task other seed (clock (enoughSteps task.settings))
    (clock' (enoughSteps task.settings))
  have hsteps : enoughSteps (task.replaced other seed).settings = enoughSteps task.settings := rfl
  unfold PumpTask.run begin
  simp only [hsteps]
  have htable : (task.replaced other seed).problem.vars = task.problem.vars := rfl
  rw [htable]
  cases Table.ofVariables task.problem.vars with
  | error e => exact hfailed e none
  | ok table =>
      rw [Act.exceptBind_of_ok rfl, Act.exceptBind_of_ok rfl]
      rcases hstart table.numIntegers with ⟨p, q, hp, hq, hpq⟩ | ⟨e, hp, hq⟩
      · rw [Act.exceptBind_of_ok hp, Act.exceptBind_of_ok (show Progress.start
          (task.replaced other seed).settings table.numIntegers = .ok q from hq)]
        simp only [pure, Except.pure]
        rw [hequip]
        cases hsetup : task.equip (clock (enoughSteps task.settings)) table with
        | error e => exact hfailed e (some [])
        | ok x =>
            obtain ⟨setup, propagator⟩ := x
            simp only [Except.map]
            have hc := hcouples _ (clock' (enoughSteps task.settings)) _ _ _ hsetup
            obtain ⟨ranker, -, hrest⟩ := Act.exceptBind_eq_ok.mp hsetup
            obtain ⟨propagator', -, hrest⟩ := Act.exceptBind_eq_ok.mp hrest
            cases hrest
            obtain ⟨hworlds, hstages⟩ :=
              World.Mirrors.advance hc ho (fun k => ⟨(htime k).1, (htime k).2⟩)
                (enoughSteps task.settings)
                (w := ⟨shared, ⟨⟨domain, p, propagator⟩, s, [], [], .opening⟩⟩)
                (v := ⟨shared, ⟨⟨domain, q, propagator⟩, t, [], [], .opening⟩⟩)
                ⟨rfl, rfl, ⟨rfl, rfl, hpq⟩, hst, rfl⟩ rfl
            exact report_mirrors hworlds hstages
      · rw [hp, show Progress.start (task.replaced other seed).settings table.numIntegers =
          .error e from hq]
        exact hfailed e none

end PumpTask

section Recordings

variable {R σ τ : Type} [Arith R]

/-- Runs that draw the same couple. -/
theorem Setup.couples_eq {setup : Setup R σ} {other : Setup R τ} (h : setup.Alike other) :
    setup.Couples (· = ·) other := by
  have hdrawn {p q : Progress R} (hpq : p = q) : p.Drawn q := hpq ▸ Progress.Drawn.refl p
  have hworkspace {α : Type} (act : Act R (Rounding.Workspace R) α) :
      Act.Agree (Rounding.Workspace.Mirrors (· = ·)) act act := by
    rintro a ⟨domain, progress, propagator⟩ ⟨hdomain, hpropagator, hprogress⟩
    cases a
    cases hdomain
    cases hpropagator
    cases hprogress
    exact ⟨rfl, rfl, rfl, rfl⟩
  have halike := h
  obtain ⟨_, _, _, rfl⟩ := h
  exact ⟨halike, hdrawn, fun _ hpq => congrArg _ hpq, fun _ => hworkspace _,
    fun _ _ => Act.agree_refl _, fun _ _ => Act.agree_refl _⟩

omit [Arith R] in
/-- An oracle does not notice its log. -/
theorem Oracle.mirrors_recording (oracle : Oracle R σ) :
    oracle.Mirrors (fun s t => t.1 = s) oracle.recording := by
  rintro _ ⟨s, log⟩ box goal rfl
  exact ⟨rfl, rfl, rfl⟩

/-- A run does not notice the log of its oracle. -/
theorem PumpTask.report_recording (task : PumpTask R σ) (clock : Nat → R) (shared : Shared R)
    (domain : Domain R) (s : σ) (log : List (Question R)) :
    (task.run clock shared domain s).Mirrors (fun s t => t.1 = s)
      (task.recording.run clock shared domain (s, log)) := by
  refine run_mirrors (Q := (· = ·)) (fun n => ?_)
    (fun started started' table setup propagator _ => ?_) task.oracle.mirrors_recording rfl fun k => ⟨rfl, rfl⟩
  · cases hp : Progress.start task.settings n with
    | ok p => exact .inl ⟨p, p, rfl, rfl, rfl⟩
    | error e => exact .inr ⟨e, rfl, rfl⟩
  · exact Setup.couples_eq ⟨_, _, _, rfl⟩

end Recordings

end MipPump
