import MipPump.Proofs.Actions
import MipPump.Pump.Run

/-!
# Runs in lockstep

Two runs are compared through a relation of their worlds.  If each part of a step, a solve, a
rounding, a record and so on, answers alike in related worlds and leaves related worlds, then a step
does so too.  The setups may differ in the oracle, the seed and the instant of the start.

* `Pace P setup other now now'`: the parts of a step that do not ask keep the relation `P`.
* `Asks P setup other`: so do the parts that ask and round.
* `Pace.solveRoot`, `Pace.iterate`: the root and an iteration keep it therefore.
* `Pace.act`: every stage does, if the runs are told to stop together.

An invariant `I` of one world is the relation of the worlds that are the same and in `I`.
-/

namespace MipPump

open Act

section Definitions

variable {R σ τ : Type}

/-- The function does not look at the generator and leaves it alone. -/
def Progress.Blind (f : Progress R → Progress R) : Prop :=
  ∀ p g, f { p with generator := g } = { f p with generator := g }

variable [Arith R]

/-- The same setup with another oracle, seed and starting instant. -/
def Setup.replaced (setup : Setup R σ) (oracle : Oracle R τ) (seed : Int) (started : R) :
    Setup R τ :=
  { name := setup.name
    settings := { setup.settings with randomSeed := seed }
    problem := setup.problem
    table := setup.table
    ranker := setup.ranker
    oracle
    started }

/-- The setups differ in oracle, seed and starting instant only. -/
def Setup.Alike (setup : Setup R σ) (other : Setup R τ) : Prop :=
  ∃ oracle seed started, other = setup.replaced oracle seed started

theorem Setup.Alike.refl (setup : Setup R σ) : setup.Alike setup :=
  ⟨setup.oracle, setup.settings.randomSeed, setup.started, rfl⟩

namespace World

/-- The parts of a step that do not ask keep the relation. -/
structure Pace (P : World R σ → World R τ → Prop) (setup : Setup R σ) (other : Setup R τ)
    (now now' : R) : Prop where
  alike : setup.Alike other
  progress : ∀ {w v}, P w v → ∃ g,
    v.run.workspace.progress = { w.run.workspace.progress with generator := g }
  trace : ∀ {w v}, P w v → v.run.trace = w.run.trace
  edit : ∀ {f}, Progress.Blind f → Agree P (onProgress (modify f)) (onProgress (modify f))
  print : ∀ line, Agree P (print line) (print line)
  record : ∀ phase d point,
    Agree P (record setup now phase d point) (record other now' phase d point)
  perturb : ∀ point candidate, Agree P
    (onProgress (Perturber.perturb setup.settings setup.table setup.ranker point candidate))
    (onProgress (Perturber.perturb other.settings other.table other.ranker point candidate))
  restart : ∀ point candidate, Agree P
    (onProgress (Perturber.restart setup.settings setup.table setup.ranker point candidate))
    (onProgress (Perturber.restart other.settings other.table other.ranker point candidate))

/-- The parts of a step that ask the oracle and round its answers keep the relation, and so does an
offer to the store. -/
structure Asks (P : World R σ → World R τ → Prop) (setup : Setup R σ) (other : Setup R τ) : Prop where
  solve : ∀ goal, Agree P (solve setup goal) (solve other goal)
  solveFixed : ∀ candidate, Agree P (solveFixed setup candidate) (solveFixed other candidate)
  round : ∀ point, Agree P (World.round setup point) (World.round other point)
  offer : ∀ {w v} offered, P w v →
    P { w with shared := { w.shared with store := (w.shared.store.offer offered).2 } }
      { v with shared := { v.shared with store := (v.shared.store.offer offered).2 } }

end World

end Definitions

namespace World

variable {R σ τ : Type} [Arith R] {setup : Setup R σ} {other : Setup R τ}
  {P : World R σ → World R τ → Prop} {now now' : R}

section Paces

variable (h : Pace P setup other now now')

include h

/-- Related worlds have the same progress up to the generator. -/
theorem Pace.agree_progress {α : Type} {f : Progress R → Act R (World R σ) α}
    {f' : Progress R → Act R (World R τ) α}
    (hf : ∀ p g, Agree P (f p) (f' { p with generator := g })) :
    Agree P (World.progress >>= f) (World.progress >>= f') := by
  intro w v hwv
  obtain ⟨g, hg⟩ := h.progress hwv
  have hagree := hf w.run.workspace.progress g w v hwv
  rw [← hg] at hagree
  exact hagree

theorem Pace.outcome (ending : Ending R) :
    Agree P (World.outcome ending) (World.outcome ending) := by
  refine agree_get_bind fun w v hwv => ?_
  obtain ⟨g, hg⟩ := h.progress hwv
  dsimp only
  rw [hg, h.trace hwv]
  exact agree_pure _

theorem Pace.fail (reason : FailureReason) :
    Agree P (World.fail setup reason) (World.fail other reason) := by
  obtain ⟨_, _, _, rfl⟩ := h.alike
  have hend := h.outcome (.failure reason)
  exact h.agree_progress fun p g => agree_ite (agree_bind (h.print _) fun _ => hend) hend

theorem Pace.finished_fail (reason : FailureReason) :
    Agree P (finished <$> World.fail setup reason) (finished <$> World.fail other reason) :=
  agree_map _ (h.fail reason)

theorem Pace.measure (point candidate : List R) :
    Agree P (World.measure setup point candidate) (World.measure other point candidate) := by
  obtain ⟨_, _, _, rfl⟩ := h.alike
  exact agree_ofExcept _

theorem Pace.aimAt (phase : Phase) (d : Distance R) (point candidate : List R) :
    Agree P (World.aimAt setup now phase d point candidate)
      (World.aimAt other now' phase d point candidate) :=
  agree_bind (h.edit fun _ _ => rfl) fun _ => agree_bind (h.record _ _ _) fun _ => agree_pure _

theorem Pace.accept (d : Distance R) (point candidate : List R) :
    Agree P (World.accept setup now d point candidate)
      (World.accept other now' d point candidate) := by
  refine agree_bind (h.aimAt _ _ _ _) fun stage => ?_
  obtain ⟨_, _, _, rfl⟩ := h.alike
  exact agree_bind (h.edit fun _ _ => rfl) fun _ => agree_pure _

theorem Pace.aimAtPerturbed (phase : Phase) (point candidate : List R) :
    Agree P (World.aimAtPerturbed setup now phase point candidate)
      (World.aimAtPerturbed other now' phase point candidate) :=
  agree_bind (h.measure point candidate) fun _ => h.aimAt _ _ _ _

theorem Pace.agree_perturb (point candidate : List R) :
    Agree P (World.perturb setup now point candidate) (World.perturb other now' point candidate) := by
  refine agree_bind (h.perturb point candidate) fun moved => ?_
  refine agree_bind ?_ fun _ => h.aimAtPerturbed _ _ _
  obtain ⟨_, _, _, rfl⟩ := h.alike
  exact h.edit fun _ _ => rfl

theorem Pace.agree_restart (d : Distance R) (point candidate : List R) :
    Agree P (World.restart setup now d point candidate)
      (World.restart other now' d point candidate) := by
  have hspent := agree_bind (h.record .stalledOut d point)
    fun _ => h.finished_fail .maxRestartsExceeded
  have hmove := agree_bind (h.restart point candidate)
    fun moved => h.aimAtPerturbed .restarting point moved.candidate
  obtain ⟨_, _, _, rfl⟩ := h.alike
  refine h.agree_progress fun p g => agree_ite hspent ?_
  exact agree_bind (h.edit fun _ _ => rfl) fun _ => hmove

theorem Pace.escalate (d : Distance R) (point candidate : List R) :
    Agree P (World.escalate setup now d point candidate)
      (World.escalate other now' d point candidate) := by
  have hperturb := h.agree_perturb point candidate
  have hrestart := h.agree_restart d point candidate
  refine agree_bind (h.edit fun _ _ => rfl) fun _ => ?_
  obtain ⟨_, _, _, rfl⟩ := h.alike
  exact h.agree_progress fun p g => agree_ite hperturb hrestart

end Paces

section Solving

omit [Arith R] in
theorem agree_orReason {τ υ α : Type} {P : τ → υ → Prop} {act : Act R τ α} {other : Act R υ α}
    (h : Agree P act other) : Agree P (orReason act) (orReason other) := by
  intro s t hst
  unfold orReason
  cases hs : act s with
  | ok x s' =>
      obtain ⟨t', ht, hst'⟩ := h.of_ok hst hs
      simp only [split, after, hs, ht]
      exact ⟨trivial, hst'⟩
  | error e s' =>
      obtain ⟨t', ht, hst'⟩ := h.of_error hst hs
      simp only [split, after, hs, ht]
      cases reasonOf e with
      | some reason => exact ⟨rfl, hst'⟩
      | none => exact ⟨rfl, hst'⟩

/-- What two actions agree on in a scope of their own, they agree on outside. -/
theorem agree_within {τ υ α : Type} {P : τ → υ → Prop} {body : Act R (Scoped R × τ) α}
    {other : Act R (Scoped R × υ) α}
    (h : Agree (fun s t => s.1 = t.1 ∧ P s.2 t.2) body other) :
    Agree (fun s t => s.1 = t.1 ∧ P s.2 t.2) (Scoped.within body) (Scoped.within other) := by
  rintro ⟨d, s⟩ ⟨_, t⟩ ⟨rfl, hst⟩
  unfold Scoped.within
  cases hbody : body ({ domain := d }, s) with
  | ok a s' =>
      obtain ⟨⟨scope, t'⟩, hother, hscope, hst'⟩ :=
        h.of_ok (t := ({ domain := d }, t)) ⟨rfl, hst⟩ hbody
      obtain ⟨_, s'⟩ := s'
      cases hscope
      simp only [split, after, hbody, hother]
      rcases scope.close with ⟨_ | _, d'⟩
      · exact ⟨rfl, rfl, hst'⟩
      · exact ⟨rfl, rfl, hst'⟩
  | error e s' =>
      obtain ⟨⟨scope, t'⟩, hother, hscope, hst'⟩ :=
        h.of_error (t := ({ domain := d }, t)) ⟨rfl, hst⟩ hbody
      obtain ⟨_, s'⟩ := s'
      cases hscope
      simp only [split, after, hbody, hother]
      rcases scope.close with ⟨_ | _, d'⟩
      · exact ⟨rfl, rfl, hst'⟩
      · exact ⟨rfl, rfl, hst'⟩

variable (hdomain : ∀ {w v}, P w v → v.run.workspace.domain = w.run.workspace.domain)
  (hask : ∀ box goal, Agree P (ask setup box goal) (ask other box goal))

include hdomain hask

/-- Runs with the same bounds that ask alike solve alike. -/
theorem agree_solve (goal : Goal R) : Agree P (solve setup goal) (solve other goal) := by
  refine agree_get_bind fun w v hwv => ?_
  rw [hdomain hwv]
  exact agree_orReason (hask _ _)

/-- They do so with the integer variables fixed, too. -/
theorem agree_solveFixed (halike : setup.Alike other)
    (hput : ∀ {w v} domain, P w v →
      P { w with run := { w.run with workspace := { w.run.workspace with domain } } }
        { v with run := { v.run with workspace := { v.run.workspace with domain } } })
    (candidate : List R) : Agree P (solveFixed setup candidate) (solveFixed other candidate) := by
  obtain ⟨_, _, _, rfl⟩ := halike
  refine agree_bind (agree_zoom (agree_within (P := P) ?_) ?_ ?_) fun solved => ?_
  · refine agree_bind ?_ fun _ => agree_get_bind fun s t h => ?_
    · exact agree_zoom (agree_refl _) (fun s t h => h.1) fun s t x y h hxy => ⟨hxy, h.2⟩
    · obtain ⟨scope, w⟩ := s
      obtain ⟨_, v⟩ := t
      obtain ⟨rfl, -⟩ := h
      refine agree_orReason (agree_zoom (hask _ _) (fun s t h => h.2) ?_)
      exact fun s t x y h hxy => ⟨h.1, hxy⟩
  · exact fun w v h => ⟨(hdomain h).symm, h⟩
  · rintro w v ⟨d, w'⟩ ⟨_, v'⟩ - ⟨rfl, h⟩
    exact hput d h
  · cases solved with
    | ok point => exact agree_map _ (agree_ofExcept _)
    | error reason => exact agree_pure _

end Solving

section Iterations

theorem Asks.feasiblePoint (ha : Asks P setup other) (halike : setup.Alike other)
    (point candidate : List R) : Agree P (World.feasiblePoint setup point candidate)
      (World.feasiblePoint other point candidate) := by
  have hfixed := ha.solveFixed candidate
  obtain ⟨_, _, _, rfl⟩ := halike
  refine agree_bind (agree_ofExcept _) fun full => agree_bind (agree_ofExcept _) fun feasible => ?_
  refine agree_ite (agree_pure _) (agree_ite (agree_pure _) (agree_bind hfixed fun solved => ?_))
  cases solved with
  | none => exact agree_pure _
  | some full =>
      exact agree_bind (agree_ofExcept _) fun feasible => agree_ite (agree_pure _) (agree_pure _)

variable (h : Pace P setup other now now') (ha : Asks P setup other)

include h ha

theorem Pace.convergeIfZero (point candidate : List R) (ok : Bool) (d : Distance R) :
    Agree P (World.convergeIfZero setup now point candidate ok d)
      (World.convergeIfZero other now' point candidate ok d) := by
  refine agree_ite (agree_bind (ha.feasiblePoint h.alike point candidate) fun solved => ?_)
    (agree_pure _)
  cases solved with
  | none => exact agree_pure _
  | some full =>
      have hrecord := h.record .converged d point
      have hend (objective : R) := agree_map some (h.outcome (.success full objective))
      obtain ⟨_, _, _, rfl⟩ := h.alike
      refine agree_bind (agree_ofExcept _) fun objective => ?_
      refine agree_bind (agree_modify fun _ _ hwv => ha.offer _ hwv) fun _ => ?_
      refine agree_bind hrecord fun _ => h.agree_progress fun p g => ?_
      exact agree_ite (agree_bind (h.print _) fun _ => hend objective) (hend objective)

theorem Pace.solveRoot :
    Agree P (World.solveRoot setup now) (World.solveRoot other now') := by
  have hfail := h.finished_fail
  have hmeasure := h.measure
  have hconverge := h.convergeIfZero ha
  have haim := h.aimAt
  obtain ⟨_, _, _, rfl⟩ := h.alike
  refine agree_bind (ha.solve _) fun solved => ?_
  cases solved with
  | error reason => exact hfail reason
  | ok point =>
      refine agree_bind (ha.round point) fun ⟨candidate, ok⟩ => ?_
      refine agree_bind (hmeasure point candidate) fun d => ?_
      refine agree_bind (hconverge point candidate ok d) fun ending => ?_
      cases ending with
      | some o => exact agree_pure _
      | none => exact agree_bind (h.edit fun _ _ => rfl) fun _ => haim _ _ _ _

theorem Pace.iterate (target : List R) :
    Agree P (World.iterate setup now target) (World.iterate other now' target) := by
  have hfail := h.finished_fail
  have hmeasure := h.measure
  have hconverge := h.convergeIfZero ha
  have haccept := h.accept
  have hescalate := h.escalate
  obtain ⟨_, _, _, rfl⟩ := h.alike
  refine agree_bind (h.edit fun _ _ => rfl) fun _ => h.agree_progress fun p g => ?_
  refine agree_bind (agree_ofExcept _) fun goal => agree_bind (ha.solve goal) fun solved => ?_
  cases solved with
  | error reason => exact hfail reason
  | ok point =>
      refine agree_bind (ha.round point) fun ⟨candidate, ok⟩ => ?_
      refine agree_bind (hmeasure point candidate) fun d => ?_
      refine agree_bind (h.edit fun _ _ => rfl) fun _ => ?_
      refine agree_bind (hconverge point candidate ok d) fun ending => ?_
      cases ending with
      | some o => exact agree_pure _
      | none =>
          exact h.agree_progress fun p g =>
            agree_ite (haccept d point candidate) (hescalate d point candidate)

end Iterations

section Steps

variable (h : Pace P setup other now now')
  (hstop : ∀ {w v}, P w v → isCancelled other now' v = isCancelled setup now w)

include h hstop

theorem Pace.openRun : Agree P (World.openRun setup now) (World.openRun other now') := by
  have hfail := h.finished_fail
  refine agree_get_bind fun w v hwv => ?_
  rw [hstop hwv]
  obtain ⟨_, _, _, rfl⟩ := h.alike
  refine agree_ite (hfail _) (agree_ite (hfail _) ?_)
  exact agree_ite (agree_bind (h.print _) fun _ => agree_pure _) (agree_pure _)

theorem Pace.pause (target : List R) :
    Agree P (World.pause setup now target) (World.pause other now' target) := by
  have hfail := h.finished_fail
  refine agree_get_bind fun w v hwv => ?_
  obtain ⟨g, hg⟩ := h.progress hwv
  rw [hstop hwv, hg]
  obtain ⟨_, _, _, rfl⟩ := h.alike
  exact agree_ite (hfail _) (agree_ite (hfail _) (agree_pure _))

/-- Runs that are told to stop together keep the relation in every stage. -/
theorem Pace.act (ha : Asks P setup other) (stage : Stage R) :
    Agree P (World.act setup now stage) (World.act other now' stage) := by
  cases stage with
  | opening => exact h.openRun hstop
  | root => exact h.solveRoot ha
  | top target => exact h.pause hstop target
  | projecting target => exact h.iterate ha target
  | ended result => exact agree_pure _

end Steps

section Invariants

variable {I : World R σ → Prop}

/-- What the parts of a step that do not ask keep, as a relation of a world with itself. -/
theorem pace_of_keeps (hedit : ∀ {α : Type} (act : Act R (Progress R) α), Keeps I (onProgress act))
    (hprint : ∀ line, Keeps I (print line))
    (hrecord : ∀ phase d point, Keeps I (record setup now phase d point)) :
    Pace (fun w v => w = v ∧ I w) setup setup now now where
  alike := .refl setup
  progress := by
    rintro w _ ⟨rfl, -⟩
    exact ⟨_, rfl⟩
  trace := by
    rintro w _ ⟨rfl, -⟩
    rfl
  edit _ := (hedit _).agree
  print line := (hprint line).agree
  record phase d point := (hrecord phase d point).agree
  perturb _ _ := (hedit _).agree
  restart _ _ := (hedit _).agree

theorem asks_of_keeps (hsolve : ∀ goal, Keeps I (solve setup goal))
    (hfixed : ∀ candidate, Keeps I (solveFixed setup candidate))
    (hround : ∀ point, Keeps I (World.round setup point))
    (hoffer : ∀ {w} store, I w → I { w with shared := { w.shared with store } }) :
    Asks (fun w v => w = v ∧ I w) setup setup where
  solve goal := (hsolve goal).agree
  solveFixed candidate := (hfixed candidate).agree
  round point := (hround point).agree
  offer := by
    rintro w _ offered ⟨rfl, hw⟩
    exact ⟨rfl, hoffer _ hw⟩

/-- What every part of a step keeps, the step keeps. -/
theorem keeps_act (h : Pace (fun w v => w = v ∧ I w) setup setup now now)
    (ha : Asks (fun w v => w = v ∧ I w) setup setup) (stage : Stage R) :
    Keeps I (World.act setup now stage) :=
  (h.act (fun {w v} hwv => by rw [hwv.1]) ha stage).keeps

end Invariants

section Runs

/-- A step moves to the stage that the action of the stage answers. -/
theorem step_eq_moveTo (setup : Setup R σ) (now : R) (w : World R σ) :
    w.step setup now = (after (World.act setup now w.run.stage) w).moveTo
      (match (split (World.act setup now w.run.stage) w).1 with
      | .ok stage => stage
      | .error e => .ended (.error e)) := by
  unfold step after split
  cases World.act setup now w.run.stage w <;> rfl

/-- Actions that agree make steps to the same stage. -/
theorem step_of_agree {w : World R σ} {v : World R τ} (hstage : v.run.stage = w.run.stage)
    (hact : Agree P (World.act setup now w.run.stage) (World.act other now' w.run.stage))
    (hmove : ∀ {w v} stage, P w v → P (w.moveTo stage) (v.moveTo stage)) (hwv : P w v) :
    P (w.step setup now) (v.step other now') ∧
      (v.step other now').run.stage = (w.step setup now).run.stage := by
  obtain ⟨hanswer, hafter⟩ := hact w v hwv
  rw [step_eq_moveTo, step_eq_moveTo, hstage, ← hanswer]
  exact ⟨hmove _ hafter, rfl⟩

end Runs

end World

end MipPump
