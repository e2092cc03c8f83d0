import MipPump.Proofs.Draws

/-!
# The ledger of a run

What a run reports is its trace, its progress and what it did to the store.  This part of a world is
its *ledger*; bounds, propagator, oracle, printed lines and the signal to stop lie outside.

This module says what each part of a step does to the ledger when it answers.

* `record_eq_ok`, `aimAt_eq_ok`, `fail_eq_ok`: the reports.
* `solve_eq_ok`, `solveFixed_eq_ok`: a solve leaves the ledger alone.
* `round_eq_ok`: a rounding moves the random generator and nothing else.
-/

namespace MipPump

/-- What the report of a run is read from. -/
structure Ledger (R : Type) where
  trace : List (Record R)
  progress : Progress R
  store : Store R

namespace Ledger

variable {R : Type}

/-- Changes the progress. -/
def onProgress (f : Progress R → Progress R) (a : Ledger R) : Ledger R :=
  { a with progress := f a.progress }

/-- Counts an iteration. -/
def begin (a : Ledger R) : Ledger R := a.onProgress fun p => { p with iteration := p.iteration + 1 }

/-- Puts another generator in place. -/
def draw (g : Random.Generator) (a : Ledger R) : Ledger R :=
  a.onProgress fun p => { p with generator := g }

/-- The record of the iteration that is going on. -/
def entry (a : Ledger R) (phase : Phase) (d : Distance R) (fractional : Nat) : Record R :=
  { iteration := a.progress.iteration
    phase
    distance := d.value
    alpha := a.progress.epoch.alpha
    fractional
    restarts := a.progress.restarts }

/-- Adds the record of the iteration that is going on. -/
def note (a : Ledger R) (phase : Phase) (d : Distance R) (fractional : Nat) : Ledger R :=
  { a with trace := a.trace ++ [a.entry phase d fractional] }

/-- The outcome with an ending. -/
def outcome (a : Ledger R) (ending : Ending R) : Outcome R :=
  { ending
    iterations := a.progress.iteration
    restarts := a.progress.restarts
    perturbations := a.progress.perturbations
    alpha := a.progress.epoch.alpha
    trace := a.trace }

section Fields

variable (a : Ledger R) (phase : Phase) (d : Distance R) (k : Nat) (ending : Ending R)

@[simp] theorem trace_begin : a.begin.trace = a.trace := rfl

@[simp] theorem iteration_begin : a.begin.progress.iteration = a.progress.iteration + 1 := rfl

@[simp] theorem iteration_entry : (a.entry phase d k).iteration = a.progress.iteration := rfl

@[simp] theorem phase_entry : (a.entry phase d k).phase = phase := rfl

@[simp] theorem restarts_entry : (a.entry phase d k).restarts = a.progress.restarts := rfl

@[simp] theorem trace_note : (a.note phase d k).trace = a.trace ++ [a.entry phase d k] := rfl

@[simp] theorem progress_note : (a.note phase d k).progress = a.progress := rfl

@[simp] theorem ending_outcome : (a.outcome ending).ending = ending := rfl

@[simp] theorem iterations_outcome : (a.outcome ending).iterations = a.progress.iteration := rfl

@[simp] theorem restarts_outcome : (a.outcome ending).restarts = a.progress.restarts := rfl

@[simp] theorem perturbations_outcome :
    (a.outcome ending).perturbations = a.progress.perturbations := rfl

@[simp] theorem trace_outcome : (a.outcome ending).trace = a.trace := rfl

end Fields

variable [Arith R]

/-- Offers a point to the store. -/
def offer (offered : Incumbent R) (a : Ledger R) : Ledger R :=
  { a with store := (a.store.offer offered).2 }

/-- Takes a measured distance into account. -/
def measure (eps : R) (d : Distance R) (a : Ledger R) : Ledger R :=
  a.onProgress fun p => (p.recordDistance d.value eps).2

end Ledger

/-- The ledger of a world. -/
def World.ledger {R σ : Type} (w : World R σ) : Ledger R :=
  { trace := w.run.trace, progress := w.run.workspace.progress, store := w.shared.store }

section Solves

variable {R σ : Type} [Arith R]

/-- The points that the oracle of a setup may answer with. -/
def Setup.Answers (setup : Setup R σ) (point : List R) : Prop :=
  ∃ s box goal, (setup.oracle s box goal).answer = .ok point

/-- A reply of the oracle was rounded: the candidate was admitted and the distance measured. -/
structure Setup.Measured (setup : Setup R σ) (reply : Reply R σ) (point candidate : List R)
    (d : Distance R) : Prop where
  answered : reply.answer = .ok point
  fits : setup.DrawsFit
  checked : setup.table.check candidate = .ok ()
  distance : Distance.measure setup.table setup.settings.toleranceEpsilon point candidate = .ok d

/-- A full point that was found feasible: a point of the oracle with the values of a candidate. -/
structure Setup.Solves (setup : Setup R σ) (candidate full : List R) : Prop where
  joined : ∃ point, setup.Answers point ∧ setup.table.fullPoint point candidate = .ok full
  feasible : setup.problem.isFeasible setup.settings.toleranceEpsilon full = .ok true

end Solves

namespace World

variable {R σ : Type}

@[simp] theorem ledger_moveTo (w : World R σ) (stage : Stage R) :
    (w.moveTo stage).ledger = w.ledger := rfl

@[simp] theorem stage_moveTo (w : World R σ) (stage : Stage R) :
    (w.moveTo stage).run.stage = stage := rfl

section Reports

theorem progress_eq_ok {p : Progress R} {w w' : World R σ} :
    progress w = .ok p w' ↔ w.ledger.progress = p ∧ w = w' := by
  unfold progress
  rw [Act.bind_of_ok (Act.get_apply w)]
  simp [World.ledger]

theorem onProgress_eq_ok {α : Type} {act : Act R (Progress R) α} {x : α} {w w' : World R σ}
    (h : onProgress act w = .ok x w') :
    ∃ p, act w.ledger.progress = .ok x p ∧ w'.ledger = { w.ledger with progress := p } := by
  unfold onProgress onWorkspace at h
  obtain ⟨ws, hws, rfl⟩ := Act.zoom_eq_ok.mp h
  unfold Rounding.Workspace.onProgress at hws
  obtain ⟨p, hp, rfl⟩ := Act.zoom_eq_ok.mp hws
  exact ⟨p, hp, rfl⟩

theorem onProgress_modify_eq_ok {f : Progress R → Progress R} {x : PUnit} {w w' : World R σ}
    (h : onProgress (modify f) w = .ok x w') : w'.ledger = w.ledger.onProgress f := by
  obtain ⟨p, hp, hw⟩ := onProgress_eq_ok h
  cases hp
  exact hw

theorem print_eq_ok {line : Line R} {x : PUnit} {w w' : World R σ}
    (h : print line w = .ok x w') : w'.ledger = w.ledger := by
  cases h
  rfl

theorem outcome_eq_ok {ending : Ending R} {o : Outcome R} {w w' : World R σ} :
    outcome ending w = .ok o w' ↔ w.ledger.outcome ending = o ∧ w = w' := by
  unfold outcome
  rw [Act.bind_of_ok (Act.get_apply w)]
  simp [World.ledger, Ledger.outcome]

variable [Arith R]

/-- A failure is read off the ledger, which stays as it is. -/
theorem fail_eq_ok {setup : Setup R σ} {reason : FailureReason} {o : Outcome R}
    {w w' : World R σ} (h : fail setup reason w = .ok o w') :
    o = w.ledger.outcome (.failure reason) ∧ w'.ledger = w.ledger := by
  unfold fail at h
  obtain ⟨p, w₁, hp, h⟩ := Act.bind_eq_ok.mp h
  obtain ⟨-, rfl⟩ := progress_eq_ok.mp hp
  dsimp only at h
  split at h
  · obtain ⟨_, w₂, hprint, h⟩ := Act.bind_eq_ok.mp h
    obtain ⟨rfl, rfl⟩ := outcome_eq_ok.mp h
    rw [print_eq_ok hprint]
    exact ⟨rfl, rfl⟩
  · obtain ⟨rfl, rfl⟩ := outcome_eq_ok.mp h
    exact ⟨rfl, rfl⟩

theorem finished_fail_eq_ok {setup : Setup R σ} {reason : FailureReason} {stage : Stage R}
    {w w' : World R σ} (h : (finished <$> fail setup reason) w = .ok stage w') :
    stage = finished (w.ledger.outcome (.failure reason)) ∧ w'.ledger = w.ledger := by
  obtain ⟨o, ho, rfl⟩ := Act.map_eq_ok.mp h
  obtain ⟨rfl, hw⟩ := fail_eq_ok ho
  exact ⟨rfl, hw⟩

/-- Recording adds one record to the trace. -/
theorem record_eq_ok {setup : Setup R σ} {now : R} {phase : Phase} {d : Distance R}
    {point : List R} {x : Unit} {w w' : World R σ}
    (h : record setup now phase d point w = .ok x w') :
    ∃ k, w'.ledger = w.ledger.note phase d k := by
  unfold record at h
  obtain ⟨p, w₁, hp, h⟩ := Act.bind_eq_ok.mp h
  obtain ⟨rfl, rfl⟩ := progress_eq_ok.mp hp
  obtain ⟨k, w₂, hk, h⟩ := Act.bind_eq_ok.mp h
  obtain ⟨-, rfl⟩ := Act.ofExcept_eq_ok.mp hk
  obtain ⟨_, w₃, hm, h⟩ := Act.bind_eq_ok.mp h
  cases hm
  refine ⟨k, ?_⟩
  split at h
  · rw [print_eq_ok h]
    rfl
  · cases h
    rfl

/-- To aim at a candidate is to remember it and to record the iteration. -/
theorem aimAt_eq_ok {setup : Setup R σ} {now : R} {phase : Phase} {d : Distance R}
    {point candidate : List R} {stage : Stage R} {w w' : World R σ}
    (h : aimAt setup now phase d point candidate w = .ok stage w') :
    stage = .top candidate ∧
      ∃ k, w'.ledger = (w.ledger.onProgress (Progress.remember candidate)).note phase d k := by
  unfold aimAt at h
  obtain ⟨_, w₁, hm, h⟩ := Act.bind_eq_ok.mp h
  obtain ⟨_, w₂, hr, h⟩ := Act.bind_eq_ok.mp h
  cases h
  obtain ⟨k, hk⟩ := record_eq_ok hr
  refine ⟨rfl, k, ?_⟩
  rw [hk, onProgress_modify_eq_ok hm]

/-- The property does not depend on what a run has reported. -/
def IgnoresReports (P : World R σ → Prop) : Prop :=
  ∀ w trace lines, P w → P { w with run := { w.run with trace, lines } }

variable {P : World R σ → Prop}

omit [Arith R] in
theorem runs_print (hP : IgnoresReports P) (line : Line R) : Act.Runs P (print line) fun _ => P :=
  Act.runs_modify fun w hw => hP w _ _ hw

omit [Arith R] in
theorem runs_progress : Act.Runs P progress fun _ => P := fun w hw => ⟨_, w, rfl, hw⟩

omit [Arith R] in
theorem runs_outcome (ending : Ending R) : Act.Runs P (outcome ending) fun _ => P :=
  fun w hw => ⟨_, w, rfl, hw⟩

/-- To end with a failure changes nothing but the reports. -/
theorem runs_fail (hP : IgnoresReports P) (setup : Setup R σ) (reason : FailureReason) :
    Act.Runs P (fail setup reason) fun _ => P := by
  unfold fail
  refine Act.runs_bind runs_progress fun p => ?_
  split
  · exact Act.runs_bind (runs_print hP _) fun _ => runs_outcome _
  · exact runs_outcome _

/-- A record can be made of every point that can be read, and changes nothing but the reports. -/
theorem runs_record (hP : IgnoresReports P) {setup : Setup R σ} {point : List R}
    (hpoint : ∃ k, setup.table.countFractional point setup.settings.toleranceEpsilon = .ok k)
    (now : R) (phase : Phase) (d : Distance R) :
    Act.Runs P (record setup now phase d point) fun _ => P := by
  obtain ⟨k, hk⟩ := hpoint
  unfold record
  refine Act.runs_bind runs_progress fun p => Act.runs_of_ok_bind hk ?_
  refine Act.runs_bind (Q := fun _ => P) (Act.runs_modify fun w hw => hP w _ _ hw) fun _ => ?_
  split
  · exact runs_print hP _
  · exact Act.runs_pure fun _ hw => hw

end Reports

section Solving

/-- A solve that does not stop the run answers with a point or with a reason to end the run. -/
theorem orReason_eq_ok {τ α : Type} {act : Act R τ α} {r : Except FailureReason α} {s t : τ}
    (h : orReason act s = .ok r t) :
    (∃ x, r = .ok x ∧ act s = .ok x t) ∨
      ∃ e reason, r = .error reason ∧ reasonOf e = some reason ∧ act s = .error e t := by
  unfold orReason at h
  split at h
  · cases h
    exact Or.inl ⟨_, rfl, ‹_›⟩
  · split at h
    · cases h
      exact Or.inr ⟨_, _, rfl, ‹_›, ‹_›⟩
    · cases h

theorem orReason_of_ok {τ α : Type} {act : Act R τ α} {s t : τ} {x : α} (h : act s = .ok x t) :
    orReason act s = .ok (.ok x) t := by
  simp only [orReason, h]

theorem orReason_of_error {τ α : Type} {act : Act R τ α} {s t : τ} {e : Fault R}
    {reason : FailureReason} (h : act s = .error e t) (hreason : reasonOf e = some reason) :
    orReason act s = .ok (.error reason) t := by
  simp only [orReason, h, hreason]

/-- A solve on a part of the state is a solve. -/
theorem orReason_zoom {τ υ α : Type} (get : τ → υ) (put : τ → υ → τ) (act : Act R υ α) :
    orReason (Act.zoom get put act) = Act.zoom get put (orReason act) := by
  funext s
  unfold orReason Act.zoom
  cases ha : act (get s) with
  | ok x t => simp only [ha]
  | error e t => cases hr : reasonOf e <;> simp only [ha, hr]

variable [Arith R]

/-- The world after a reply of the oracle. -/
def replied (w : World R σ) (reply : Reply R σ) : World R σ :=
  { shared := if reply.cancels then w.shared.cancel else w.shared
    run := { w.run with oracle := reply.next } }

omit [Arith R] in
@[simp] theorem ledger_replied (w : World R σ) (reply : Reply R σ) :
    (w.replied reply).ledger = w.ledger := by
  unfold replied
  cases reply.cancels <;> rfl

theorem ask_of_ok {setup : Setup R σ} {box : Box R} {goal : Goal R} {w : World R σ} {x : List R}
    (h : (setup.oracle w.run.oracle box goal).answer = .ok x) :
    ask setup box goal w = .ok x (w.replied (setup.oracle w.run.oracle box goal)) := by
  simp only [ask, h]
  rfl

theorem ask_of_error {setup : Setup R σ} {box : Box R} {goal : Goal R} {w : World R σ}
    {e : Fault R} (h : (setup.oracle w.run.oracle box goal).answer = .error e) :
    ask setup box goal w = .error e (w.replied (setup.oracle w.run.oracle box goal)) := by
  simp only [ask, h]
  rfl

theorem ask_eq_ok {setup : Setup R σ} {box : Box R} {goal : Goal R} {w w' : World R σ}
    {x : List R} (h : ask setup box goal w = .ok x w') :
    (setup.oracle w.run.oracle box goal).answer = .ok x ∧ w'.ledger = w.ledger := by
  cases ha : (setup.oracle w.run.oracle box goal).answer with
  | ok y =>
      rw [ask_of_ok ha] at h
      cases h
      exact ⟨rfl, ledger_replied _ _⟩
  | error e =>
      rw [ask_of_error ha] at h
      cases h

theorem ask_eq_error {setup : Setup R σ} {box : Box R} {goal : Goal R} {w w' : World R σ}
    {e : Fault R} (h : ask setup box goal w = .error e w') :
    (setup.oracle w.run.oracle box goal).answer = .error e ∧ w'.ledger = w.ledger := by
  cases ha : (setup.oracle w.run.oracle box goal).answer with
  | ok y =>
      rw [ask_of_ok ha] at h
      cases h
  | error e' =>
      rw [ask_of_error ha] at h
      cases h
      exact ⟨rfl, ledger_replied _ _⟩

/-- A solve asks in the bounds in force; a point is an answer and so is the reason to end a run. -/
theorem solve_eq_ok {setup : Setup R σ} {goal : Goal R} {w w' : World R σ}
    {r : Except FailureReason (List R)} (h : solve setup goal w = .ok r w') :
    w'.ledger = w.ledger ∧
      ((∃ x, r = .ok x ∧
          (setup.oracle w.run.oracle w.run.workspace.domain.box goal).answer = .ok x) ∨
        ∃ e reason, r = .error reason ∧ reasonOf e = some reason ∧
          (setup.oracle w.run.oracle w.run.workspace.domain.box goal).answer = .error e) := by
  unfold solve at h
  rw [Act.bind_of_ok (Act.get_apply w)] at h
  rcases orReason_eq_ok h with ⟨x, rfl, hx⟩ | ⟨e, reason, rfl, hr, he⟩
  · obtain ⟨hx, hw⟩ := ask_eq_ok hx
    exact ⟨hw, Or.inl ⟨x, rfl, hx⟩⟩
  · obtain ⟨he, hw⟩ := ask_eq_error he
    exact ⟨hw, Or.inr ⟨e, reason, rfl, hr, he⟩⟩

theorem fixIntegers_eq_ok {candidate : List R} {integers : List (Int × Nat)} {x : Unit}
    {s : Scoped R × World R σ} {s' : Scoped R × World R σ}
    (h : Act.first (fixIntegers candidate integers) s = .ok x s') : s'.2 = s.2 := by
  unfold Act.first at h
  obtain ⟨_, -, rfl⟩ := Act.zoom_eq_ok.mp h
  rfl

/-- The solve with fixed integer variables leaves the ledger alone and joins a point of the oracle
with the candidate. -/
theorem solveFixed_eq_ok {setup : Setup R σ} {candidate : List R} {w w' : World R σ}
    {r : Option (List R)} (h : solveFixed setup candidate w = .ok r w') :
    w'.ledger = w.ledger ∧
      ∀ full, r = some full →
        ∃ point, setup.Answers point ∧ setup.table.fullPoint point candidate = .ok full := by
  unfold solveFixed at h
  obtain ⟨solved, w₁, hs, h⟩ := Act.bind_eq_ok.mp h
  have hsolved : w₁.ledger = w.ledger ∧ ∀ x, solved = .ok x → setup.Answers x := by
    unfold onDomain at hs
    obtain ⟨⟨d, w₂⟩, hscope, rfl⟩ := Act.zoom_eq_ok.mp hs
    obtain ⟨s, hbody⟩ := Scoped.within_eq_ok hscope
    obtain ⟨_, ⟨s₁, w₃⟩, hfix, hask⟩ := Act.bind_eq_ok.mp hbody
    obtain rfl : w₃ = w := fixIntegers_eq_ok hfix
    rw [Act.bind_of_ok (Act.get_apply _)] at hask
    show w₂.ledger = w₃.ledger ∧ _
    unfold Act.second at hask
    rcases orReason_eq_ok hask with ⟨x, rfl, hx⟩ | ⟨e, reason, rfl, -, he⟩
    · obtain ⟨w₄, hx, hput⟩ := Act.zoom_eq_ok.mp hx
      cases hput
      obtain ⟨hx, hw⟩ := ask_eq_ok hx
      refine ⟨hw, ?_⟩
      rintro y hy
      cases hy
      exact ⟨_, _, _, hx⟩
    · obtain ⟨w₄, he, hput⟩ := Act.zoom_eq_error.mp he
      cases hput
      refine ⟨(ask_eq_error he).2, ?_⟩
      rintro y hy
      cases hy
  cases solved with
  | ok point =>
      obtain ⟨full, hfull, rfl⟩ := Act.map_eq_ok.mp h
      obtain ⟨hjoin, rfl⟩ := Act.ofExcept_eq_ok.mp hfull
      refine ⟨hsolved.1, ?_⟩
      rintro x hx
      cases hx
      exact ⟨point, hsolved.2 point rfl, hjoin⟩
  | error reason =>
      cases h
      refine ⟨hsolved.1, ?_⟩
      rintro x hx
      cases hx

end Solving

section Rounding

variable [Arith R]

/-- A rounding rounds in the workspace of the run. -/
theorem round_ran {setup : Setup R σ} {point : List R} {x : List R × Bool} {w w' : World R σ}
    (h : World.round setup point w = .ok x w') :
    ∃ ws, roundOrNearest setup point w.run.workspace = .ok x ws := by
  unfold World.round at h
  obtain ⟨c, w₁, hround, h⟩ := Act.bind_eq_ok.mp h
  obtain ⟨_, w₂, -, h⟩ := Act.bind_eq_ok.mp h
  cases h
  unfold onWorkspace at hround
  obtain ⟨ws, hws, -⟩ := Act.zoom_eq_ok.mp hround
  exact ⟨ws, hws⟩

/-- A rounding admits its candidate and moves the generator of the ledger. -/
theorem round_eq_ok {setup : Setup R σ} {point : List R} {x : List R × Bool} {w w' : World R σ}
    (h : World.round setup point w = .ok x w') :
    setup.DrawsFit ∧ setup.table.check x.1 = .ok () ∧ ∃ g, w'.ledger = w.ledger.draw g := by
  unfold World.round at h
  obtain ⟨c, w₁, hround, h⟩ := Act.bind_eq_ok.mp h
  obtain ⟨_, w₂, hcheck, h⟩ := Act.bind_eq_ok.mp h
  obtain ⟨hchecked, rfl⟩ := Act.ofExcept_eq_ok.mp hcheck
  cases h
  unfold onWorkspace at hround
  obtain ⟨ws, hws, rfl⟩ := Act.zoom_eq_ok.mp hround
  refine ⟨roundOrNearest_fits hws, hchecked, ?_⟩
  have hdrawn := keeps_drawn_roundByPolicy w.run.workspace.progress setup point w.run.workspace
    (Progress.Drawn.refl _)
  rw [← roundOrNearest_after, Act.after_of_ok hws] at hdrawn
  obtain ⟨g, hg⟩ := hdrawn
  refine ⟨g, ?_⟩
  show Ledger.mk _ ws.progress _ = _
  rw [hg]
  rfl

/-- A rounding that passes the check is a candidate. -/
theorem round_of_ok {setup : Setup R σ} {point candidate : List R} {ok : Bool} {w : World R σ}
    {ws : Rounding.Workspace R}
    (h : roundOrNearest setup point w.run.workspace = .ok (candidate, ok) ws)
    (hcheck : setup.table.check candidate = .ok ()) :
    World.round setup point w =
      .ok (candidate, ok) { w with run := { w.run with workspace := ws } } := by
  have hworkspace : onWorkspace (roundOrNearest setup point) w =
      .ok (candidate, ok) { w with run := { w.run with workspace := ws } } := Act.zoom_of_ok h
  unfold World.round
  rw [Act.bind_of_ok hworkspace]
  exact Act.ofExcept_bind hcheck _

theorem measure_eq_ok {setup : Setup R σ} {point candidate : List R} {d : Distance R}
    {w w' : World R σ} (h : World.measure setup point candidate w = .ok d w') :
    Distance.measure setup.table setup.settings.toleranceEpsilon point candidate = .ok d ∧
      w = w' := Act.ofExcept_eq_ok.mp h

end Rounding

section Converging

variable [Arith R]

/-- A feasible point joins a point of the oracle with the candidate. -/
theorem feasiblePoint_eq_ok {setup : Setup R σ} {point candidate : List R} {w w' : World R σ}
    {r : Option (List R)} (h : feasiblePoint setup point candidate w = .ok r w')
    (hpoint : setup.Answers point) :
    w'.ledger = w.ledger ∧ ∀ full, r = some full → setup.Solves candidate full := by
  unfold feasiblePoint at h
  obtain ⟨full, w₁, hfull, h⟩ := Act.bind_eq_ok.mp h
  obtain ⟨hjoin, rfl⟩ := Act.ofExcept_eq_ok.mp hfull
  obtain ⟨feasible, w₂, hfeasible, h⟩ := Act.bind_eq_ok.mp h
  obtain ⟨hcheck, rfl⟩ := Act.ofExcept_eq_ok.mp hfeasible
  cases feasible with
  | true =>
      cases h
      refine ⟨rfl, ?_⟩
      rintro _ ⟨⟩
      exact ⟨⟨point, hpoint, hjoin⟩, hcheck⟩
  | false =>
      rw [if_neg Bool.false_ne_true] at h
      split at h
      · cases h
        exact ⟨rfl, fun _ hnone => by cases hnone⟩
      · obtain ⟨solved, w₃, hsolve, h⟩ := Act.bind_eq_ok.mp h
        obtain ⟨hledger, hsolved⟩ := solveFixed_eq_ok hsolve
        cases solved with
        | none =>
            cases h
            exact ⟨hledger, fun _ hnone => by cases hnone⟩
        | some polished =>
            obtain ⟨feasible, w₄, hfeasible, h⟩ := Act.bind_eq_ok.mp h
            obtain ⟨hcheck, rfl⟩ := Act.ofExcept_eq_ok.mp hfeasible
            cases feasible with
            | true =>
                cases h
                refine ⟨hledger, ?_⟩
                rintro _ ⟨⟩
                exact ⟨hsolved polished rfl, hcheck⟩
            | false =>
                cases h
                exact ⟨hledger, fun _ hnone => by cases hnone⟩

/-- To converge is to offer a feasible point, to record the iteration and to report success. -/
theorem converge_eq_ok {setup : Setup R σ} {now : R} {point candidate : List R} {d : Distance R}
    {w w' : World R σ} {r : Option (Outcome R)}
    (h : converge setup now point candidate d w = .ok r w') (hpoint : setup.Answers point) :
    (r = none ∧ w'.ledger = w.ledger) ∨
      ∃ full objective k, setup.Solves candidate full ∧
        setup.problem.objective full = .ok objective ∧
        w'.ledger = (w.ledger.offer ⟨full, objective, setup.name⟩).note .converged d k ∧
        r = some (w'.ledger.outcome (.success full objective)) := by
  unfold converge at h
  obtain ⟨solved, w₁, hsolve, h⟩ := Act.bind_eq_ok.mp h
  obtain ⟨hledger, hsolved⟩ := feasiblePoint_eq_ok hsolve hpoint
  cases solved with
  | none =>
      cases h
      exact Or.inl ⟨rfl, hledger⟩
  | some full =>
      right
      obtain ⟨objective, w₂, hobjective, h⟩ := Act.bind_eq_ok.mp h
      obtain ⟨hcost, rfl⟩ := Act.ofExcept_eq_ok.mp hobjective
      obtain ⟨_, w₃, hoffer, h⟩ := Act.bind_eq_ok.mp h
      obtain ⟨_, w₄, hrecord, h⟩ := Act.bind_eq_ok.mp h
      obtain ⟨k, hk⟩ := record_eq_ok hrecord
      obtain ⟨p, w₅, hp, h⟩ := Act.bind_eq_ok.mp h
      obtain ⟨-, rfl⟩ := progress_eq_ok.mp hp
      have hw₃ : w₃.ledger = w.ledger.offer ⟨full, objective, setup.name⟩ := by
        cases hoffer
        rw [← hledger]
        rfl
      have hend : w'.ledger = w₄.ledger ∧ r = some (w₄.ledger.outcome (.success full objective)) := by
        dsimp only at h
        split at h
        · obtain ⟨_, w₅, hprint, h⟩ := Act.bind_eq_ok.mp h
          obtain ⟨o, ho, rfl⟩ := Act.map_eq_ok.mp h
          obtain ⟨rfl, rfl⟩ := outcome_eq_ok.mp ho
          rw [print_eq_ok hprint]
          exact ⟨rfl, rfl⟩
        · obtain ⟨o, ho, rfl⟩ := Act.map_eq_ok.mp h
          obtain ⟨rfl, rfl⟩ := outcome_eq_ok.mp ho
          exact ⟨rfl, rfl⟩
      rw [hk, hw₃] at hend
      refine ⟨full, objective, k, hsolved full rfl, hcost, hend.1, ?_⟩
      rw [hend.2, hend.1]

theorem convergeIfZero_eq_ok {setup : Setup R σ} {now : R} {point candidate : List R} {ok : Bool}
    {d : Distance R} {w w' : World R σ} {r : Option (Outcome R)}
    (h : convergeIfZero setup now point candidate ok d w = .ok r w')
    (hpoint : setup.Answers point) :
    (r = none ∧ w'.ledger = w.ledger) ∨
      ok = true ∧ d.isZero = true ∧ ∃ full objective k, setup.Solves candidate full ∧
        setup.problem.objective full = .ok objective ∧
        w'.ledger = (w.ledger.offer ⟨full, objective, setup.name⟩).note .converged d k ∧
        r = some (w'.ledger.outcome (.success full objective)) := by
  unfold convergeIfZero at h
  split at h
  · rename_i hzero
    rcases converge_eq_ok h hpoint with hnone | hsome
    · exact Or.inl hnone
    · rw [Bool.and_eq_true] at hzero
      exact Or.inr ⟨hzero.1, hzero.2, hsome⟩
  · cases h
    exact Or.inl ⟨rfl, rfl⟩

end Converging

end World

end MipPump
