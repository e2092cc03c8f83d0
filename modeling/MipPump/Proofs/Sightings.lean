import MipPump.Proofs.Ledger

/-!
# What an iteration sees and decides

An iteration asks the oracle, rounds the answer and measures how far the two are apart.  This is its
*sighting*, and what it does next follows from the sighting and the ledger.

* `World.Sees setup w s`: the sighting of the iteration that is about to begin in `w`, the root being
  the first one.
* `World.sighting?` and `sees_iff`: the same, computed.
* `Decides`: all that an iteration can do after its sighting.
* `solveRoot_eq_ok` and `iterate_eq_ok`: an iteration that does not stop with a fault is refused by
  the oracle, or it sees and decides.
-/

namespace MipPump

section Definitions

variable {R σ : Type}

/-- What an iteration sees. -/
structure Sighting (R : Type) where
  /-- What the oracle is asked. -/
  goal : Goal R
  /-- What it answers. -/
  point : List R
  /-- The rounding of the point. -/
  candidate : List R
  /-- Whether the rounding policy made the candidate. -/
  ok : Bool
  distance : Distance R

/-- The world after one more iteration was counted. -/
def World.counted (w : World R σ) : World R σ :=
  let p := w.run.workspace.progress
  { w with run := { w.run with
      workspace := { w.run.workspace with progress := { p with iteration := p.iteration + 1 } } } }

variable [Arith R]

/-- The oracle answers that the relaxation has no best point, which is the reason of a failure. -/
def Reply.Refuses (reply : Reply R σ) (reason : FailureReason) : Prop :=
  ∃ e, World.reasonOf e = some reason ∧ reply.answer = .error e

/-- The reply of the oracle to a goal in the bounds in force. -/
def World.reply (setup : Setup R σ) (w : World R σ) (goal : Goal R) : Reply R σ :=
  setup.oracle w.run.oracle w.run.workspace.domain.box goal

/-- The oracle answers the question of the sighting with its point; rounding and measuring the point
gives the rest. -/
structure World.Shows (setup : Setup R σ) (w : World R σ) (s : Sighting R) : Prop where
  answered : (w.reply setup s.goal).answer = .ok s.point
  rounded : ∃ ws, roundOrNearest setup s.point w.run.workspace = .ok (s.candidate, s.ok) ws
  checked : setup.table.check s.candidate = .ok ()
  measured :
    Distance.measure setup.table setup.settings.toleranceEpsilon s.point s.candidate = .ok s.distance

/-- The sighting of the iteration that is about to begin.  The root asks for the cost of the problem,
every other iteration for a projection onto its target. -/
def World.Sees (setup : Setup R σ) (w : World R σ) (s : Sighting R) : Prop :=
  match w.run.stage with
  | .root => s.goal = Goal.ofCost setup.table ∧ w.Shows setup s
  | .projecting target =>
      Goal.projection setup.table w.run.workspace.progress.epoch.alpha target = .ok s.goal ∧
        w.counted.Shows setup s
  | _ => False

/-- What an iteration with a given question sees, if anything. -/
def World.look? (setup : Setup R σ) (w : World R σ) (goal : Goal R) : Option (Sighting R) :=
  match (w.reply setup goal).answer with
  | .error _ => none
  | .ok point =>
      match roundOrNearest setup point w.run.workspace with
      | .error _ _ => none
      | .ok (candidate, ok) _ =>
          match setup.table.check candidate,
            Distance.measure setup.table setup.settings.toleranceEpsilon point candidate with
          | .ok (), .ok distance => some { goal, point, candidate, ok, distance }
          | _, _ => none

/-- The sighting of the iteration that is about to begin, if there is one. -/
def World.sighting? (setup : Setup R σ) (w : World R σ) : Option (Sighting R) :=
  match w.run.stage with
  | .root => w.look? setup (Goal.ofCost setup.table)
  | .projecting target =>
      match Goal.projection setup.table w.run.workspace.progress.epoch.alpha target with
      | .ok goal => w.counted.look? setup goal
      | .error _ => none
  | _ => none

/-- The ledger after an iteration was begun and its rounding measured. -/
def Ledger.measured (setup : Setup R σ) (g : Random.Generator) (d : Distance R) (a : Ledger R) :
    Ledger R :=
  (a.begin.draw g).measure setup.settings.toleranceEpsilon d

/-- The ledger after a stall was counted. -/
def Ledger.stalled (a : Ledger R) : Ledger R := a.onProgress World.countStall

/-- The ledger at the beginning of a new epoch. -/
def Ledger.renewed (setup : Setup R σ) (a : Ledger R) : Ledger R :=
  a.onProgress fun p => ({ p with restarts := p.restarts + 1 }).reset setup.settings

/-- A rounding is the next target if the policy made it, it differs from the point, it repeats no
earlier candidate and the distances still improve. -/
def Sighting.isFresh (setup : Setup R σ) (s : Sighting R) (p : Progress R) : Bool :=
  s.ok && !s.distance.isZero && !p.hasCycled setup.settings s.candidate && !p.isStalled setup.settings

open World in
/-- All that an iteration can do after its sighting, unless it stops with a fault.  The ledger `b` is
that of the measured rounding; at the root the distance is taken into account later.  Each decision
has its phase. -/
inductive Decides (setup : Setup R σ) (s : Sighting R) (stage : Stage R) (b : Ledger R)
    (stage' : Stage R) (b' : Ledger R) : Phase → Prop
  | converged {full : List R} {objective : R} {k : Nat} (ok : s.ok = true)
      (zero : s.distance.isZero = true) (solves : setup.Solves s.candidate full)
      (cost : setup.problem.objective full = .ok objective)
      (ledger : b' = (b.offer ⟨full, objective, setup.name⟩).note .converged s.distance k)
      (next : stage' = finished (b'.outcome (.success full objective))) :
      Decides setup s stage b stage' b' .converged
  | rooted {k : Nat} (root : stage = .root)
      (ledger : b' = ((b.measure setup.settings.toleranceEpsilon s.distance).onProgress
        (Progress.remember s.candidate)).note .init s.distance k)
      (next : stage' = .top s.candidate) :
      Decides setup s stage b stage' b' .init
  | accepted {k : Nat} (later : stage ≠ .root) (fresh : s.isFresh setup b.progress = true)
      (ledger : b' = ((b.onProgress (Progress.remember s.candidate)).note .measuring s.distance
        k).onProgress (Progress.advanceAlpha setup.settings))
      (next : stage' = .top s.candidate) :
      Decides setup s stage b stage' b' .measuring
  | perturbed {moved : Perturbed R} {p : Progress R} {d : Distance R} {k : Nat}
      (later : stage ≠ .root) (stale : s.isFresh setup b.progress = false)
      (patient : b.stalled.progress.epoch.stallCounter ≤ setup.settings.stallCeiling)
      (move : Perturber.perturb setup.settings setup.table setup.ranker s.point s.candidate
        b.stalled.progress = .ok moved p)
      (ledger : b' = ({ b with
        progress := (p.advanceAlpha setup.settings).remember moved.candidate }).note
          .perturbing d k)
      (next : stage' = .top moved.candidate) :
      Decides setup s stage b stage' b' .perturbing
  | stalledOut {k : Nat} (later : stage ≠ .root) (stale : s.isFresh setup b.progress = false)
      (impatient : setup.settings.stallCeiling < b.stalled.progress.epoch.stallCounter)
      (spent : setup.settings.maxRestarts ≤ b.progress.restarts)
      (ledger : b' = b.stalled.note .stalledOut s.distance k)
      (next : stage' = finished (b'.outcome (.failure .maxRestartsExceeded))) :
      Decides setup s stage b stage' b' .stalledOut
  | restarted {moved : Perturbed R} {p : Progress R} {d : Distance R} {k : Nat}
      (later : stage ≠ .root) (stale : s.isFresh setup b.progress = false)
      (impatient : setup.settings.stallCeiling < b.stalled.progress.epoch.stallCounter)
      (left : b.progress.restarts < setup.settings.maxRestarts)
      (move : Perturber.restart setup.settings setup.table setup.ranker s.point s.candidate
        (b.stalled.renewed setup).progress = .ok moved p)
      (ledger : b' = ({ b with progress := p.remember moved.candidate }).note .restarting d k)
      (next : stage' = .top moved.candidate) :
      Decides setup s stage b stage' b' .restarting

end Definitions

section Refusals

variable {R σ : Type} {reply : Reply R σ} {reason reason' : FailureReason}

/-- An oracle refuses for one reason. -/
theorem Reply.Refuses.unique (h : reply.Refuses reason) (h' : reply.Refuses reason') :
    reason = reason' := by
  obtain ⟨e, he, hanswer⟩ := h
  obtain ⟨e', he', hanswer'⟩ := h'
  cases hanswer.symm.trans hanswer'
  exact Option.some.inj (he.symm.trans he')

/-- A question with an answer is not refused. -/
theorem Reply.not_refuses_of_answer {point : List R} (h : reply.answer = .ok point)
    (reason : FailureReason) : ¬ reply.Refuses reason := by
  rintro ⟨e, -, he⟩
  cases h.symm.trans he

end Refusals

namespace World

variable {R σ : Type} [Arith R] {setup : Setup R σ} {now : R} {w w' : World R σ} {stage : Stage R}

section Parts

/-- What is seen was answered, admitted and measured. -/
theorem Shows.toMeasured {s : Sighting R} (h : w.Shows setup s) :
    setup.Measured (w.reply setup s.goal) s.point s.candidate s.distance := by
  obtain ⟨ws, hrounded⟩ := h.rounded
  exact ⟨h.answered, roundOrNearest_fits hrounded, h.checked, h.measured⟩

/-- The question decides what is seen. -/
theorem look?_eq_some {s : Sighting R} {goal : Goal R} :
    w.look? setup goal = some s ↔ s.goal = goal ∧ w.Shows setup s := by
  constructor
  · intro h
    unfold look? at h
    split at h
    · cases h
    · split at h
      · cases h
      · split at h
        · cases h
          exact ⟨rfl, ‹_›, ⟨_, ‹_›⟩, ‹_›, ‹_›⟩
        · cases h
  · rintro ⟨rfl, hanswered, ⟨ws, hrounded⟩, hchecked, hmeasured⟩
    simp only [look?, hanswered, hrounded, hchecked, hmeasured]

/-- What is seen can be computed. -/
theorem sees_iff {s : Sighting R} : w.Sees setup s ↔ w.sighting? setup = some s := by
  unfold Sees sighting?
  cases w.run.stage with
  | root => exact look?_eq_some.symm
  | projecting target =>
      dsimp only
      cases Goal.projection setup.table w.run.workspace.progress.epoch.alpha target with
      | ok goal =>
          rw [look?_eq_some, Except.ok.injEq]
          exact and_congr_left' eq_comm
      | error e => simp
  | _ => simp

theorem Sees.unique {s s' : Sighting R} (h : w.Sees setup s) (h' : w.Sees setup s') : s = s' :=
  Option.some.inj ((sees_iff.mp h).symm.trans (sees_iff.mp h'))

/-- A solve asks once and changes nothing else. -/
theorem solve_replied {goal : Goal R} {r : Except FailureReason (List R)}
    (h : solve setup goal w = .ok r w') : w' = w.replied (w.reply setup goal) := by
  unfold solve at h
  rw [Act.bind_of_ok (Act.get_apply w)] at h
  rcases orReason_eq_ok h with ⟨x, -, hx⟩ | ⟨e, reason, -, -, he⟩
  · cases ha : (w.reply setup goal).answer with
    | ok y =>
        rw [ask_of_ok ha] at hx
        cases hx
        rfl
    | error e =>
        rw [ask_of_error ha] at hx
        cases hx
  · cases ha : (w.reply setup goal).answer with
    | ok y =>
        rw [ask_of_ok ha] at he
        cases he
    | error e' =>
        rw [ask_of_error ha] at he
        cases he
        rfl

theorem aimAtPerturbed_eq_ok {phase : Phase} {point candidate : List R}
    (h : aimAtPerturbed setup now phase point candidate w = .ok stage w') :
    stage = .top candidate ∧
      ∃ d k, w'.ledger = (w.ledger.onProgress (Progress.remember candidate)).note phase d k := by
  unfold aimAtPerturbed at h
  obtain ⟨d, w₁, hmeasure, h⟩ := Act.bind_eq_ok.mp h
  obtain ⟨-, rfl⟩ := measure_eq_ok hmeasure
  obtain ⟨rfl, k, hw⟩ := aimAt_eq_ok h
  exact ⟨rfl, d, k, hw⟩

theorem perturb_eq_ok {point candidate : List R}
    (h : perturb setup now point candidate w = .ok stage w') :
    ∃ moved p d k,
      Perturber.perturb setup.settings setup.table setup.ranker point candidate w.ledger.progress
        = .ok moved p ∧
      stage = .top moved.candidate ∧
      w'.ledger = ({ w.ledger with
        progress := (p.advanceAlpha setup.settings).remember moved.candidate }).note
          .perturbing d k := by
  unfold perturb at h
  obtain ⟨moved, w₁, hmove, h⟩ := Act.bind_eq_ok.mp h
  obtain ⟨p, hp, hw₁⟩ := onProgress_eq_ok hmove
  obtain ⟨_, w₂, halpha, h⟩ := Act.bind_eq_ok.mp h
  have hw₂ := onProgress_modify_eq_ok halpha
  obtain ⟨rfl, d, k, hw'⟩ := aimAtPerturbed_eq_ok h
  refine ⟨moved, p, d, k, hp, rfl, ?_⟩
  rw [hw', hw₂, hw₁]
  rfl

theorem restart_eq_ok {d : Distance R} {point candidate : List R}
    (h : restart setup now d point candidate w = .ok stage w') :
    (setup.settings.maxRestarts ≤ w.ledger.progress.restarts ∧
      ∃ k, w'.ledger = w.ledger.note .stalledOut d k ∧
        stage = finished (w'.ledger.outcome (.failure .maxRestartsExceeded))) ∨
    (w.ledger.progress.restarts < setup.settings.maxRestarts ∧
      ∃ moved p d' k,
        Perturber.restart setup.settings setup.table setup.ranker point candidate
          (w.ledger.renewed setup).progress = .ok moved p ∧
        stage = .top moved.candidate ∧
        w'.ledger = ({ w.ledger with progress := p.remember moved.candidate }).note
          .restarting d' k) := by
  unfold restart at h
  obtain ⟨p, w₁, hp, h⟩ := Act.bind_eq_ok.mp h
  obtain ⟨rfl, rfl⟩ := progress_eq_ok.mp hp
  split at h
  · rename_i hspent
    obtain ⟨_, w₂, hrecord, h⟩ := Act.bind_eq_ok.mp h
    obtain ⟨k, hk⟩ := record_eq_ok hrecord
    obtain ⟨rfl, hw'⟩ := finished_fail_eq_ok h
    rw [hw']
    exact Or.inl ⟨hspent, k, hk, rfl⟩
  · rename_i hleft
    obtain ⟨_, w₂, hreset, h⟩ := Act.bind_eq_ok.mp h
    have hw₂ := onProgress_modify_eq_ok hreset
    obtain ⟨moved, w₃, hmove, h⟩ := Act.bind_eq_ok.mp h
    obtain ⟨p, hp, hw₃⟩ := onProgress_eq_ok hmove
    obtain ⟨rfl, d', k, hw'⟩ := aimAtPerturbed_eq_ok h
    rw [hw₂] at hp
    refine Or.inr ⟨Int.not_le.mp hleft, moved, p, d', k, hp, rfl, ?_⟩
    rw [hw', hw₃, hw₂]
    rfl

theorem accept_eq_ok {d : Distance R} {point candidate : List R}
    (h : accept setup now d point candidate w = .ok stage w') :
    stage = .top candidate ∧ ∃ k, w'.ledger =
      ((w.ledger.onProgress (Progress.remember candidate)).note .measuring d k).onProgress
        (Progress.advanceAlpha setup.settings) := by
  unfold accept at h
  obtain ⟨next, w₁, haim, h⟩ := Act.bind_eq_ok.mp h
  obtain ⟨rfl, k, hw₁⟩ := aimAt_eq_ok haim
  obtain ⟨_, w₂, halpha, h⟩ := Act.bind_eq_ok.mp h
  cases h
  refine ⟨rfl, k, ?_⟩
  rw [onProgress_modify_eq_ok halpha, hw₁]

/-- A stall is answered by a perturbation, a restart or the end of the run. -/
theorem escalate_decides {s : Sighting R} {before : Stage R}
    (h : escalate setup now s.distance s.point s.candidate w = .ok stage w')
    (later : before ≠ .root) (stale : s.isFresh setup w.ledger.progress = false) :
    ∃ phase, Decides setup s before w.ledger stage w'.ledger phase := by
  unfold escalate at h
  obtain ⟨_, w₁, hstall, h⟩ := Act.bind_eq_ok.mp h
  have hw₁ : w₁.ledger = w.ledger.stalled := onProgress_modify_eq_ok hstall
  obtain ⟨p, w₂, hp, h⟩ := Act.bind_eq_ok.mp h
  obtain ⟨rfl, rfl⟩ := progress_eq_ok.mp hp
  split at h
  · rename_i hpatient
    obtain ⟨moved, p, d, k, hmove, hnext, hw'⟩ := perturb_eq_ok h
    rw [hw₁] at hpatient hmove hw'
    exact ⟨_, .perturbed later stale hpatient hmove hw' hnext⟩
  · rename_i himpatient
    rw [hw₁] at himpatient
    rcases restart_eq_ok h with
      ⟨hspent, k, hw', hnext⟩ | ⟨hleft, moved, p, d, k, hmove, hnext, hw'⟩
    · rw [hw₁] at hspent hw'
      exact ⟨_, .stalledOut later stale (Int.not_le.mp himpatient) hspent hw' hnext⟩
    · rw [hw₁] at hleft hmove hw'
      exact ⟨_, .restarted later stale (Int.not_le.mp himpatient) hleft hmove hw' hnext⟩

end Parts

section Iterations

/-- The root is refused, or it sees and decides. -/
theorem solveRoot_eq_ok (h : solveRoot setup now w = .ok stage w') :
    (∃ reason, (w.reply setup (Goal.ofCost setup.table)).Refuses reason ∧
      stage = finished (w.ledger.outcome (.failure reason)) ∧ w'.ledger = w.ledger) ∨
    ∃ s g phase, s.goal = Goal.ofCost setup.table ∧ w.Shows setup s ∧
      Decides setup s .root (w.ledger.draw g) stage w'.ledger phase := by
  unfold solveRoot at h
  obtain ⟨r, w₁, hsolve, h⟩ := Act.bind_eq_ok.mp h
  obtain rfl := solve_replied hsolve
  obtain ⟨-, ⟨point, rfl, hpoint⟩ | ⟨e, reason, rfl, hreason, hanswer⟩⟩ := solve_eq_ok hsolve
  · right
    obtain ⟨x, w₂, hround, h⟩ := Act.bind_eq_ok.mp h
    obtain ⟨ws, hrounded⟩ := round_ran hround
    obtain ⟨-, hcheck, g, hw₂⟩ := round_eq_ok hround
    obtain ⟨candidate, ok⟩ := x
    obtain ⟨d, w₃, hmeasure, h⟩ := Act.bind_eq_ok.mp h
    obtain ⟨hd, rfl⟩ := measure_eq_ok hmeasure
    suffices hdecides : ∃ phase, Decides setup ⟨Goal.ofCost setup.table, point, candidate, ok, d⟩
        .root (w.ledger.draw g) stage w'.ledger phase by
      obtain ⟨phase, hdecides⟩ := hdecides
      exact ⟨⟨Goal.ofCost setup.table, point, candidate, ok, d⟩, g, phase, rfl,
        ⟨hpoint, ⟨ws, hrounded⟩, hcheck, hd⟩, hdecides⟩
    obtain ⟨r, w₄, hconverge, h⟩ := Act.bind_eq_ok.mp h
    rw [ledger_replied] at hw₂
    rcases convergeIfZero_eq_ok hconverge ⟨_, _, _, hpoint⟩ with
      ⟨rfl, hw₄⟩ | ⟨hok, hzero, full, objective, k, hsolves, hcost, hw₄, rfl⟩
    · obtain ⟨_, w₅, hrecord, h⟩ := Act.bind_eq_ok.mp h
      have hw₅ := onProgress_modify_eq_ok hrecord
      obtain ⟨hnext, k, hw'⟩ := aimAt_eq_ok h
      rw [hw₅, hw₄, hw₂] at hw'
      exact ⟨_, .rooted rfl hw' hnext⟩
    · cases h
      rw [hw₂] at hw₄
      exact ⟨_, .converged hok hzero hsolves hcost hw₄ rfl⟩
  · left
    obtain ⟨rfl, hw⟩ := finished_fail_eq_ok h
    rw [hw, ledger_replied]
    exact ⟨reason, ⟨e, hreason, hanswer⟩, rfl, rfl⟩

/-- An iteration projects onto its target; it is refused, or it sees and decides. -/
theorem iterate_eq_ok {target : List R} (h : iterate setup now target w = .ok stage w') :
    ∃ goal, Goal.projection setup.table w.ledger.progress.epoch.alpha target = .ok goal ∧
      ((∃ reason, (w.reply setup goal).Refuses reason ∧
        stage = finished (w.ledger.begin.outcome (.failure reason)) ∧
        w'.ledger = w.ledger.begin) ∨
      ∃ s g phase, s.goal = goal ∧ w.counted.Shows setup s ∧
        Decides setup s (.projecting target) (w.ledger.measured setup g s.distance) stage
          w'.ledger phase) := by
  have hlater : Stage.projecting target ≠ .root := by rintro ⟨⟩
  unfold iterate at h
  obtain ⟨_, w₁, hbegin, h⟩ := Act.bind_eq_ok.mp h
  obtain rfl : w.counted = w₁ := by
    cases hbegin
    rfl
  obtain ⟨p, w₂, hp, h⟩ := Act.bind_eq_ok.mp h
  obtain ⟨rfl, rfl⟩ := progress_eq_ok.mp hp
  obtain ⟨goal, w₂, hgoal, h⟩ := Act.bind_eq_ok.mp h
  obtain ⟨aim, rfl⟩ := Act.ofExcept_eq_ok.mp hgoal
  refine ⟨goal, aim, ?_⟩
  obtain ⟨r, w₂, hsolve, h⟩ := Act.bind_eq_ok.mp h
  obtain rfl := solve_replied hsolve
  obtain ⟨-, ⟨point, rfl, hpoint⟩ | ⟨e, reason, rfl, hreason, hanswer⟩⟩ := solve_eq_ok hsolve
  · right
    obtain ⟨x, w₃, hround, h⟩ := Act.bind_eq_ok.mp h
    obtain ⟨ws, hrounded⟩ := round_ran hround
    obtain ⟨-, hcheck, g, hw₃⟩ := round_eq_ok hround
    obtain ⟨candidate, ok⟩ := x
    obtain ⟨d, w₄, hmeasure, h⟩ := Act.bind_eq_ok.mp h
    obtain ⟨hd, rfl⟩ := measure_eq_ok hmeasure
    suffices hdecides : ∃ phase, Decides setup ⟨goal, point, candidate, ok, d⟩ (.projecting target)
        (w.ledger.measured setup g d) stage w'.ledger phase by
      obtain ⟨phase, hdecides⟩ := hdecides
      exact ⟨⟨goal, point, candidate, ok, d⟩, g, phase, rfl,
        ⟨hpoint, ⟨ws, hrounded⟩, hcheck, hd⟩, hdecides⟩
    obtain ⟨_, w₄, hrecord, h⟩ := Act.bind_eq_ok.mp h
    have hw₄ : w₄.ledger = w.ledger.measured setup g d := by
      rw [onProgress_modify_eq_ok hrecord, hw₃, ledger_replied]
      rfl
    obtain ⟨r, w₅, hconverge, h⟩ := Act.bind_eq_ok.mp h
    rcases convergeIfZero_eq_ok hconverge ⟨_, _, _, hpoint⟩ with
      ⟨rfl, hw₅⟩ | ⟨hok, hzero, full, objective, k, hsolves, hcost, hw₅, rfl⟩
    · obtain ⟨p, w₆, hp, h⟩ := Act.bind_eq_ok.mp h
      obtain ⟨rfl, rfl⟩ := progress_eq_ok.mp hp
      rw [hw₄] at hw₅
      rw [← hw₅]
      split at h
      · rename_i hfresh
        obtain ⟨hnext, k, hw'⟩ := accept_eq_ok h
        exact ⟨_, .accepted hlater hfresh hw' hnext⟩
      · rename_i hstale
        exact escalate_decides h hlater (Bool.eq_false_iff.mpr hstale)
    · cases h
      rw [hw₄] at hw₅
      exact ⟨_, .converged hok hzero hsolves hcost hw₅ rfl⟩
  · left
    obtain ⟨rfl, hw'⟩ := finished_fail_eq_ok h
    rw [hw', ledger_replied]
    exact ⟨reason, ⟨e, hreason, hanswer⟩, rfl, rfl⟩

end Iterations

end World

end MipPump
