import MipPump.Proofs.TraceShape

/-!
# The laps of a run

A run is a sequence of laps: the root first, and then one lap for each iteration that is started.
Between two laps the run only looks at the signal to stop.  The lap at place `m` of the sequence is
iteration `m`, and the record at place `m` of the trace is its record.

* `World.laps`: the laps of a run; `Lap.record?` and `Lap.target?` are what a lap adds to the trace
  and what it leaves to the next lap.
* `World.Lapped setup start done w`: steps lead from `start` to `w` by the laps `done`.
* `Begins.refused_or_decides`, `Begins.step_cases`: a lap stops with a fault, is refused, or sees and
  decides.
* `Begins.decides_of_record`: the decision that a record tells of.
* `Lapped.filterMap_record`: the records of the laps are the trace.
* `laps_split`: the steps that are left after each lap.
-/

namespace MipPump

section Definitions

variable {R σ : Type}

/-- The worlds before and after the root or an iteration. -/
structure Lap (R σ : Type) where
  before : World R σ
  after : World R σ

namespace Lap

/-- The record that a lap adds to the trace, unless it stops with a fault. -/
def record? (l : Lap R σ) : Option (Record R) :=
  match l.after.run.stage with
  | .ended (.error _) => none
  | _ => l.after.run.trace[l.before.run.trace.length]?

/-- The candidate that a lap leaves to the next one as its target. -/
def target? (l : Lap R σ) : Option (List R) :=
  match l.after.run.stage with
  | .top target => some target
  | _ => none

/-- The phase that a lap records. -/
def phase? (l : Lap R σ) : Option Phase := l.record?.map (·.phase)

/-- Number of the laps that record a phase. -/
def count (phase : Phase) (laps : List (Lap R σ)) : Nat := laps.countP fun l => l.phase? = some phase

end Lap

/-- A lap is about to begin: the root, or an iteration. -/
def World.Begins (w : World R σ) : Prop :=
  w.run.stage = .root ∨ ∃ target, w.run.stage = .projecting target

/-- The next step looks at the signal to stop. -/
def World.Looks (w : World R σ) : Prop :=
  w.run.stage = .opening ∨ ∃ target, w.run.stage = .top target

/-- The run has not ended. -/
def World.Goes (w : World R σ) : Prop := ∀ result, w.run.stage ≠ .ended result

variable [Arith R]

/-- The laps of a run; `clock k` is the instant of the step with `k` more left. -/
def World.laps (setup : Setup R σ) (clock : Nat → R) : Nat → World R σ → List (Lap R σ)
  | 0, _ => []
  | fuel + 1, w =>
      let next := w.step setup (clock fuel)
      match w.run.stage with
      | .root | .projecting _ => { before := w, after := next } :: laps setup clock fuel next
      | .opening | .top _ => laps setup clock fuel next
      | .ended _ => []

/-- Steps lead from `start` to a world by the laps in the list, the earliest first. -/
inductive World.Lapped (setup : Setup R σ) (start : World R σ) :
    List (Lap R σ) → World R σ → Prop
  | start : Lapped setup start [] start
  | look {done : List (Lap R σ)} {w : World R σ} (h : Lapped setup start done w)
      (looks : w.Looks) (now : R) : Lapped setup start done (w.step setup now)
  | lap {done : List (Lap R σ)} {w : World R σ} (h : Lapped setup start done w)
      (begins : w.Begins) (now : R) :
      Lapped setup start (done ++ [⟨w, w.step setup now⟩]) (w.step setup now)

/-- The question that a lap begins with. -/
def World.Poses (setup : Setup R σ) (w : World R σ) (goal : Goal R) : Prop :=
  match w.run.stage with
  | .root => goal = Goal.ofCost setup.table
  | .projecting target =>
      Goal.projection setup.table w.run.workspace.progress.epoch.alpha target = .ok goal
  | _ => False

/-- The ledger with the distance of a sighting measured; at the root it is taken into account
later. -/
def World.seen (setup : Setup R σ) (w : World R σ) (g : Random.Generator) (s : Sighting R) :
    Ledger R :=
  match w.run.stage with
  | .root => w.ledger.draw g
  | _ => w.ledger.measured setup g s.distance

end Definitions

/-- The second world is the first after a look at the signal to stop that let the run go on. -/
structure World.Looked {R σ : Type} (w v : World R σ) : Prop where
  stage : (w.run.stage = .opening ∧ v.run.stage = .root) ∨
    ∃ target, w.run.stage = .top target ∧ v.run.stage = .projecting target
  oracle : v.run.oracle = w.run.oracle
  workspace : v.run.workspace = w.run.workspace
  trace : v.run.trace = w.run.trace

section Parts

variable {R σ : Type}

/-- An entry of a list with one more at its end is an old one or the last. -/
theorem getElem?_concat_eq_some {α : Type} {xs : List α} {x y : α} {j : Nat} :
    (xs ++ [x])[j]? = some y ↔ xs[j]? = some y ∨ (j = xs.length ∧ x = y) := by
  rcases Nat.lt_trichotomy j xs.length with hlt | rfl | hlt
  · simp [List.getElem?_append_left hlt, Nat.ne_of_lt hlt]
  · simp
  · rw [List.getElem?_eq_none (by simp; omega), List.getElem?_eq_none (Nat.le_of_lt hlt)]
    simp [Nat.ne_of_gt hlt]

/-- A list around one of its entries. -/
theorem eq_take_cons_drop {α : Type} {xs : List α} {x : α} {k : Nat} (h : xs[k]? = some x) :
    xs = xs.take k ++ x :: xs.drop (k + 1) := by
  obtain ⟨hlt, rfl⟩ := List.getElem?_eq_some_iff.mp h
  rw [← List.drop_eq_getElem_cons hlt, List.take_append_drop]

theorem Lap.record?_of_trace {l : Lap R σ} {r : Record R}
    (htrace : l.after.run.trace = l.before.run.trace ++ [r])
    (hfault : ∀ e, l.after.run.stage ≠ .ended (.error e)) : l.record? = some r := by
  unfold record?
  split
  · exact absurd ‹_› (hfault _)
  · rw [htrace]
    simp

/-- A lap that stops with a fault leaves no record. -/
theorem Lap.ne_error_of_record {l : Lap R σ} {r : Record R} (h : l.record? = some r) (e : Fault R) :
    l.after.run.stage ≠ .ended (.error e) := by
  intro he
  simp [record?, he] at h

theorem Lap.record?_of_same {l : Lap R σ} (htrace : l.after.run.trace = l.before.run.trace) :
    l.record? = none := by
  unfold record?
  split
  · rfl
  · rw [htrace]
    simp

theorem Lap.target?_of_top {l : Lap R σ} {target : List R} (h : l.after.run.stage = .top target) :
    l.target? = some target := by
  simp only [target?, h]

@[simp] theorem Lap.count_nil (phase : Phase) : Lap.count phase ([] : List (Lap R σ)) = 0 := rfl

theorem Lap.count_concat (phase : Phase) (laps : List (Lap R σ)) (l : Lap R σ) :
    Lap.count phase (laps ++ [l]) = Lap.count phase laps + if l.phase? = some phase then 1 else 0 := by
  unfold Lap.count
  rw [List.countP_append, List.countP_singleton]
  simp only [decide_eq_true_eq]

/-- The record at place `k` of a trace is that of iteration `k`. -/
theorem Numbered.iteration_eq {records : List (Record R)} (h : Numbered records) {k : Nat}
    {r : Record R} (hr : records[k]? = some r) : r.iteration = k := by
  have hk := congrArg (·[k]?) h.iterations
  have hlt := (List.getElem?_eq_some_iff.mp hr).1
  simpa [hr, List.getElem?_range hlt] using hk

end Parts

namespace World

variable {R σ : Type} {w : World R σ}

theorem Begins.goes (h : w.Begins) : w.Goes := by
  rintro result hstage
  rcases h with h | ⟨target, h⟩ <;> rw [h] at hstage <;> cases hstage

theorem Looks.goes (h : w.Looks) : w.Goes := by
  rintro result hstage
  rcases h with h | ⟨target, h⟩ <;> rw [h] at hstage <;> cases hstage

theorem exists_of_not_goes (h : ¬ w.Goes) : ∃ result, w.run.stage = .ended result :=
  not_forall_not.mp h

variable [Arith R] {setup : Setup R σ} {now : R}

section Steps

/-- A look at the signal to stop leaves the ledger alone. -/
theorem Looks.ledger_step (h : w.Looks) (setup : Setup R σ) (now : R) :
    (∃ e, (w.step setup now).run.stage = .ended (.error e)) ∨
      (w.step setup now).ledger = w.ledger := by
  refine (step_transition setup now w).imp_right fun ht => ?_
  generalize (w.step setup now).run.stage = stage' at ht
  generalize (w.step setup now).ledger = a' at ht ⊢
  rcases h with h | ⟨target, h⟩
  · rw [h] at ht
    cases ht <;> rfl
  · rw [h] at ht
    cases ht <;> rfl

/-- A run that goes on after its look has changed the stage only. -/
theorem Looks.looked (h : w.Looks) (goes : (w.step setup now).Goes) :
    w.Looked (w.step setup now) := by
  have hledger : (w.step setup now).ledger = w.ledger :=
    (h.ledger_step setup now).resolve_left fun ⟨e, he⟩ => goes _ he
  have htrace := congrArg Ledger.trace hledger
  unfold step at goes htrace ⊢
  rcases h with h | ⟨target, h⟩
  · rw [h] at goes htrace ⊢
    cases hact : act setup now .opening w with
    | error e v =>
        rw [hact] at goes
        exact absurd rfl (goes _)
    | ok stage v =>
        rw [hact] at goes htrace
        have ht : Transition setup _ .opening w.ledger stage v.ledger := openRun_transition hact
        generalize v.ledger = a' at ht
        cases ht with
        | notAllowed | notStarted => exact absurd rfl (goes _)
        | opened =>
            obtain ⟨horacle, hworkspace⟩ := openRun_eq_root hact
            exact ⟨.inl ⟨h, rfl⟩, horacle, hworkspace, htrace⟩
  · rw [h] at goes htrace ⊢
    cases hact : act setup now (.top target) w with
    | error e v =>
        rw [hact] at goes
        exact absurd rfl (goes _)
    | ok stage v =>
        rw [hact] at goes htrace
        have ht : Transition setup _ (.top target) w.ledger stage v.ledger := pause_transition hact
        generalize v.ledger = a' at ht
        cases ht with
        | exhausted | stopped => exact absurd rfl (goes _)
        | resumed =>
            obtain rfl := pause_eq_projecting hact
            exact ⟨.inr ⟨target, h, rfl⟩, rfl, rfl, rfl⟩

theorem Poses.unique {goal goal' : Goal R} (h : w.Poses setup goal) (h' : w.Poses setup goal') :
    goal = goal' := by
  unfold Poses at h h'
  cases hstage : w.run.stage with
  | root =>
      rw [hstage] at h h'
      exact h.trans h'.symm
  | projecting target =>
      rw [hstage] at h h'
      exact Except.ok.inj (h.symm.trans h')
  | _ =>
      rw [hstage] at h
      exact h.elim

/-- What is seen is the answer to the question that the lap begins with. -/
theorem Sees.poses {s : Sighting R} (h : w.Sees setup s) :
    w.Poses setup s.goal ∧ (w.reply setup s.goal).answer = .ok s.point := by
  unfold Sees at h
  unfold Poses
  cases hstage : w.run.stage with
  | root | projecting =>
      rw [hstage] at h
      exact ⟨h.1, h.2.answered⟩
  | _ =>
      rw [hstage] at h
      exact h.elim

/-- A lap stops with a fault, or it poses a question.  If this is refused, then the run fails for that
reason; otherwise the lap sees and decides. -/
theorem Begins.refused_or_decides (h : w.Begins) (setup : Setup R σ) (now : R) :
    (∃ e, (w.step setup now).run.stage = .ended (.error e)) ∨
    ∃ goal, w.Poses setup goal ∧
      ((∃ reason o, (w.reply setup goal).Refuses reason ∧
          (w.step setup now).run.stage = .ended (.ok o) ∧ o.ending = .failure reason ∧
          (w.step setup now).run.trace = w.run.trace) ∨
        ∃ s g phase, w.Sees setup s ∧ s.goal = goal ∧ Decides setup s w.run.stage
          (w.seen setup g s) (w.step setup now).run.stage (w.step setup now).ledger phase) := by
  unfold step
  cases hact : act setup now w.run.stage w with
  | error e v => exact .inl ⟨e, rfl⟩
  | ok stage v =>
      right
      rcases h with h | ⟨target, h⟩
      · rw [h] at hact
        refine ⟨Goal.ofCost setup.table, by simp only [Poses, h], ?_⟩
        rcases solveRoot_eq_ok hact with
          ⟨reason, hrefused, rfl, hv⟩ | ⟨s, g, phase, hgoal, hshows, hd⟩
        · exact .inl ⟨reason, _, hrefused, rfl, rfl, congrArg Ledger.trace hv⟩
        · refine .inr ⟨s, g, phase, ?_, hgoal, ?_⟩
          · simp only [Sees, h]
            exact ⟨hgoal, hshows⟩
          · simp only [seen, h]
            exact hd
      · rw [h] at hact
        obtain ⟨goal, aim, hcases⟩ := iterate_eq_ok hact
        refine ⟨goal, by simp only [Poses, h]; exact aim, ?_⟩
        rcases hcases with ⟨reason, hrefused, rfl, hv⟩ | ⟨s, g, phase, rfl, hshows, hd⟩
        · exact .inl ⟨reason, _, hrefused, rfl, rfl, congrArg Ledger.trace hv⟩
        · refine .inr ⟨s, g, phase, ?_, rfl, ?_⟩
          · simp only [Sees, h]
            exact ⟨aim, hshows⟩
          · simp only [seen, h]
            exact hd

/-- A lap stops with a fault, is refused by the oracle, or sees and decides. -/
theorem Begins.step_cases (h : w.Begins) (setup : Setup R σ) (now : R) :
    (∃ e, (w.step setup now).run.stage = .ended (.error e)) ∨
    ((∀ s, ¬ w.Sees setup s) ∧ (∃ o, (w.step setup now).run.stage = .ended (.ok o)) ∧
      (w.step setup now).run.trace = w.run.trace) ∨
    ∃ s g phase, w.Sees setup s ∧ Decides setup s w.run.stage (w.seen setup g s)
      (w.step setup now).run.stage (w.step setup now).ledger phase := by
  refine (h.refused_or_decides setup now).imp_right ?_
  rintro ⟨goal, hposes, ⟨reason, o, hrefused, hend, -, hsame⟩ | ⟨s, g, phase, hsees, -, hd⟩⟩
  · refine .inl ⟨fun s hs => ?_, ⟨o, hend⟩, hsame⟩
    obtain ⟨hgoal, hanswer⟩ := hs.poses
    rw [hgoal.unique hposes] at hanswer
    exact Reply.not_refuses_of_answer hanswer reason hrefused
  · exact .inr ⟨s, g, phase, hsees, hd⟩

/-- The decision of a lap that goes on. -/
theorem Begins.decides (h : w.Begins) (goes : (w.step setup now).Goes) :
    ∃ s g phase, w.Sees setup s ∧ Decides setup s w.run.stage (w.seen setup g s)
      (w.step setup now).run.stage (w.step setup now).ledger phase :=
  ((h.step_cases setup now).resolve_left fun ⟨_, he⟩ => goes _ he).resolve_left
    fun ⟨_, ⟨_, ho⟩, _⟩ => goes _ ho

/-- What a lap does after its sighting, unless it stops with a fault. -/
theorem Begins.decides_of_sees (h : w.Begins) {s : Sighting R} (hs : w.Sees setup s)
    (hfault : ∀ e, (w.step setup now).run.stage ≠ .ended (.error e)) :
    ∃ g phase, Decides setup s w.run.stage (w.seen setup g s)
      (w.step setup now).run.stage (w.step setup now).ledger phase := by
  rcases h.step_cases setup now with ⟨e, he⟩ | ⟨hnone, -⟩ | ⟨s', g, phase, hs', hd⟩
  · exact absurd he (hfault e)
  · exact absurd hs (hnone s)
  · cases hs.unique hs'
    exact ⟨g, phase, hd⟩

@[simp] theorem trace_seen (w : World R σ) (g : Random.Generator) (s : Sighting R) :
    (w.seen setup g s).trace = w.run.trace := by
  unfold seen
  split <;> rfl

@[simp] theorem restarts_seen (w : World R σ) (g : Random.Generator) (s : Sighting R) :
    (w.seen setup g s).progress.restarts = w.run.workspace.progress.restarts := by
  unfold seen
  split <;> rfl

end Steps

end World

section Epochs

variable {R : Type} [Arith R]

@[simp] theorem Epoch.history_measure (e : Epoch R) (value eps : R) :
    (e.measure value eps).2.history = e.history := by
  unfold measure
  dsimp only
  split <;> rfl

@[simp] theorem Epoch.alpha_measure (e : Epoch R) (value eps : R) :
    (e.measure value eps).2.alpha = e.alpha := by
  unfold measure
  dsimp only
  split <;> rfl

@[simp] theorem Ledger.history_measure (a : Ledger R) (eps : R) (d : Distance R) :
    (a.measure eps d).progress.epoch.history = a.progress.epoch.history :=
  a.progress.epoch.history_measure d.value eps

@[simp] theorem Ledger.alpha_measure (a : Ledger R) (eps : R) (d : Distance R) :
    (a.measure eps d).progress.epoch.alpha = a.progress.epoch.alpha :=
  a.progress.epoch.alpha_measure d.value eps

@[simp] theorem World.history_seen {σ : Type} {setup : Setup R σ} (w : World R σ)
    (g : Random.Generator) (s : Sighting R) :
    (w.seen setup g s).progress.epoch.history = w.run.workspace.progress.epoch.history := by
  unfold seen
  split
  · rfl
  · exact Ledger.history_measure _ _ _

@[simp] theorem World.alpha_seen {σ : Type} {setup : Setup R σ} (w : World R σ)
    (g : Random.Generator) (s : Sighting R) :
    (w.seen setup g s).progress.epoch.alpha = w.run.workspace.progress.epoch.alpha := by
  unfold seen
  split
  · rfl
  · exact Ledger.alpha_measure _ _ _

end Epochs

section Decisions

variable {R σ : Type} [Arith R] {setup : Setup R σ} {s : Sighting R} {stage stage' : Stage R}
  {b b' : Ledger R} {phase : Phase}

/-- Every decision is recorded with its phase. -/
theorem Decides.trace (h : Decides setup s stage b stage' b' phase) :
    ∃ r, b'.trace = b.trace ++ [r] ∧ r.phase = phase := by
  cases h with
  | converged _ _ _ _ ledger => exact ⟨_, congrArg Ledger.trace ledger, rfl⟩
  | rooted _ ledger => exact ⟨_, congrArg Ledger.trace ledger, rfl⟩
  | accepted _ _ ledger => exact ⟨_, congrArg Ledger.trace ledger, rfl⟩
  | perturbed _ _ _ _ ledger => exact ⟨_, congrArg Ledger.trace ledger, rfl⟩
  | stalledOut _ _ _ _ ledger => exact ⟨_, congrArg Ledger.trace ledger, rfl⟩
  | restarted _ _ _ _ _ ledger => exact ⟨_, congrArg Ledger.trace ledger, rfl⟩

/-- A decision that does not end the run chooses a target. -/
theorem Decides.target (h : Decides setup s stage b stage' b' phase)
    (goes : ∀ result, stage' ≠ .ended result) : ∃ target, stage' = .top target := by
  cases h with
  | converged _ _ _ _ _ next => exact absurd next (goes _)
  | rooted _ _ next => exact ⟨_, next⟩
  | accepted _ _ _ next => exact ⟨_, next⟩
  | perturbed _ _ _ _ _ next => exact ⟨_, next⟩
  | stalledOut _ _ _ _ _ next => exact absurd next (goes _)
  | restarted _ _ _ _ _ _ next => exact ⟨_, next⟩

/-- A decision after which a run goes on is none of the last ones. -/
theorem Decides.phase_of_goes (h : Decides setup s stage b stage' b' phase)
    (goes : ∀ result, stage' ≠ .ended result) : phase ≠ .stalledOut ∧ phase ≠ .converged := by
  cases h with
  | converged _ _ _ _ _ next => exact absurd next (goes _)
  | stalledOut _ _ _ _ _ next => exact absurd next (goes _)
  | _ => exact ⟨nofun, nofun⟩

/-- The trace is numbered in every stage. -/
theorem Shaped.numbered {settings : Settings R} {a : Ledger R} (h : Shaped settings stage a)
    (hfault : ∀ e, stage ≠ .ended (.error e)) : Numbered a.trace := by
  cases stage with
  | opening =>
      rw [h.trace]
      exact .nil
  | root =>
      rw [h.1.trace]
      exact .nil
  | top target => exact h.1.numbered
  | projecting target => exact h.1.numbered
  | ended result =>
      cases result with
      | error e => exact absurd rfl (hfault e)
      | ok o =>
          rw [← h.2]
          exact h.1.numbered

/-- An outcome reports the trace. -/
theorem Transition.outcome_trace {env : Surroundings R σ} {a a' : Ledger R} {o : Outcome R}
    (h : Transition setup env stage a (.ended (.ok o)) a')
    (goes : ∀ result, stage ≠ .ended result) : o.trace = a'.trace := by
  generalize hend : Stage.ended (Except.ok o) = next at h
  cases h <;> cases hend <;> first | rfl | exact absurd rfl (goes _)

end Decisions

namespace World

variable {R σ : Type} [Arith R] {setup : Setup R σ} {start w : World R σ}
  {done : List (Lap R σ)} {clock : Nat → R} {fuel : Nat}

section Records

/-- The decision that a record tells of. -/
theorem Begins.decides_of_record (h : w.Begins) {now : R} {r : Record R}
    (hr : Lap.record? ⟨w, w.step setup now⟩ = some r) :
    ∃ s g, w.Sees setup s ∧ Decides setup s w.run.stage (w.seen setup g s)
        (w.step setup now).run.stage (w.step setup now).ledger r.phase ∧
      (w.step setup now).run.trace = w.run.trace ++ [r] := by
  rcases h.step_cases setup now with ⟨e, he⟩ | ⟨-, -, hsame⟩ | ⟨s, g, phase, hsees, hd⟩
  · exact absurd he (Lap.ne_error_of_record hr e)
  · rw [Lap.record?_of_same hsame] at hr
    cases hr
  · obtain ⟨r', htrace, rfl⟩ := hd.trace
    rw [trace_seen] at htrace
    rw [Lap.record?_of_trace htrace (Lap.ne_error_of_record hr), Option.some.injEq] at hr
    obtain rfl := hr
    exact ⟨s, g, hsees, hd, htrace⟩

/-- A decision is recorded with its phase. -/
theorem record_of_decides {s : Sighting R} {g : Random.Generator} {now : R} {phase : Phase}
    (hd : Decides setup s w.run.stage (w.seen setup g s) (w.step setup now).run.stage
      (w.step setup now).ledger phase)
    (hfault : ∀ e, (w.step setup now).run.stage ≠ .ended (.error e)) :
    ∃ r, Lap.record? ⟨w, w.step setup now⟩ = some r ∧ r.phase = phase ∧
      (w.step setup now).run.trace = w.run.trace ++ [r] := by
  obtain ⟨r, htrace, hphase⟩ := hd.trace
  rw [trace_seen] at htrace
  exact ⟨r, Lap.record?_of_trace htrace hfault, hphase, htrace⟩

theorem phase_of_decides {s : Sighting R} {g : Random.Generator} {now : R} {phase : Phase}
    (hd : Decides setup s w.run.stage (w.seen setup g s) (w.step setup now).run.stage
      (w.step setup now).ledger phase)
    (hfault : ∀ e, (w.step setup now).run.stage ≠ .ended (.error e)) :
    Lap.phase? ⟨w, w.step setup now⟩ = some phase := by
  obtain ⟨r, hr, hphase, -⟩ := record_of_decides hd hfault
  rw [Lap.phase?, hr, Option.map_some, hphase]

/-- What is in the trace was recorded by the laps. -/
theorem Lapped.filterMap_record (h : Lapped setup start done w) (hstart : start.run.trace = [])
    (hfault : ∀ e, w.run.stage ≠ .ended (.error e)) :
    done.filterMap (·.record?) = w.run.trace := by
  induction h with
  | start => exact hstart.symm
  | @look done w h looks now ih =>
      have hledger := (looks.ledger_step setup now).resolve_left fun ⟨e, he⟩ => hfault e he
      rw [ih fun e => looks.goes _]
      exact (congrArg Ledger.trace hledger).symm
  | @lap done w h begins now ih =>
      rw [List.filterMap_append, ih fun e => begins.goes _]
      rcases begins.step_cases setup now with ⟨e, he⟩ | ⟨-, -, hsame⟩ | ⟨s, g, phase, -, hd⟩
      · exact absurd he (hfault e)
      · rw [hsame, List.filterMap_cons_none (Lap.record?_of_same hsame)]
        simp
      · obtain ⟨r, hr, -⟩ := hd.trace
        rw [trace_seen] at hr
        rw [List.filterMap_cons_some (Lap.record?_of_trace hr hfault)]
        exact hr.symm

/-- As long as a run goes on, each of its laps has left a record. -/
theorem Lapped.map_record (h : Lapped setup start done w) (hstart : start.run.trace = [])
    (goes : w.Goes) : done.map (·.record?) = w.run.trace.map some := by
  induction h with
  | start => rw [hstart]; rfl
  | @look done w h looks now ih =>
      rw [ih looks.goes, (looks.looked goes).trace]
  | @lap done w h begins now ih =>
      rw [List.map_append, ih begins.goes]
      rcases begins.step_cases setup now with ⟨e, he⟩ | ⟨-, ⟨o, ho⟩, -⟩ | ⟨s, g, phase, -, hd⟩
      · exact absurd he (goes _)
      · exact absurd ho (goes _)
      · obtain ⟨r, hr, -⟩ := hd.trace
        rw [trace_seen] at hr
        have htrace : (w.step setup now).run.trace = w.run.trace ++ [r] := hr
        rw [htrace, List.map_append, List.map_singleton, List.map_singleton,
          Lap.record?_of_trace htrace fun e => goes _]

theorem Lapped.length_trace (h : Lapped setup start done w) (hstart : start.run.trace = [])
    (goes : w.Goes) : w.run.trace.length = done.length := by
  have hlen := congrArg List.length (h.map_record hstart goes)
  rw [List.length_map, List.length_map] at hlen
  exact hlen.symm

/-- The phases of the laps are those of the trace. -/
theorem Lapped.countPhase_eq (h : Lapped setup start done w) (hstart : start.run.trace = [])
    (goes : w.Goes) (phase : Phase) : countPhase phase w.run.trace = Lap.count phase done := by
  have hphases : done.map (·.phase?) = w.run.trace.map fun r => some r.phase := by
    have hmap := congrArg (List.map (Option.map (·.phase))) (h.map_record hstart goes)
    rw [List.map_map, List.map_map] at hmap
    exact hmap
  calc countPhase phase w.run.trace
      = (((w.run.trace.map fun r => some r.phase).countP (· = some phase) : Nat) : Int) := by
        simp [countPhase, List.countP_map, Function.comp_def]
    _ = (((done.map (·.phase?)).countP (· = some phase) : Nat) : Int) := by rw [hphases]
    _ = Lap.count phase done := by
        simp [Lap.count, List.countP_map, Function.comp_def]

/-- Before its first lap a run has what it started from. -/
theorem Lapped.workspace_of_nil (h : Lapped setup start [] w) (goes : w.Goes) :
    w.run.workspace = start.run.workspace ∧ w.run.oracle = start.run.oracle := by
  generalize hdone : ([] : List (Lap R σ)) = laps at h
  induction h with
  | start => exact ⟨rfl, rfl⟩
  | @look laps w h looks now ih =>
      obtain ⟨hworkspace, horacle⟩ := ih looks.goes hdone
      exact ⟨(looks.looked goes).workspace.trans hworkspace, (looks.looked goes).oracle.trans horacle⟩
  | lap h begins now ih => simp at hdone

/-- A run goes on from what its last lap has left. -/
theorem Lapped.after_last {l : Lap R σ} (h : Lapped setup start (done ++ [l]) w) (goes : w.Goes) :
    w.run.workspace = l.after.run.workspace ∧ w.run.oracle = l.after.run.oracle := by
  generalize hdone : done ++ [l] = laps at h
  induction h with
  | start => simp at hdone
  | @look laps w h looks now ih =>
      obtain ⟨hworkspace, horacle⟩ := ih looks.goes hdone
      exact ⟨(looks.looked goes).workspace.trans hworkspace, (looks.looked goes).oracle.trans horacle⟩
  | lap h begins now ih =>
      obtain ⟨-, hlast⟩ := List.append_inj' hdone rfl
      cases hlast
      exact ⟨rfl, rfl⟩

/-- The root has no lap before it, and the target of an iteration was left to it by the lap
before. -/
theorem Lapped.last_target (h : Lapped setup start done w) (hstart : start.run.stage = .opening)
    (goes : w.Goes) :
    ((w.run.stage = .opening ∨ w.run.stage = .root) ∧ done = []) ∨
      ∃ before l target, done = before ++ [l] ∧ l.target? = some target ∧
        (w.run.stage = .top target ∨ w.run.stage = .projecting target) := by
  induction h with
  | start => exact .inl ⟨.inl hstart, rfl⟩
  | @look done w h looks now ih =>
      rcases (looks.looked goes).stage with ⟨hopen, hroot⟩ | ⟨target, htop, hprojecting⟩
      · rcases ih looks.goes with ⟨-, hdone⟩ | ⟨before, l, target, -, -, htop | hprojecting⟩
        · exact .inl ⟨.inr hroot, hdone⟩
        · rw [hopen] at htop
          cases htop
        · rw [hopen] at hprojecting
          cases hprojecting
      · rcases ih looks.goes with ⟨hopen | hroot, -⟩ | ⟨before, l, target', hdone, hl, hstage⟩
        · rw [htop] at hopen
          cases hopen
        · rw [htop] at hroot
          cases hroot
        · rw [htop] at hstage
          rcases hstage with hstage | hstage
          · cases hstage
            exact .inr ⟨before, l, target, hdone, hl, .inr hprojecting⟩
          · cases hstage
  | @lap done w h begins now ih =>
      rcases begins.step_cases setup now with ⟨e, he⟩ | ⟨-, ⟨o, ho⟩, -⟩ | ⟨s, g, phase, -, hd⟩
      · exact absurd he (goes _)
      · exact absurd ho (goes _)
      · obtain ⟨target, htarget⟩ := hd.target goes
        exact .inr ⟨done, _, target, rfl, Lap.target?_of_top htarget, .inl htarget⟩

/-- The root is the first lap. -/
theorem Lapped.eq_nil_of_root (h : Lapped setup start done w)
    (hstart : start.run.stage = .opening) (hroot : w.run.stage = .root) : done = [] := by
  have goes : w.Goes := Begins.goes (.inl hroot)
  rcases h.last_target hstart goes with ⟨-, hdone⟩ | ⟨_, _, target, -, -, htop | hprojecting⟩
  · exact hdone
  · cases htop.symm.trans hroot
  · cases hprojecting.symm.trans hroot

end Records

section Shapes

variable (hrestarts : 0 ≤ setup.settings.maxRestarts)
include hrestarts

/-- Laps preserve the shape. -/
theorem Lapped.shaped (h : Lapped setup start done w)
    (hstart : Shaped setup.settings start.run.stage start.ledger) :
    Shaped setup.settings w.run.stage w.ledger := by
  have hstep {w : World R σ} (hw : Shaped setup.settings w.run.stage w.ledger) (now : R) :
      Shaped setup.settings (w.step setup now).run.stage (w.step setup now).ledger := by
    rcases step_transition setup now w with ⟨e, he⟩ | ht
    · rw [he]
      trivial
    · exact shaped_of_transition hrestarts hw ht
  induction h with
  | start => exact hstart
  | look h looks now ih => exact hstep ih now
  | lap h begins now ih => exact hstep ih now

/-- After a lap a run that goes on is running. -/
theorem Lapped.running (h : Lapped setup start done w) (hstage : start.run.stage = .opening)
    (hstart : Shaped setup.settings start.run.stage start.ledger) (goes : w.Goes)
    (hdone : done ≠ []) : w.ledger.Running setup.settings := by
  have hshaped := h.shaped hrestarts hstart
  rcases h.last_target hstage goes with ⟨-, hnil⟩ | ⟨_, _, target, -, -, hw | hw⟩
  · exact absurd hnil hdone
  · rw [hw] at hshaped
    exact hshaped.1
  · rw [hw] at hshaped
    exact hshaped.1

/-- Before its first lap a run is fresh. -/
theorem Lapped.fresh (h : Lapped setup start [] w) (hstage : start.run.stage = .opening)
    (hstart : Shaped setup.settings start.run.stage start.ledger) (goes : w.Goes) :
    w.ledger.Fresh := by
  have hshaped := h.shaped hrestarts hstart
  rcases h.last_target hstage goes with ⟨hw | hw, -⟩ | ⟨before, l, target, hdone, -⟩
  · rw [hw] at hshaped
    exact hshaped
  · rw [hw] at hshaped
    exact hshaped.1
  · simp at hdone

/-- A run counts its restarts and makes no more than allowed. -/
theorem Lapped.restarts_eq (h : Lapped setup start done w) (hstage : start.run.stage = .opening)
    (hstart : Shaped setup.settings start.run.stage start.ledger) (htrace : start.run.trace = [])
    (goes : w.Goes) :
    w.run.workspace.progress.restarts = Lap.count .restarting done ∧
      w.run.workspace.progress.restarts ≤ setup.settings.maxRestarts := by
  by_cases hdone : done = []
  · subst hdone
    have hzero := (h.fresh hrestarts hstage hstart goes).restarts
    exact ⟨hzero, Int.le_trans (Int.le_of_eq hzero) hrestarts⟩
  · have hrunning := h.running hrestarts hstage hstart goes hdone
    rw [← h.countPhase_eq htrace goes]
    exact ⟨hrunning.restarts, hrunning.restarts_le⟩

/-- The lap at place `k` is iteration `k`. -/
theorem Lapped.iteration_of_record (h : Lapped setup start done w)
    (hstart : Shaped setup.settings start.run.stage start.ledger) (htrace : start.run.trace = [])
    (begins : w.Begins) {now : R} {r : Record R}
    (hr : Lap.record? ⟨w, w.step setup now⟩ = some r) : r.iteration = done.length := by
  obtain ⟨s, g, -, -, hafter⟩ := begins.decides_of_record hr
  have hshaped := (h.lap begins now).shaped hrestarts hstart
  have hnumbered := hshaped.numbered (Lap.ne_error_of_record hr)
  refine hnumbered.iteration_eq ?_
  rw [← h.length_trace htrace begins.goes]
  show (w.step setup now).run.trace[_]? = _
  rw [hafter, List.getElem?_concat_length]

end Shapes

section Unfoldings

theorem laps_of_looks (h : w.Looks) : laps setup clock (fuel + 1) w =
    laps setup clock fuel (w.step setup (clock fuel)) := by
  rcases h with h | ⟨target, h⟩ <;> simp only [laps, h]

theorem laps_of_begins (h : w.Begins) : laps setup clock (fuel + 1) w =
    ⟨w, w.step setup (clock fuel)⟩ :: laps setup clock fuel (w.step setup (clock fuel)) := by
  rcases h with h | ⟨target, h⟩ <;> simp only [laps, h]

theorem laps_of_ended {result : Except (Fault R) (Outcome R)} (h : w.run.stage = .ended result) :
    laps setup clock fuel w = [] := by
  cases fuel with
  | zero => rfl
  | succ fuel => simp only [laps, h]

omit [Arith R] in
/-- A run that looks and is let go begins a lap. -/
theorem Looked.begins {v : World R σ} (h : w.Looked v) : v.Begins :=
  h.stage.imp (·.2) fun ⟨target, hstage⟩ => ⟨target, hstage.2⟩

/-- A lap that does not end the run leaves a target. -/
theorem Begins.exists_top (h : w.Begins) {now : R} (goes : (w.step setup now).Goes) :
    ∃ target, (w.step setup now).run.stage = .top target := by
  obtain ⟨s, g, phase, -, hd⟩ := h.decides goes
  exact hd.target goes

/-- The first lap of a run that is about to look: two steps were taken, the look and the lap. -/
theorem laps_eq_cons (h : w.Looks) {l : Lap R σ} {rest : List (Lap R σ)}
    (hl : laps setup clock fuel w = l :: rest) :
    ∃ k, fuel = k + 2 ∧ l.before.Begins ∧ l.after = l.before.step setup (clock k) ∧
      rest = laps setup clock k l.after ∧
      World.advance setup clock k l.after = World.advance setup clock fuel w := by
  cases fuel with
  | zero => cases hl
  | succ fuel =>
      rw [laps_of_looks h] at hl
      by_cases goes : (w.step setup (clock fuel)).Goes
      · have begins : (w.step setup (clock fuel)).Begins := (h.looked goes).begins
        cases fuel with
        | zero => cases hl
        | succ fuel =>
            rw [laps_of_begins begins] at hl
            cases hl
            refine ⟨fuel, rfl, begins, rfl, rfl, ?_⟩
            rw [advance_of_going h.goes, advance_of_going begins.goes]
      · obtain ⟨result, hend⟩ := exists_of_not_goes goes
        rw [laps_of_ended hend] at hl
        cases hl

/-- Each lap of a run with the steps that are left after it.  The induction is on the laps before. -/
theorem laps_split (h : w.Looks) {before after : List (Lap R σ)} {l : Lap R σ}
    (hl : laps setup clock fuel w = before ++ l :: after) :
    ∃ k, fuel = k + 2 * before.length + 2 ∧ l.after = l.before.step setup (clock k) ∧
      after = laps setup clock k l.after ∧
      World.advance setup clock k l.after = World.advance setup clock fuel w := by
  induction before generalizing w fuel with
  | nil =>
      obtain ⟨k, hfuel, -, hafter, hrest, hadvance⟩ := laps_eq_cons h hl
      exact ⟨k, hfuel, hafter, hrest, hadvance⟩
  | cons first before ih =>
      obtain ⟨k, hfuel, begins, hafter, hrest, hadvance⟩ := laps_eq_cons h hl
      have goes : first.after.Goes := fun result hend => by
        rw [laps_of_ended hend] at hrest
        simp at hrest
      rw [hafter] at goes
      obtain ⟨j, hk, hl, hlaps, hjoin⟩ := ih (hafter ▸ .inr (begins.exists_top goes)) hrest.symm
      refine ⟨j, ?_, hl, hlaps, hjoin.trans hadvance⟩
      rw [hfuel, hk, List.length_cons]
      omega

end Unfoldings

section Runs

/-- A run that has ended with an outcome reports its trace. -/
theorem Lapped.outcome_trace (h : Lapped setup start done w) (hstart : start.run.stage = .opening)
    {o : Outcome R} (hend : w.run.stage = .ended (.ok o)) : o.trace = w.run.trace := by
  have hstep {w : World R σ} (goes : w.Goes) (now : R)
      (hend : (w.step setup now).run.stage = .ended (.ok o)) :
      o.trace = (w.step setup now).run.trace := by
    rcases step_transition setup now w with ⟨e, he⟩ | ht
    · cases he.symm.trans hend
    · rw [hend] at ht
      exact ht.outcome_trace goes
  cases h with
  | start => cases hstart.symm.trans hend
  | look h looks now => exact hstep looks.goes now hend
  | lap h begins now => exact hstep begins.goes now hend

/-- The laps of a run lead to the world that it comes to. -/
theorem Lapped.advance (h : Lapped setup start done w) :
    Lapped setup start (done ++ laps setup clock fuel w) (World.advance setup clock fuel w) := by
  induction fuel generalizing w done with
  | zero => simpa [laps, World.advance] using h
  | succ fuel ih =>
      cases hstage : w.run.stage with
      | opening =>
          simpa [laps, World.advance, hstage] using ih (h.look (.inl hstage) _)
      | top target =>
          simpa [laps, World.advance, hstage] using ih (h.look (.inr ⟨target, hstage⟩) _)
      | root =>
          simpa [laps, World.advance, hstage] using ih (h.lap (.inl hstage) (clock fuel))
      | projecting target =>
          simpa [laps, World.advance, hstage] using ih (h.lap (.inr ⟨target, hstage⟩) (clock fuel))
      | ended result => simpa [laps, World.advance, hstage] using h

/-- The laps of a run, from its start. -/
theorem lapped_advance (setup : Setup R σ) (clock : Nat → R) (fuel : Nat) (start : World R σ) :
    Lapped setup start (laps setup clock fuel start) (World.advance setup clock fuel start) :=
  Lapped.advance .start

/-- Each lap of a run begins where the laps before it lead to. -/
theorem Lapped.of_laps (h : Lapped setup start done w) {before after : List (Lap R σ)} {l : Lap R σ}
    (hl : laps setup clock fuel w = before ++ l :: after) :
    Lapped setup start (done ++ before) l.before ∧ l.before.Begins ∧
      ∃ now, l.after = l.before.step setup now := by
  induction fuel generalizing w done before with
  | zero => simp [laps] at hl
  | succ fuel ih =>
      have hlap (begins : w.Begins)
          (hl : ⟨w, w.step setup (clock fuel)⟩ :: laps setup clock fuel (w.step setup (clock fuel)) =
            before ++ l :: after) :
          Lapped setup start (done ++ before) l.before ∧ l.before.Begins ∧
            ∃ now, l.after = l.before.step setup now := by
        cases before with
        | nil =>
            obtain ⟨rfl, -⟩ := List.cons.inj hl
            rw [List.append_nil]
            exact ⟨h, begins, clock fuel, rfl⟩
        | cons first before =>
            obtain ⟨rfl, hrest⟩ := List.cons.inj hl
            rw [List.append_cons]
            exact ih (h.lap begins (clock fuel)) hrest
      cases hstage : w.run.stage with
      | opening =>
          simp only [laps, hstage] at hl
          exact ih (h.look (.inl hstage) _) hl
      | top target =>
          simp only [laps, hstage] at hl
          exact ih (h.look (.inr ⟨target, hstage⟩) _) hl
      | root =>
          simp only [laps, hstage] at hl
          exact hlap (.inl hstage) hl
      | projecting target =>
          simp only [laps, hstage] at hl
          exact hlap (.inr ⟨target, hstage⟩) hl
      | ended result =>
          simp only [laps, hstage] at hl
          exact absurd hl (by simp)

/-- The same by the place of the lap. -/
theorem lapped_of_getElem? {k : Nat} {l : Lap R σ}
    (hl : (laps setup clock fuel start)[k]? = some l) :
    ((laps setup clock fuel start).take k).length = k ∧
      Lapped setup start ((laps setup clock fuel start).take k) l.before ∧ l.before.Begins ∧
      ∃ now, l.after = l.before.step setup now := by
  obtain ⟨hk, -⟩ := List.getElem?_eq_some_iff.mp hl
  refine ⟨List.length_take_of_le (Nat.le_of_lt hk), ?_⟩
  simpa using Lapped.of_laps .start (eq_take_cons_drop hl)

/-- A lap begins with what the lap before it has left. -/
theorem before_of_getElem? {k : Nat} {l l' : Lap R σ}
    (hl : (laps setup clock fuel start)[k]? = some l)
    (hl' : (laps setup clock fuel start)[k + 1]? = some l') :
    l'.before.run.workspace = l.after.run.workspace ∧ l'.before.run.oracle = l.after.run.oracle := by
  obtain ⟨-, hlapped, hbegins, -⟩ := lapped_of_getElem? hl'
  rw [List.take_add_one, hl] at hlapped
  exact hlapped.after_last hbegins.goes

end Runs

end World

namespace PumpTask

variable {R σ : Type} [Arith R] {task : PumpTask R σ} {clock : Nat → R} {shared : Shared R}
  {domain : Domain R} {oracle : σ} {setup : Setup R σ} {run : Run R σ}

/-- The trace that a run reports is what its laps have recorded. -/
theorem trace_of_laps
    (hlaunch : task.launch (clock (World.enoughSteps task.settings)) domain oracle =
      .ok (setup, run)) {o : Outcome R}
    (h : (task.run clock shared domain oracle).result = .ok o) :
    o.trace = (World.laps setup clock (World.enoughSteps task.settings)
      { shared, run }).filterMap (·.record?) := by
  obtain ⟨hstage, htrace, -, -⟩ := (launched_of_launch hlaunch).start
  rw [task.run_eq_of_launch clock shared hlaunch, report_eq_ok] at h
  have hlapped := World.lapped_advance setup clock (World.enoughSteps task.settings) { shared, run }
  rw [hlapped.outcome_trace hstage h, hlapped.filterMap_record htrace fun e he => by
    cases he.symm.trans h]

/-- The lap at place `k` of a run is iteration `k`. -/
theorem iteration_of_laps (hrestarts : 0 ≤ task.settings.maxRestarts)
    (hlaunch : task.launch (clock (World.enoughSteps task.settings)) domain oracle =
      .ok (setup, run)) {fuel k : Nat} {l : Lap R σ} {r : Record R}
    (hl : (World.laps setup clock fuel { shared, run })[k]? = some l) (hr : l.record? = some r) :
    r.iteration = k := by
  have hlaunched := launched_of_launch hlaunch
  obtain ⟨hstage, htrace, -, -⟩ := hlaunched.start
  obtain ⟨hlen, hlapped, hbegins, now, hafter⟩ := World.lapped_of_getElem? hl
  obtain ⟨w, next⟩ := l
  dsimp only at hlapped hbegins hafter
  subst hafter
  have hshaped : Shaped setup.settings run.stage (World.ledger { shared, run }) := by
    rw [hstage]
    exact hlaunched.fresh shared
  rw [← hlaunched.settings] at hrestarts
  rw [hlapped.iteration_of_record hrestarts hshaped htrace hbegins hr, hlen]

end PumpTask

end MipPump
