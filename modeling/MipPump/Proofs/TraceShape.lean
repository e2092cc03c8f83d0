import MipPump.Number.ExtRat
import MipPump.Proofs.Launches
import MipPump.Proofs.Moves
import MipPump.Proofs.Transitions

/-!
# The shape of a run

The trace of a run is a regular object: it numbers the iterations without gap or repeat, its phases
follow a fixed pattern, and the three counters of an outcome can be read off it.

* `Outcome.WellShaped` collects what holds of every outcome.
* `Ledger.Running` is the invariant between the root and the end of a run; `Running.note` is the one
  step that all iterations share.
* `shaped_of_transition`: transitions preserve the invariant, stage by stage.
* `outcome_of_run`: outcomes are well shaped, the trace is empty exactly if the run fails before it
  has rounded a root, and a refusal of the oracle in the loop is reported as what it is.
-/

namespace MipPump

section Traces

variable {R : Type}

/-- Number of the records of a phase. -/
def countPhase (phase : Phase) (trace : List (Record R)) : Int :=
  (trace.countP fun r => r.phase = phase : Nat)

/-- What an iteration may decide without ending the run. -/
def Phase.GoesOn (phase : Phase) : Prop :=
  phase = .measuring ∨ phase = .perturbing ∨ phase = .restarting

/-- A trace numbers the iterations, and each record counts the restarts up to and including it. -/
structure Numbered (records : List (Record R)) : Prop where
  iterations : records.map (·.iteration) = (List.range records.length).map fun n : Nat => (n : Int)
  restarts : ∀ i r, records[i]? = some r →
    r.restarts = countPhase .restarting (records.take (i + 1))

/-- A trace begins with the root and goes on with iterations. -/
def Begun (trace : List (Record R)) : Prop :=
  ∃ root rest, trace = root :: rest ∧ root.phase = .init ∧ ∀ r ∈ rest, r.phase.GoesOn

theorem countPhase_append (phase : Phase) (trace : List (Record R)) (r : Record R) :
    countPhase phase (trace ++ [r]) = countPhase phase trace + if r.phase = phase then 1 else 0 := by
  unfold countPhase
  rw [List.countP_append, List.countP_singleton]
  by_cases h : r.phase = phase
  · simp [h]
  · simp [h]

theorem Numbered.nil : Numbered ([] : List (Record R)) where
  iterations := rfl
  restarts := by
    intro i r h
    simp at h

theorem Numbered.append {trace : List (Record R)} (h : Numbered trace) {r : Record R}
    (hi : r.iteration = trace.length)
    (hr : r.restarts = countPhase .restarting (trace ++ [r])) : Numbered (trace ++ [r]) where
  iterations := by
    rw [List.map_append, h.iterations, List.length_append, List.length_singleton,
      List.range_succ, List.map_append, List.map_singleton, List.map_singleton, hi]
  restarts := by
    intro i x hx
    by_cases hlt : i < trace.length
    · rw [List.getElem?_append_left hlt] at hx
      rw [List.take_append_of_le_length (by omega)]
      exact h.restarts i x hx
    · rw [List.getElem?_append_right (by omega)] at hx
      obtain ⟨hlen, hx⟩ := List.getElem?_eq_some_iff.mp hx
      have hi : i = trace.length := by
        rw [List.length_singleton] at hlen
        omega
      subst hi
      have hxr : x = r := by
        rw [← hx]
        simp
      rw [hxr, List.take_of_length_le (by simp)]
      exact hr

theorem Begun.append {trace : List (Record R)} (h : Begun trace) {r : Record R}
    (hr : r.phase.GoesOn) : Begun (trace ++ [r]) := by
  obtain ⟨root, rest, rfl, hroot, hrest⟩ := h
  refine ⟨root, rest ++ [r], rfl, hroot, ?_⟩
  intro x hx
  rcases List.mem_append.mp hx with hx | hx
  · exact hrest x hx
  · rw [List.mem_singleton.mp hx]
    exact hr

end Traces

section Outcomes

variable {R : Type} [Arith R]

/-- The relaxation had no best point. -/
def FailureReason.IsRefusal (reason : FailureReason) : Prop :=
  reason = .relaxationInfeasible ∨ reason = .relaxationUnbounded

/-- The phases that an ending puts at the end of a trace. -/
def Ending.lastPhases : Ending R → List Phase
  | .success _ _ => [.converged]
  | .failure .maxRestartsExceeded => [.stalledOut]
  | .failure _ => []

/-- An ending of a run that could not go on for want of a best point of the relaxation. -/
def Ending.IsRefusal (ending : Ending R) : Prop :=
  ∃ reason : FailureReason, reason.IsRefusal ∧ ending = .failure reason

/-- What holds of every outcome of a run under the settings `s`. -/
structure Outcome.WellShaped (s : Settings R) (o : Outcome R) : Prop where
  iterations_nonneg : 0 ≤ o.iterations
  iterations_le : o.iterations ≤ max 0 s.maxIterations
  numbered : Numbered o.trace
  /-- A run without a trace failed, in no iteration. -/
  empty : o.trace = [] →
    o.iterations = 0 ∧ ∃ reason, reason ≠ .maxRestartsExceeded ∧ o.ending = .failure reason
  /-- The last iteration has a record, -/
  covered : o.trace ≠ [] → ¬ o.ending.IsRefusal → (o.trace.length : Int) = o.iterations + 1
  /-- unless its projection was refused. -/
  refused : o.trace ≠ [] → o.ending.IsRefusal → (o.trace.length : Int) = o.iterations
  /-- The root converged, or it was rounded and iterations followed. -/
  phases : o.trace = [] ∨
    (o.trace.map (·.phase) = [.converged] ∧ o.ending.isSuccess = true) ∨
    ∃ before last : List (Record R), o.trace = before ++ last ∧ Begun before ∧
      last.map (·.phase) = o.ending.lastPhases
  restarts_eq : o.restarts = countPhase .restarting o.trace
  restarts_le : o.restarts ≤ s.maxRestarts
  restarts_spent : o.ending = .failure .maxRestartsExceeded → o.restarts = s.maxRestarts
  perturbations_eq : o.perturbations =
    countPhase .perturbing o.trace + countPhase .restarting o.trace

end Outcomes

section Invariants

variable {R σ : Type} [Arith R] {s : Settings R}

/-- The ledger of a run that has not made an iteration. -/
structure Ledger.Fresh (a : Ledger R) : Prop where
  trace : a.trace = []
  iteration : a.progress.iteration = 0
  restarts : a.progress.restarts = 0
  perturbations : a.progress.perturbations = 0

/-- The ledger of a run between the root and the end. -/
structure Ledger.Running (s : Settings R) (a : Ledger R) : Prop where
  numbered : Numbered a.trace
  begun : Begun a.trace
  length : (a.trace.length : Int) = a.progress.iteration + 1
  restarts : a.progress.restarts = countPhase .restarting a.trace
  restarts_le : a.progress.restarts ≤ s.maxRestarts
  perturbations : a.progress.perturbations =
    countPhase .perturbing a.trace + countPhase .restarting a.trace

/-- The ledger `b` is that of the next iteration before its record of the phase `phase`. -/
structure Ledger.Follows (phase : Phase) (a b : Ledger R) : Prop where
  trace : b.trace = a.trace
  iteration : b.progress.iteration = a.progress.iteration + 1
  restarts : b.progress.restarts =
    a.progress.restarts + if phase = .restarting then 1 else 0
  perturbations : b.progress.perturbations =
    a.progress.perturbations + if phase = .perturbing ∨ phase = .restarting then 1 else 0

variable {a b : Ledger R} {phase : Phase} {d : Distance R} {k : Nat}

/-- The record of an iteration has the number of the iteration and the right count of restarts. -/
theorem Ledger.Running.numbered_note (h : a.Running s) (hb : Ledger.Follows phase a b) :
    Numbered (b.note phase d k).trace := by
  rw [Ledger.trace_note, hb.trace]
  refine h.numbered.append ?_ ?_
  · rw [Ledger.iteration_entry, hb.iteration, h.length]
  · rw [countPhase_append, ← h.restarts]
    exact hb.restarts

theorem Ledger.Running.perturbations_note (h : a.Running s) (hb : Ledger.Follows phase a b) :
    b.progress.perturbations = countPhase .perturbing (b.note phase d k).trace +
      countPhase .restarting (b.note phase d k).trace := by
  rw [Ledger.trace_note, hb.trace, countPhase_append, countPhase_append, hb.perturbations,
    h.perturbations, Ledger.phase_entry]
  cases phase <;> simp <;> omega

theorem Ledger.Running.length_note (h : a.Running s) (hb : Ledger.Follows phase a b) :
    ((b.note phase d k).trace.length : Int) = b.progress.iteration + 1 := by
  have hlen := h.length
  rw [Ledger.trace_note, hb.trace, hb.iteration, List.length_append, List.length_singleton]
  omega

theorem Ledger.Running.restarts_note (h : a.Running s) (hb : Ledger.Follows phase a b) :
    b.progress.restarts = countPhase .restarting (b.note phase d k).trace := by
  rw [Ledger.trace_note, hb.trace, countPhase_append, ← h.restarts]
  exact hb.restarts

/-- A run that goes on is still running after its record. -/
theorem Ledger.Running.note (h : a.Running s) (hb : Ledger.Follows phase a b)
    (hphase : phase.GoesOn) (hle : b.progress.restarts ≤ s.maxRestarts) :
    (b.note phase d k).Running s where
  numbered := h.numbered_note hb
  begun := by
    rw [Ledger.trace_note, hb.trace]
    exact h.begun.append hphase
  length := h.length_note hb
  restarts := h.restarts_note hb
  restarts_le := hle
  perturbations := h.perturbations_note hb

/-- A run that stops between two iterations has a record of the last one. -/
theorem Ledger.Running.stops (h : a.Running s) (hmax : a.progress.iteration ≤ s.maxIterations)
    {reason : FailureReason} (hreason : reason = .iterationLimit ∨ reason = .cancelled) :
    (a.outcome (.failure reason)).WellShaped s where
  iterations_nonneg := by
    obtain ⟨root, rest, htrace, -⟩ := h.begun
    have hlen := h.length
    rw [htrace, List.length_cons] at hlen
    rw [Ledger.iterations_outcome]
    omega
  iterations_le := by
    rw [Ledger.iterations_outcome]
    omega
  numbered := h.numbered
  empty := by
    intro hempty
    obtain ⟨root, rest, htrace, -⟩ := h.begun
    rw [Ledger.trace_outcome, htrace] at hempty
    cases hempty
  covered := fun _ _ => h.length
  refused := by
    rintro - ⟨reason', hrefusal, hending⟩
    cases hending
    rcases hreason with rfl | rfl <;> rcases hrefusal with h | h <;> cases h
  phases := by
    refine Or.inr (Or.inr ⟨a.trace, [], (List.append_nil _).symm, h.begun, ?_⟩)
    rcases hreason with rfl | rfl <;> rfl
  restarts_eq := h.restarts
  restarts_le := h.restarts_le
  restarts_spent := by
    intro hspent
    cases hspent
    rcases hreason with h | h <;> cases h
  perturbations_eq := h.perturbations

/-- A run whose projection is refused has records of the iterations before. -/
theorem Ledger.Running.refused (h : a.Running s) (hmax : a.progress.iteration < s.maxIterations)
    {reason : FailureReason} (hreason : reason.IsRefusal) :
    (a.begin.outcome (.failure reason)).WellShaped s where
  iterations_nonneg := by
    have hlen := h.length
    rw [Ledger.iterations_outcome, Ledger.iteration_begin]
    omega
  iterations_le := by
    rw [Ledger.iterations_outcome, Ledger.iteration_begin]
    omega
  numbered := h.numbered
  empty := by
    intro hempty
    obtain ⟨root, rest, htrace, -⟩ := h.begun
    rw [Ledger.trace_outcome, Ledger.trace_begin, htrace] at hempty
    cases hempty
  covered := fun _ hnot => absurd ⟨reason, hreason, rfl⟩ hnot
  refused := fun _ _ => h.length
  phases := by
    refine Or.inr (Or.inr ⟨a.trace, [], (List.append_nil _).symm, h.begun, ?_⟩)
    rcases hreason with rfl | rfl <;> rfl
  restarts_eq := h.restarts
  restarts_le := h.restarts_le
  restarts_spent := by
    intro hspent
    cases hspent
    rcases hreason with h | h <;> cases h
  perturbations_eq := h.perturbations

/-- A run that ends with a record of its own kind. -/
theorem Ledger.Running.ends (h : a.Running s) (hmax : a.progress.iteration < s.maxIterations)
    (hb : Ledger.Follows phase a b) (hle : b.progress.restarts ≤ s.maxRestarts)
    {ending : Ending R} (hlast : ending.lastPhases = [phase])
    (hspent : ending = .failure .maxRestartsExceeded → s.maxRestarts ≤ b.progress.restarts) :
    ((b.note phase d k).outcome ending).WellShaped s where
  iterations_nonneg := by
    have hlen := h.length
    rw [Ledger.iterations_outcome, Ledger.progress_note, hb.iteration]
    omega
  iterations_le := by
    rw [Ledger.iterations_outcome, Ledger.progress_note, hb.iteration]
    omega
  numbered := h.numbered_note hb
  empty := by
    intro hempty
    simp at hempty
  covered := fun _ _ => h.length_note hb
  refused := by
    rintro - ⟨reason, hrefusal, rfl⟩
    rcases hrefusal with rfl | rfl <;> cases hlast
  phases := by
    refine Or.inr (Or.inr ⟨a.trace, [b.entry phase d k], ?_, h.begun, ?_⟩)
    · simp [hb.trace]
    · simp [hlast]
  restarts_eq := h.restarts_note hb
  restarts_le := hle
  restarts_spent := fun hending => Int.le_antisymm hle (hspent hending)
  perturbations_eq := h.perturbations_note hb

/-- A run that fails before it has rounded a root. -/
theorem Ledger.Fresh.fails (h : a.Fresh) (hrestarts : 0 ≤ s.maxRestarts) {reason : FailureReason}
    (hreason : reason ≠ .maxRestartsExceeded) :
    (a.outcome (.failure reason)).WellShaped s where
  iterations_nonneg := Int.le_of_eq h.iteration.symm
  iterations_le := by
    rw [Ledger.iterations_outcome, h.iteration]
    omega
  numbered := by
    rw [Ledger.trace_outcome, h.trace]
    exact .nil
  empty := fun _ => ⟨h.iteration, reason, hreason, rfl⟩
  covered := fun hne => absurd h.trace hne
  refused := fun hne => absurd h.trace hne
  phases := Or.inl h.trace
  restarts_eq := by
    rw [Ledger.restarts_outcome, Ledger.trace_outcome, h.restarts, h.trace]
    rfl
  restarts_le := by
    rw [Ledger.restarts_outcome, h.restarts]
    exact hrestarts
  restarts_spent := by
    intro hspent
    cases hspent
    exact absurd rfl hreason
  perturbations_eq := by
    rw [Ledger.perturbations_outcome, Ledger.trace_outcome, h.perturbations, h.trace]
    rfl

omit [Arith R] in
/-- A record of the root: its number is zero, and nothing was restarted or perturbed. -/
theorem Ledger.Fresh.note (h : a.Fresh) (hphase : phase = .init ∨ phase = .converged) :
    Numbered [a.entry phase d k] ∧ countPhase .restarting [a.entry phase d k] = 0 ∧
      countPhase .perturbing [a.entry phase d k] = 0 := by
  have hrestarting : countPhase .restarting [a.entry phase d k] = 0 := by
    rcases hphase with rfl | rfl <;> rfl
  refine ⟨?_, hrestarting, ?_⟩
  · refine Numbered.nil.append (r := a.entry phase d k) ?_ ?_
    · rw [Ledger.iteration_entry, h.iteration]
      rfl
    · rw [List.nil_append, hrestarting]
      exact h.restarts
  · rcases hphase with rfl | rfl <;> rfl

theorem Ledger.Fresh.converges (h : a.Fresh) (hmax : 0 < s.maxIterations)
    (hrestarts : 0 ≤ s.maxRestarts) {full : List R} {objective : R} :
    ((a.note .converged d k).outcome (.success full objective)).WellShaped s := by
  obtain ⟨hnumbered, hrestarting, hperturbing⟩ := h.note (d := d) (k := k) (Or.inr rfl)
  have htrace : (a.note .converged d k).trace = [a.entry .converged d k] := by
    rw [Ledger.trace_note, h.trace, List.nil_append]
  exact
    { iterations_nonneg := Int.le_of_eq h.iteration.symm
      iterations_le := by
        rw [Ledger.iterations_outcome, Ledger.progress_note, h.iteration]
        omega
      numbered := by
        rw [Ledger.trace_outcome, htrace]
        exact hnumbered
      empty := by
        intro hempty
        simp at hempty
      covered := by
        intro _ _
        simp [h.trace, h.iteration]
      refused := by
        rintro - ⟨reason, -, hending⟩
        cases hending
      phases := by
        refine Or.inr (Or.inl ⟨?_, rfl⟩)
        simp [h.trace]
      restarts_eq := by
        rw [Ledger.restarts_outcome, Ledger.progress_note, Ledger.trace_outcome, htrace, hrestarting,
          h.restarts]
      restarts_le := by
        rw [Ledger.restarts_outcome, Ledger.progress_note, h.restarts]
        exact hrestarts
      restarts_spent := by
        intro hending
        cases hending
      perturbations_eq := by
        rw [Ledger.perturbations_outcome, Ledger.progress_note, Ledger.trace_outcome, htrace,
          hrestarting, hperturbing, h.perturbations]
        rfl }

theorem Ledger.Fresh.rounded (h : a.Fresh) (hrestarts : 0 ≤ s.maxRestarts) :
    (a.note .init d k).Running s := by
  obtain ⟨hnumbered, hrestarting, hperturbing⟩ := h.note (d := d) (k := k) (Or.inl rfl)
  have htrace : (a.note .init d k).trace = [a.entry .init d k] := by
    rw [Ledger.trace_note, h.trace, List.nil_append]
  refine
    { numbered := ?_, begun := ?_, length := ?_, restarts := ?_, restarts_le := ?_
      perturbations := ?_ }
  · rw [htrace]
    exact hnumbered
  · refine ⟨_, [], htrace, rfl, ?_⟩
    intro r hr
    cases hr
  · rw [htrace]
    simp [h.iteration]
  · rw [htrace, hrestarting]
    exact h.restarts
  · rw [Ledger.progress_note, h.restarts]
    exact hrestarts
  · rw [htrace, hrestarting, hperturbing]
    exact h.perturbations

end Invariants

section Stages

variable {R σ : Type} [Arith R]

/-- What holds of the ledger in a stage. -/
def Shaped (s : Settings R) : Stage R → Ledger R → Prop
  | .opening, a => a.Fresh
  | .root, a => a.Fresh ∧ 0 < s.maxIterations
  | .top _, a => a.Running s ∧ a.progress.iteration ≤ s.maxIterations
  | .projecting _, a => a.Running s ∧ a.progress.iteration < s.maxIterations
  | .ended (.ok o), a => o.WellShaped s ∧ o.trace = a.trace
  | .ended (.error _), _ => True

omit [Arith R] in
theorem FailureReason.isRefusal_of_refuses {reply : Reply R σ} {reason : FailureReason}
    (h : reply.Refuses reason) : reason.IsRefusal := by
  obtain ⟨e, he, -⟩ := h
  cases e <;> cases he
  · exact Or.inl rfl
  · exact Or.inr rfl

/-- A refusal is none of the other reasons. -/
theorem FailureReason.IsRefusal.ne {reason : FailureReason} (h : reason.IsRefusal) :
    reason ≠ .maxRestartsExceeded ∧ reason ≠ .iterationLimit ∧ reason ≠ .cancelled := by
  rcases h with rfl | rfl <;> decide

variable {setup : Setup R σ} {env : Surroundings R σ}

/-- A step that ends a run for a refusal was refused, at the root or in an iteration. -/
theorem Transition.of_refusal {stage stage' : Stage R} {a a' : Ledger R} {o : Outcome R}
    {reason : FailureReason} (ht : Transition setup env stage a stage' a')
    (hend : stage' = .ended (.ok o)) (going : ∀ result, stage ≠ .ended result)
    (hrefusal : reason.IsRefusal) (hending : o.ending = .failure reason) :
    (stage = .root ∧ o.trace = a.trace) ∨
      ∃ target goal, stage = .projecting target ∧
        Goal.projection setup.table a.progress.epoch.alpha target = .ok goal ∧
        (env.reply setup goal).Refuses reason ∧ o.iterations = a.progress.iteration + 1 := by
  obtain ⟨hspent, hlimit, hcancel⟩ := hrefusal.ne
  cases ht with
  | notAllowed | exhausted =>
      cases hend
      exact absurd (Ending.failure.inj hending).symm hlimit
  | notStarted | stopped =>
      cases hend
      exact absurd (Ending.failure.inj hending).symm hcancel
  | stalledOut =>
      cases hend
      exact absurd (Ending.failure.inj hending).symm hspent
  | rootConverged | converged =>
      cases hend
      cases hending
  | opened | rootRounded | resumed | accepted | perturbed | restarted => cases hend
  | rootFailed refused =>
      cases hend
      exact Or.inl ⟨rfl, rfl⟩
  | failed aim refused =>
      cases hend
      cases hending
      exact Or.inr ⟨_, _, rfl, aim, refused, rfl⟩
  | stays => exact absurd rfl (going _)

/-- A projection that is refused ends the run with the reason of the refusal. -/
theorem Transition.of_refused {target : List R} {stage' : Stage R} {a a' : Ledger R}
    {goal : Goal R} {reason : FailureReason}
    (ht : Transition setup env (.projecting target) a stage' a')
    (haim : Goal.projection setup.table a.progress.epoch.alpha target = .ok goal)
    (hrefused : (env.reply setup goal).Refuses reason) :
    stage' = World.finished (a.begin.outcome (.failure reason)) := by
  obtain ⟨e, hreason, hanswer⟩ := hrefused
  cases ht with
  | failed aim refused =>
      obtain ⟨e', hreason', hanswer'⟩ := refused
      rw [haim] at aim
      cases aim
      rw [hanswer] at hanswer'
      cases hanswer'
      rw [hreason] at hreason'
      cases hreason'
      rfl
  | converged aim measured | accepted aim measured | perturbed aim measured
  | stalledOut aim measured | restarted aim measured =>
      rw [haim] at aim
      cases aim
      have hanswered := measured.answered
      rw [hanswer] at hanswered
      cases hanswered

/-- A transition drops no record. -/
theorem Transition.trace_isPrefix {stage stage' : Stage R} {a a' : Ledger R}
    (ht : Transition setup env stage a stage' a') : a.trace <+: a'.trace := by
  cases ht with
  | notAllowed | notStarted | opened | rootFailed | exhausted | stopped | resumed | failed | stays =>
      exact List.prefix_rfl
  | rootConverged _ _ _ _ hb | converged _ _ _ _ _ hb =>
      subst hb
      exact List.prefix_append _ _
  | stalledOut _ _ hb =>
      subst hb
      exact List.prefix_append _ _
  | rootRounded => exact List.prefix_append _ _
  | accepted _ _ hb | perturbed _ _ hb | restarted _ _ hb =>
      subst hb
      exact List.prefix_append _ _

theorem Transition.trace_ne_nil {stage stage' : Stage R} {a a' : Ledger R}
    (ht : Transition setup env stage a stage' a') (h : a.trace ≠ []) : a'.trace ≠ [] := fun hnil =>
  h (List.prefix_nil.mp (hnil ▸ ht.trace_isPrefix))

/-- A measured iteration follows its predecessor. -/
theorem Ledger.follows_measured (g : Random.Generator) (d : Distance R) (a : Ledger R)
    {phase : Phase} (hphase : phase = .measuring ∨ phase = .converged ∨ phase = .stalledOut) :
    Follows phase a (a.measured setup g d) where
  trace := rfl
  iteration := rfl
  restarts := by
    rcases hphase with rfl | rfl | rfl <;> exact (Int.add_zero _).symm
  perturbations := by
    rcases hphase with rfl | rfl | rfl <;> exact (Int.add_zero _).symm

/-- Transitions preserve the shape. -/
theorem shaped_of_transition (hrestarts : 0 ≤ setup.settings.maxRestarts) {stage stage' : Stage R}
    {a a' : Ledger R} (h : Shaped setup.settings stage a)
    (ht : Transition setup env stage a stage' a') : Shaped setup.settings stage' a' := by
  cases ht with
  | notAllowed hmax =>
      refine ⟨Ledger.Fresh.fails h hrestarts ?_, rfl⟩
      rintro ⟨⟩
  | notStarted hmax stop =>
      refine ⟨Ledger.Fresh.fails h hrestarts ?_, rfl⟩
      rintro ⟨⟩
  | opened hmax go => exact ⟨h, hmax⟩
  | rootFailed refused =>
      refine ⟨Ledger.Fresh.fails h.1 hrestarts ?_, rfl⟩
      rcases FailureReason.isRefusal_of_refuses refused with rfl | rfl <;> rintro ⟨⟩
  | @rootConverged _ _ g point candidate full objective d k measured zero solves cost hb =>
      subst hb
      have hfresh : ((a.draw g).offer ⟨full, objective, setup.name⟩).Fresh :=
        ⟨h.1.trace, h.1.iteration, h.1.restarts, h.1.perturbations⟩
      exact ⟨hfresh.converges h.2 hrestarts, rfl⟩
  | @rootRounded _ g point candidate d k measured =>
      have hfresh : (((a.draw g).measure setup.settings.toleranceEpsilon d).onProgress
          (Progress.remember candidate)).Fresh :=
        ⟨h.1.trace, h.1.iteration, h.1.restarts, h.1.perturbations⟩
      refine ⟨hfresh.rounded hrestarts, ?_⟩
      show a.progress.iteration ≤ _
      rw [h.1.iteration]
      exact Int.le_of_lt h.2
  | exhausted hmax => exact ⟨h.1.stops h.2 (Or.inl rfl), rfl⟩
  | stopped hmax stop => exact ⟨h.1.stops h.2 (Or.inr rfl), rfl⟩
  | resumed hmax go => exact ⟨h.1, hmax⟩
  | failed aim refused =>
      exact ⟨h.1.refused h.2 (FailureReason.isRefusal_of_refuses refused), rfl⟩
  | @converged _ _ target goal g point candidate full objective d k aim measured zero solves cost hb =>
      subst hb
      have hfollows : Ledger.Follows .converged a
          ((a.measured setup g d).offer ⟨full, objective, setup.name⟩) := by
        obtain ⟨h₁, h₂, h₃, h₄⟩ : Ledger.Follows .converged a (a.measured setup g d) :=
          a.follows_measured g d (Or.inr (Or.inl rfl))
        exact ⟨h₁, h₂, h₃, h₄⟩
      refine ⟨h.1.ends h.2 hfollows h.1.restarts_le rfl ?_, rfl⟩
      rintro ⟨⟩
  | @accepted _ b target goal g point candidate d k aim measured hb nonzero fresh moving =>
      subst hb
      have hfollows : Ledger.Follows .measuring a
          ((a.measured setup g d).onProgress (Progress.remember candidate)) := by
        obtain ⟨h₁, h₂, h₃, h₄⟩ : Ledger.Follows .measuring a (a.measured setup g d) :=
          a.follows_measured g d (Or.inl rfl)
        exact ⟨h₁, h₂, h₃, h₄⟩
      obtain ⟨h₁, h₂, h₃, h₄, h₅, h₆⟩ :=
        h.1.note (d := d) (k := k) hfollows (Or.inl rfl) h.1.restarts_le
      refine ⟨⟨h₁, h₂, h₃, h₄, h₅, h₆⟩, ?_⟩
      show a.progress.iteration + 1 ≤ _
      have hlt := h.2
      omega
  | @perturbed _ b target goal g point candidate d d' moved p k aim measured hb patient move =>
      subst hb
      obtain ⟨⟨g', rfl⟩, -⟩ := Perturber.perturb_eq_ok move
      refine ⟨h.1.note (a := a) ⟨rfl, rfl, ?_, ?_⟩ (Or.inr (Or.inl rfl)) h.1.restarts_le, ?_⟩
      · exact (Int.add_zero _).symm
      · rfl
      · show a.progress.iteration + 1 ≤ _
        have hlt := h.2
        omega
  | @stalledOut _ _ target goal g point candidate d k aim measured hb impatient spent =>
      subst hb
      have hfollows : Ledger.Follows .stalledOut a (a.measured setup g d).stalled := by
        obtain ⟨h₁, h₂, h₃, h₄⟩ : Ledger.Follows .stalledOut a (a.measured setup g d) :=
          a.follows_measured g d (Or.inr (Or.inr rfl))
        exact ⟨h₁, h₂, h₃, h₄⟩
      exact ⟨h.1.ends h.2 hfollows h.1.restarts_le rfl fun _ => spent, rfl⟩
  | @restarted _ b target goal g point candidate d d' moved p k aim measured hb impatient left move =>
      subst hb
      obtain ⟨⟨g', rfl⟩, -⟩ := Perturber.restart_eq_ok move
      refine ⟨h.1.note (a := a) ⟨rfl, rfl, ?_, ?_⟩ (Or.inr (Or.inr rfl)) ?_, ?_⟩
      · rfl
      · rfl
      · exact left
      · show a.progress.iteration + 1 ≤ _
        have hlt := h.2
        omega
  | stays => exact h

/-- Steps that a run needs at most to end. -/
def stepsNeeded (s : Settings R) : Stage R → Ledger R → Nat
  | .opening, _ => World.enoughSteps s
  | .root, _ => 2 * s.maxIterations.toNat + 2
  | .top _, a => 2 * (s.maxIterations - a.progress.iteration).toNat + 1
  | .projecting _, a => 2 * (s.maxIterations - a.progress.iteration).toNat
  | .ended _, _ => 0

theorem stepsNeeded_lt {stage stage' : Stage R}
    {a a' : Ledger R} (h : Shaped setup.settings stage a)
    (ht : Transition setup env stage a stage' a') (going : ∀ result, stage ≠ .ended result) :
    stepsNeeded setup.settings stage' a' < stepsNeeded setup.settings stage a := by
  cases ht with
  | notAllowed | notStarted | opened | rootFailed | rootConverged | exhausted | stopped =>
      simp only [stepsNeeded, World.enoughSteps, World.finished]
      omega
  | rootRounded measured =>
      have hzero : a.progress.iteration = 0 := h.1.iteration
      show 2 * (setup.settings.maxIterations - a.progress.iteration).toNat + 1 < _
      rw [hzero, Int.sub_zero]
      exact Nat.lt_succ_self _
  | resumed hmax go =>
      simp only [stepsNeeded]
      omega
  | failed | converged | stalledOut =>
      have hlt := h.2
      simp only [stepsNeeded, World.finished]
      omega
  | accepted aim measured hb =>
      subst hb
      have hlt := h.2
      show 2 * (setup.settings.maxIterations - (a.progress.iteration + 1)).toNat + 1 <
        2 * (setup.settings.maxIterations - a.progress.iteration).toNat
      omega
  | perturbed aim measured hb patient move =>
      subst hb
      obtain ⟨⟨g, rfl⟩, -⟩ := Perturber.perturb_eq_ok move
      have hlt := h.2
      show 2 * (setup.settings.maxIterations - (a.progress.iteration + 1)).toNat + 1 <
        2 * (setup.settings.maxIterations - a.progress.iteration).toNat
      omega
  | restarted aim measured hb impatient left move =>
      subst hb
      obtain ⟨⟨g, rfl⟩, -⟩ := Perturber.restart_eq_ok move
      have hlt := h.2
      show 2 * (setup.settings.maxIterations - (a.progress.iteration + 1)).toNat + 1 <
        2 * (setup.settings.maxIterations - a.progress.iteration).toNat
      omega
  | stays => exact absurd rfl (going _)

end Stages

section LastRecords

variable {R : Type} [Arith R] {s : Settings R} {o : Outcome R}

/-- The phase of the last record. -/
def lastPhase? (trace : List (Record R)) : Option Phase := trace.getLast?.map (·.phase)

omit [Arith R] in
theorem Begun.lastPhase {trace : List (Record R)} (h : Begun trace) :
    ∃ phase, lastPhase? trace = some phase ∧ (phase = .init ∨ phase.GoesOn) := by
  obtain ⟨root, rest, rfl, hroot, hrest⟩ := h
  unfold lastPhase?
  rw [List.getLast?_cons, Option.map_some]
  refine ⟨_, rfl, ?_⟩
  cases hlast : rest.getLast? with
  | none => exact Or.inl hroot
  | some r => exact Or.inr (hrest r (List.mem_of_getLast? hlast))

omit [Arith R] in
theorem lastPhase?_append (before : List (Record R)) {last : List (Record R)} {phase : Phase}
    (h : last.map (·.phase) = [phase]) : lastPhase? (before ++ last) = some phase := by
  obtain ⟨r, rfl, rfl⟩ := List.map_eq_singleton_iff.mp h
  simp [lastPhase?]

/-- The last record tells how the run ended. -/
theorem Outcome.WellShaped.lastPhase (h : o.WellShaped s) :
    (lastPhase? o.trace = some .converged ↔ o.ending.isSuccess = true) ∧
      (lastPhase? o.trace = some .stalledOut ↔ o.ending = .failure .maxRestartsExceeded) := by
  rcases h.phases with hnil | ⟨hroot, hsuccess⟩ | ⟨before, last, htrace, hbegun, hlast⟩
  · obtain ⟨-, reason, hreason, hending⟩ := h.empty hnil
    rw [hnil, hending]
    simp [lastPhase?, Ending.isSuccess, hreason]
  · have hphase : lastPhase? o.trace = some .converged := lastPhase?_append [] hroot
    rw [hphase]
    cases hending : o.ending with
    | success point objective => simp [Ending.isSuccess]
    | failure reason =>
        rw [hending] at hsuccess
        cases hsuccess
  · rw [htrace]
    cases hending : o.ending with
    | success point objective =>
        rw [hending] at hlast
        rw [lastPhase?_append before hlast]
        simp [Ending.isSuccess]
    | failure reason =>
        rw [hending] at hlast
        by_cases hreason : reason = .maxRestartsExceeded
        · subst hreason
          rw [lastPhase?_append before hlast]
          simp [Ending.isSuccess]
        · have hnone : last = [] := by
            cases reason <;> first | exact absurd rfl hreason | exact List.map_eq_nil_iff.mp hlast
          obtain ⟨phase, hphase, hor⟩ := hbegun.lastPhase
          rw [hnone, List.append_nil, hphase]
          rcases hor with rfl | rfl | rfl | rfl <;> simp [Ending.isSuccess, hreason]

end LastRecords

section Runs

variable {R σ : Type} [Arith R]

/-- A run about to project is refused by its oracle. -/
def World.Refused (setup : Setup R σ) (w : World R σ) (reason : FailureReason) : Prop :=
  ∃ target goal, w.run.stage = .projecting target ∧
    Goal.projection setup.table w.run.workspace.progress.epoch.alpha target = .ok goal ∧
    (setup.oracle w.run.oracle w.run.workspace.domain.box goal).Refuses reason

namespace PumpTask

variable (task : PumpTask R σ) (clock : Nat → R) (shared : Shared R) (domain : Domain R)
  (oracle : σ)

/-- A run fails before it has rounded a root: it may make no iteration, or it has to stop at once,
or the relaxation has no best point for the cost of the problem. -/
def FailsByRoot : Prop :=
  let steps := World.enoughSteps task.settings
  let now := clock (steps - 1)
  task.settings.maxIterations ≤ 0 ∨
    (shared.isCancelled now ||
      task.settings.timeBudget.any (Arith.reached (now - clock steps))) = true ∨
    ∃ reason, (task.oracle oracle domain.box
      { objective := task.problem.vars.map (·.cost), targets := [] }).Refuses reason

/-- The worlds that a run goes through, with the number of steps it has left. -/
def Visits (setup : Setup R σ) (k : Nat) (w : World R σ) : Prop :=
  ∃ run, task.launch (clock (World.enoughSteps task.settings)) domain oracle = .ok (setup, run) ∧
    World.Visited setup clock (World.enoughSteps task.settings) { shared, run } k w

variable {task clock shared domain oracle} {setup : Setup R σ} {run : Run R σ} {o : Outcome R}

theorem Launched.fresh {started : R} (h : task.Launched started domain oracle setup run)
    (shared : Shared R) : (World.ledger { shared, run }).Fresh := by
  obtain ⟨hiteration, hrestarts, hperturbations⟩ := start_eq_ok h.progress
  exact ⟨h.start.2.1, hiteration, hrestarts, hperturbations⟩

/-- The worlds that a run goes through have the shape of their stages. -/
theorem Visits.shaped (hrestarts : 0 ≤ task.settings.maxRestarts) {k : Nat} {w : World R σ}
    (h : task.Visits clock shared domain oracle setup k w) :
    Shaped task.settings w.run.stage w.ledger := by
  obtain ⟨run, hlaunch, hvisited⟩ := h
  have hl := launched_of_launch hlaunch
  rw [← hl.settings] at hrestarts ⊢
  refine World.Visited.induct (I := Shaped setup.settings) ?_ (fun _ _ => trivial) ?_ hvisited
  · show Shaped _ run.stage _
    rw [hl.start.1]
    exact hl.fresh shared
  · intro env stage a stage' a' ha ht
    exact shaped_of_transition hrestarts ha ht

/-- A run ends by itself before its steps are used up. -/
theorem run_ends (hrestarts : 0 ≤ task.settings.maxRestarts)
    (hlaunch : task.launch (clock (World.enoughSteps task.settings)) domain oracle =
      .ok (setup, run)) :
    ∃ result, (World.advance setup clock (World.enoughSteps task.settings)
      { shared, run }).run.stage = .ended result := by
  have hl := launched_of_launch hlaunch
  have hfits {k : Nat} {w : World R σ} (hw : World.Visited setup clock
      (World.enoughSteps task.settings) { shared, run } k w) :
      stepsNeeded task.settings w.run.stage w.ledger ≤ k := by
    induction hw with
    | start =>
        show stepsNeeded _ run.stage _ ≤ _
        rw [hl.start.1]
        exact Nat.le_refl _
    | @step k w hw going ih =>
        rcases World.step_transition setup (clock k) w with ⟨e, he⟩ | ht
        · rw [he]
          exact Nat.zero_le _
        · have hshaped := Visits.shaped hrestarts ⟨run, hlaunch, hw⟩
          rw [← hl.settings] at ih hshaped ⊢
          have hlt := stepsNeeded_lt hshaped ht going
          omega
  obtain ⟨k, hvisited, hk⟩ :=
    World.visited_final setup clock (World.enoughSteps task.settings) { shared, run }
  rcases hk with rfl | hended
  · have hneeded := hfits hvisited
    have hshaped := Visits.shaped hrestarts ⟨run, hlaunch, hvisited⟩
    generalize World.advance setup clock (World.enoughSteps task.settings) { shared, run } = w
      at hneeded hshaped ⊢
    cases hstage : w.run.stage with
    | ended result => exact ⟨result, rfl⟩
    | opening | root | top target =>
        rw [hstage] at hneeded
        simp only [stepsNeeded, World.enoughSteps] at hneeded
        omega
    | projecting target =>
        rw [hstage] at hneeded hshaped
        have hlt := hshaped.2
        simp only [stepsNeeded] at hneeded
        omega
  · exact hended

/-- A run that goes on for two steps from a visited world and ends then has that result. -/
theorem result_of_visited (hrestarts : 0 ≤ task.settings.maxRestarts)
    (hlaunch : task.launch (clock (World.enoughSteps task.settings)) domain oracle =
      .ok (setup, run)) {k : Nat} {w : World R σ}
    (hw : World.Visited setup clock (World.enoughSteps task.settings) { shared, run } (k + 1) w)
    (going : ∀ result, w.run.stage ≠ .ended result)
    (going' : ∀ result, (w.step setup (clock k)).run.stage ≠ .ended result) :
    ∃ j, k = j + 1 ∧ ∀ result,
      ((w.step setup (clock k)).step setup (clock j)).run.stage = .ended result →
        (task.run clock shared domain oracle).result = result := by
  have hadvance := hw.advance_eq
  rw [World.advance_of_going going] at hadvance
  cases k with
  | zero =>
      -- the run would be out of steps before it ends
      obtain ⟨result, hend⟩ := run_ends hrestarts hlaunch
      rw [← hadvance] at hend
      exact absurd hend (going' result)
  | succ j =>
      refine ⟨j, rfl, fun result hend => ?_⟩
      rw [task.run_eq_of_launch clock shared hlaunch, ← hadvance, World.advance_of_going going',
        World.advance_of_ended hend, report, hend]

/-- A run ends in a visited world, and its last step made a transition. -/
theorem visits_of_run (h : (task.run clock shared domain oracle).result = .ok o) :
    ∃ setup k v, task.Visits clock shared domain oracle setup (k + 1) v ∧
      (∀ result, v.run.stage ≠ .ended result) ∧
      (v.step setup (clock k)).run.stage = .ended (.ok o) ∧
      (task.run clock shared domain oracle) = report (v.step setup (clock k)) ∧
      Transition setup (v.surroundings setup (clock k)) v.run.stage v.ledger
        (.ended (.ok o)) (v.step setup (clock k)).ledger := by
  obtain ⟨setup, run, hlaunch⟩ := task.launch_of_run h
  have hl := launched_of_launch hlaunch
  have hrun := task.run_eq_of_launch clock shared hlaunch
  obtain ⟨k, hvisited, -⟩ :=
    World.visited_final setup clock (World.enoughSteps task.settings) { shared, run }
  have hended : (World.advance setup clock (World.enoughSteps task.settings)
      { shared, run }).run.stage = .ended (.ok o) := by
    rw [hrun] at h
    exact report_eq_ok.mp h
  obtain ⟨v, hv, going, hstep⟩ := hvisited.last hended hl.going
  rw [hstep] at hended
  refine ⟨setup, k, v, ⟨run, hlaunch, hv⟩, going, hended, by rw [hrun, hstep], ?_⟩
  rcases World.step_transition setup (clock k) v with ⟨e, he⟩ | ht
  · rw [he] at hended
    cases hended
  · rw [hended] at ht
    exact ht

/-- A run with an outcome goes on from each world it visits, and ends nowhere else. -/
theorem Visits.next (h : (task.run clock shared domain oracle).result = .ok o) {k : Nat}
    {w : World R σ} (hw : task.Visits clock shared domain oracle setup k w)
    (going : ∀ result, w.run.stage ≠ .ended result) :
    ∃ j, k = j + 1 ∧
      task.Visits clock shared domain oracle setup j (w.step setup (clock j)) ∧
      Transition setup (w.surroundings setup (clock j)) w.run.stage w.ledger
        (w.step setup (clock j)).run.stage (w.step setup (clock j)).ledger ∧
      ∀ result, (w.step setup (clock j)).run.stage = .ended result → result = .ok o := by
  obtain ⟨run, hlaunch, hvisited⟩ := hw
  have hfinal := hvisited.advance_eq
  have hend : (World.advance setup clock k w).run.stage = .ended (.ok o) := by
    rw [hfinal]
    rw [task.run_eq_of_launch clock shared hlaunch] at h
    exact report_eq_ok.mp h
  cases k with
  | zero => exact absurd hend (going _)
  | succ j =>
      have honly : ∀ result, (w.step setup (clock j)).run.stage = .ended result →
          result = .ok o := by
        intro result hresult
        rw [World.advance_of_going going, World.advance_of_ended hresult, hresult] at hend
        cases hend
        rfl
      refine ⟨j, rfl, ⟨run, hlaunch, hvisited.step going⟩, ?_, honly⟩
      rcases World.step_transition setup (clock j) w with ⟨e, he⟩ | ht
      · cases honly _ he
      · exact ht

/-- A refused projection ends the run with the reason of the refusal, and only that does. -/
theorem refused_iff (hrestarts : 0 ≤ task.settings.maxRestarts)
    (h : (task.run clock shared domain oracle).result = .ok o) {reason : FailureReason} :
    (o.trace ≠ [] ∧ reason.IsRefusal ∧ o.ending = .failure reason) ↔
      ∃ setup k w, task.Visits clock shared domain oracle setup k w ∧
        w.Refused setup reason ∧ o.iterations = w.run.workspace.progress.iteration + 1 := by
  constructor
  · rintro ⟨htrace, hrefusal, hending⟩
    obtain ⟨setup, k, v, hv, going, -, -, ht⟩ := visits_of_run h
    rcases ht.of_refusal rfl going hrefusal hending with
      ⟨hroot, hsame⟩ | ⟨target, goal, hstage, aim, refused, hiterations⟩
    · have hshaped := hv.shaped hrestarts
      rw [hroot] at hshaped
      exact absurd (hsame.trans hshaped.1.trace) htrace
    · exact ⟨setup, k + 1, v, hv, ⟨target, goal, hstage, aim, refused⟩, hiterations⟩
  · rintro ⟨setup, k, w, hw, ⟨target, goal, hstage, aim, hrefused⟩, -⟩
    have hshaped := hw.shaped hrestarts
    obtain ⟨j, rfl, -, ht, honly⟩ := hw.next h (by
      rw [hstage]
      rintro result ⟨⟩)
    rw [hstage] at ht hshaped
    have hend := ht.of_refused aim hrefused
    have ho := Except.ok.inj (honly _ hend)
    rw [← ho]
    refine ⟨?_, FailureReason.isRefusal_of_refuses hrefused, rfl⟩
    obtain ⟨root, rest, htrace, -⟩ := hshaped.1.begun
    show w.ledger.trace ≠ []
    rw [htrace]
    exact List.cons_ne_nil _ _

/-- From a world with a trace a run comes to an outcome with a trace. -/
theorem Visits.trace_ne_nil (hrestarts : 0 ≤ task.settings.maxRestarts)
    (h : (task.run clock shared domain oracle).result = .ok o) {k : Nat} {w : World R σ}
    (hw : task.Visits clock shared domain oracle setup k w) (htrace : w.ledger.trace ≠ []) :
    o.trace ≠ [] := by
  obtain ⟨run, hlaunch, hvisited⟩ := hw
  rw [task.run_eq_of_launch clock shared hlaunch, ← hvisited.advance_eq] at h
  have hend := report_eq_ok.mp h
  obtain ⟨j, hfrom, -⟩ := World.visited_final setup clock k w
  have hkept := hfrom.induct (I := fun stage a => (∃ e, stage = .ended (.error e)) ∨ a.trace ≠ [])
    (Or.inr htrace) (fun e _ => Or.inl ⟨e, rfl⟩) (by
      rintro env stage a stage' a' (⟨e, rfl⟩ | ha) ht
      · cases ht
        exact Or.inl ⟨e, rfl⟩
      · exact Or.inr (ht.trace_ne_nil ha))
  obtain ⟨i, hvisit, -⟩ :=
    World.visited_final setup clock (World.enoughSteps task.settings) { shared, run }
  have hshaped := Visits.shaped hrestarts ⟨run, hlaunch, hvisit⟩
  rw [← hvisited.advance_eq, hend] at hshaped
  rw [hshaped.2]
  rcases hkept with ⟨e, he⟩ | hne
  · rw [hend] at he
    cases he
  · exact hne

/-- The trace is empty exactly if the run failed before it had rounded a root. -/
theorem trace_eq_nil_iff (hrestarts : 0 ≤ task.settings.maxRestarts)
    (h : (task.run clock shared domain oracle).result = .ok o) :
    o.trace = [] ↔ task.FailsByRoot clock shared domain oracle := by
  obtain ⟨setup, run, hlaunch⟩ := task.launch_of_run h
  have hl := launched_of_launch hlaunch
  have hstart : task.Visits clock shared domain oracle setup (World.enoughSteps task.settings)
      { shared, run } := ⟨run, hlaunch, .start⟩
  obtain ⟨j, hj, hw, ht, honly⟩ := hstart.next h hl.going
  have hnow : World.enoughSteps task.settings - 1 = j := by omega
  have hgoal : Goal.ofCost setup.table =
      { objective := task.problem.vars.map (·.cost), targets := [] } := by
    rw [Goal.ofCost, hl.table.cost]
  have hpoll : (World.surroundings setup (clock j) { shared, run }).stops =
      (shared.isCancelled (clock j) || task.settings.timeBudget.any
        (Arith.reached (clock j - clock (World.enoughSteps task.settings)))) := by
    show World.isCancelled setup (clock j) { shared, run } = _
    unfold World.isCancelled
    rw [hl.settings, hl.started_eq]
  unfold FailsByRoot
  dsimp only
  rw [hnow, ← hpoll, ← hgoal]
  have hsettings := hl.settings
  generalize hs : (World.step setup (clock j) { shared, run }).run.stage = stage at ht honly
  have hempty := (hl.fresh shared).trace
  rw [show (World.mk shared run).run.stage = .opening from hl.start.1] at ht
  generalize World.ledger { shared, run } = a at ht hempty
  generalize (World.step setup (clock j) { shared, run }).ledger = b at ht
  cases ht with
  | notAllowed hmax =>
      have ho := Except.ok.inj (honly _ rfl)
      rw [hsettings] at hmax
      rw [← ho]
      exact ⟨fun _ => Or.inl hmax, fun _ => hempty⟩
  | notStarted hmax stop =>
      have ho := Except.ok.inj (honly _ rfl)
      rw [← ho]
      exact ⟨fun _ => Or.inr (Or.inl stop), fun _ => hempty⟩
  | opened hmax go =>
      rw [hsettings] at hmax
      obtain ⟨horacle, hworkspace⟩ := World.step_of_opening hl.start.1 hs
      generalize World.step setup (clock j) { shared, run } = w at *
      obtain ⟨i, rfl, hnext, ht, honly⟩ := hw.next h (by
        rw [hs]
        rintro result ⟨⟩)
      have hfresh := hw.shaped hrestarts
      rw [hs] at ht hfresh
      have hreply : (w.surroundings setup (clock i)).reply setup (Goal.ofCost setup.table) =
          task.oracle oracle domain.box (Goal.ofCost setup.table) := by
        unfold Surroundings.reply World.surroundings
        rw [horacle, hworkspace, hl.start.2.2.1, hl.start.2.2.2, hl.asks]
      have hanswered : ∀ {point candidate d}, setup.Measured
          ((w.surroundings setup (clock i)).reply setup (Goal.ofCost setup.table))
          point candidate d →
          ¬ (task.settings.maxIterations ≤ 0 ∨
            (World.surroundings setup (clock (i + 1)) { shared, run }).stops = true ∨
            ∃ reason, (task.oracle oracle domain.box (Goal.ofCost setup.table)).Refuses reason) := by
        rintro point candidate d measured (hle | hstop | ⟨reason, e, -, he⟩)
        · omega
        · rw [go] at hstop
          cases hstop
        · have hpoint := measured.answered
          rw [hreply, he] at hpoint
          cases hpoint
      have hempty := hfresh.1.trace
      generalize w.ledger = a at ht hempty
      generalize (World.step setup (clock i) w).run.stage = stage at ht honly
      generalize hb₂ : (World.step setup (clock i) w).ledger = b at ht
      cases ht with
      | rootFailed refused =>
          have ho := Except.ok.inj (honly _ rfl)
          rw [hreply] at refused
          rw [← ho]
          exact ⟨fun _ => Or.inr (Or.inr ⟨_, refused⟩), fun _ => hempty⟩
      | rootConverged measured zero solves cost hb =>
          have ho := Except.ok.inj (honly _ rfl)
          refine iff_of_false ?_ (hanswered measured)
          rw [← ho, hb]
          exact List.append_ne_nil_of_right_ne_nil _ (List.cons_ne_nil _ _)
      | rootRounded measured =>
          refine iff_of_false (hnext.trace_ne_nil hrestarts h ?_) (hanswered measured)
          rw [hb₂]
          exact List.append_ne_nil_of_right_ne_nil _ (List.cons_ne_nil _ _)

/-- **The shape of every run.**  Whenever a run under admitted settings has an outcome, the outcome is
well shaped and its trace is the one reported; the last record tells whether the run converged or
stalled; the trace is empty exactly if the run failed before it had rounded a root; and the run ends
for a refusal of the relaxation exactly if the projection of its last iteration was refused so. -/
theorem outcome_of_run {requested : RequestedSettings R}
    (hsettings : requested.toSettings = .ok task.settings)
    (h : (task.run clock shared domain oracle).result = .ok o) :
    o.WellShaped task.settings ∧
      (task.run clock shared domain oracle).trace = some o.trace ∧
      (lastPhase? o.trace = some .converged ↔ o.ending.isSuccess = true) ∧
      (lastPhase? o.trace = some .stalledOut ↔ o.ending = .failure .maxRestartsExceeded) ∧
      (o.trace = [] ↔ task.FailsByRoot clock shared domain oracle) ∧
      ∀ reason : FailureReason, (o.trace ≠ [] ∧ reason.IsRefusal ∧ o.ending = .failure reason) ↔
        ∃ setup k w, task.Visits clock shared domain oracle setup k w ∧
          w.Refused setup reason ∧ o.iterations = w.run.workspace.progress.iteration + 1 := by
  have hrestarts := RequestedSettings.maxRestarts_nonneg hsettings
  obtain ⟨setup, k, v, hv, going, hend, hreport, -⟩ := visits_of_run h
  obtain ⟨j, hj, hfinal, -, -⟩ := hv.next h going
  cases hj
  have hshaped := hfinal.shaped hrestarts
  rw [hend] at hshaped
  obtain ⟨hconverged, hstalled⟩ := hshaped.1.lastPhase
  refine ⟨hshaped.1, ?_, hconverged, hstalled, trace_eq_nil_iff hrestarts h,
    fun reason => refused_iff hrestarts h⟩
  rw [hreport, hshaped.2]
  rfl

/-- A problem with one binary variable whose relaxation prefers one half: the cost is `-x`, and the
row is `2 x ≤ 1`. -/
def halfway : PumpTask ExtRat Unit where
  name := "halfway"
  settings := {}
  problem :=
    { vars := [{ index := 0, lb := .fin 0, ub := .fin 1, kind := .binary, cost := .fin (-1) }]
      rows := { coefficients := [[.fin 2]], senses := [.atMost], rhs := [.fin 1] }
      offset := .fin 0 }
  oracle := fun _ _ goal =>
    { answer := .ok (if goal.objective = [.fin (-1)] then [.fin (1 / 2)] else [.fin 0]), next := () }

/-- The problem is solved in the first iteration, after a record for the root. -/
theorem outcome_of_run_halfway :
    halfway.settings.requested.toSettings = .ok halfway.settings ∧
    ∃ o, (halfway.run (fun _ => .fin 0) ⟨{}, none⟩ ⟨⟨[.fin 0], [.fin 1]⟩, []⟩ ()).result = .ok o ∧
      o.WellShaped halfway.settings ∧ lastPhase? o.trace = some .converged ∧
      o.trace.length = 2 := by
  have hsettings : halfway.settings.requested.toSettings = .ok halfway.settings :=
    Settings.toSettings_requested (by decide +kernel)
  obtain ⟨o, ho⟩ : ∃ o, (halfway.run (fun _ => .fin 0) ⟨{}, none⟩
      ⟨⟨[.fin 0], [.fin 1]⟩, []⟩ ()).result = .ok o := Act.exists_ok_of_isOk (by decide +kernel)
  have htrace : (halfway.run (fun _ => .fin 0) ⟨{}, none⟩ ⟨⟨[.fin 0], [.fin 1]⟩, []⟩ ()).trace.map
      (fun trace => (lastPhase? trace, trace.length)) = some (some .converged, 2) := by
    decide +kernel
  obtain ⟨hshaped, hreported, -⟩ := outcome_of_run hsettings ho
  rw [hreported, Option.map_some, Option.some.injEq, Prod.mk.injEq] at htrace
  exact ⟨hsettings, o, ho, hshaped, htrace.1, htrace.2⟩

end PumpTask

end Runs

end MipPump
