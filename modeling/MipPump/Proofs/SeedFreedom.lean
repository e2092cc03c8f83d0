import MipPump.Proofs.Draws
import MipPump.Proofs.Escalations
import MipPump.Proofs.Mirrors
import MipPump.Proofs.Rankings

/-!
# Runs that do not depend on the seed

The seed is used for random numbers only.  A run whose policies are all deterministic never draws one,
not even where a restart falls back on the ranking, so it does the same for every seed.

* `Settings.Deterministic`: no option asks for random numbers.
* `agree_rank`, `agree_perturb`, `agree_restart`, `agree_roundOrNearest`: the parts of a step that may
  draw agree on progress with different generators.
* `deterministic_run_ignores_seed`: two seeds, the same run.
-/

namespace MipPump

open Act

section Definitions

variable {R σ : Type} [Arith R]

/-- No option asks for random numbers. -/
structure Settings.Deterministic (s : Settings R) : Prop where
  rounding : s.rounding = .nearest ∨ s.rounding = .propagation
  ranking : s.ranking = .displacement ∨ s.ranking = .locks
  flips : s.randomFlipCount = false
  restarts : s.randomRestarts = false

/-- The states are related and the logs are the same. -/
def LogsAgree {τ : Type} (T : σ → τ → Prop) (s : Logged R σ) (t : Logged R τ) : Prop :=
  T s.1 t.1 ∧ t.2 = s.2

end Definitions

section Generators

variable {R : Type} [Arith R] {k : Ranker R} {s : Settings R} {t : Table R}

/-- A ranking by displacement or locks does not look at the generator. -/
theorem Ranker.agree_rank (hk : k.policy ≠ .random) (point : List R) (candidate : Option (List R)) :
    Agree Progress.Drawn (k.rank t point candidate) (k.rank t point candidate) := by
  have hweigh (base : List R) : Agree Progress.Drawn (k.weigh base) (k.weigh base) := by
    unfold weigh
    split
    · exact agree_pure _
    · exact agree_ofExcept _
    · exact absurd ‹_› hk
  have hpenalize (base : List R) : Agree Progress.Drawn (k.penalize base) (k.penalize base) := by
    refine agree_get_bind fun p q hpq => ?_
    obtain ⟨g, rfl⟩ := hpq
    exact agree_bind (agree_ofExcept _) fun counts => agree_ofExcept _
  have hscores : Agree Progress.Drawn (k.scores t point candidate) (k.scores t point candidate) := by
    refine agree_bind (agree_ofExcept _) fun values => agree_bind (agree_ofExcept _) fun base => ?_
    refine agree_bind (hweigh base) fun weighed => ?_
    exact agree_ite (agree_bind (hpenalize _) fun _ => agree_pure _)
      (agree_bind (agree_pure _) fun _ => agree_pure _)
  exact agree_bind hscores fun scores => agree_ite (agree_pure _) fun _ _ h => ⟨rfl, h⟩

namespace Perturber

theorem agree_flipCount (hflips : s.randomFlipCount = false) :
    Agree Progress.Drawn (flipCount s t) (flipCount s t) := by
  unfold flipCount
  simp only [hflips, Bool.false_eq_true, if_false]
  exact agree_bind (agree_ofExcept _) fun count => agree_bind (agree_pure _) fun _ => agree_pure _

theorem agree_flip (point candidate : List R) (indices : List Int) :
    Agree Progress.Drawn (flip s t point candidate indices) (flip s t point candidate indices) := by
  refine agree_bind (agree_ofExcept _) fun positions => agree_bind (agree_ofExcept _) fun values => ?_
  refine agree_bind (agree_ofExcept _) fun current => agree_bind (agree_ofExcept _) fun lb => ?_
  refine agree_bind (agree_ofExcept _) fun ub => agree_bind (agree_ofExcept _) fun step => ?_
  refine agree_bind (agree_ofExcept _) fun moved => agree_bind (agree_ofExcept _) fun perturbed => ?_
  refine agree_bind (agree_bind (agree_ofExcept _) fun _ => agree_modify ?_) fun _ => agree_pure _
  rintro p _ ⟨g, rfl⟩
  exact ⟨g, rfl⟩

/-- A perturbation of a fixed number of variables does not look at the generator. -/
theorem agree_perturb (hk : k.policy ≠ .random) (hflips : s.randomFlipCount = false)
    (point candidate : List R) :
    Agree Progress.Drawn (perturb s t k point candidate) (perturb s t k point candidate) :=
  agree_bind (agree_flipCount hflips) fun _ => agree_bind (Ranker.agree_rank hk _ _) fun _ =>
    agree_flip _ _ _

/-- Nor does a restart that moves the variables that rank highest. -/
theorem agree_restart (hk : k.policy ≠ .random) (hrestarts : s.randomRestarts = false)
    (point candidate : List R) :
    Agree Progress.Drawn (restart s t k point candidate) (restart s t k point candidate) := by
  unfold restart
  simp only [hrestarts, Bool.false_eq_true, if_false]
  exact agree_bind (agree_ofExcept _) fun _ => agree_bind (Ranker.agree_rank hk _ _) fun _ =>
    agree_flip _ _ _

end Perturber

open Rounding

/-- A rounding with propagation ranks the variables first and then leaves the progress alone. -/
theorem Rounding.agree_propagatedPoint (hk : k.policy ≠ .random) (tieBreak : TieBreak) (eps : R)
    (point : List R) :
    Agree (Workspace.Mirrors Progress.Drawn) (propagatedPoint tieBreak eps t k point)
      (propagatedPoint tieBreak eps t k point) := by
  refine agree_get_bind fun a b hab => ?_
  rw [hab.domain, hab.propagator]
  refine agree_bind (agree_ofExcept _) fun bounds => ?_
  refine agree_bind (fun _ _ _ => ⟨rfl, rfl, rfl, hab.progress⟩) fun _ => ?_
  have hrank : Agree (Workspace.Mirrors Progress.Drawn)
      (Workspace.onProgress (k.rank t point none)) (Workspace.onProgress (k.rank t point none)) :=
    agree_zoom (Ranker.agree_rank hk point none) (fun _ _ h => h.progress)
      fun _ _ _ _ h hpq => { h with progress := hpq }
  refine agree_bind hrank fun order => agree_bind ?_ fun writes => agree_ofExcept _
  refine agree_zoom (agree_refl (fixInScope tieBreak eps t point order)) (fun a b h => ?_)
    fun a b x y h hxy => ?_
  · rw [h.domain, h.propagator]
  · rw [hxy]
    exact ⟨rfl, rfl, h.progress⟩

end Generators

section Setups

variable {R σ τ : Type} [Arith R] {setup : Setup R σ} {other : Setup R τ}

/-- A rounding to the nearest integers or with propagation does not look at the generator. -/
theorem World.agree_roundByPolicy (halike : setup.Alike other)
    (hrounding : setup.settings.rounding ≠ .randomized) (hk : setup.ranker.policy ≠ .random)
    (point : List R) :
    Agree (Rounding.Workspace.Mirrors Progress.Drawn) (roundByPolicy setup point)
      (roundByPolicy other point) := by
  obtain ⟨oracle, seed, started, rfl⟩ := halike
  unfold roundByPolicy
  dsimp only [Setup.replaced]
  cases hr : setup.settings.rounding with
  | nearest => exact agree_ofExcept _
  | randomized => exact absurd hr hrounding
  | propagation => exact Rounding.agree_propagatedPoint hk _ _ point

/-- Nor do the nearest integers that are taken where propagation fails. -/
theorem World.agree_roundOrNearest (halike : setup.Alike other)
    (hrounding : setup.settings.rounding ≠ .randomized) (hk : setup.ranker.policy ≠ .random)
    (point : List R) :
    Agree (Rounding.Workspace.Mirrors Progress.Drawn) (roundOrNearest setup point)
      (roundOrNearest other point) := by
  have hround := agree_roundByPolicy halike hrounding hk point
  obtain ⟨oracle, seed, started, rfl⟩ := halike
  intro a b hab
  have hafter := (hround a b hab).2
  rw [← roundOrNearest_after, ← roundOrNearest_after] at hafter
  refine ⟨?_, hafter⟩
  unfold split roundOrNearest
  cases ha : roundByPolicy setup point a with
  | ok candidate a' =>
      obtain ⟨b', hb, -⟩ := hround.of_ok hab ha
      rw [hb]
  | error e a' =>
      obtain ⟨b', hb, -⟩ := hround.of_error hab ha
      rw [hb]
      cases e with
      | emptiedDomain j lb ub =>
          dsimp only [Setup.replaced]
          cases Rounding.nearestPoint setup.settings.tieBreak setup.settings.toleranceEpsilon
            setup.table point <;> rfl
      | _ => rfl

/-- Setups without random policies couple runs with any generators. -/
theorem Setup.couples_drawn (halike : setup.Alike other) (h : setup.settings.Deterministic)
    (hk : setup.ranker.policy = setup.settings.ranking) :
    setup.Couples Progress.Drawn other := by
  have hpolicy : setup.ranker.policy ≠ .random := by
    rw [hk]
    rcases h.ranking with h | h <;> rw [h] <;> nofun
  have hrounding : setup.settings.rounding ≠ .randomized := by
    rcases h.rounding with h | h <;> rw [h] <;> nofun
  refine ⟨halike, fun hpq => hpq, ?_, World.agree_roundOrNearest halike hrounding hpolicy, ?_, ?_⟩
  · rintro f p _ hf ⟨g, rfl⟩
    exact ⟨g, hf p g⟩
  · obtain ⟨_, _, _, rfl⟩ := halike
    exact Perturber.agree_perturb hpolicy h.flips
  · obtain ⟨_, _, _, rfl⟩ := halike
    exact Perturber.agree_restart hpolicy h.restarts

end Setups

section Recordings

variable {R σ τ : Type} [Arith R] {T : σ → τ → Prop} {oracle : Oracle R σ} {other : Oracle R τ}

omit [Arith R] in
/-- Oracles that reply alike do so with logs. -/
theorem Oracle.Mirrors.recording (h : oracle.Mirrors T other) :
    oracle.recording.Mirrors (LogsAgree T) other.recording := by
  rintro ⟨s, log⟩ ⟨t, _⟩ box goal ⟨hst, rfl⟩
  obtain ⟨hanswer, hcancels, hnext⟩ := h s t box goal hst
  exact ⟨hanswer, hcancels, hnext, rfl⟩

end Recordings

namespace PumpTask

section Runs

variable {R σ τ : Type} [Arith R] {T : σ → τ → Prop} {task : PumpTask R σ} {other : Oracle R τ}
  {a b : Int} {s : σ} {t : τ} {clock clock' : Nat → R} {shared : Shared R}

/-- Runs that are the same up to a seed that is not negative start alike. -/
theorem start_drawn (settings : Settings R) (ha : 0 ≤ a) (hb : 0 ≤ b) (n : Nat) :
    (∃ p q, Progress.start { settings with randomSeed := a } n = .ok p ∧
      Progress.start { settings with randomSeed := b } n = .ok q ∧ p.Drawn q) ∨
    ∃ e, Progress.start { settings with randomSeed := a } n = .error e ∧
      Progress.start { settings with randomSeed := b } n = .error e := by
  unfold Progress.start
  simp only [if_neg (Int.not_lt.mpr ha), if_neg (Int.not_lt.mpr hb)]
  cases hhistory : (History.ofCapacity settings.cycleHistorySize : Except (Fault R) (History R)) with
  | error e => exact .inr ⟨e, rfl, rfl⟩
  | ok history => exact .inl ⟨_, _, rfl, rfl, _, rfl⟩

/-- Deterministic runs with two seeds report the same. -/
theorem run_replaced_mirrors (h : task.settings.Deterministic) (ha : 0 ≤ a) (hb : 0 ≤ b)
    (ho : task.oracle.Mirrors T other) (hst : T s t)
    (htime : task.StopsAlike shared.deadline? clock clock') (domain : Domain R) :
    ((task.replaced task.oracle a).run clock shared domain s).Mirrors T
      ((task.replaced other b).run clock' shared domain t) := by
  refine run_mirrors (Q := Progress.Drawn) (start_drawn task.settings ha hb) ?_ ho hst htime
  intro started started' table setup propagator hequip
  obtain ⟨ranker, hranker, hrest⟩ := Act.exceptBind_eq_ok.mp hequip
  obtain ⟨_, -, hrest⟩ := Act.exceptBind_eq_ok.mp hrest
  cases hrest
  exact Setup.couples_drawn ⟨_, _, _, rfl⟩ ⟨h.rounding, h.ranking, h.flips, h.restarts⟩
    (Ranker.make_eq_ok hranker).1

/-- Without time limits runs are never stopped by time, whatever the clocks. -/
theorem stopsAlike_of_untimed (hbudget : task.settings.timeBudget = none) (clock clock' : Nat → R) :
    task.StopsAlike none clock clock' := fun k => by
  rw [hbudget]
  exact ⟨rfl, rfl⟩

/-- **Deterministic policies ignore the seed.**  Let no option ask for random numbers, and let two
oracles reply alike and be stopped by time together.  Then two runs with seeds that are not negative
have the same result and the same trace, ask the oracles the same in the same order, and change the
bounds in the same way. -/
theorem deterministic_run_ignores_seed (h : task.settings.Deterministic) (ha : 0 ≤ a) (hb : 0 ≤ b)
    (ho : task.oracle.Mirrors T other) (hst : T s t)
    (htime : task.StopsAlike shared.deadline? clock clock') (domain : Domain R) :
    ((task.replaced task.oracle a).run clock shared domain s).Mirrors T
        ((task.replaced other b).run clock' shared domain t) ∧
      ((task.replaced task.oracle a).recording.run clock shared domain (s, [])).Mirrors (LogsAgree T)
        ((task.replaced other b).recording.run clock' shared domain (t, [])) := by
  have hlogs : LogsAgree T (s, ([] : List (Question R))) (t, []) := ⟨hst, rfl⟩
  have hrecording : task.recording.settings.Deterministic := h
  exact ⟨run_replaced_mirrors h ha hb ho hst htime domain,
    run_replaced_mirrors hrecording ha hb ho.recording hlogs htime domain⟩

/-- An oracle that counts its answers mirrors one that has no state, and the clocks may differ.  The
run makes two perturbations and a restart. -/
theorem deterministic_run_ignores_seed_impatient :
    let counting : Oracle ExtRat Nat := fun n _ _ => { answer := .ok [.fin (1 / 2)], next := n + 1 }
    let domain : Domain ExtRat := ⟨⟨[.fin 0], [.fin 1]⟩, []⟩
    let shared : Shared ExtRat := ⟨{}, none⟩
    let still (_ : Nat) : ExtRat := .fin 0
    let ticking (k : Nat) : ExtRat := .fin k
    impatient.settings.Deterministic ∧ impatient.oracle.Mirrors (fun _ _ => True) counting ∧
      impatient.StopsAlike shared.deadline? still ticking ∧
      (((impatient.replaced impatient.oracle 1).run still shared domain ()).trace.map
        (·.map (·.phase))) = some [.init, .perturbing, .restarting, .measuring, .perturbing,
          .stalledOut] ∧
      ((impatient.replaced impatient.oracle 1).run still shared domain ()).Mirrors (fun _ _ => True)
        ((impatient.replaced counting 2).run ticking shared domain 0) ∧
      ((impatient.replaced impatient.oracle 1).recording.run still shared domain ((), [])).Mirrors
        (LogsAgree fun _ _ => True)
        ((impatient.replaced counting 2).recording.run ticking shared domain (0, [])) := by
  intro counting domain shared still ticking
  have hdeterministic : impatient.settings.Deterministic := ⟨.inl rfl, .inl rfl, rfl, rfl⟩
  have hmirrors : impatient.oracle.Mirrors (fun _ _ => True) counting := fun _ _ _ _ _ =>
    ⟨rfl, rfl, trivial⟩
  have htime : impatient.StopsAlike shared.deadline? still ticking := stopsAlike_of_untimed rfl _ _
  exact ⟨hdeterministic, hmirrors, htime, by decide +kernel,
    deterministic_run_ignores_seed hdeterministic (by decide) (by decide) hmirrors trivial htime
      domain⟩

end Runs

end PumpTask

end MipPump
