import MipPump.Proofs.Laps
import MipPump.Proofs.SumOrders

/-!
# When a run perturbs, restarts and gives up

A lap improves if its distance is a new best of the epoch.  The run counts its perturbations since the
latest improving lap: below the ceiling it perturbs once more, and at the ceiling it restarts, or
stalls out if no restart is left.

* `Counters` is the part of an epoch that decides about stalling, and `Counters.Decided` is what a
  decision asks of it and makes of it.
* `LatestImproving`: the improving lap that a lap counts from.
* `Lapped.scheduled`: the counters of a run between its laps.
* `Lapped.margin`: no distance of an epoch is below its best one by more than the tolerance.
* `escalations_on_schedule`: when there is a perturbation, a restart or an end for want of restarts.
-/

namespace MipPump

section Counters

variable {R : Type}

/-- The part of an epoch that decides about stalling. -/
structure Counters (R : Type) where
  stall : Int
  noProgress : Int
  previous : R
  best : R

def Epoch.counters (e : Epoch R) : Counters R :=
  { stall := e.stallCounter
    noProgress := e.noProgress
    previous := e.previousDistance
    best := e.bestDistance }

variable [Arith R]

namespace Counters

/-- The counters at the beginning of an epoch. -/
def fresh : Counters R :=
  { stall := 0, noProgress := 0, previous := Arith.infinity, best := Arith.infinity }

/-- What a decision asks of the counters after measuring, and what it makes of them. -/
def Decided (s : Settings R) (c : Counters R) : Phase → Counters R → Prop
  | .init, c' => c' = c
  | .measuring, c' => c.noProgress < s.stallPatience ∧ c' = c
  | .perturbing, c' =>
      c.stall < s.stallCeiling ∧ c' = { c with stall := c.stall + 1, noProgress := 0 }
  | .restarting, c' => s.stallCeiling ≤ c.stall ∧ c' = fresh
  | .stalledOut, _ => s.stallCeiling ≤ c.stall
  | .converged, _ => True

end Counters

variable {σ : Type}

/-- The epoch after the distance of a sighting was taken into account, and whether the distance is a
new best. -/
def World.gauged (setup : Setup R σ) (w : World R σ) (s : Sighting R) : Bool × Epoch R :=
  w.run.workspace.progress.epoch.measure s.distance.value setup.settings.toleranceEpsilon

/-- The distance of the lap is a new best of its epoch. -/
def Lap.improves (setup : Setup R σ) (l : Lap R σ) : Bool :=
  (l.before.sighting? setup).any fun s => (l.before.gauged setup s).1

/-- Lap `i` is the latest up to `k` that improves, and no epoch has begun between the two. -/
structure LatestImproving (setup : Setup R σ) (laps : List (Lap R σ)) (i k : Nat) : Prop where
  le : i ≤ k
  improves : ∃ l, laps[i]? = some l ∧ l.improves setup = true
  last : ∀ j l, i < j → j ≤ k → laps[j]? = some l → l.improves setup = false
  epoch : ∀ j l, i ≤ j → j < k → laps[j]? = some l → l.phase? ≠ some .restarting

/-- The counters of a run that has made the laps: an epoch has just begun, or the perturbations since
the latest improving lap are counted. -/
inductive Scheduled (setup : Setup R σ) (laps : List (Lap R σ)) (c : Counters R) : Prop
  | fresh (counters : c = .fresh)
  | since (i : Nat) (latest : LatestImproving setup laps i laps.length)
      (counted : c.stall = Lap.count .perturbing (laps.drop i))
      (le : c.stall ≤ setup.settings.stallCeiling)

end Counters

section Decisions

variable {R σ : Type} [Arith R] {setup : Setup R σ} {w : World R σ} {s : Sighting R}
  {g : Random.Generator} {stage' : Stage R} {b' : Ledger R} {phase : Phase}

theorem World.seen_of_ne_root (h : w.run.stage ≠ .root) :
    w.seen setup g s = w.ledger.measured setup g s.distance := by
  unfold seen
  split
  · exact absurd ‹_› h
  · rfl

/-- The distance is taken into account before the decision. -/
theorem World.epoch_seen (setup : Setup R σ) (g : Random.Generator) (s : Sighting R)
    (h : w.run.stage ≠ .root) :
    (w.seen setup g s).progress.epoch = (w.gauged setup s).2 := by
  rw [seen_of_ne_root h]
  rfl

/-- What a decision has to do with the counters. -/
theorem Decides.counters (h : Decides setup s w.run.stage (w.seen setup g s) stage' b' phase) :
    (w.gauged setup s).2.counters.Decided setup.settings phase b'.progress.epoch.counters := by
  cases h with
  | converged => trivial
  | rooted root ledger =>
      rw [ledger]
      unfold World.seen
      rw [root]
      rfl
  | accepted later fresh ledger =>
      have hepoch := World.epoch_seen setup g s later
      simp only [Sighting.isFresh, Bool.and_eq_true, Bool.not_eq_true', Progress.isStalled,
        decide_eq_false_iff_not, Int.not_le] at fresh
      rw [hepoch] at fresh
      refine ⟨fresh.2, ?_⟩
      rw [ledger, ← hepoch]
      rfl
  | perturbed later stale patient move ledger =>
      have hepoch := World.epoch_seen setup g s later
      obtain ⟨⟨g', rfl⟩, -⟩ := Perturber.perturb_eq_ok move
      refine ⟨?_, ?_⟩
      · have hlt : (w.gauged setup s).2.stallCounter + 1 ≤ setup.settings.stallCeiling := by
          rw [← hepoch]
          exact patient
        exact hlt
      · rw [ledger, ← hepoch]
        rfl
  | stalledOut later stale impatient =>
      have hlt : setup.settings.stallCeiling < (w.gauged setup s).2.stallCounter + 1 := by
        rw [← World.epoch_seen setup g s later]
        exact impatient
      exact Int.lt_add_one_iff.mp hlt
  | restarted later stale impatient left move ledger =>
      have hlt : setup.settings.stallCeiling < (w.gauged setup s).2.stallCounter + 1 := by
        rw [← World.epoch_seen setup g s later]
        exact impatient
      obtain ⟨⟨g', rfl⟩, -⟩ := Perturber.restart_eq_ok move
      refine ⟨Int.lt_add_one_iff.mp hlt, ?_⟩
      rw [ledger]
      rfl

theorem Counters.Decided.noProgress_nonneg {settings : Settings R} {c c' : Counters R}
    (h : c.Decided settings phase c') (hc : 0 ≤ c.noProgress)
    (hgoes : phase ≠ .stalledOut ∧ phase ≠ .converged) : 0 ≤ c'.noProgress := by
  cases phase with
  | init => rwa [show c' = c from h]
  | measuring => rwa [show c' = c from h.2]
  | perturbing => exact (congrArg Counters.noProgress h.2).ge
  | restarting => exact (congrArg Counters.noProgress h.2).ge
  | stalledOut => exact absurd rfl hgoes.1
  | converged => exact absurd rfl hgoes.2

end Decisions

section Latest

variable {R σ : Type} [Arith R] {setup : Setup R σ} {laps : List (Lap R σ)} {l : Lap R σ} {i k : Nat}

namespace LatestImproving

/-- A lap that improves is the latest. -/
theorem here (h : l.improves setup = true) :
    LatestImproving setup (laps ++ [l]) laps.length laps.length where
  le := Nat.le_refl _
  improves := ⟨l, List.getElem?_concat_length, h⟩
  last j l' hj hj' := by omega
  epoch j l' hj hj' := by omega

/-- A lap that does not improve leaves the latest one as it is. -/
theorem worse (h : LatestImproving setup laps i laps.length) (hl : l.improves setup = false) :
    LatestImproving setup (laps ++ [l]) i laps.length where
  le := h.le
  improves := by
    obtain ⟨l', hl', himproves⟩ := h.improves
    exact ⟨l', getElem?_concat_eq_some.mpr (.inl hl'), himproves⟩
  last j l' hj hj' hl' := by
    rcases getElem?_concat_eq_some.mp hl' with hl' | ⟨-, rfl⟩
    · exact h.last j l' hj hj' hl'
    · exact hl
  epoch j l' hj hj' hl' := by
    rw [List.getElem?_append_left hj'] at hl'
    exact h.epoch j l' hj hj' hl'

/-- It stays the latest after a lap that does not restart. -/
theorem goOn (h : LatestImproving setup (laps ++ [l]) i laps.length)
    (hl : l.phase? ≠ some .restarting) :
    LatestImproving setup (laps ++ [l]) i (laps ++ [l]).length where
  le := by
    have hle := h.le
    rw [List.length_append]
    omega
  improves := h.improves
  last j l' hj hj' hl' := by
    have hlt := (List.getElem?_eq_some_iff.mp hl').1
    rw [List.length_append, List.length_singleton] at hlt
    exact h.last j l' hj (by omega) hl'
  epoch j l' hj _ hl' := by
    rcases getElem?_concat_eq_some.mp hl' with hold | ⟨-, rfl⟩
    · exact h.epoch j l' hj (List.getElem?_eq_some_iff.mp hold).1 hl'
    · exact hl

/-- What comes after a lap does not matter to it. -/
theorem of_take (h : LatestImproving setup (laps.take (k + 1)) i k) :
    LatestImproving setup laps i k := by
  have htake {j : Nat} (hj : j ≤ k) : (laps.take (k + 1))[j]? = laps[j]? :=
    List.getElem?_take_of_lt (by omega)
  obtain ⟨l', hl', himproves⟩ := h.improves
  refine ⟨h.le, ⟨l', by rw [← htake h.le, hl'], himproves⟩, fun j l' hj hj' hl' => ?_,
    fun j l' hj hj' hl' => ?_⟩
  · exact h.last j l' hj hj' (by rw [htake hj', hl'])
  · exact h.epoch j l' hj hj' (by rw [htake (by omega), hl'])

end LatestImproving

/-- There is one latest improving lap. -/
theorem LatestImproving.unique {i' : Nat} (h : LatestImproving setup laps i k)
    (h' : LatestImproving setup laps i' k) : i = i' := by
  have hle {i i' : Nat} (h : LatestImproving setup laps i k)
      (h' : LatestImproving setup laps i' k) : i' ≤ i := by
    by_contra hlt
    obtain ⟨l, hl, himproves⟩ := h'.improves
    cases himproves.symm.trans (h.last i' l (by omega) h'.le hl)
  exact Nat.le_antisymm (hle h' h) (hle h h')

theorem Lap.improves_of_sees {s : Sighting R} (hs : l.before.Sees setup s) :
    l.improves setup = (l.before.gauged setup s).1 := by
  unfold Lap.improves
  rw [World.sees_iff.mp hs]
  rfl

end Latest

section Schedules

variable {R σ : Type} [Arith R] {setup : Setup R σ} {done : List (Lap R σ)} {l : Lap R σ}
  {s : Sighting R}

theorem Epoch.counters_measure (e : Epoch R) (value eps : R) :
    (e.measure value eps).2.counters =
      { stall := if value < e.counters.best - eps then 0 else e.counters.stall
        noProgress :=
          if value < e.counters.previous - eps then 0 else e.counters.noProgress + 1
        previous := value
        best := if value < e.counters.best - eps then value else e.counters.best } := by
  unfold measure counters
  dsimp only
  by_cases h : value < e.bestDistance - eps
  · simp [h]
  · simp [h]

theorem Epoch.isBest_measure (e : Epoch R) (value eps : R) :
    (e.measure value eps).1 = decide (value < e.counters.best - eps) := by
  unfold measure counters
  dsimp only
  by_cases h : value < e.bestDistance - eps
  · simp [h]
  · simp [h]

/-- A finite distance is a new best of a fresh epoch. -/
theorem Epoch.improves_of_fresh {e : Epoch R} {value eps : R} (he : e.counters = .fresh)
    (hvalue : value < Arith.infinity - eps) : (e.measure value eps).1 = true := by
  rw [isBest_measure, he]
  exact decide_eq_true hvalue

/-- After measuring the stall counter counts the perturbations since the latest improving lap. -/
theorem Scheduled.gauge (h : Scheduled setup done l.before.run.workspace.progress.epoch.counters)
    (hs : l.before.Sees setup s)
    (hvalue : s.distance.value < Arith.infinity - setup.settings.toleranceEpsilon)
    (hceiling : 0 ≤ setup.settings.stallCeiling) :
    ∃ i, LatestImproving setup (done ++ [l]) i done.length ∧
      (l.before.gauged setup s).2.counters.stall = Lap.count .perturbing (done.drop i) ∧
      (l.before.gauged setup s).2.counters.stall ≤ setup.settings.stallCeiling := by
  have himproves := Lap.improves_of_sees hs
  have hcounters := Epoch.counters_measure l.before.run.workspace.progress.epoch s.distance.value
    setup.settings.toleranceEpsilon
  rw [World.gauged] at himproves ⊢
  rw [hcounters]
  rw [Epoch.isBest_measure] at himproves
  by_cases hbest : s.distance.value <
      l.before.run.workspace.progress.epoch.counters.best - setup.settings.toleranceEpsilon
  · rw [decide_eq_true hbest] at himproves
    refine ⟨done.length, .here himproves, ?_, ?_⟩
    · simp [hbest]
    · simpa [hbest] using hceiling
  · rw [decide_eq_false hbest] at himproves
    simp only [if_neg hbest]
    cases h with
    | fresh counters =>
        rw [counters] at hbest
        exact absurd hvalue hbest
    | since i latest counted le => exact ⟨i, latest.worse himproves, counted, le⟩

/-- What a decision makes of the counters. -/
theorem Scheduled.decide {i : Nat} {c c' : Counters R} {phase : Phase}
    (latest : LatestImproving setup (done ++ [l]) i done.length)
    (counted : c.stall = Lap.count .perturbing (done.drop i))
    (le : c.stall ≤ setup.settings.stallCeiling) (hphase : l.phase? = some phase)
    (hd : c.Decided setup.settings phase c') (hgoes : phase ≠ .stalledOut ∧ phase ≠ .converged) :
    Scheduled setup (done ++ [l]) c' := by
  have hcount : (Lap.count .perturbing ((done ++ [l]).drop i) : Int) =
      c.stall + if phase = .perturbing then 1 else 0 := by
    rw [List.drop_append_of_le_length latest.le, Lap.count_concat, counted, hphase]
    by_cases hp : phase = .perturbing <;> simp [hp]
  have hgoOn (hne : phase ≠ .restarting) :
      LatestImproving setup (done ++ [l]) i (done ++ [l]).length :=
    latest.goOn (by rw [hphase]; exact fun h => hne (Option.some.inj h))
  cases phase with
  | init =>
      rw [show c' = c from hd]
      exact .since i (hgoOn nofun) (by rw [hcount]; simp) le
  | measuring =>
      rw [show c' = c from hd.2]
      exact .since i (hgoOn nofun) (by rw [hcount]; simp) le
  | perturbing =>
      obtain ⟨hlt, rfl⟩ := hd
      exact .since i (hgoOn nofun) (by rw [hcount]; simp) hlt
  | restarting => exact .fresh hd.2
  | stalledOut => exact absurd rfl hgoes.1
  | converged => exact absurd rfl hgoes.2

end Schedules

namespace World

variable {R σ : Type} [Arith R] {setup : Setup R σ} {start w : World R σ} {done : List (Lap R σ)}
  {now : R}

section Runs

variable (hstart : start.run.workspace.progress.epoch.counters = .fresh)
  (hceiling : 0 ≤ setup.settings.stallCeiling)

include hstart hceiling

/-- The counters of a run between its laps are on schedule. -/
theorem Lapped.scheduled (h : Lapped setup start done w) (goes : w.Goes)
    (hvalues : ∀ l ∈ done, ∀ s, l.before.Sees setup s →
      s.distance.value < Arith.infinity - setup.settings.toleranceEpsilon) :
    Scheduled setup done w.run.workspace.progress.epoch.counters := by
  induction h with
  | start => exact .fresh hstart
  | @look done w h looks now ih =>
      rw [(looks.looked goes).workspace]
      exact ih looks.goes hvalues
  | @lap done w h begins now ih =>
      obtain ⟨s, g, phase, hs, hd⟩ := begins.decides goes
      have hbefore := ih begins.goes fun l hl => hvalues l (List.mem_append_left _ hl)
      obtain ⟨i, latest, counted, le⟩ :=
        Scheduled.gauge (l := ⟨w, w.step setup now⟩) hbefore hs
          (hvalues _ (List.mem_append_right _ (List.mem_singleton_self _)) s hs) hceiling
      exact Scheduled.decide latest counted le (phase_of_decides hd fun e => goes _) hd.counters
        (hd.phase_of_goes goes)

/-- What a lap has counted when it decides. -/
theorem decided_of_getElem? {clock : Nat → R} {fuel k : Nat} {l : Lap R σ}
    (hl : (laps setup clock fuel start)[k]? = some l)
    (hvalues : ∀ (j : Nat) (l : Lap R σ) s, (laps setup clock fuel start)[j]? = some l →
      l.before.Sees setup s →
        s.distance.value < Arith.infinity - setup.settings.toleranceEpsilon) {s : Sighting R}
    (hs : l.before.Sees setup s) :
    ∃ i, LatestImproving setup (laps setup clock fuel start) i k ∧
      (l.before.gauged setup s).2.counters.stall =
        Lap.count .perturbing (((laps setup clock fuel start).take k).drop i) ∧
      (l.before.gauged setup s).2.counters.stall ≤ setup.settings.stallCeiling := by
  obtain ⟨hlen, hlapped, hbegins, -⟩ := lapped_of_getElem? hl
  have hbefore := hlapped.scheduled hstart hceiling hbegins.goes fun l' hl' s' hs' => by
    obtain ⟨j, hj⟩ := List.mem_iff_getElem?.mp (List.mem_of_mem_take hl')
    exact hvalues j l' s' hj hs'
  obtain ⟨i, latest, counted, le⟩ := hbefore.gauge hs (hvalues k l s hl hs) hceiling
  refine ⟨i, ?_, counted, le⟩
  rw [hlen] at latest
  apply LatestImproving.of_take
  rw [List.take_add_one, hl]
  exact latest

omit hstart hceiling in
/-- What the phase of a lap tells of its counters. -/
theorem decided_of_phase {clock : Nat → R} {fuel k : Nat} {l : Lap R σ} {phase : Phase}
    (hl : (laps setup clock fuel start)[k]? = some l) (hphase : l.phase? = some phase) :
    ∃ s, l.before.Sees setup s ∧ (l.before.gauged setup s).2.counters.Decided setup.settings phase
      l.after.run.workspace.progress.epoch.counters := by
  obtain ⟨-, -, hbegins, now, hafter⟩ := lapped_of_getElem? hl
  obtain ⟨w, next⟩ := l
  dsimp only at hbegins hafter ⊢
  subst hafter
  obtain ⟨r, hr, hphase⟩ := Option.map_eq_some_iff.mp hphase
  obtain ⟨s, g, hs, hd, -⟩ := hbegins.decides_of_record hr
  rw [hphase] at hd
  exact ⟨s, hs, hd.counters⟩

omit hceiling in
/-- The root, and the first lap after a restart, begin with a fresh epoch. -/
theorem counters_of_first {clock : Nat → R} {fuel k : Nat} {l : Lap R σ}
    (hl : (laps setup clock fuel start)[k]? = some l)
    (hfirst : k = 0 ∨ ∃ l', (laps setup clock fuel start)[k - 1]? = some l' ∧
      l'.phase? = some .restarting) :
    l.before.run.workspace.progress.epoch.counters = .fresh := by
  cases k with
  | zero =>
      obtain ⟨-, hlapped, hbegins, -⟩ := lapped_of_getElem? hl
      rw [List.take_zero] at hlapped
      rw [(hlapped.workspace_of_nil hbegins.goes).1, hstart]
  | succ k =>
      obtain ⟨l', hl', hphase⟩ := hfirst.resolve_left (Nat.succ_ne_zero k)
      rw [Nat.add_sub_cancel] at hl'
      obtain ⟨s, hs, hd⟩ := decided_of_phase hl' hphase
      rw [(before_of_getElem? hl' hl).1]
      exact hd.2

end Runs

/-- A run that wants to restart ends if all restarts have been made. -/
theorem stalledOut_iff {clock : Nat → R} {fuel k : Nat} {l : Lap R σ}
    (hrestarts : 0 ≤ setup.settings.maxRestarts) (hstage : start.run.stage = .opening)
    (hfresh : start.ledger.Fresh) (hl : (laps setup clock fuel start)[k]? = some l)
    (hphase : l.phase? = some .restarting ∨ l.phase? = some .stalledOut) :
    l.phase? = some .stalledOut ↔
      (Lap.count .restarting ((laps setup clock fuel start).take k) : Int) =
        setup.settings.maxRestarts := by
  obtain ⟨-, hlapped, hbegins, now, hafter⟩ := lapped_of_getElem? hl
  obtain ⟨w, next⟩ := l
  dsimp only at hlapped hbegins hafter
  subst hafter
  have hshaped : Shaped setup.settings start.run.stage start.ledger := by
    rw [hstage]
    exact hfresh
  obtain ⟨hcount, hle⟩ := hlapped.restarts_eq hrestarts hstage hshaped hfresh.trace hbegins.goes
  rw [← hcount]
  rcases hphase with hphase | hphase
  · obtain ⟨r, hr, hrestarting⟩ := Option.map_eq_some_iff.mp hphase
    obtain ⟨s, g, -, hd, -⟩ := hbegins.decides_of_record hr
    rw [hrestarting] at hd
    cases hd with
    | restarted _ _ _ left =>
        rw [restarts_seen] at left
        rw [hphase]
        exact iff_of_false nofun (Int.ne_of_lt left)
  · obtain ⟨r, hr, hstalled⟩ := Option.map_eq_some_iff.mp hphase
    obtain ⟨s, g, -, hd, -⟩ := hbegins.decides_of_record hr
    rw [hstalled] at hd
    cases hd with
    | stalledOut _ _ _ spent =>
        rw [restarts_seen] at spent
        exact iff_of_true hphase (Int.le_antisymm hle spent)

section Patience

/-- The number of distances without progress is never negative. -/
theorem Lapped.noProgress_nonneg (h : Lapped setup start done w)
    (hstart : start.run.workspace.progress.epoch.counters = .fresh) (goes : w.Goes) :
    0 ≤ w.run.workspace.progress.epoch.counters.noProgress := by
  induction h with
  | start => rw [hstart]; exact Int.le_refl _
  | @look done w h looks now ih =>
      rw [(looks.looked goes).workspace]
      exact ih looks.goes
  | @lap done w h begins now ih =>
      obtain ⟨s, g, phase, hs, hd⟩ := begins.decides goes
      have hgauged : 0 ≤ (w.gauged setup s).2.counters.noProgress := by
        have hbefore := ih begins.goes
        rw [gauged, Epoch.counters_measure]
        dsimp only
        split <;> omega
      exact hd.counters.noProgress_nonneg hgauged (hd.phase_of_goes goes)

/-- A measuring lap records the distance of its sighting, and it is patient. -/
theorem Begins.measuring (h : w.Begins)
    (hphase : Lap.phase? ⟨w, w.step setup now⟩ = some .measuring) :
    ∃ s r, w.Sees setup s ∧ Lap.record? ⟨w, w.step setup now⟩ = some r ∧
      r.distance = s.distance.value ∧
      (w.gauged setup s).2.counters.noProgress < setup.settings.stallPatience ∧
      (w.step setup now).run.workspace.progress.epoch.counters =
        (w.gauged setup s).2.counters := by
  obtain ⟨r, hr, hphase⟩ := Option.map_eq_some_iff.mp hphase
  obtain ⟨s, g, hs, hd, htrace⟩ := h.decides_of_record hr
  rw [hphase] at hd
  obtain ⟨hpatient, hcounters⟩ := hd.counters
  refine ⟨s, r, hs, hr, ?_, hpatient, hcounters⟩
  cases hd with
  | accepted later fresh ledger =>
      have htrace' : (w.step setup now).run.trace = w.run.trace ++ [_] :=
        (congrArg Ledger.trace ledger).trans (congrArg (· ++ [_]) (trace_seen w g s))
      rw [htrace, List.append_cancel_left_eq, List.cons.injEq] at htrace'
      exact congrArg Record.distance htrace'.1

/-- While measuring laps follow each other and no distance falls, the distances without progress are
counted. -/
theorem noProgress_of_steady {clock : Nat → R} {fuel j t : Nat}
    (hstart : start.run.workspace.progress.epoch.counters = .fresh)
    (hmeasuring : ∀ u ≤ t, ∃ l, (laps setup clock fuel start)[j + u]? = some l ∧
      l.phase? = some .measuring)
    (hsteady : ∀ u < t, ∀ l l' r r', (laps setup clock fuel start)[j + u]? = some l →
      l.record? = some r → (laps setup clock fuel start)[j + u + 1]? = some l' →
      l'.record? = some r' → ¬ r'.distance < r.distance - setup.settings.toleranceEpsilon) :
    ∃ l s r, (laps setup clock fuel start)[j + t]? = some l ∧ l.before.Sees setup s ∧
      l.record? = some r ∧ r.distance = s.distance.value ∧
      (t : Int) ≤ (l.before.gauged setup s).2.counters.noProgress ∧
      (l.before.gauged setup s).2.counters.noProgress < setup.settings.stallPatience ∧
      l.after.run.workspace.progress.epoch.counters = (l.before.gauged setup s).2.counters := by
  obtain ⟨⟨w, next⟩, hl, hphase⟩ := hmeasuring t (Nat.le_refl t)
  obtain ⟨-, hlapped, hbegins, now, hafter⟩ := lapped_of_getElem? hl
  dsimp only at hlapped hbegins hafter
  subst hafter
  obtain ⟨s, r, hs, hr, hdistance, hpatient, hcounters⟩ := hbegins.measuring hphase
  refine ⟨_, s, r, hl, hs, hr, hdistance, ?_, hpatient, hcounters⟩
  show (t : Int) ≤ (w.gauged setup s).2.counters.noProgress
  rw [gauged, Epoch.counters_measure]
  cases t with
  | zero =>
      have hnonneg := hlapped.noProgress_nonneg hstart hbegins.goes
      dsimp only
      split <;> omega
  | succ t =>
      obtain ⟨l', s', r', hl', -, hr', hdistance', hcount, -, hcounters'⟩ :=
        noProgress_of_steady (t := t) hstart (fun u hu => hmeasuring u (by omega))
          fun u hu => hsteady u (by omega)
      have hbefore := (before_of_getElem? hl' hl).1
      dsimp only at hbefore
      have hfall := hsteady t (Nat.lt_succ_self t) l' _ r' r hl' hr' hl hr
      rw [gauged, Epoch.counters_measure] at hcounters'
      rw [hdistance, hdistance'] at hfall
      rw [hbefore, hcounters']
      dsimp only
      rw [if_neg hfall]
      rw [gauged, Epoch.counters_measure] at hcount
      dsimp only at hcount
      omega

/-- Too many measuring laps in a row do not come without a fall of the distance. -/
theorem exists_fall {clock : Nat → R} {fuel j : Nat}
    (hstart : start.run.workspace.progress.epoch.counters = .fresh)
    (hpatience : 0 ≤ setup.settings.stallPatience)
    (hmeasuring : ∀ t : Nat, (t : Int) ≤ setup.settings.stallPatience →
      ∃ l, (laps setup clock fuel start)[j + t]? = some l ∧ l.phase? = some .measuring) :
    ∃ (t : Nat) (l l' : Lap R σ) (r r' : Record R), (t : Int) < setup.settings.stallPatience ∧
      (laps setup clock fuel start)[j + t]? = some l ∧ l.record? = some r ∧
      (laps setup clock fuel start)[j + t + 1]? = some l' ∧ l'.record? = some r' ∧
      r'.distance < r.distance - setup.settings.toleranceEpsilon := by
  by_contra hnone
  obtain ⟨l, s, r, -, -, -, -, hcount, hlt, -⟩ :=
    noProgress_of_steady (t := setup.settings.stallPatience.toNat) hstart
      (fun u hu => hmeasuring u (by omega)) fun u hu l l' r r' hl hr hl' hr' hfall =>
        hnone ⟨u, l, l', r, r', by omega, hl, hr, hl', hr', hfall⟩
  omega

end Patience

end World

section Margins

variable {R Key σ : Type} [Arith R] [LinearOrder Key] (o : MarginOrder R Key) {setup : Setup R σ}
  {done : List (Lap R σ)} {l : Lap R σ} {s : Sighting R}

/-- No distance that was measured by the laps in the epoch of lap `k` is below a best one by more
than the tolerance. -/
def WithinMargin (setup : Setup R σ) (laps : List (Lap R σ)) (k : Nat) (best : R) : Prop :=
  Arith.isNaN best = false ∧ ∀ j l s, laps[j]? = some l → l.before.Sees setup s →
    (∀ i l', j ≤ i → i < k → laps[i]? = some l' → l'.phase? ≠ some .restarting) →
    best - setup.settings.toleranceEpsilon ≤ s.distance.value

include o in
/-- A measured distance is taken into the margin. -/
theorem WithinMargin.gauge (hpos : 0 < setup.settings.toleranceEpsilon)
    (heps : Arith.IsFinite setup.settings.toleranceEpsilon)
    (h : WithinMargin setup done done.length l.before.run.workspace.progress.epoch.counters.best)
    (hs : l.before.Sees setup s) (hfinite : Arith.IsFinite s.distance.value) :
    WithinMargin setup (done ++ [l]) done.length (l.before.gauged setup s).2.counters.best := by
  obtain ⟨hbest, hwithin⟩ := h
  have hold : ∀ j l' s', j < done.length → (done ++ [l])[j]? = some l' → l'.before.Sees setup s' →
      (∀ i l'', j ≤ i → i < done.length → (done ++ [l])[i]? = some l'' →
        l''.phase? ≠ some .restarting) →
      l.before.run.workspace.progress.epoch.counters.best - setup.settings.toleranceEpsilon ≤
        s'.distance.value := by
    intro j l' s' hj hl' hs' hepoch
    refine hwithin j l' s' (by rw [← List.getElem?_append_left hj, hl']) hs' ?_
    intro i l'' hi hi' hl''
    exact hepoch i l'' hi hi' (by rw [List.getElem?_append_left hi', hl''])
  have hlast {j : Nat} {l' : Lap R σ} {s' : Sighting R} (hj : ¬ j < done.length)
      (hl' : (done ++ [l])[j]? = some l') (hs' : l'.before.Sees setup s') : s' = s := by
    have hlt := (List.getElem?_eq_some_iff.mp hl').1
    rw [List.length_append, List.length_singleton] at hlt
    obtain rfl : j = done.length := by omega
    rw [List.getElem?_concat_length, Option.some.injEq] at hl'
    subst hl'
    exact hs'.unique hs
  rw [World.gauged, Epoch.counters_measure, WithinMargin]
  dsimp only
  by_cases himproves : s.distance.value <
      l.before.run.workspace.progress.epoch.counters.best - setup.settings.toleranceEpsilon
  · rw [if_pos himproves]
    have hself : s.distance.value - setup.settings.toleranceEpsilon ≤ s.distance.value :=
      o.sub_le (o.le_of_lt hpos) hfinite.1 (o.number_sub hfinite.1 heps)
    refine ⟨hfinite.1, fun j l' s' hl' hs' hepoch => ?_⟩
    by_cases hj : j < done.length
    · have hbelow := o.lt_of_lt_of_le himproves (hold j l' s' hj hl' hs' hepoch)
      exact o.le_trans hself (o.le_of_lt hbelow)
    · rw [hlast hj hl' hs']
      exact hself
  · rw [if_neg himproves]
    refine ⟨hbest, fun j l' s' hl' hs' hepoch => ?_⟩
    by_cases hj : j < done.length
    · exact hold j l' s' hj hl' hs' hepoch
    · rw [hlast hj hl' hs']
      exact o.le_of_not_lt hfinite.1 (o.number_sub hbest heps) himproves

include o in
/-- A decision keeps the margin; a restart begins a new epoch. -/
theorem WithinMargin.decide (heps : Arith.IsFinite setup.settings.toleranceEpsilon)
    {c c' : Counters R} {phase : Phase}
    (h : WithinMargin setup (done ++ [l]) done.length c.best) (hphase : l.phase? = some phase)
    (hd : c.Decided setup.settings phase c') (hgoes : phase ≠ .stalledOut ∧ phase ≠ .converged) :
    WithinMargin setup (done ++ [l]) (done ++ [l]).length c'.best := by
  rw [List.length_append, List.length_singleton]
  have hkeep (hbest : c'.best = c.best) :
      WithinMargin setup (done ++ [l]) (done.length + 1) c'.best := by
    rw [hbest]
    exact ⟨h.1, fun j l' s' hl' hs' hepoch => h.2 j l' s' hl' hs' fun i l'' hi hi' =>
      hepoch i l'' hi (by omega)⟩
  cases phase with
  | init => exact hkeep (congrArg Counters.best hd)
  | measuring => exact hkeep (congrArg Counters.best hd.2)
  | perturbing => exact hkeep (by rw [hd.2])
  | restarting =>
      rw [hd.2]
      refine ⟨o.isNaN_infinity heps, fun j l' s' hl' hs' hepoch => ?_⟩
      have hlt := (List.getElem?_eq_some_iff.mp hl').1
      rw [List.length_append, List.length_singleton] at hlt
      exact absurd hphase (hepoch done.length l (by omega) (by omega) List.getElem?_concat_length)
  | stalledOut => exact absurd rfl hgoes.1
  | converged => exact absurd rfl hgoes.2

include o in
/-- No distance of an epoch is below its best one by more than the tolerance. -/
theorem World.Lapped.withinMargin {start w : World R σ}
    (hpos : 0 < setup.settings.toleranceEpsilon)
    (heps : Arith.IsFinite setup.settings.toleranceEpsilon)
    (hstart : start.run.workspace.progress.epoch.counters = .fresh)
    (h : World.Lapped setup start done w) (goes : w.Goes)
    (hfinite : ∀ l ∈ done, ∀ s, l.before.Sees setup s → Arith.IsFinite s.distance.value) :
    WithinMargin setup done done.length w.run.workspace.progress.epoch.counters.best := by
  induction h with
  | start =>
      rw [hstart]
      exact ⟨o.isNaN_infinity heps, fun j l s hl => by simp at hl⟩
  | @look done w h looks now ih =>
      rw [(looks.looked goes).workspace]
      exact ih looks.goes hfinite
  | @lap done w h begins now ih =>
      obtain ⟨s, g, phase, hs, hd⟩ := begins.decides goes
      have hbefore := ih begins.goes fun l hl => hfinite l (List.mem_append_left _ hl)
      have hgauged := WithinMargin.gauge (l := ⟨w, w.step setup now⟩) o hpos heps hbefore hs
        (hfinite _ (List.mem_append_right _ (List.mem_singleton_self _)) s hs)
      exact hgauged.decide o heps (phase_of_decides hd fun e => goes _) hd.counters
        (hd.phase_of_goes goes)

include o in
/-- The best distance after a measurement keeps its margin to the distances of the epoch. -/
theorem World.margin_of_getElem? {start : World R σ} {clock : Nat → R} {fuel : Nat}
    (hpos : 0 < setup.settings.toleranceEpsilon)
    (heps : Arith.IsFinite setup.settings.toleranceEpsilon)
    (hstart : start.run.workspace.progress.epoch.counters = .fresh)
    (hfinite : ∀ (k : Nat) (l : Lap R σ) s, (World.laps setup clock fuel start)[k]? = some l →
      l.before.Sees setup s → Arith.IsFinite s.distance.value)
    {j k : Nat} {l l' : Lap R σ} {s' : Sighting R} (hj : j ≤ k)
    (hl : (World.laps setup clock fuel start)[j]? = some l)
    (hl' : (World.laps setup clock fuel start)[k]? = some l') (hs : l.before.Sees setup s)
    (hs' : l'.before.Sees setup s')
    (hepoch : ∀ i l'', j ≤ i → i < k → (World.laps setup clock fuel start)[i]? = some l'' →
      l''.phase? ≠ some .restarting) :
    (l'.before.gauged setup s').2.bestDistance - setup.settings.toleranceEpsilon ≤
      s.distance.value := by
  obtain ⟨hlen, hlapped, hbegins, -⟩ := World.lapped_of_getElem? hl'
  have hbefore := hlapped.withinMargin o hpos heps hstart hbegins.goes fun l hl s hs => by
    obtain ⟨i, hi⟩ := List.mem_iff_getElem?.mp (List.mem_of_mem_take hl)
    exact hfinite i l s hi hs
  have htake {i : Nat} (hi : i ≤ k) : ((World.laps setup clock fuel start).take k ++ [l'])[i]? =
      (World.laps setup clock fuel start)[i]? := by
    have hsucc := List.take_add_one (l := World.laps setup clock fuel start) (i := k)
    rw [hl'] at hsucc
    calc ((World.laps setup clock fuel start).take k ++ [l'])[i]?
        = ((World.laps setup clock fuel start).take (k + 1))[i]? := by rw [hsucc]; rfl
      _ = (World.laps setup clock fuel start)[i]? := List.getElem?_take_of_lt (by omega)
  refine (hbefore.gauge o hpos heps hs' (hfinite k l' s' hl' hs')).2 j l s ?_ hs ?_
  · rw [htake hj, hl]
  · intro i l'' hi hi' hl''
    rw [hlen] at hi'
    rw [htake (Nat.le_of_lt hi')] at hl''
    exact hepoch i l'' hi hi' hl''

end Margins

section Runs

/-- The laps perturb, restart and give up on schedule. -/
structure OnSchedule {R σ : Type} [Arith R] (setup : Setup R σ) (laps : List (Lap R σ)) : Prop where
  /-- A lap that sees has a latest improving lap, -/
  latest : ∀ (k : Nat) l s, laps[k]? = some l → l.before.Sees setup s →
    ∃ i, LatestImproving setup laps i k
  /-- since the root improves, and so does the first lap after a restart. -/
  first : ∀ (k : Nat) l s, laps[k]? = some l → l.before.Sees setup s →
    (k = 0 ∨ ∃ l', laps[k - 1]? = some l' ∧ l'.phase? = some .restarting) →
    l.improves setup = true
  /-- A restart, or the end for want of restarts, comes at the ceiling. -/
  restarts : ∀ (k : Nat) l i, laps[k]? = some l →
    l.phase? = some .restarting ∨ l.phase? = some .stalledOut → LatestImproving setup laps i k →
    (Lap.count .perturbing ((laps.take k).drop i) : Int) = setup.settings.stallCeiling
  /-- A perturbation comes below the ceiling. -/
  perturbs : ∀ (k : Nat) l i, laps[k]? = some l → l.phase? = some .perturbing →
    LatestImproving setup laps i k →
    (Lap.count .perturbing ((laps.take k).drop i) : Int) < setup.settings.stallCeiling
  /-- The run ends instead of restarting if all restarts were made. -/
  stallsOut : ∀ (k : Nat) l, laps[k]? = some l →
    l.phase? = some .restarting ∨ l.phase? = some .stalledOut →
    (l.phase? = some .stalledOut ↔
      (Lap.count .restarting (laps.take k) : Int) = setup.settings.maxRestarts)
  /-- Too many measuring laps in a row do not come without a fall of the distance. -/
  falls : ∀ j : Nat, (∀ t : Nat, (t : Int) ≤ setup.settings.stallPatience →
      ∃ l, laps[j + t]? = some l ∧ l.phase? = some .measuring) →
    ∃ (t : Nat) (l l' : Lap R σ) (r r' : Record R), (t : Int) < setup.settings.stallPatience ∧
      laps[j + t]? = some l ∧ l.record? = some r ∧
      laps[j + t + 1]? = some l' ∧ l'.record? = some r' ∧
      r'.distance < r.distance - setup.settings.toleranceEpsilon
  /-- No distance of an epoch is below the best one by more than the tolerance. -/
  margin : ∀ (j k : Nat) l l' s s', j ≤ k → laps[j]? = some l → laps[k]? = some l' →
    l.before.Sees setup s → l'.before.Sees setup s' →
    (∀ i l'', j ≤ i → i < k → laps[i]? = some l'' → l''.phase? ≠ some .restarting) →
    (l'.before.gauged setup s').2.bestDistance - setup.settings.toleranceEpsilon ≤ s.distance.value

variable {R Key σ : Type} [Arith R] [LinearOrder Key] (o : MarginOrder R Key) {setup : Setup R σ}
  {start : World R σ} {clock : Nat → R} {fuel : Nat}

include o in
/-- The laps of a run are on schedule. -/
theorem World.onSchedule (hpos : 0 < setup.settings.toleranceEpsilon)
    (heps : Arith.IsFinite setup.settings.toleranceEpsilon)
    (hceiling : 0 ≤ setup.settings.stallCeiling)
    (hpatience : 0 ≤ setup.settings.stallPatience) (hrestarts : 0 ≤ setup.settings.maxRestarts)
    (hstage : start.run.stage = .opening) (hfresh : start.ledger.Fresh)
    (hepoch : start.run.workspace.progress.epoch.counters = .fresh)
    (hfinite : ∀ (k : Nat) (l : Lap R σ) s, (World.laps setup clock fuel start)[k]? = some l →
      l.before.Sees setup s → Arith.IsFinite s.distance.value) :
    OnSchedule setup (World.laps setup clock fuel start) := by
  have hvalues : ∀ (k : Nat) (l : Lap R σ) s,
      (World.laps setup clock fuel start)[k]? = some l → l.before.Sees setup s →
      s.distance.value < Arith.infinity - setup.settings.toleranceEpsilon :=
    fun k l s hl hs => o.lt_infinity_sub (hfinite k l s hl hs) heps
  exact {
    latest := fun k l s hl hs => by
      obtain ⟨i, latest, -⟩ := World.decided_of_getElem? hepoch hceiling hl hvalues hs
      exact ⟨i, latest⟩
    first := fun k l s hl hs hfirst => by
      rw [Lap.improves_of_sees hs]
      exact Epoch.improves_of_fresh (World.counters_of_first hepoch hl hfirst) (hvalues k l s hl hs)
    restarts := fun k l i hl hphase latest => by
      have hatCeiling : ∃ s, l.before.Sees setup s ∧
          setup.settings.stallCeiling ≤ (l.before.gauged setup s).2.counters.stall := by
        rcases hphase with hphase | hphase
        · obtain ⟨s, hs, hd⟩ := World.decided_of_phase hl hphase
          exact ⟨s, hs, hd.1⟩
        · obtain ⟨s, hs, hd⟩ := World.decided_of_phase hl hphase
          exact ⟨s, hs, hd⟩
      obtain ⟨s, hs, hge⟩ := hatCeiling
      obtain ⟨i', latest', counted, le⟩ :=
        World.decided_of_getElem? hepoch hceiling hl hvalues hs
      rw [latest.unique latest', ← counted]
      exact Int.le_antisymm le hge
    perturbs := fun k l i hl hphase latest => by
      obtain ⟨s, hs, hd⟩ := World.decided_of_phase hl hphase
      obtain ⟨i', latest', counted, -⟩ :=
        World.decided_of_getElem? hepoch hceiling hl hvalues hs
      rw [latest.unique latest', ← counted]
      exact hd.1
    stallsOut := fun k l hl hphase => World.stalledOut_iff hrestarts hstage hfresh hl hphase
    falls := fun j hmeasuring => World.exists_fall hepoch hpatience hmeasuring
    margin := fun j k l l' s s' hj hl hl' hs hs' hcurrent =>
      World.margin_of_getElem? o hpos heps hepoch hfinite hj hl hl' hs hs' hcurrent }

end Runs

namespace PumpTask

/-- The laps of every run under admitted settings are on schedule, if their distances are finite. -/
def EscalatesOnSchedule (R : Type) [Arith R] : Prop :=
  ∀ {σ : Type} {task : PumpTask R σ} {requested : RequestedSettings R} {clock : Nat → R}
    {shared : Shared R} {domain : Domain R} {oracle : σ} {setup : Setup R σ} {run : Run R σ}
    {laps : List (Lap R σ)},
    requested.toSettings = .ok task.settings →
    task.launch (clock (World.enoughSteps task.settings)) domain oracle = .ok (setup, run) →
    laps = World.laps setup clock (World.enoughSteps task.settings) { shared, run } →
    (∀ (k : Nat) (l : Lap R σ) s, laps[k]? = some l → l.before.Sees setup s →
      Arith.IsFinite s.distance.value) →
    (∀ o, (task.run clock shared domain oracle).result = .ok o →
      o.trace = laps.filterMap (·.record?)) ∧
    (∀ (k : Nat) (l : Lap R σ) r, laps[k]? = some l → l.record? = some r → r.iteration = k) ∧
    setup.settings = task.settings ∧ OnSchedule setup laps

/-- An arithmetic with finite margins escalates on schedule. -/
theorem escalatesOnSchedule {R Key : Type} [Arith R] [LinearOrder Key] (o : MarginOrder R Key) :
    EscalatesOnSchedule R := by
  intro σ task requested clock shared domain oracle setup run laps hsettings hlaunch hlaps hfinite
  have hl := launched_of_launch hlaunch
  obtain ⟨hpos, hsmall⟩ := RequestedSettings.toleranceEpsilon_inside hsettings
  have heps := o.finite_of_between hpos hsmall
  have hrestarts := RequestedSettings.maxRestarts_nonneg hsettings
  have hceiling := RequestedSettings.stallCeiling_nonneg hsettings
  have hpatience := RequestedSettings.stallPatience_pos hsettings
  have hepoch : run.workspace.progress.epoch.counters = .fresh := by
    rw [hl.epoch.2]
    rfl
  subst hlaps
  refine ⟨fun o ho => trace_of_laps hlaunch ho,
    fun k l r hk hr => iteration_of_laps hrestarts hlaunch hk hr, hl.settings, ?_⟩
  rw [← hl.settings] at hpos heps hrestarts hceiling hpatience
  exact World.onSchedule o hpos heps hceiling (Int.le_of_lt hpatience) hrestarts hl.start.1
    (hl.fresh shared) hepoch hfinite

/-- **Escalations happen exactly on schedule**, whether numbers are rounded or exact. -/
theorem escalations_on_schedule : EscalatesOnSchedule Float ∧ EscalatesOnSchedule ExtRat :=
  ⟨escalatesOnSchedule Binary64.marginOrder, escalatesOnSchedule ExtRat.marginOrder⟩

/-- The relaxation of the halfway problem stays at one half, and the run has no patience with it. -/
def impatient : PumpTask ExtRat Unit :=
  { halfway with
    name := "impatient"
    settings := { maxRestarts := 1, stallCeiling := 1, randomRestarts := false, maxIterations := 9 }
    oracle := fun _ _ _ => { answer := .ok [.fin (1 / 2)], next := () } }

/-- After the root and after the restart one perturbation is made before the next escalation; the
second one finds no restart left. -/
theorem escalations_on_schedule_impatient :
    ∃ setup run laps, impatient.settings.requested.toSettings = .ok impatient.settings ∧
      impatient.launch (.fin 0) ⟨⟨[.fin 0], [.fin 1]⟩, []⟩ () = .ok (setup, run) ∧
      laps = World.laps setup (fun _ => .fin 0) (World.enoughSteps impatient.settings)
        { shared := ⟨{}, none⟩, run } ∧
      (∀ (k : Nat) (l : Lap ExtRat Unit) s, laps[k]? = some l → l.before.Sees setup s →
        Arith.IsFinite s.distance.value) ∧
      laps.map (·.phase?) = [some .init, some .perturbing, some .restarting, some .measuring,
        some .perturbing, some .stalledOut] ∧
      OnSchedule setup laps := by
  have hsettings : impatient.settings.requested.toSettings = .ok impatient.settings :=
    Settings.toSettings_requested (by decide +kernel)
  obtain ⟨setup, run, laps, hlaunch, hlaps, hall, hphases⟩ : ∃ setup run laps,
      impatient.launch (.fin 0) ⟨⟨[.fin 0], [.fin 1]⟩, []⟩ () = .ok (setup, run) ∧
      laps = World.laps setup (fun _ => .fin 0) (World.enoughSteps impatient.settings)
        { shared := ⟨{}, none⟩, run } ∧
      (laps.all fun l => (l.before.sighting? setup).all fun s =>
        !Arith.isNaN s.distance.value && !Arith.isInf s.distance.value) = true ∧
      laps.map (·.phase?) = [some .init, some .perturbing, some .restarting, some .measuring,
        some .perturbing, some .stalledOut] :=
    ⟨_, _, _, rfl, rfl, by decide +kernel, by decide +kernel⟩
  have hfinite : ∀ (k : Nat) (l : Lap ExtRat Unit) s, laps[k]? = some l → l.before.Sees setup s →
      Arith.IsFinite s.distance.value := by
    intro k l s hl hs
    have hlap := List.all_eq_true.mp hall l (List.mem_of_getElem? hl)
    rw [World.sees_iff.mp hs, Option.all_some, Bool.and_eq_true] at hlap
    exact hlap.imp Bool.not_eq_eq_eq_not.mp Bool.not_eq_eq_eq_not.mp
  obtain ⟨-, -, -, hschedule⟩ := escalations_on_schedule.2 hsettings hlaunch hlaps hfinite
  exact ⟨setup, run, laps, hsettings, hlaunch, hlaps, hfinite, hphases, hschedule⟩

end PumpTask

end MipPump
