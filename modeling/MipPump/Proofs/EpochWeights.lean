import MipPump.Proofs.Laps
import MipPump.Proofs.RoundedProducts

/-!
# The weight of the cost in an epoch

A run begins with the initial weight.  Measuring and perturbing move the weight on, a restart goes
back to the initial one.  So a lap begins with the initial weight moved on once for each lap since the
latest restart, that lap itself and the root apart.

* `LatestRestart laps i k`: lap `i` begins the epoch that lap `k` belongs to.
* `Decides.weighs`: what a decision records and leaves as the weight.
* `Lapped.alpha`: the weight after a number of laps.
* `RequestedSettings.nextAlpha_inside`: the next weight is not negative and not larger, also if it is
  rounded.
* `falling_of_laps`: the weights of a run.
-/

namespace MipPump

section Definitions

variable {R σ : Type}

/-- The weight of the cost. -/
def World.alpha (w : World R σ) : R := w.run.workspace.progress.epoch.alpha

/-- Lap `i` is the latest before lap `k` that restarts, or the root if none does. -/
structure LatestRestart (laps : List (Lap R σ)) (i k : Nat) : Prop where
  lt : i < k
  restarts : i = 0 ∨ ∃ l, laps[i]? = some l ∧ l.phase? = some .restarting
  last : ∀ j l, i < j → j < k → laps[j]? = some l → l.phase? ≠ some .restarting

variable [Arith R]

/-- The weight of the cost after a number of moves in an epoch. -/
def Settings.alphaAfter (s : Settings R) (n : Nat) : R :=
  (s.toOptions.nextAlpha s.alphaSchedule)^[n] s.initialAlpha

/-- What a decision makes of the weight: what it records and what it leaves. -/
def Settings.Weighs (s : Settings R) (alpha : R) : Phase → (recorded left : R) → Prop
  | .measuring, recorded, left =>
      recorded = alpha ∧ left = s.toOptions.nextAlpha s.alphaSchedule alpha
  | .perturbing, recorded, left =>
      recorded = s.toOptions.nextAlpha s.alphaSchedule alpha ∧ left = recorded
  | .restarting, recorded, left => recorded = s.initialAlpha ∧ left = recorded
  | _, recorded, left => recorded = alpha ∧ left = recorded

/-- The weights of laps lie between zero and the initial one, and they only rise where a lap
restarts. -/
structure Falling (initial : R) (laps : List (Lap R σ)) : Prop where
  inside : ∀ (k : Nat) (l : Lap R σ), laps[k]? = some l →
    0 ≤ l.before.alpha ∧ l.before.alpha ≤ initial
  recorded : ∀ (k : Nat) (l : Lap R σ) (r : Record R), laps[k]? = some l → l.record? = some r →
    0 ≤ r.alpha ∧ r.alpha ≤ initial ∧ (r.phase ≠ .restarting → r.alpha ≤ l.before.alpha)
  falls : ∀ (j k : Nat) (l l' : Lap R σ), j ≤ k → laps[j]? = some l → laps[k]? = some l' →
    (∀ (i : Nat) (m : Lap R σ), j ≤ i → i < k → laps[i]? = some m → m.phase? ≠ some .restarting) →
      l'.before.alpha ≤ l.before.alpha

end Definitions

namespace LatestRestart

variable {R σ : Type} {laps : List (Lap R σ)} {l : Lap R σ} {i j k : Nat}

/-- The root is the latest restart before the first iteration. -/
theorem first (laps : List (Lap R σ)) : LatestRestart laps 0 1 :=
  ⟨Nat.zero_lt_one, .inl rfl, fun j _ hj hj' => by omega⟩

/-- A lap that does not restart stays in the epoch. -/
theorem concat (h : LatestRestart laps i laps.length) (hl : l.phase? ≠ some .restarting) :
    LatestRestart (laps ++ [l]) i (laps ++ [l]).length where
  lt := by
    have := h.lt
    simp
    omega
  restarts := h.restarts.imp_right fun ⟨m, hm, hphase⟩ =>
    ⟨m, getElem?_concat_eq_some.mpr (.inl hm), hphase⟩
  last j m hj _ hm := by
    rcases getElem?_concat_eq_some.mp hm with hm | ⟨-, rfl⟩
    · exact h.last j m hj (List.getElem?_eq_some_iff.mp hm).1 hm
    · exact hl

/-- A lap that restarts begins an epoch. -/
theorem restart (hl : l.phase? = some .restarting) :
    LatestRestart (laps ++ [l]) laps.length (laps ++ [l]).length where
  lt := by simp
  restarts := .inr ⟨l, List.getElem?_concat_length, hl⟩
  last j m hj hj' _ := by
    rw [List.length_append, List.length_singleton] at hj'
    omega

/-- Only the laps before the lap matter. -/
theorem of_take (h : LatestRestart (laps.take k) i k) : LatestRestart laps i k where
  lt := h.lt
  restarts := h.restarts.imp_right fun ⟨m, hm, hphase⟩ =>
    ⟨m, by rwa [List.getElem?_take_of_lt h.lt] at hm, hphase⟩
  last j m hj hj' hm := h.last j m hj hj' (by rwa [List.getElem?_take_of_lt hj'])

end LatestRestart

section Decisions

variable {R σ : Type} [Arith R] {setup : Setup R σ} {s : Sighting R} {stage stage' : Stage R}
  {b b' : Ledger R} {phase : Phase}

/-- What a decision records and leaves as the weight of the cost. -/
theorem Decides.weighs (h : Decides setup s stage b stage' b' phase) :
    ∃ r, b'.trace = b.trace ++ [r] ∧
      setup.settings.Weighs b.progress.epoch.alpha phase r.alpha b'.progress.epoch.alpha := by
  cases h with
  | converged _ _ _ _ ledger =>
      exact ⟨_, congrArg Ledger.trace ledger, by rw [ledger]; exact ⟨rfl, rfl⟩⟩
  | rooted _ ledger =>
      refine ⟨_, congrArg Ledger.trace ledger, ?_⟩
      rw [ledger]
      exact ⟨Ledger.alpha_measure _ _ _, rfl⟩
  | accepted _ _ ledger => exact ⟨_, congrArg Ledger.trace ledger, by rw [ledger]; exact ⟨rfl, rfl⟩⟩
  | perturbed _ _ _ move ledger =>
      obtain ⟨⟨g', rfl⟩, -⟩ := Perturber.perturb_eq_ok move
      exact ⟨_, congrArg Ledger.trace ledger, by rw [ledger]; exact ⟨rfl, rfl⟩⟩
  | stalledOut _ _ _ _ ledger =>
      exact ⟨_, congrArg Ledger.trace ledger, by rw [ledger]; exact ⟨rfl, rfl⟩⟩
  | restarted _ _ _ _ move ledger =>
      obtain ⟨⟨g', rfl⟩, -⟩ := Perturber.restart_eq_ok move
      exact ⟨_, congrArg Ledger.trace ledger, by rw [ledger]; exact ⟨rfl, rfl⟩⟩

/-- The root is recorded as such unless the run ends with it. -/
theorem Decides.init_iff (h : Decides setup s stage b stage' b' phase)
    (goes : ∀ result, stage' ≠ .ended result) : phase = .init ↔ stage = .root := by
  cases h with
  | converged _ _ _ _ _ next => exact absurd next (goes _)
  | rooted root => exact ⟨fun _ => root, fun _ => rfl⟩
  | accepted later => exact ⟨nofun, fun root => absurd root later⟩
  | perturbed later => exact ⟨nofun, fun root => absurd root later⟩
  | stalledOut later => exact ⟨nofun, fun root => absurd root later⟩
  | restarted later => exact ⟨nofun, fun root => absurd root later⟩

end Decisions

namespace World

variable {R σ : Type} [Arith R] {setup : Setup R σ} {start w : World R σ}
  {done : List (Lap R σ)}

/-- The weight that a lap records and the one that it leaves. -/
theorem Begins.weighs (h : w.Begins) {now : R} {r : Record R}
    (hr : Lap.record? ⟨w, w.step setup now⟩ = some r) :
    setup.settings.Weighs w.alpha r.phase r.alpha (w.step setup now).alpha := by
  obtain ⟨s, g, -, hd, hafter⟩ := h.decides_of_record hr
  obtain ⟨r', htrace, hweighs⟩ := hd.weighs
  rw [trace_seen] at htrace
  have hsame := List.append_cancel_left (hafter.symm.trans htrace)
  obtain rfl := List.singleton_injective hsame
  rw [alpha_seen] at hweighs
  exact hweighs

/-- A lap that neither restarts nor ends the run leaves the weight as it is at the root, and moves it
on later. -/
theorem Begins.alpha_step (h : w.Begins) {now : R} (goes : (w.step setup now).Goes)
    (hphase : Lap.phase? ⟨w, w.step setup now⟩ ≠ some .restarting) :
    (w.run.stage = .root → (w.step setup now).alpha = w.alpha) ∧
      (w.run.stage ≠ .root → (w.step setup now).alpha =
        setup.settings.toOptions.nextAlpha setup.settings.alphaSchedule w.alpha) := by
  obtain ⟨s, g, phase, -, hd⟩ := h.decides goes
  obtain ⟨hstalled, hconverged⟩ := hd.phase_of_goes goes
  have hinit := hd.init_iff goes
  obtain ⟨r, hr, rfl, -⟩ := record_of_decides hd fun e => goes _
  rw [Lap.phase?, hr, Option.map_some] at hphase
  have hweighs := h.weighs hr
  generalize r.phase = phase at *
  cases phase with
  | init => exact ⟨fun _ => hweighs.2.trans hweighs.1, fun hlater => absurd (hinit.mp rfl) hlater⟩
  | measuring => exact ⟨fun hroot => absurd (hinit.mpr hroot) (by decide), fun _ => hweighs.2⟩
  | perturbing =>
      exact ⟨fun hroot => absurd (hinit.mpr hroot) (by decide),
        fun _ => hweighs.2.trans hweighs.1⟩
  | restarting => exact absurd rfl hphase
  | stalledOut => exact absurd rfl hstalled
  | converged => exact absurd rfl hconverged

/-- Each lap moves the weight of its epoch on by one, and a restart goes back to the first.  The
induction is on the laps that are done. -/
theorem Lapped.alpha (h : Lapped setup start done w) (hstage : start.run.stage = .opening)
    (halpha : start.alpha = setup.settings.initialAlpha) (goes : w.Goes) :
    (done = [] ∧ w.alpha = setup.settings.initialAlpha) ∨
      ∃ i, LatestRestart done i done.length ∧
        w.alpha = setup.settings.alphaAfter (done.length - i - 1) := by
  induction h with
  | start => exact .inl ⟨rfl, halpha⟩
  | @look done w h looks now ih =>
      have hworkspace := (looks.looked goes).workspace
      rw [show (w.step setup now).alpha = w.alpha by rw [World.alpha, World.alpha, hworkspace]]
      exact ih looks.goes
  | @lap done w h begins now ih =>
      right
      by_cases hphase : Lap.phase? ⟨w, w.step setup now⟩ = some .restarting
      · refine ⟨done.length, .restart hphase, ?_⟩
        obtain ⟨r, hr, hrestarting⟩ := Option.map_eq_some_iff.mp hphase
        have hweighs := begins.weighs hr
        rw [hrestarting] at hweighs
        rw [List.length_append, List.length_singleton, Nat.add_sub_cancel_left, Nat.sub_self]
        exact hweighs.2.trans hweighs.1
      · obtain ⟨hroot, hlater⟩ := begins.alpha_step goes hphase
        rcases ih begins.goes with ⟨hnil, hw⟩ | ⟨i, hlatest, hw⟩
        · have hstep : w.run.stage = .root := by
            rcases h.last_target hstage begins.goes with ⟨hopen | hstep, -⟩ | ⟨_, l, _, hdone, -⟩
            · rcases begins with hstep | ⟨target, hstep⟩
              · exact hstep
              · cases hstep.symm.trans hopen
            · exact hstep
            · exact absurd (hnil.symm.trans hdone) (by simp)
          subst hnil
          exact ⟨0, .first _, (hroot hstep).trans hw⟩
        · have hlt := hlatest.lt
          have hstep : w.run.stage ≠ .root := fun hstep => by
            rw [h.eq_nil_of_root hstage hstep] at hlt
            exact absurd hlt (Nat.not_lt_zero i)
          refine ⟨i, hlatest.concat hphase, ?_⟩
          rw [hlater hstep, hw, List.length_append, List.length_singleton,
            show done.length + 1 - i - 1 = (done.length - i - 1) + 1 by omega]
          exact (Function.iterate_succ_apply' _ _ _).symm

end World

section Runs

variable {R σ : Type} [Arith R] {setup : Setup R σ} {start : World R σ} {clock : Nat → R}
  {fuel k : Nat} {l : Lap R σ}

/-- What a lap records and leaves as the weight. -/
theorem World.weighs_of_getElem? (hl : (World.laps setup clock fuel start)[k]? = some l)
    {r : Record R} (hr : l.record? = some r) :
    setup.settings.Weighs l.before.alpha r.phase r.alpha l.after.alpha := by
  obtain ⟨w, next⟩ := l
  obtain ⟨-, -, hbegins, now, hafter⟩ := World.lapped_of_getElem? hl
  dsimp only at hbegins hafter
  subst hafter
  exact hbegins.weighs hr

/-- A lap that is not the last one has left a record. -/
theorem World.exists_record (htrace : start.run.trace = []) {l' : Lap R σ}
    (hl : (World.laps setup clock fuel start)[k]? = some l)
    (hl' : (World.laps setup clock fuel start)[k + 1]? = some l') : ∃ r, l.record? = some r := by
  obtain ⟨-, hlapped, hbegins, -⟩ := World.lapped_of_getElem? hl'
  have hmem : l.record? ∈ l'.before.run.trace.map some :=
    hlapped.map_record htrace hbegins.goes ▸ List.mem_map_of_mem (List.mem_of_getElem? (by
      rw [List.getElem?_take_of_lt (Nat.lt_succ_self k), hl]))
  obtain ⟨r, -, hr⟩ := List.mem_map.mp hmem
  exact ⟨r, hr.symm⟩

end Runs

section Weights

variable {R Key : Type} [Arith R] [LinearOrder Key] (o : ShareOrder R Key) {s : Settings R}
  {requested : RequestedSettings R} {a : R}
include o

/-- The next weight is not negative and not larger. -/
theorem RequestedSettings.nextAlpha_inside (h : requested.toSettings = .ok s) (ha : 0 ≤ a)
    (ha' : a ≤ 1) : 0 ≤ s.toOptions.nextAlpha s.alphaSchedule a ∧
      s.toOptions.nextAlpha s.alphaSchedule a ≤ a := by
  obtain ⟨hzero, hnumber⟩ := o.numbers_of_le ha
  unfold Options.nextAlpha
  cases s.alphaSchedule with
  | geometric =>
      obtain ⟨hnonneg, hle⟩ := RequestedSettings.alphaDecay_inside h
      exact o.share_mul ha ha' hnonneg hle
  | linear =>
      dsimp only
      unfold Arith.larger
      split_ifs with hpos
      · obtain ⟨-, hstep⟩ := o.numbers_of_lt_sub hpos
        have hnonneg := o.le_of_not_lt hstep hzero (RequestedSettings.alphaStep_nonneg h)
        have hsub := (o.numbers_of_le (o.le_of_lt hpos)).2
        exact ⟨o.le_of_lt hpos, o.sub_le hnonneg hnumber hsub⟩
      · exact ⟨o.le_of_number hzero, ha⟩
  | constant => exact ⟨ha, o.le_of_number hnumber⟩

/-- The weights of an epoch lie between zero and the initial one. -/
theorem RequestedSettings.alphaAfter_inside (h : requested.toSettings = .ok s) (n : ℕ) :
    0 ≤ s.alphaAfter n ∧ s.alphaAfter n ≤ s.initialAlpha := by
  obtain ⟨hnonneg, hle⟩ := RequestedSettings.initialAlpha_inside h
  induction n with
  | zero => exact ⟨hnonneg, o.le_of_number (o.numbers_of_le hnonneg).2⟩
  | succ n ih =>
      rw [Settings.alphaAfter, Function.iterate_succ_apply', ← Settings.alphaAfter]
      have hnext := RequestedSettings.nextAlpha_inside o h ih.1 (o.le_trans ih.2 hle)
      exact ⟨hnext.1, o.le_trans hnext.2 ih.2⟩

/-- The recorded weight is not larger than the one before it, and the one that is left is not larger
than the recorded one. -/
theorem Settings.Weighs.inside (h : requested.toSettings = .ok s) (ha : 0 ≤ a) (ha' : a ≤ 1)
    {phase : Phase} {recorded left : R} (hweighs : s.Weighs a phase recorded left)
    (hphase : phase ≠ .restarting) : 0 ≤ recorded ∧ recorded ≤ a ∧ left ≤ recorded := by
  have hnext := RequestedSettings.nextAlpha_inside o h ha ha'
  have hsame {x : R} (hx : 0 ≤ x) : x ≤ x := o.le_of_number (o.numbers_of_le hx).2
  cases phase with
  | measuring =>
      obtain ⟨rfl, rfl⟩ := hweighs
      exact ⟨ha, hsame ha, hnext.2⟩
  | perturbing =>
      obtain ⟨rfl, rfl⟩ := hweighs
      exact ⟨hnext.1, hnext.2, hsame hnext.1⟩
  | restarting => exact absurd rfl hphase
  | init | stalledOut | converged =>
      obtain ⟨rfl, rfl⟩ := hweighs
      exact ⟨ha, hsame ha, hsame ha⟩

variable {σ : Type} {setup : Setup R σ} {start : World R σ} {clock : Nat → R} {fuel : Nat}
  {laps : List (Lap R σ)}

/-- The weights of a run. -/
theorem falling_of_laps (h : requested.toSettings = .ok setup.settings)
    (hstage : start.run.stage = .opening) (htrace : start.run.trace = [])
    (halpha : start.alpha = setup.settings.initialAlpha)
    (hlaps : laps = World.laps setup clock fuel start) :
    Falling setup.settings.initialAlpha laps := by
  subst hlaps
  obtain ⟨hnonneg, hone⟩ := RequestedSettings.initialAlpha_inside h
  have hinitial := RequestedSettings.alphaAfter_inside o h 0
  have hbefore {k : Nat} {l : Lap R σ} (hl : (World.laps setup clock fuel start)[k]? = some l) :
      0 ≤ l.before.alpha ∧ l.before.alpha ≤ setup.settings.initialAlpha := by
    obtain ⟨-, hlapped, hbegins, -⟩ := World.lapped_of_getElem? hl
    rcases hlapped.alpha hstage halpha hbegins.goes with ⟨-, hw⟩ | ⟨i, -, hw⟩
    · rw [hw]
      exact hinitial
    · rw [hw]
      exact RequestedSettings.alphaAfter_inside o h _
  have hweighs {k : Nat} {l : Lap R σ} {r : Record R}
      (hl : (World.laps setup clock fuel start)[k]? = some l) (hr : l.record? = some r)
      (hphase : r.phase ≠ .restarting) :
      0 ≤ r.alpha ∧ r.alpha ≤ l.before.alpha ∧ l.after.alpha ≤ r.alpha :=
    (World.weighs_of_getElem? hl hr).inside o h (hbefore hl).1 (o.le_trans (hbefore hl).2 hone)
      hphase
  refine ⟨fun k l hl => hbefore hl, fun k l r hl hr => ?_, fun j k l l' hjk hl hl' hnone => ?_⟩
  · by_cases hphase : r.phase = .restarting
    · have hrecord := World.weighs_of_getElem? hl hr
      rw [hphase] at hrecord ⊢
      rw [hrecord.1]
      exact ⟨hinitial.1, hinitial.2, fun hother => absurd rfl hother⟩
    · obtain ⟨hr0, hle, -⟩ := hweighs hl hr hphase
      exact ⟨hr0, o.le_trans hle (hbefore hl).2, fun _ => hle⟩
  · -- the induction goes from lap `j` to lap `k`
    induction k, hjk using Nat.le_induction generalizing l' with
    | base =>
        cases hl.symm.trans hl'
        exact o.le_of_number (o.numbers_of_le (hbefore hl).1).2
    | succ k hjk ih =>
        obtain ⟨m, hm⟩ : ∃ m, (World.laps setup clock fuel start)[k]? = some m :=
          ⟨_, List.getElem?_eq_getElem (Nat.lt_of_succ_lt (List.getElem?_eq_some_iff.mp hl').1)⟩
        have hle := ih m hm fun i m' hi hik => hnone i m' hi (Nat.lt_succ_of_lt hik)
        obtain ⟨r, hr⟩ := World.exists_record htrace hm hl'
        have hphase : r.phase ≠ .restarting := fun hphase =>
          hnone k m hjk (Nat.lt_succ_self k) hm (by rw [Lap.phase?, hr, Option.map_some, hphase])
        obtain ⟨-, hrecorded, hleft⟩ := hweighs hm hr hphase
        have hnext : l'.before.alpha = m.after.alpha := by
          rw [World.alpha, World.alpha, (World.before_of_getElem? hm hl').1]
        rw [hnext]
        exact o.le_trans (o.le_trans hleft hrecorded) hle

end Weights

end MipPump
