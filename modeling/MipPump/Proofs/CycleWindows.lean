import Mathlib.Data.List.DropRight
import MipPump.Proofs.Laps

/-!
# The window of the cycle test

A run recognises a candidate that it has met before.  Its history is fed by the root, by accepted and
by perturbed candidates, and a restart clears it.

* `History.contains_performAll`: after any appends and clears, a history finds exactly the marks
  among its last appends since the last clear.
* `Lap.edits`: what a lap does to the history; `Lapped.history_eq`: the history of a run is what its
  laps did to it.
* `InWindow`: the marks that the test must know at a lap.
* `cycles_recognized`: no accepted candidate is recalled by a mark in the window, and a rounding that
  is recalled leads to a perturbation, a restart or the end of the run.
-/

namespace MipPump

section Histories

variable {R : Type}

/-- A change of a history. -/
inductive HistoryEdit (R : Type) where
  | append (m : Mark R)
  | clear

/-- A push keeps the last entries. -/
theorem Recent.push_rtake {α : Type} (n : Nat) (xs : List α) (x : α) :
    (⟨n, xs.rtake n⟩ : Recent α).push x = ⟨n, (xs ++ [x]).rtake n⟩ := by
  simp only [Recent.push, List.rtake, Recent.mk.injEq, true_and]
  rw [← List.drop_append_of_le_length (by omega), List.drop_drop]
  congr 1
  simp only [List.length_drop, List.length_append, List.length_singleton]
  omega

namespace History

/-- Makes a change. -/
def perform (h : History R) : HistoryEdit R → History R
  | .append m => h.push m
  | .clear => h.clear

/-- Makes changes in order. -/
def performAll (h : History R) (edits : List (HistoryEdit R)) : History R := edits.foldl perform h

/-- The marks that were appended since the last clear. -/
def sinceClear (edits : List (HistoryEdit R)) : List (Mark R) :=
  edits.foldl
    (fun marks edit =>
      match edit with
      | .append m => marks ++ [m]
      | .clear => []) []

@[simp] theorem performAll_append (h : History R) (edits more : List (HistoryEdit R)) :
    performAll h (edits ++ more) = performAll (performAll h edits) more := List.foldl_append

theorem sinceClear_append (edits : List (HistoryEdit R)) (m : Mark R) :
    sinceClear (edits ++ [.append m]) = sinceClear edits ++ [m] := by
  simp [sinceClear]

theorem sinceClear_clear (edits : List (HistoryEdit R)) : sinceClear (edits ++ [.clear]) = [] := by
  simp [sinceClear]

/-- A history holds the last marks since the last clear. -/
theorem performAll_eq (n : Nat) (edits : List (HistoryEdit R)) :
    performAll ⟨n, []⟩ edits = ⟨n, (sinceClear edits).rtake n⟩ := by
  induction edits using List.reverseRecOn with
  | nil => simp [performAll, sinceClear]
  | append_singleton edits edit ih =>
      rw [performAll_append, ih]
      cases edit with
      | append m =>
          rw [sinceClear_append]
          exact Recent.push_rtake n _ m
      | clear =>
          rw [sinceClear_clear, List.rtake_nil]
          rfl

/-- One of the last marks since the last clear was appended with fewer than `n` appends and no clear
after it. -/
theorem mem_rtake_sinceClear {n : Nat} {edits : List (HistoryEdit R)} {m : Mark R} :
    m ∈ (sinceClear edits).rtake n ↔ ∃ older newer, edits = older ++ .append m :: newer ∧
      HistoryEdit.clear ∉ newer ∧ newer.length < n := by
  induction edits using List.reverseRecOn generalizing n with
  | nil => simp [sinceClear]
  | append_singleton edits edit ih =>
      constructor
      · intro hm
        cases edit with
        | clear =>
            rw [sinceClear_clear, List.rtake_nil] at hm
            cases hm
        | append m' =>
            cases n with
            | zero =>
                rw [List.rtake_zero] at hm
                cases hm
            | succ n =>
                rw [sinceClear_append, List.rtake_concat_succ, List.mem_append,
                  List.mem_singleton] at hm
                rcases hm with hm | rfl
                · obtain ⟨older, newer, rfl, hclear, hlen⟩ := ih.mp hm
                  exact ⟨older, newer ++ [.append m'], by simp, by simpa using hclear,
                    by simpa using hlen⟩
                · exact ⟨edits, [], rfl, by simp, by simp⟩
      · rintro ⟨older, newer, hedits, hclear, hlen⟩
        rcases List.eq_nil_or_concat' newer with rfl | ⟨newer, last, rfl⟩
        · obtain ⟨rfl, hlast⟩ := List.append_inj' hedits rfl
          cases hlast
          obtain ⟨n, rfl⟩ := Nat.exists_eq_add_of_lt hlen
          simp [sinceClear_append, List.rtake_concat_succ]
        · rw [← List.cons_append, ← List.append_assoc] at hedits
          obtain ⟨rfl, hlast⟩ := List.append_inj' hedits rfl
          cases hlast
          rw [List.mem_append, List.mem_singleton, not_or] at hclear
          rw [List.length_append, List.length_singleton] at hlen
          cases edit with
          | clear => exact absurd rfl hclear.2
          | append m' =>
              obtain ⟨k, rfl⟩ := Nat.exists_eq_succ_of_ne_zero (Nat.ne_zero_of_lt hlen)
              rw [sinceClear_append, List.rtake_concat_succ, List.mem_append]
              exact .inl (ih.mpr ⟨older, newer, rfl, hclear.1, by omega⟩)

variable [Arith R]

/-- **The law of the window.**  After any appends and clears a history of capacity `n` finds a
candidate if one of the last `n` marks since the last clear recalls it, and only then. -/
theorem contains_performAll {n : Nat} {edits : List (HistoryEdit R)} {candidate : List R}
    {alpha tol : R} :
    (performAll ⟨n, []⟩ edits).contains candidate alpha tol = true ↔
      ∃ older m newer, edits = older ++ .append m :: newer ∧ HistoryEdit.clear ∉ newer ∧
        newer.length < n ∧ m.recalls candidate alpha tol = true := by
  rw [performAll_eq]
  unfold contains
  rw [List.any_eq_true]
  constructor
  · rintro ⟨m, hm, hrecalls⟩
    obtain ⟨older, newer, hedits, hclear, hlen⟩ := mem_rtake_sinceClear.mp hm
    exact ⟨older, m, newer, hedits, hclear, hlen, hrecalls⟩
  · rintro ⟨older, m, newer, hedits, hclear, hlen, hrecalls⟩
    exact ⟨m, mem_rtake_sinceClear.mpr ⟨older, newer, hedits, hclear, hlen⟩, hrecalls⟩

end History

end Histories

section Laps

variable {R σ : Type}

namespace Lap

/-- The mark that a lap adds to the history: the target that it chooses, under the weight of its
record. -/
def mark? (l : Lap R σ) : Option (Mark R) :=
  match l.target?, l.record? with
  | some candidate, some r => some { candidate, alpha := r.alpha }
  | _, _ => none

/-- What a lap does to the history: a restart clears it first. -/
def edits (l : Lap R σ) : List (HistoryEdit R) :=
  match l.mark? with
  | none => []
  | some m => if l.phase? = some .restarting then [.clear, .append m] else [.append m]

theorem mark?_of {l : Lap R σ} {candidate : List R} {r : Record R}
    (htarget : l.after.run.stage = .top candidate)
    (htrace : l.after.run.trace = l.before.run.trace ++ [r]) :
    l.mark? = some ⟨candidate, r.alpha⟩ ∧ l.phase? = some r.phase := by
  have hrecord : l.record? = some r := record?_of_trace htrace fun e he => by
    rw [htarget] at he
    cases he
  simp only [mark?, phase?, target?_of_top htarget, hrecord, Option.map_some, and_self]

end Lap

/-- The mark was added by one of the last `size` laps before place `k`, and no lap since then has
begun a new epoch. -/
def InWindow (laps : List (Lap R σ)) (size : Int) (k : Nat) (m : Mark R) : Prop :=
  ∃ j l, j < k ∧ (k : Int) ≤ j + size ∧ laps[j]? = some l ∧ l.mark? = some m ∧
    ∀ i l', j < i → i < k → laps[i]? = some l' → l'.phase? ≠ some .restarting

/-- The window moves on by a lap. -/
theorem inWindow_concat {laps : List (Lap R σ)} {l : Lap R σ} {m₀ m : Mark R} {n : Nat}
    (hmark : l.mark? = some m₀) :
    InWindow (laps ++ [l]) ((n + 1 : Nat) : Int) (laps ++ [l]).length m ↔
      m = m₀ ∨ (l.phase? ≠ some .restarting ∧ InWindow laps n laps.length m) := by
  rw [List.length_append, List.length_singleton]
  constructor
  · rintro ⟨j, l', hj, hsize, hl', hm, hrest⟩
    rcases getElem?_concat_eq_some.mp hl' with hl' | ⟨-, rfl⟩
    · have hj := (List.getElem?_eq_some_iff.mp hl').1
      refine .inr ⟨hrest laps.length l hj (by omega) (by simp), j, l', hj, by omega, hl', hm, ?_⟩
      intro i l'' hij hi hl''
      exact hrest i l'' hij (by omega) (getElem?_concat_eq_some.mpr (.inl hl''))
    · exact .inl (Option.some.inj (hm.symm.trans hmark))
  · rintro (rfl | ⟨hphase, j, l', hj, hsize, hl', hm, hrest⟩)
    · exact ⟨laps.length, l, by omega, by omega, List.getElem?_concat_length, hmark,
        fun i _ hi hi' => by omega⟩
    · refine ⟨j, l', by omega, by omega, getElem?_concat_eq_some.mpr (.inl hl'), hm, ?_⟩
      intro i l'' hij _ hl''
      rcases getElem?_concat_eq_some.mp hl'' with hl'' | ⟨-, rfl⟩
      · exact hrest i l'' hij (List.getElem?_eq_some_iff.mp hl'').1 hl''
      · exact hphase

/-- The last marks since the last clear are those in the window. -/
theorem mem_rtake_iff_inWindow {laps : List (Lap R σ)} {n : Nat} {m : Mark R}
    (hmarks : ∀ l ∈ laps, ∃ m, l.mark? = some m) :
    m ∈ (History.sinceClear (laps.flatMap Lap.edits)).rtake n ↔
      InWindow laps n laps.length m := by
  induction laps using List.reverseRecOn generalizing n with
  | nil => simp [History.sinceClear, InWindow]
  | append_singleton laps l ih =>
      obtain ⟨m₀, hm₀⟩ := hmarks l (by simp)
      cases n with
      | zero =>
          rw [List.rtake_zero]
          refine iff_of_false List.not_mem_nil ?_
          rintro ⟨j, l', hj, hsize, -⟩
          omega
      | succ n =>
          rw [inWindow_concat hm₀, ← ih fun l' hl' => hmarks l' (by simp [hl']),
            List.flatMap_append, List.flatMap_singleton, Lap.edits, hm₀]
          by_cases hphase : l.phase? = some .restarting
          · have hlast : (History.sinceClear (laps.flatMap Lap.edits ++
                [.clear, .append m₀])).rtake (n + 1) = [m₀] := by
              rw [List.append_cons, History.sinceClear_append, History.sinceClear_clear,
                List.rtake_concat_succ, List.rtake_nil, List.nil_append]
            simp [hphase, hlast]
          · simp [hphase, History.sinceClear_append, List.rtake_concat_succ, or_comm]

/-- What lies behind a lap decides its window. -/
theorem inWindow_take {laps : List (Lap R σ)} {size : Int} {k : Nat} {m : Mark R} :
    InWindow (laps.take k) size k m ↔ InWindow laps size k m := by
  have htake {i : Nat} (hi : i < k) : (laps.take k)[i]? = laps[i]? := List.getElem?_take_of_lt hi
  constructor
  · rintro ⟨j, l, hj, hsize, hl, hm, hrest⟩
    exact ⟨j, l, hj, hsize, by rw [← htake hj, hl], hm,
      fun i l' hij hi hl' => hrest i l' hij hi (by rw [htake hi, hl'])⟩
  · rintro ⟨j, l, hj, hsize, hl, hm, hrest⟩
    exact ⟨j, l, hj, hsize, by rw [htake hj, hl], hm,
      fun i l' hij hi hl' => hrest i l' hij hi (by rw [← htake hi, hl'])⟩

variable [Arith R] {setup : Setup R σ} {start w : World R σ} {done : List (Lap R σ)}

/-- A decision that does not end the run puts its choice into the history. -/
theorem Decides.history {s : Sighting R} {stage stage' : Stage R} {b b' : Ledger R}
    {phase : Phase} (h : Decides setup s stage b stage' b' phase) (goes : ∀ result, stage' ≠ .ended result) :
    ∃ c r, stage' = .top c ∧ b'.trace = b.trace ++ [r] ∧
      b'.progress.epoch.history =
        (if r.phase = .restarting then b.progress.epoch.history.clear
          else b.progress.epoch.history).push ⟨c, r.alpha⟩ := by
  cases h with
  | converged _ _ _ _ _ next | stalledOut _ _ _ _ _ next => exact absurd next (goes _)
  | rooted _ ledger next =>
      refine ⟨_, _, next, congrArg Ledger.trace ledger, ?_⟩
      rw [ledger, if_neg (by rintro ⟨⟩)]
      exact congrArg (Recent.push · _) (Ledger.history_measure b _ s.distance)
  | accepted _ _ ledger next =>
      refine ⟨_, _, next, congrArg Ledger.trace ledger, ?_⟩
      rw [ledger, if_neg (by rintro ⟨⟩)]
      rfl
  | perturbed _ _ _ move ledger next =>
      obtain ⟨⟨g, rfl⟩, -⟩ := Perturber.perturb_eq_ok move
      refine ⟨_, _, next, congrArg Ledger.trace ledger, ?_⟩
      rw [ledger, if_neg (by rintro ⟨⟩)]
      rfl
  | restarted _ _ _ _ move ledger next =>
      obtain ⟨⟨g, rfl⟩, -⟩ := Perturber.restart_eq_ok move
      refine ⟨_, _, next, congrArg Ledger.trace ledger, ?_⟩
      rw [ledger, if_pos (Ledger.phase_entry _ _ _ _)]
      rfl

namespace World

/-- A lap that goes on makes its edits of the history. -/
theorem Begins.history_step (h : w.Begins) (now : R) (goes : (w.step setup now).Goes) :
    (w.step setup now).run.workspace.progress.epoch.history =
      History.performAll w.run.workspace.progress.epoch.history
        (Lap.edits ⟨w, w.step setup now⟩) := by
  obtain ⟨s, g, phase, -, hd⟩ := h.decides goes
  obtain ⟨c, r, htarget, htrace, hhistory⟩ := hd.history goes
  rw [trace_seen] at htrace
  rw [history_seen] at hhistory
  obtain ⟨hmark, hphase⟩ := Lap.mark?_of (l := ⟨w, w.step setup now⟩) htarget htrace
  unfold Lap.edits
  rw [hmark, hphase]
  refine hhistory.trans ?_
  by_cases hr : r.phase = .restarting
  · simp only [hr, if_true]
    rfl
  · have hne : some r.phase ≠ some .restarting := fun h => hr (Option.some.inj h)
    simp only [if_neg hr, if_neg hne]
    rfl

/-- The history of a run is what its laps did to it. -/
theorem Lapped.history_eq (h : Lapped setup start done w) (goes : w.Goes) :
    w.run.workspace.progress.epoch.history =
      History.performAll start.run.workspace.progress.epoch.history (done.flatMap Lap.edits) := by
  induction h with
  | start => rfl
  | @look done w h looks now ih => rw [(looks.looked goes).workspace, ih looks.goes]
  | @lap done w h begins now ih =>
      rw [begins.history_step now goes, ih begins.goes, List.flatMap_append,
        History.performAll_append, List.flatMap_singleton]

/-- Each lap of a run that goes on has left a mark. -/
theorem Lapped.exists_mark (h : Lapped setup start done w) (goes : w.Goes) :
    ∀ l ∈ done, ∃ m, l.mark? = some m := by
  induction h with
  | start => simp
  | @look done w h looks now ih => exact ih looks.goes
  | @lap done w h begins now ih =>
      intro l hl
      rcases List.mem_append.mp hl with hl | hl
      · exact ih begins.goes l hl
      · obtain ⟨s, g, phase, -, hd⟩ := begins.decides goes
        obtain ⟨c, r, htarget, htrace, -⟩ := hd.history goes
        rw [trace_seen] at htrace
        obtain rfl := List.mem_singleton.mp hl
        exact ⟨_, (Lap.mark?_of (l := ⟨w, w.step setup now⟩) htarget htrace).1⟩

/-- The cycle test knows exactly the marks in the window. -/
theorem Lapped.contains_iff (h : Lapped setup start done w) (goes : w.Goes) {size : Nat}
    (hstart : start.run.workspace.progress.epoch.history = ⟨size, []⟩) {candidate : List R}
    {alpha tol : R} :
    w.run.workspace.progress.epoch.history.contains candidate alpha tol = true ↔
      ∃ m, InWindow done size done.length m ∧ m.recalls candidate alpha tol = true := by
  rw [h.history_eq goes, hstart, History.performAll_eq, History.contains, List.any_eq_true]
  exact exists_congr fun m => and_congr_left fun _ => mem_rtake_iff_inWindow (h.exists_mark goes)

/-- The cycle test does not know the candidate that a lap accepts. -/
theorem Begins.not_contains_of_measuring (h : w.Begins) {now : R} {m : Mark R}
    (hphase : Lap.phase? ⟨w, w.step setup now⟩ = some .measuring)
    (hm : Lap.mark? ⟨w, w.step setup now⟩ = some m) :
    w.run.workspace.progress.epoch.history.contains m.candidate m.alpha
      setup.settings.cycleAlphaTolerance = false := by
  obtain ⟨r, hr, hphase⟩ := Option.map_eq_some_iff.mp hphase
  obtain ⟨s, g, -, hd, -⟩ := h.decides_of_record hr
  rw [hphase] at hd
  cases hd with
  | accepted later fresh ledger next =>
      have htrace : (w.step setup now).run.trace = w.run.trace ++ [_] :=
        (congrArg Ledger.trace ledger).trans (congrArg (· ++ [_]) (trace_seen w g s))
      obtain ⟨hm', -⟩ := Lap.mark?_of (l := ⟨w, w.step setup now⟩) next htrace
      obtain rfl := Option.some.inj (hm.symm.trans hm')
      simp only [Sighting.isFresh, Bool.and_eq_true, Bool.not_eq_true', Progress.hasCycled] at fresh
      rw [history_seen] at fresh
      exact fresh.1.2

/-- A lap does not accept a rounding that the cycle test knows. -/
theorem Begins.escalates_of_contains (h : w.Begins) {now : R} {s : Sighting R}
    (hs : w.Sees setup s) (hzero : s.distance.isZero = false) (hstage : w.run.stage ≠ .root)
    (hcontains : w.run.workspace.progress.epoch.history.contains s.candidate
      w.run.workspace.progress.epoch.alpha setup.settings.cycleAlphaTolerance = true)
    (hfault : ∀ e, (w.step setup now).run.stage ≠ .ended (.error e)) :
    ∃ phase, Lap.phase? ⟨w, w.step setup now⟩ = some phase ∧
      (phase = .perturbing ∨ phase = .restarting ∨ phase = .stalledOut) := by
  obtain ⟨g, phase, hd⟩ := h.decides_of_sees hs hfault
  refine ⟨phase, phase_of_decides hd hfault, ?_⟩
  cases hd with
  | converged _ zero => cases hzero.symm.trans zero
  | rooted root => exact absurd root hstage
  | accepted _ fresh => simp [Sighting.isFresh, Progress.hasCycled, hcontains] at fresh
  | perturbed => exact .inl rfl
  | restarted => exact .inr (.inl rfl)
  | stalledOut => exact .inr (.inr rfl)

end World

end Laps

namespace PumpTask

section Runs

variable {R σ : Type} [Arith R] {task : PumpTask R σ} {clock : Nat → R} {shared : Shared R}
  {domain : Domain R} {oracle : σ} {setup : Setup R σ} {run : Run R σ}

/-- **The cycle test is complete over its window.**  In every run:

* the test answers exactly whether a mark in the window recalls the candidate;
* no mark in the window recalls what a measuring lap adds;
* a rounding at a positive distance that is recalled is perturbed, or the run restarts, or it is
  stalled out.

The law behind it: after any appends and clears a history of capacity `n` knows the last `n` marks
since the last clear, and nothing else. -/
theorem cycles_recognized
    (hlaunch : task.launch (clock (World.enoughSteps task.settings)) domain oracle =
      .ok (setup, run)) {laps : List (Lap R σ)}
    (hlaps : laps = World.laps setup clock (World.enoughSteps task.settings) { shared, run }) :
    (∀ o, (task.run clock shared domain oracle).result = .ok o →
      o.trace = laps.filterMap (·.record?)) ∧
    (∀ k l, laps[k]? = some l → ∀ candidate alpha tol,
      l.before.run.workspace.progress.epoch.history.contains candidate alpha tol = true ↔
        ∃ m, InWindow laps task.settings.cycleHistorySize k m ∧
          m.recalls candidate alpha tol = true) ∧
    (∀ k l new, laps[k]? = some l → l.phase? = some .measuring → l.mark? = some new →
      ∀ m, InWindow laps task.settings.cycleHistorySize k m →
        m.recalls new.candidate new.alpha task.settings.cycleAlphaTolerance = false) ∧
    (∀ k l s m, laps[k]? = some l → l.before.Sees setup s → s.distance.isZero = false →
      InWindow laps task.settings.cycleHistorySize k m →
      m.recalls s.candidate l.before.run.workspace.progress.epoch.alpha
        task.settings.cycleAlphaTolerance = true →
      (∃ e, l.after.run.stage = .ended (.error e)) ∨
        ∃ phase, l.phase? = some phase ∧
          (phase = .perturbing ∨ phase = .restarting ∨ phase = .stalledOut)) ∧
    ∀ (n : Nat) (edits : List (HistoryEdit R)) (candidate : List R) (alpha tol : R),
      (History.performAll ⟨n, []⟩ edits).contains candidate alpha tol = true ↔
        ∃ older m newer, edits = older ++ .append m :: newer ∧ HistoryEdit.clear ∉ newer ∧
          newer.length < n ∧ m.recalls candidate alpha tol = true := by
  have hl := launched_of_launch hlaunch
  obtain ⟨hsize, hepoch⟩ := hl.epoch
  obtain ⟨hstage, -, -, -⟩ := hl.start
  have hhistory : run.workspace.progress.epoch.history =
      ⟨task.settings.cycleHistorySize.toNat, []⟩ := by
    rw [hepoch]
    rfl
  have hcontains {k : Nat} {l : Lap R σ} (hk : laps[k]? = some l) {candidate : List R}
      {alpha tol : R} :
      l.before.run.workspace.progress.epoch.history.contains candidate alpha tol = true ↔
        ∃ m, InWindow laps task.settings.cycleHistorySize k m ∧
          m.recalls candidate alpha tol = true := by
    subst hlaps
    obtain ⟨hlen, hlapped, hbegins, -⟩ := World.lapped_of_getElem? hk
    rw [hlapped.contains_iff hbegins.goes hhistory, Int.toNat_of_nonneg hsize, hlen]
    exact exists_congr fun m => and_congr_left fun _ => inWindow_take
  refine ⟨fun o ho => hlaps ▸ trace_of_laps hlaunch ho, fun k l hk _ _ _ => hcontains hk, ?_, ?_,
    fun _ _ _ _ _ => History.contains_performAll⟩
  · rintro k ⟨w, next⟩ new hk hphase hnew m hm
    by_contra hrecalls
    have hknown := (hcontains hk).mpr ⟨m, hm, Bool.of_not_eq_false hrecalls⟩
    subst hlaps
    obtain ⟨-, -, hbegins, now, hafter⟩ := World.lapped_of_getElem? hk
    dsimp only at hbegins hafter hknown
    subst hafter
    have hunknown := hbegins.not_contains_of_measuring hphase hnew
    rw [hl.settings] at hunknown
    cases hunknown.symm.trans hknown
  · rintro k ⟨w, next⟩ s m hk hs hzero hm hrecalls
    have hknown := (hcontains hk).mpr ⟨m, hm, hrecalls⟩
    obtain ⟨j, _, hj, -⟩ := hm
    subst hlaps
    obtain ⟨hlen, hlapped, hbegins, now, hafter⟩ := World.lapped_of_getElem? hk
    dsimp only at hs hbegins hafter hknown hlapped ⊢
    subst hafter
    -- the window of the root is empty
    have hroot : w.run.stage ≠ .root := fun hroot => by
      rw [hlapped.eq_nil_of_root hstage hroot, List.length_nil] at hlen
      omega
    rw [← hl.settings] at hknown
    by_cases hfault : ∃ e, (w.step setup now).run.stage = .ended (.error e)
    · exact .inl hfault
    · exact .inr (hbegins.escalates_of_contains hs hzero hroot hknown (not_exists.mp hfault))

end Runs

/-- The relaxation of the halfway problem stays at one half whatever the goal is. -/
def stuck : PumpTask ExtRat Unit :=
  { halfway with
    name := "stuck"
    settings := { initialAlpha := .fin 1, maxIterations := 2 }
    oracle := fun _ _ _ => { answer := .ok [.fin (1 / 2)], next := () } }

/-- The first iteration meets the candidate of the root again and perturbs it; the second one accepts
it, since the weight of the cost has moved on. -/
theorem cycles_recognized_stuck :
    ∃ setup run laps l₁ l₂ s m new,
      stuck.launch (.fin 0) ⟨⟨[.fin 0], [.fin 1]⟩, []⟩ () = .ok (setup, run) ∧
      laps = World.laps setup (fun _ => .fin 0) (World.enoughSteps stuck.settings)
        { shared := ⟨{}, none⟩, run } ∧
      laps[1]? = some l₁ ∧ l₁.before.Sees setup s ∧ s.distance.isZero = false ∧
      InWindow laps stuck.settings.cycleHistorySize 1 m ∧
      m.recalls s.candidate l₁.before.run.workspace.progress.epoch.alpha
        stuck.settings.cycleAlphaTolerance = true ∧
      (∃ phase, l₁.phase? = some phase ∧
        (phase = .perturbing ∨ phase = .restarting ∨ phase = .stalledOut)) ∧
      laps[2]? = some l₂ ∧ l₂.phase? = some .measuring ∧ l₂.mark? = some new ∧
      InWindow laps stuck.settings.cycleHistorySize 2 m ∧
      m.recalls new.candidate new.alpha stuck.settings.cycleAlphaTolerance = false := by
  obtain ⟨setup, run, laps, hlaunch, hlaps, hsees, hmarks⟩ : ∃ setup run laps,
      stuck.launch (.fin 0) ⟨⟨[.fin 0], [.fin 1]⟩, []⟩ () = .ok (setup, run) ∧
      laps = World.laps setup (fun _ => .fin 0) (World.enoughSteps stuck.settings)
        { shared := ⟨{}, none⟩, run } ∧
      (laps[1]?.bind fun l => (l.before.sighting? setup).map fun s =>
        (s.distance.isZero, s.candidate, l.before.run.workspace.progress.epoch.alpha)) =
          some (false, [.fin 0], .fin 1) ∧
      (laps.map fun l => (l.phase?, l.mark?.map fun m => (m.candidate, m.alpha))) =
        [(some .init, some ([.fin 0], .fin 1)), (some .perturbing, some ([.fin 1], .fin (9 / 10))),
          (some .measuring, some ([.fin 0], .fin (9 / 10)))] :=
    ⟨_, _, _, rfl, rfl, by decide +kernel, by decide +kernel⟩
  obtain ⟨-, -, hmeasuring, hescalates, -⟩ :=
    cycles_recognized hlaunch hlaps
  obtain ⟨l₀, rest, rfl, h₀, hrest⟩ := List.map_eq_cons_iff.mp hmarks
  obtain ⟨l₁, rest, rfl, h₁, hrest⟩ := List.map_eq_cons_iff.mp hrest
  obtain ⟨l₂, rest, rfl, h₂, hrest⟩ := List.map_eq_cons_iff.mp hrest
  obtain rfl := List.map_eq_nil_iff.mp hrest
  obtain ⟨s, hs, hseen⟩ := Option.map_eq_some_iff.mp hsees
  rw [Prod.mk.injEq, Option.map_eq_some_iff] at h₀ h₁ h₂
  obtain ⟨-, m, hm, hmark⟩ := h₀
  obtain ⟨hphase₁, -⟩ := h₁
  obtain ⟨hphase₂, new, hnew, -⟩ := h₂
  rw [Prod.mk.injEq] at hmark hseen
  rw [Prod.mk.injEq] at hseen
  obtain ⟨r, hr, -⟩ := Option.map_eq_some_iff.mp hphase₁
  have hwindow₁ : InWindow [l₀, l₁, l₂] stuck.settings.cycleHistorySize 1 m :=
    ⟨0, l₀, Nat.zero_lt_one, by decide, rfl, hm, fun i _ _ _ => by omega⟩
  have hwindow₂ : InWindow [l₀, l₁, l₂] stuck.settings.cycleHistorySize 2 m := by
    refine ⟨0, l₀, Nat.zero_lt_two, by decide, rfl, hm, fun i l' hi hi' hl' => ?_⟩
    obtain rfl : i = 1 := by omega
    cases hl'
    rw [hphase₁]
    rintro ⟨⟩
  have hrecalls : m.recalls s.candidate l₁.before.run.workspace.progress.epoch.alpha
      stuck.settings.cycleAlphaTolerance = true := by
    unfold Mark.recalls
    rw [hmark.1, hmark.2, hseen.2.1, hseen.2.2]
    decide +kernel
  have hsees₁ := World.sees_iff.mpr hs
  exact ⟨setup, run, [l₀, l₁, l₂], l₁, l₂, s, m, new, hlaunch, hlaps, rfl, hsees₁, hseen.1, hwindow₁,
    hrecalls, (hescalates 1 l₁ s m rfl hsees₁ hseen.1 hwindow₁ hrecalls).resolve_left
      fun ⟨e, he⟩ => Lap.ne_error_of_record hr e he, rfl, hphase₂, hnew, hwindow₂,
    hmeasuring 2 l₂ new rfl hphase₂ hnew m hwindow₂⟩

end PumpTask

end MipPump
