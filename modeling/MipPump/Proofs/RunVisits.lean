import MipPump.Proofs.MovedEntries
import MipPump.Proofs.VisitWindows

/-!
# Visits in a run

What happens to the progress of a run is a script that each of its laps adds to.  A lap that perturbs
notes one move, a lap that restarts forgets the moves before it and notes one, and no other lap notes
any.  So the visits of a run are those of its window, at every place of the scripts.

* `Table.Moves`: the positions of different integer variables.
* `Perturber.perturb_moves`, `Perturber.restart_moves`: what a perturbation notes are such positions.
* `Script`: what a lap does to the progress, by the phase that it records.
* `Begins.exists_script`, `Lapped.exists_scripts`: each lap follows a script, and so does a run.
* `visits_windowed`: the visits and the perturbations of a run.
-/

namespace MipPump

section Positions

/-- What is selected from a list stands there in the same order. -/
theorem Vec.sublist_of_select {R α : Type} {mask : List Bool} {xs ys : List α}
    (h : (Vec.select mask xs : Except (Fault R) (List α)) = .ok ys) : ys.Sublist xs := by
  unfold Vec.select at h
  split at h
  · rename_i hlen
    cases h
    have hsublist : (((mask.zip xs).filter (·.1)).map (·.2)).Sublist ((mask.zip xs).map (·.2)) :=
      List.filter_sublist.map _
    rwa [List.map_snd_zip hlen.ge] at hsublist
  · cases h

variable {R : Type} [Arith R] {vars : List (Variable R)} {t : Table R}

/-- Positions of integer variables; they are different if the indices of the variables are. -/
structure Table.Moves (t : Table R) (positions : List Int) : Prop where
  inRange : ∀ i ∈ positions, Vec.InRange t.numIntegers i
  nodup : t.Distinct → positions.Nodup

/-- The position of an integer variable is one of as many as there are integer variables. -/
theorem Table.Lists.inRange_position (h : t.Lists vars) {j i : Int} (hj : j ∈ t.integers)
    (hi : Vec.at? t.position j = some i) : Vec.InRange t.numIntegers i := by
  obtain ⟨k, hk, hentry⟩ := Vec.at?_eq_some.mp hi
  rw [Vec.length_of_placeAll h.position] at hk
  rcases Vec.getElem?_placeAll h.position hentry with ⟨-, hunwritten⟩ | ⟨w, hw, -, rfl⟩
  · obtain ⟨m, hm⟩ := List.mem_iff_getElem?.mp hj
    have hplace : (j, m) ∈ t.integers.zipIdx := List.mk_mem_zipIdx_iff_getElem?.mpr hm
    exact absurd hk (hunwritten _ (List.mem_map_of_mem hplace))
  · obtain ⟨⟨j', m⟩, hm, rfl⟩ := List.mem_map.mp hw
    have hm := List.mk_mem_zipIdx_iff_getElem?.mp hm
    exact ⟨m, rfl, (List.getElem?_eq_some_iff.mp hm).1⟩

/-- Each of the integer variables has a position of its own. -/
theorem Table.Lists.moves_of_pick (h : t.Lists vars) {selected positions : List Int}
    (hselected : selected.Subperm t.integers)
    (hpositions : (Vec.pick t.position selected : Except (Fault R) (List Int)) = .ok positions) :
    t.Moves positions := by
  have hplaced : List.Forall₂ (fun j i => j ∈ t.integers ∧ Vec.at? t.position j = some i) selected
      positions :=
    (List.forall₂_and_left _ _).mpr ⟨fun j hj => hselected.subset hj, Vec.pick_eq_ok.mp hpositions⟩
  refine ⟨fun i hi => ?_, fun hdistinct => ?_⟩
  · obtain ⟨j, -, hj, hji⟩ := Vec.exists_of_mem_left hplaced.flip hi
    exact h.inRange_position hj hji
  · refine Perturber.nodup_of_forall₂ hplaced ?_ ?_
    · rintro j j' i ⟨hj, hji⟩ ⟨hj', hji'⟩
      obtain ⟨m, hm⟩ := List.mem_iff_getElem?.mp hj
      obtain ⟨m', hm'⟩ := List.mem_iff_getElem?.mp hj'
      have hi := hji.symm.trans (h.at?_position hdistinct hm)
      have hi' := hji'.symm.trans (h.at?_position hdistinct hm')
      obtain rfl : m = m' := Int.ofNat.inj (Option.some.inj (hi.symm.trans hi'))
      exact Option.some.inj (hm.symm.trans hm')
    · obtain ⟨order, hperm, hsublist⟩ := hselected
      exact hperm.nodup_iff.mp (hdistinct.nodup.sublist hsublist)

end Positions

namespace Perturber

variable {R : Type} [Arith R] {s : Settings R} {t : Table R} {ranker : Ranker R}
  {point candidate : List R} {m : Perturbed R} {p q : Progress R} {vars : List (Variable R)}

omit [Arith R] in
theorem subperm_take {order : List Int} (h : order.Perm t.integers) (count : Nat) :
    (order.take count).Subperm t.integers :=
  (List.take_sublist count order).subperm.trans h.subperm

theorem sublist_of_displaced {far : List Int}
    (h : displaced t point candidate p = .ok far q) : far.Sublist t.integers := by
  unfold displaced at h
  obtain ⟨values, _, -, h⟩ := Act.bind_eq_ok.mp h
  obtain ⟨gaps, _, -, h⟩ := Act.bind_eq_ok.mp h
  obtain ⟨draws, _, -, h⟩ := Act.bind_eq_ok.mp h
  obtain ⟨hselect, -⟩ := Act.ofExcept_eq_ok.mp h
  exact Vec.sublist_of_select hselect

theorem moves_of_flip (h : t.Lists vars) {selected : List Int}
    (hselected : selected.Subperm t.integers)
    (hflip : flip s t point candidate selected p = .ok m q) : t.Moves m.positions := by
  obtain ⟨-, -, -, -, -, -, -, hpositions, -⟩ := flip_eq_ok hflip
  exact h.moves_of_pick hselected hpositions

/-- A perturbation moves different integer variables. -/
theorem perturb_moves (h : t.Lists vars)
    (hperturb : perturb s t ranker point candidate p = .ok m q) : t.Moves m.positions := by
  unfold perturb at hperturb
  obtain ⟨count, _, -, hperturb⟩ := Act.bind_eq_ok.mp hperturb
  obtain ⟨order, _, horder, hflip⟩ := Act.bind_eq_ok.mp hperturb
  exact moves_of_flip h (subperm_take (Ranker.perm_of_rank horder) _) hflip

theorem restartTop_moves (h : t.Lists vars)
    (hrestart : restartTop s t ranker point candidate p = .ok m q) : t.Moves m.positions := by
  unfold restartTop at hrestart
  obtain ⟨count, _, -, hrestart⟩ := Act.bind_eq_ok.mp hrestart
  obtain ⟨order, _, horder, hflip⟩ := Act.bind_eq_ok.mp hrestart
  exact moves_of_flip h (subperm_take (Ranker.perm_of_rank horder) _) hflip

/-- So does the perturbation of a restart. -/
theorem restart_moves (h : t.Lists vars)
    (hrestart : restart s t ranker point candidate p = .ok m q) : t.Moves m.positions := by
  unfold restart at hrestart
  split at hrestart
  · obtain ⟨far, _, hfar, hrestart⟩ := Act.bind_eq_ok.mp hrestart
    split at hrestart
    · exact restartTop_moves h hrestart
    · exact moves_of_flip h (sublist_of_displaced hfar).subperm hrestart
  · exact restartTop_moves h hrestart

end Perturber

section Scripts

variable {R : Type}

open ProgressEdit in
/-- What a lap does to the progress, in this order, by the phase that it records.  The root measures
its rounding after it was tried as a solution, every later lap before that. -/
inductive Script : Option Phase → List (ProgressEdit R) → Prop
  | rootRefused : Script none []
  | refused : Script none [countIteration]
  | rootConverged {g : Random.Generator} : Script (some .converged) [draw g]
  | rooted {g : Random.Generator} {value eps : R} {candidate : List R} :
      Script (some .init) [draw g, measure value eps, remember candidate]
  | converged {g : Random.Generator} {value eps : R} :
      Script (some .converged) [countIteration, draw g, measure value eps]
  | accepted {g : Random.Generator} {value eps : R} {candidate : List R} :
      Script (some .measuring)
        [countIteration, draw g, measure value eps, remember candidate, advanceAlpha]
  | perturbed {g g' : Random.Generator} {value eps : R} {positions : List Int}
      {candidate : List R} :
      Script (some .perturbing)
        [countIteration, draw g, measure value eps, countStall, draw g', note positions,
          advanceAlpha, remember candidate]
  | stalledOut {g : Random.Generator} {value eps : R} :
      Script (some .stalledOut) [countIteration, draw g, measure value eps, countStall]
  | restarted {g g' : Random.Generator} {value eps : R} {positions : List Int}
      {candidate : List R} :
      Script (some .restarting)
        [countIteration, draw g, measure value eps, countStall, countRestart, reset, draw g',
          note positions, remember candidate]

/-- The records that a lap has added to the trace show its phase. -/
theorem Lap.phase?_of_trace {σ : Type} {l : Lap R σ} {rs : List (Record R)} {phase? : Option Phase}
    (htrace : l.after.run.trace = l.before.run.trace ++ rs)
    (hphase : rs.map (·.phase) = phase?.toList)
    (hfault : ∀ e, l.after.run.stage ≠ .ended (.error e)) : l.phase? = phase? := by
  cases phase? with
  | none =>
      obtain rfl := List.map_eq_nil_iff.mp hphase
      simp [Lap.phase?, record?_of_same (htrace.trans (List.append_nil _))]
  | some phase =>
      obtain ⟨r, rest, rfl, rfl, hrest⟩ := List.map_eq_cons_iff.mp hphase
      obtain rfl := List.map_eq_nil_iff.mp hrest
      simp [Lap.phase?, record?_of_trace htrace hfault]

variable [Arith R] {σ : Type} {setup : Setup R σ} {start w : World R σ} {done : List (Lap R σ)}
  {vars : List (Variable R)}

open ProgressEdit in
/-- A transition of a lap follows a script. -/
theorem Transition.exists_script (h : setup.table.Lists vars) {env : Surroundings R σ}
    {stage stage' : Stage R} {a a' : Ledger R} (ht : Transition setup env stage a stage' a')
    (hstage : stage = .root ∨ ∃ target, stage = .projecting target) :
    ∃ phase? script rs, Script phase? script ∧
      a'.progress = a.progress.performAll setup.settings script ∧
      a'.trace = a.trace ++ rs ∧ rs.map (·.phase) = phase?.toList ∧
      ∀ positions ∈ notes script, setup.table.Moves positions := by
  cases ht with
  | notAllowed | notStarted | opened | exhausted | stopped | resumed | stays => simp at hstage
  | rootFailed => exact ⟨_, _, [], .rootRefused, rfl, by simp, rfl, nofun⟩
  | failed => exact ⟨_, _, [], .refused, rfl, by simp, rfl, nofun⟩
  | rootConverged _ _ _ _ hb =>
      subst hb
      exact ⟨_, _, _, .rootConverged, rfl, rfl, rfl, nofun⟩
  | rootRounded => exact ⟨_, _, _, .rooted, rfl, rfl, rfl, nofun⟩
  | converged _ _ _ _ _ hb =>
      subst hb
      exact ⟨_, _, _, .converged, rfl, rfl, rfl, nofun⟩
  | accepted _ _ hb =>
      subst hb
      exact ⟨_, _, _, .accepted, rfl, rfl, rfl, nofun⟩
  | stalledOut _ _ hb =>
      subst hb
      exact ⟨_, _, _, .stalledOut, rfl, rfl, rfl, nofun⟩
  | perturbed _ _ hb _ move =>
      subst hb
      obtain ⟨⟨g, rfl⟩, -⟩ := Perturber.perturb_eq_ok move
      refine ⟨_, _, _, .perturbed, rfl, rfl, rfl, fun positions hpositions => ?_⟩
      obtain rfl := List.mem_singleton.mp hpositions
      exact Perturber.perturb_moves h move
  | restarted _ _ hb _ _ move =>
      subst hb
      obtain ⟨⟨g, rfl⟩, -⟩ := Perturber.restart_eq_ok move
      refine ⟨_, _, _, .restarted, rfl, rfl, rfl, fun positions hpositions => ?_⟩
      obtain rfl := List.mem_singleton.mp hpositions
      exact Perturber.restart_moves h move

namespace World

open ProgressEdit in
/-- A lap that does not stop with a fault follows the script of its phase. -/
theorem Begins.exists_script (h : setup.table.Lists vars) (begins : w.Begins) {now : R}
    (hfault : ∀ e, (w.step setup now).run.stage ≠ .ended (.error e)) :
    ∃ script, Script (Lap.phase? ⟨w, w.step setup now⟩) script ∧
      (w.step setup now).run.workspace.progress =
        w.run.workspace.progress.performAll setup.settings script ∧
      ∀ positions ∈ notes script, setup.table.Moves positions := by
  have ht := (step_transition setup now w).resolve_left fun ⟨e, he⟩ => hfault e he
  obtain ⟨phase?, script, rs, hscript, hprogress, htrace, hphase, hmoves⟩ :=
    ht.exists_script h begins
  refine ⟨script, ?_, hprogress, hmoves⟩
  rwa [Lap.phase?_of_trace (l := ⟨w, w.step setup now⟩) htrace hphase hfault]

open ProgressEdit in
/-- The laps of a run follow their scripts, one after the other. -/
theorem Lapped.exists_scripts (h : setup.table.Lists vars) (hlapped : Lapped setup start done w)
    (hfault : ∀ e, w.run.stage ≠ .ended (.error e)) :
    ∃ scripts, List.Forall₂ (fun l script => Script (Lap.phase? l) script) done scripts ∧
      w.run.workspace.progress =
        start.run.workspace.progress.performAll setup.settings scripts.flatten ∧
      ∀ positions ∈ notes scripts.flatten, setup.table.Moves positions := by
  induction hlapped with
  | start => exact ⟨[], .nil, rfl, nofun⟩
  | @look done w hlapped looks now ih =>
      obtain ⟨scripts, hscripts, hprogress, hmoves⟩ := ih fun e he => looks.goes _ he
      have hledger := (looks.ledger_step setup now).resolve_left fun ⟨e, he⟩ => hfault e he
      exact ⟨scripts, hscripts, (congrArg Ledger.progress hledger).trans hprogress, hmoves⟩
  | @lap done w hlapped begins now ih =>
      obtain ⟨scripts, hscripts, hprogress, hmoves⟩ := ih fun e he => begins.goes _ he
      obtain ⟨script, hscript, hstep, hlast⟩ := begins.exists_script h hfault
      refine ⟨scripts ++ [script], List.rel_append hscripts (.cons hscript .nil), ?_, ?_⟩
      · rw [hstep, hprogress, List.flatten_append, Progress.performAll_append]
        simp
      · intro positions hpositions
        simp only [List.flatten_append, List.flatten_singleton, notes_append, List.mem_append]
          at hpositions
        exact hpositions.elim (hmoves positions) (hlast positions)

end World

end Scripts

namespace PumpTask

section Runs

open ProgressEdit Progress

variable {R σ : Type} [Arith R] {task : PumpTask R σ} {started : R} {shared : Shared R}
  {domain : Domain R} {oracle : σ} {setup : Setup R σ} {run : Run R σ}

/-- **The visits of a run are those of a window.**  A run that has not stopped with a fault has
followed the scripts of its laps, and at every place of them

* the visits of a position are its moves among the last notes since the last reset, as many as the
  history has places for;
* all notes of the run are counted as perturbations.

Each note lists different positions of integer variables, so no position has more visits than the
history has places.  The law behind it: any sequence of changes leaves such counts. -/
theorem visits_windowed (hlaunch : task.launch started domain oracle = .ok (setup, run))
    {laps : List (Lap R σ)} {w : World R σ}
    (hlapped : World.Lapped setup { shared, run } laps w)
    (hfault : ∀ e, w.run.stage ≠ .ended (.error e)) :
    (∃ scripts, List.Forall₂ (fun l script => Script (Lap.phase? l) script) laps scripts ∧
      w.run.workspace.progress =
        run.workspace.progress.performAll task.settings scripts.flatten ∧
      (∀ positions ∈ notes scripts.flatten, setup.table.Moves positions) ∧
      ∀ edits, edits <+: scripts.flatten →
        (run.workspace.progress.performAll task.settings edits).Windowed setup.table.numIntegers
          task.settings.cycleHistorySize.toNat edits ∧
        (setup.table.Distinct → ∀ k, hits setup.table.numIntegers k
          (window task.settings.cycleHistorySize.toNat edits).flatten ≤
            task.settings.cycleHistorySize.toNat)) ∧
    ∀ (s : Settings R) (n : Nat) (p : Progress R) (edits : List (ProgressEdit R)),
      Progress.start s n = .ok p →
      (∀ positions ∈ notes edits, ∀ i ∈ positions, ∃ j, Vec.position? n i = some j) →
      (p.performAll s edits).Windowed n s.cycleHistorySize.toNat edits := by
  have hl := launched_of_launch hlaunch
  obtain ⟨scripts, hscripts, hprogress, hmoves⟩ := hlapped.exists_scripts hl.table hfault
  rw [hl.settings] at hprogress
  refine ⟨⟨scripts, hscripts, hprogress, hmoves, ?_⟩, fun s n p edits hstart hnotes =>
    (unmoved_of_start hstart).windowed hnotes⟩
  rintro edits ⟨rest, hrest⟩
  have hedits : ∀ positions ∈ notes edits, setup.table.Moves positions := fun positions hpositions =>
    hmoves positions (by rw [← hrest, notes_append]; exact List.mem_append_left _ hpositions)
  refine ⟨(unmoved_of_start hl.progress).windowed fun positions hpositions i hi =>
    ((hedits positions hpositions).inRange i hi).exists_position?, fun hdistinct k => ?_⟩
  refine (hits_flatten_le (fun positions hpositions => ?_) k).trans (length_window_le _ edits)
  have hnote := hedits positions (mem_notes_of_mem_window hpositions)
  exact ⟨hnote.inRange, hnote.nodup hdistinct⟩

end Runs

open ProgressEdit in
/-- The stuck run perturbs once, and afterwards its variable counts one visit. -/
theorem visits_windowed_stuck :
    ∃ setup run laps w scripts,
      stuck.launch (.fin 0) ⟨⟨[.fin 0], [.fin 1]⟩, []⟩ () = .ok (setup, run) ∧
      World.Lapped setup { shared := ⟨{}, none⟩, run } laps w ∧
      (∀ e, w.run.stage ≠ .ended (.error e)) ∧ setup.table.Distinct ∧
      List.Forall₂ (fun l script => Script (Lap.phase? l) script) laps scripts ∧
      w.run.workspace.progress =
        run.workspace.progress.performAll stuck.settings scripts.flatten ∧
      w.run.workspace.progress.Windowed setup.table.numIntegers
        stuck.settings.cycleHistorySize.toNat scripts.flatten ∧
      (∀ k, hits setup.table.numIntegers k
        (window stuck.settings.cycleHistorySize.toNat scripts.flatten).flatten ≤
          stuck.settings.cycleHistorySize.toNat) ∧
      w.run.workspace.progress.perturbations = 1 ∧
      w.run.workspace.progress.visitCounts.toOption = some [.fin 1] := by
  obtain ⟨setup, run, hlaunch, hgood, hperturbations, hvisits⟩ : ∃ setup run,
      stuck.launch (.fin 0) ⟨⟨[.fin 0], [.fin 1]⟩, []⟩ () = .ok (setup, run) ∧
      (let w := World.advance setup (fun _ => .fin 0) (World.enoughSteps stuck.settings)
        { shared := ⟨{}, none⟩, run }
      (report w).result.isOk = true ∧
        w.run.workspace.progress.perturbations = 1 ∧
        w.run.workspace.progress.visitCounts.toOption = some [.fin 1]) :=
    ⟨_, _, rfl, by decide +kernel⟩
  have hlapped := World.lapped_advance setup (fun _ => .fin 0) (World.enoughSteps stuck.settings)
    { shared := ⟨{}, none⟩, run }
  have hfault : ∀ e, (World.advance setup (fun _ => .fin 0) (World.enoughSteps stuck.settings)
      { shared := ⟨{}, none⟩, run }).run.stage ≠ .ended (.error e) := by
    intro e he
    obtain ⟨o, ho⟩ := Act.exists_ok_of_isOk hgood
    rw [report_eq_ok.mp ho] at he
    cases he
  have hdistinct := (launched_of_launch hlaunch).table.distinct (rfl : InOrder stuck.problem.vars)
  obtain ⟨⟨scripts, hscripts, hprogress, -, hevery⟩, -⟩ := visits_windowed hlaunch hlapped hfault
  obtain ⟨hwindowed, hbound⟩ := hevery scripts.flatten (List.prefix_refl _)
  rw [← hprogress] at hwindowed
  exact ⟨setup, run, _, _, scripts, hlaunch, hlapped, hfault, hdistinct, hscripts, hprogress,
    hwindowed, hbound hdistinct, hperturbations, hvisits⟩

end PumpTask

end MipPump
