import MipPump.Proofs.CheckedTargets
import MipPump.Proofs.EpochWeights
import MipPump.Proofs.Replays

/-!
# What a run asks its oracle

The oracle of a run keeps a log, which the run does not notice.  Each lap begins with one solve: the
root asks for the cost of the problem, every other lap for a projection onto the candidate that the
lap before it has chosen.  After that a lap asks at most once more: if a rounding at distance zero is
not feasible, it asks for the cost with the integer variables fixed.

* `Grows P act w`: the log after an action from `w` is that of `w` with a list in `P` at its end.
* `Poses.exists_log`: the log of a lap; `Lapped.log` is that of a run.
* `calls_of_laps`: the questions of each lap of a run.
* `Completes.bounds`: a completion fixes the integer variables to the candidate.
* `SolvesInOrder`: the questions of a run, in every arithmetic; `SolvesInBounds`: how they keep to the
  problem and to the settings, in floating point and in exact arithmetic.
* `solves_follow_protocol`: the arguments of all solves of a run.
* `solves_out_of_bounds`: what becomes of them after an infinite answer, and with a negative index.
-/

namespace MipPump

section Definitions

variable {R σ : Type}

/-- What the oracle of a world was asked. -/
def World.log (w : World R (Logged R σ)) : List (Question R) := w.run.oracle.2

/-- The bounds in force. -/
def World.box (w : World R σ) : Box R := w.run.workspace.domain.box

/-- What a lap asks the oracle. -/
def Lap.calls (l : Lap R (Logged R σ)) : List (Question R) :=
  l.after.log.drop l.before.log.length

variable [Arith R]

/-- The oracle of the setup keeps a log. -/
def Setup.Records (setup : Setup R (Logged R σ)) : Prop :=
  ∃ oracle : Oracle R σ, setup.oracle = oracle.recording

/-- The action leaves the oracle alone. -/
def World.Quiet {α : Type} (act : Act R (World R σ) α) : Prop :=
  ∀ w, (act.after w).run.oracle = w.run.oracle

/-- After the action the log has grown by a list in `P`. -/
def World.Grows {α : Type} (P : List (Question R) → Prop)
    (act : Act R (World R (Logged R σ)) α) (w : World R (Logged R σ)) : Prop :=
  ∃ extra, P extra ∧ (act.after w).log = w.log ++ extra

/-- The candidate that an iteration chooses after its sighting: the rounding at the root or where it
is accepted, a perturbation of it otherwise. -/
inductive Sighting.Chooses (setup : Setup R σ) (s : Sighting R) : Phase → List R → Prop
  | rooted : Chooses setup s .init s.candidate
  | accepted : Chooses setup s .measuring s.candidate
  | perturbed {m : Perturbed R} {p q : Progress R}
      (move : Perturber.perturb setup.settings setup.table setup.ranker s.point s.candidate p =
        .ok m q) : Chooses setup s .perturbing m.candidate
  | restarted {m : Perturbed R} {p q : Progress R}
      (move : Perturber.restart setup.settings setup.table setup.ranker s.point s.candidate p =
        .ok m q) : Chooses setup s .restarting m.candidate

/-- The first question of each lap: the cost of the problem at the root, and for an iteration the
projection onto the candidate that the lap before it has recorded and left. -/
inductive Aims (setup : Setup R σ) (laps : List (Lap R σ)) : Nat → Goal R → Prop
  | root : Aims setup laps 0 (Goal.ofCost setup.table)
  | projection {k i : Nat} {l : Lap R σ} {s : Sighting R} {phase : Phase} {target : List R}
      {goal : Goal R} (latest : LatestRestart laps i (k + 1)) (before : laps[k]? = some l)
      (sees : l.before.Sees setup s) (recorded : l.phase? = some phase)
      (chosen : s.Chooses setup phase target) (left : l.target? = some target)
      (project : Goal.projection setup.table (setup.settings.alphaAfter (k - i)) target = .ok goal) :
      Aims setup laps (k + 1) goal

/-- The box is another one with the integer variables fixed to a candidate. -/
def Box.Fixed (t : Table R) (candidate : List R) (box : Box R) : Prop :=
  ∃ base : Box R, t.fullPoint base.lb candidate = .ok box.lb ∧
    t.fullPoint base.ub candidate = .ok box.ub

/-- The bounds of the integer variables are the entries of a candidate. -/
def Box.FixedAt (t : Table R) (candidate : List R) (box : Box R) : Prop :=
  ∀ w ∈ t.integers.zip candidate, ∃ lower upper, Vec.at? box.lb w.1 = some lower ∧
    Vec.at? box.ub w.1 = some upper ∧ (lower == w.2) = true ∧ (upper == w.2) = true

/-- A rounding at distance zero that is not feasible is completed: the question after the sighting
asks for the cost of the problem with the integer variables fixed. -/
structure Completes (setup : Setup R σ) (s : Sighting R) (call : Question R) : Prop where
  ok : s.ok = true
  zero : s.distance.isZero = true
  infeasible : ∃ full, setup.table.fullPoint s.point s.candidate = .ok full ∧
    setup.problem.isFeasible setup.settings.toleranceEpsilon full = .ok false
  others : setup.table.others ≠ []
  goal : call.goal = Goal.ofCost setup.table
  fixed : call.box.Fixed setup.table s.candidate

/-- What a lap asks after its first question. -/
def World.Continues (setup : Setup R σ) (w : World R σ) (extra : List (Question R)) : Prop :=
  extra = [] ∨ ∃ s call, w.Sees setup s ∧ Completes setup s call ∧ extra = [call]

end Definitions

namespace World

open Act

variable {R σ : Type} [Arith R]

section Quietness

variable {α β : Type} {act : Act R (World R σ) α}

omit [Arith R] in
theorem quiet_of_keeps (h : ∀ o, Keeps (fun w => w.run.oracle = o) act) : Quiet act :=
  fun _ => h _ _ rfl

omit [Arith R] in
theorem Quiet.keeps (h : Quiet act) (o : σ) : Keeps (fun w => w.run.oracle = o) act :=
  fun w hw => (h w).trans hw

omit [Arith R] in
theorem quiet_onProgress {α : Type} (act : Act R (Progress R) α) :
    Quiet (σ := σ) (onProgress act) :=
  quiet_of_keeps fun _ => keeps_zoom_of_put _ fun _ _ hw => hw

omit [Arith R] in
theorem quiet_print (line : Line R) : Quiet (σ := σ) (print line) := fun _ => rfl

theorem quiet_record (setup : Setup R σ) (now : R) (phase : Phase) (d : Distance R)
    (point : List R) : Quiet (record setup now phase d point) := by
  refine quiet_of_keeps fun o => keeps_get_bind fun w _ => ?_
  refine keeps_bind (keeps_ofExcept _) fun k => keeps_bind (keeps_modify fun _ hw => hw) fun _ => ?_
  exact keeps_ite ((quiet_print _).keeps o) (keeps_pure _)

/-- The parts of a step that do not ask leave the oracle alone. -/
theorem pace_quiet (setup : Setup R σ) (now : R) (o : σ) :
    Pace (fun w v => w = v ∧ w.run.oracle = o) setup setup now now :=
  pace_of_keeps (fun act => (quiet_onProgress act).keeps o) (fun line => (quiet_print line).keeps o)
    fun phase d point => (quiet_record setup now phase d point).keeps o

theorem quiet_round (setup : Setup R σ) (point : List R) : Quiet (World.round setup point) :=
  quiet_of_keeps fun _ => keeps_bind (keeps_zoom_of_put _ fun _ _ hw => hw) fun _ =>
    keeps_bind (keeps_ofExcept _) fun _ => keeps_pure _

theorem quiet_finished_fail (setup : Setup R σ) (reason : FailureReason) :
    Quiet (finished <$> fail setup reason) :=
  quiet_of_keeps fun o => ((pace_quiet setup setup.started o).finished_fail reason).keeps

/-- A step asks what its action asks. -/
theorem oracle_of_step (setup : Setup R σ) (now : R) (w : World R σ) :
    (w.step setup now).run.oracle = ((World.act setup now w.run.stage).after w).run.oracle := by
  rw [step_eq_moveTo]
  rfl

/-- A look at the signal to stop asks nothing. -/
theorem Looks.oracle_step {w : World R σ} (h : w.Looks) (setup : Setup R σ) (now : R) :
    (w.step setup now).run.oracle = w.run.oracle := by
  have hpace := pace_quiet setup now w.run.oracle
  rw [oracle_of_step]
  rcases h with h | ⟨target, h⟩
  · rw [h]
    exact (hpace.openRun fun {w v} hwv => by rw [hwv.1]).keeps w rfl
  · rw [h]
    exact (hpace.pause (fun {w v} hwv => by rw [hwv.1]) target).keeps w rfl

end Quietness

section Growth

variable {α β : Type} {P : List (Question R) → Prop} {w : World R (Logged R σ)}
  {act : Act R (World R (Logged R σ)) α}
  {f : α → Act R (World R (Logged R σ)) β}

omit [Arith R] in
theorem Quiet.grows (h : Quiet act) (hnil : P []) (w : World R (Logged R σ)) :
    Grows P act w := ⟨[], hnil, by rw [List.append_nil, log, log, h w]⟩

omit [Arith R] in
/-- What is quiet may come first. -/
theorem Quiet.grows_bind (h : Quiet act) (hnil : P [])
    (hf : ∀ a v, act w = .ok a v → Grows P (f a) v) : Grows P (act >>= f) w := by
  have hlog : (act.after w).log = w.log := congrArg Prod.snd (h w)
  cases ha : act w with
  | ok a v =>
      obtain ⟨extra, hextra, hv⟩ := hf a v ha
      rw [after_of_ok ha] at hlog
      exact ⟨extra, hextra, by rw [after_bind_of_ok ha, hv, hlog]⟩
  | error e v =>
      rw [after_of_error ha] at hlog
      exact ⟨[], hnil, by rw [after_of_error (bind_of_error ha), hlog, List.append_nil]⟩

omit [Arith R] in
/-- What is quiet may come last. -/
theorem Grows.bind (h : Grows P act w) (hf : ∀ a, Quiet (f a)) : Grows P (act >>= f) w := by
  obtain ⟨extra, hextra, hlog⟩ := h
  refine ⟨extra, hextra, ?_⟩
  rw [← hlog]
  cases ha : act w with
  | ok a v => rw [after_bind_of_ok ha, after_of_ok ha, log, log, hf a v]
  | error e v => rw [after_of_error (bind_of_error ha), after_of_error ha]

omit [Arith R] in
theorem Grows.mono {Q : List (Question R) → Prop} (h : Grows P act w)
    (hPQ : ∀ extra, P extra → Q extra) : Grows Q act w :=
  h.imp fun _ hextra => ⟨hPQ _ hextra.1, hextra.2⟩

end Growth

section Solving

variable {setup : Setup R (Logged R σ)} {w : World R (Logged R σ)}

/-- A question is added to the log. -/
theorem log_ask (h : setup.Records) (box : Box R) (goal : Goal R) (w : World R (Logged R σ)) :
    ((ask setup box goal).after w).log = w.log ++ [⟨box, goal⟩] := by
  obtain ⟨oracle, horacle⟩ := h
  rw [after_ask, horacle]
  rfl

omit [Arith R] in
theorem after_orReason {τ α : Type} (act : Act R τ α) (s : τ) :
    (orReason act).after s = act.after s := by
  cases hs : act s with
  | ok x t => rw [after_of_ok hs, after_of_ok (orReason_of_ok hs)]
  | error e t =>
      rw [after_of_error hs]
      cases hreason : reasonOf e with
      | some reason => rw [after_of_ok (orReason_of_error hs hreason)]
      | none => simp only [after, split, orReason, hs, hreason]

theorem log_solve (h : setup.Records) (goal : Goal R) (w : World R (Logged R σ)) :
    ((solve setup goal).after w).log = w.log ++ [⟨w.box, goal⟩] := by
  unfold solve
  rw [after_bind_of_ok (get_apply w), after_orReason, log_ask h]
  rfl

/-- A lap that asks first asks what comes after that, too. -/
theorem log_solve_bind {α : Type} {P : List (Question R) → Prop} (h : setup.Records) {goal : Goal R}
    {f : Except FailureReason (List R) → Act R (World R (Logged R σ)) α} (hnil : P [])
    (hf : ∀ r, solve setup goal w = .ok r (w.replied (w.reply setup goal)) →
      Grows P (f r) (w.replied (w.reply setup goal))) :
    ∃ extra, P extra ∧ ((solve setup goal >>= f).after w).log = w.log ++ ⟨w.box, goal⟩ :: extra := by
  have hlog := log_solve h goal w
  cases hsolve : solve setup goal w with
  | ok r v =>
      rw [after_of_ok hsolve] at hlog
      obtain rfl := solve_replied hsolve
      obtain ⟨extra, hextra, hv⟩ := hf r hsolve
      exact ⟨extra, hextra, by rw [after_bind_of_ok hsolve, hv, hlog, List.append_assoc]; rfl⟩
  | error e v =>
      rw [after_of_error hsolve] at hlog
      exact ⟨[], hnil, by rw [after_of_error (bind_of_error hsolve), hlog]⟩

end Solving

section Fixing

theorem box_of_fix {i : Int} {value : R} {x : Unit} {s s' : Scoped R}
    (h : Scoped.fix i value s = .ok x s') :
    Vec.setAt? s.domain.box.lb i value = some s'.domain.box.lb ∧
      Vec.setAt? s.domain.box.ub i value = some s'.domain.box.ub := by
  obtain ⟨_, s₁, hremember, h⟩ := bind_eq_ok.mp h
  have hdomain : s₁.domain = s.domain := by
    unfold Scoped.remember at hremember
    split at hremember
    · cases hremember
      rfl
    · split at hremember <;> cases hremember
      rfl
  obtain ⟨d, hd, rfl⟩ := zoom_eq_ok.mp h
  obtain ⟨-, box, hset, rfl⟩ := Domain.tighten_eq_ok.mp hd
  rw [hdomain] at hset
  exact (Box.set_eq_ok.mp hset).2

/-- To fix the integer variables is to write the candidate at their indices.  The induction is on the
variables that are left; `before` is the part of the candidate that is written already. -/
theorem placeAll_of_fixIntegers {integers : List Int} (before : List R) {rest : List R}
    (hlen : rest.length = integers.length) {x : Unit} {s s' : Scoped R}
    (h : fixIntegers (before ++ rest) (integers.zipIdx before.length) s = .ok x s') :
    (Vec.placeAll s.domain.box.lb (integers.zip rest) : Except (Fault R) (List R)) =
        .ok s'.domain.box.lb ∧
      (Vec.placeAll s.domain.box.ub (integers.zip rest) : Except (Fault R) (List R)) =
        .ok s'.domain.box.ub := by
  induction integers generalizing before rest s with
  | nil =>
      cases h
      exact ⟨rfl, rfl⟩
  | cons j integers ih =>
      cases rest with
      | nil => cases hlen
      | cons y rest =>
          rw [List.zipIdx_cons, fixIntegers] at h
          obtain ⟨value, s₁, hvalue, h⟩ := bind_eq_ok.mp h
          obtain ⟨hget, rfl⟩ := ofExcept_eq_ok.mp hvalue
          obtain rfl : y = value := by
            rw [Vec.get_eq_ok, Vec.at?_natCast, List.getElem?_append_right (Nat.le_refl _),
              Nat.sub_self, List.getElem?_cons_zero, Option.some.injEq] at hget
            exact hget
          obtain ⟨_, s₂, hfix, h⟩ := bind_eq_ok.mp h
          obtain ⟨hlb, hub⟩ := box_of_fix hfix
          rw [List.append_cons, ← List.length_concat (a := y), List.concat_eq_append] at h
          obtain ⟨hlower, hupper⟩ := ih _ (by simpa using hlen) h
          rw [List.zip_cons_cons, Vec.placeAll_cons_of_set hlb, Vec.placeAll_cons_of_set hub]
          exact ⟨hlower, hupper⟩

theorem fixed_of_fixIntegers {t : Table R} {candidate : List R}
    (hlen : candidate.length = t.numIntegers) {x : Unit} {s s' : Scoped R}
    (h : fixIntegers candidate t.integers.zipIdx s = .ok x s') :
    s'.domain.box.Fixed t candidate := by
  obtain ⟨hlower, hupper⟩ := placeAll_of_fixIntegers [] hlen h
  have hplace (xs : List R) : t.fullPoint xs candidate =
      Vec.placeAll xs (t.integers.zip candidate) := Vec.place_of_length hlen
  exact ⟨s.domain.box, (hplace _).trans hlower, (hplace _).trans hupper⟩

theorem oracle_after_within {α : Type} (body : Act R (Scoped R × World R σ) α)
    (w : World R σ) :
    ((onDomain (Scoped.within body)).after w).run.oracle =
      (body.after ({ domain := w.run.workspace.domain }, w)).2.run.oracle := by
  unfold onDomain
  rw [after_zoom]
  unfold Scoped.within
  cases hbody : body ({ domain := w.run.workspace.domain }, w) with
  | ok a t =>
      rw [after_of_ok hbody]
      simp only [after, split, hbody]
      rcases t.1.close with ⟨_ | _, d⟩ <;> rfl
  | error e t =>
      rw [after_of_error hbody]
      simp only [after, split, hbody]
      rcases t.1.close with ⟨_ | _, d⟩ <;> rfl

variable {setup : Setup R (Logged R σ)}

/-- The solve with fixed integer variables asks at most once. -/
theorem grows_solveFixed (h : setup.Records) {candidate : List R}
    (hlen : candidate.length = setup.table.numIntegers) (w : World R (Logged R σ)) :
    Grows (fun extra => extra = [] ∨ ∃ call : Question R, call.goal = Goal.ofCost setup.table ∧
      call.box.Fixed setup.table candidate ∧ extra = [call]) (solveFixed setup candidate) w := by
  unfold solveFixed
  refine Grows.bind ?_ fun solved => ?_
  · unfold Grows
    rw [log, oracle_after_within]
    cases hfix : first (fixIntegers candidate setup.table.integers.zipIdx)
        ({ domain := w.run.workspace.domain }, w) with
    | ok x s =>
        obtain ⟨s₁, hs₁, rfl⟩ := zoom_eq_ok.mp hfix
        refine ⟨[⟨s₁.domain.box, Goal.ofCost setup.table⟩],
          .inr ⟨_, rfl, fixed_of_fixIntegers hlen hs₁, rfl⟩, ?_⟩
        rw [after_bind_of_ok hfix, after_bind_of_ok (get_apply _), after_orReason]
        unfold second
        rw [after_zoom]
        exact log_ask h _ _ w
    | error e s =>
        obtain ⟨s₁, hs₁, rfl⟩ := zoom_eq_error.mp hfix
        refine ⟨[], .inl rfl, ?_⟩
        rw [after_of_error (bind_of_error hfix), List.append_nil]
        rfl
  · cases solved with
    | ok point => exact quiet_of_keeps fun _ => keeps_map (keeps_ofExcept _)
    | error reason => exact fun _ => rfl

end Fixing

section Laps

variable {setup : Setup R (Logged R σ)} {w : World R (Logged R σ)} {s : Sighting R}

theorem quiet_measure (setup : Setup R σ) (point candidate : List R) :
    Quiet (World.measure setup point candidate) := quiet_of_keeps fun _ => keeps_ofExcept _

theorem grows_feasiblePoint (h : setup.Records) (hlen : s.candidate.length = setup.table.numIntegers)
    (hok : s.ok = true) (hzero : s.distance.isZero = true) (w : World R (Logged R σ)) :
    Grows (fun extra => extra = [] ∨ ∃ call, Completes setup s call ∧ extra = [call])
      (feasiblePoint setup s.point s.candidate) w := by
  unfold feasiblePoint
  refine Quiet.grows_bind (quiet_of_keeps fun _ => keeps_ofExcept _) (.inl rfl)
    fun full v hfull => ?_
  refine Quiet.grows_bind (quiet_of_keeps fun _ => keeps_ofExcept _) (.inl rfl)
    fun feasible v' hfeasible => ?_
  obtain ⟨hjoin, rfl⟩ := ofExcept_eq_ok.mp hfull
  obtain ⟨hcheck, rfl⟩ := ofExcept_eq_ok.mp hfeasible
  cases feasible with
  | true => exact Quiet.grows (fun _ => rfl) (.inl rfl) _
  | false =>
      rw [if_neg Bool.false_ne_true]
      by_cases hothers : setup.table.others = []
      · rw [if_pos (List.isEmpty_iff.mpr hothers)]
        exact Quiet.grows (fun _ => rfl) (.inl rfl) _
      · rw [if_neg fun hempty => hothers (List.isEmpty_iff.mp hempty)]
        have hsolve := (grows_solveFixed h hlen w).mono (Q := fun extra => extra = [] ∨
            ∃ call, Completes setup s call ∧ extra = [call]) fun extra hextra =>
          hextra.imp_right fun ⟨call, hgoal, hfixed, hcall⟩ =>
            ⟨call, ⟨hok, hzero, ⟨full, hjoin, hcheck⟩, hothers, hgoal, hfixed⟩, hcall⟩
        refine Grows.bind hsolve fun solved => quiet_of_keeps fun o => ?_
        cases solved with
        | none => exact keeps_pure _
        | some full =>
            exact keeps_bind (keeps_ofExcept _) fun _ => keeps_ite (keeps_pure _) (keeps_pure _)

/-- Only a rounding at distance zero is completed. -/
theorem grows_convergeIfZero (h : setup.Records)
    (hlen : s.candidate.length = setup.table.numIntegers) (now : R) (w : World R (Logged R σ)) :
    Grows (fun extra => extra = [] ∨ ∃ call, Completes setup s call ∧ extra = [call])
      (convergeIfZero setup now s.point s.candidate s.ok s.distance) w := by
  unfold convergeIfZero
  by_cases hzero : (s.ok && s.distance.isZero) = true
  · rw [if_pos hzero]
    obtain ⟨hok, hzero⟩ := (Bool.and_eq_true _ _).mp hzero
    unfold converge
    refine Grows.bind (grows_feasiblePoint h hlen hok hzero w) fun solved =>
      quiet_of_keeps fun o => ?_
    cases solved with
    | none => exact keeps_pure _
    | some full =>
        refine keeps_bind (keeps_ofExcept _) fun objective => ?_
        refine keeps_bind (keeps_modify fun _ hw => hw) fun _ => ?_
        refine keeps_bind ((quiet_record setup now _ _ _).keeps o) fun _ => ?_
        refine keeps_bind (keeps_get_bind fun _ hw => keeps_pure _) fun p => ?_
        have houtcome := keeps_map (f := some)
          ((pace_quiet setup now o).outcome (.success full objective)).keeps
        exact keeps_ite (keeps_bind ((quiet_print _).keeps o) fun _ => houtcome) houtcome
  · rw [if_neg hzero]
    exact Quiet.grows (fun _ => rfl) (.inl rfl) w

/-- The parts of a sighting. -/
theorem shows_of_parts {goal : Goal R} {point : List R} {x : List R × Bool} {d : Distance R}
    {v v' : World R (Logged R σ)} (hanswer : (w.reply setup goal).answer = .ok point)
    (hround : World.round setup point (w.replied (w.reply setup goal)) = .ok x v)
    (hmeasure : World.measure setup point x.1 v = .ok d v') :
    w.Shows setup ⟨goal, point, x.1, x.2, d⟩ := by
  have hran := round_ran hround
  exact ⟨hanswer, hran, (round_eq_ok hround).2.1, (measure_eq_ok hmeasure).1⟩

theorem answer_of_solve {goal : Goal R} {point : List R} {w' : World R (Logged R σ)}
    (h : solve setup goal w = .ok (.ok point) w') : (w.reply setup goal).answer = .ok point := by
  obtain ⟨-, ⟨x, hx, hanswer⟩ | ⟨_, _, hx, -⟩⟩ := solve_eq_ok h
  · cases hx
    exact hanswer
  · cases hx

theorem Sees.continues (h : w.Sees setup s) {extra : List (Question R)}
    (hextra : extra = [] ∨ ∃ call, Completes setup s call ∧ extra = [call]) :
    w.Continues setup extra := by
  rcases hextra with hnil | ⟨call, hcall, hone⟩
  · exact .inl hnil
  · exact .inr ⟨s, call, h, hcall, hone⟩

/-- The root asks for the cost of the problem, and perhaps for a completion. -/
theorem log_solveRoot (h : setup.Records) (now : R) (hroot : w.run.stage = .root) :
    ∃ extra, w.Continues setup extra ∧
      ((solveRoot setup now).after w).log = w.log ++ ⟨w.box, Goal.ofCost setup.table⟩ :: extra := by
  have hpace := pace_quiet setup now
  unfold solveRoot
  refine log_solve_bind h (.inl rfl) fun r hsolve => ?_
  cases r with
  | error reason => exact (quiet_finished_fail setup reason).grows (.inl rfl) _
  | ok point =>
      refine Quiet.grows_bind (quiet_round setup point) (.inl rfl) fun x v hround => ?_
      refine Quiet.grows_bind (quiet_measure _ _ _) (.inl rfl) fun d v' hmeasure => ?_
      have hshows := shows_of_parts (answer_of_solve hsolve) hround hmeasure
      have hsees : w.Sees setup ⟨Goal.ofCost setup.table, point, x.1, x.2, d⟩ := by
        simp only [Sees, hroot, true_and]
        exact hshows
      have hgrows := (grows_convergeIfZero h (check_iff.mp hshows.checked).1 now v').mono
        fun _ => hsees.continues
      refine hgrows.bind fun ending => quiet_of_keeps fun o => ?_
      cases ending with
      | some o => exact keeps_pure _
      | none =>
          exact keeps_bind ((quiet_onProgress _).keeps o) fun _ => ((hpace o).aimAt _ _ _ _).keeps

omit [Arith R] in
theorem count_apply (w : World R σ) :
    onProgress (modify fun p => { p with iteration := p.iteration + 1 }) w = .ok ⟨⟩ w.counted := rfl

/-- An iteration asks for a projection onto its target, and perhaps for a completion. -/
theorem log_iterate (h : setup.Records) (now : R) {target : List R}
    (hstage : w.run.stage = .projecting target) {goal : Goal R}
    (hgoal : Goal.projection setup.table w.run.workspace.progress.epoch.alpha target = .ok goal) :
    ∃ extra, w.Continues setup extra ∧
      ((iterate setup now target).after w).log = w.log ++ ⟨w.box, goal⟩ :: extra := by
  have hpace := pace_quiet setup now
  have hprogress : progress w.counted = .ok w.counted.run.workspace.progress w.counted := rfl
  have haim : ofExcept (Goal.projection setup.table
      w.counted.run.workspace.progress.epoch.alpha target) w.counted = .ok goal w.counted :=
    ofExcept_eq_ok.mpr ⟨hgoal, rfl⟩
  unfold iterate
  rw [after_bind_of_ok (count_apply w), after_bind_of_ok hprogress, after_bind_of_ok haim]
  refine log_solve_bind (w := w.counted) h (.inl rfl) fun r hsolve => ?_
  cases r with
  | error reason => exact (quiet_finished_fail setup reason).grows (.inl rfl) _
  | ok point =>
      refine Quiet.grows_bind (quiet_round setup point) (.inl rfl) fun x v hround => ?_
      refine Quiet.grows_bind (quiet_measure _ _ _) (.inl rfl) fun d v' hmeasure => ?_
      have hshows := shows_of_parts (answer_of_solve hsolve) hround hmeasure
      have hsees : w.Sees setup ⟨goal, point, x.1, x.2, d⟩ := by
        simp only [Sees, hstage]
        exact ⟨hgoal, hshows⟩
      refine Quiet.grows_bind (quiet_onProgress _) (.inl rfl) fun _ v'' _ => ?_
      have hgrows := (grows_convergeIfZero h (check_iff.mp hshows.checked).1 now v'').mono
        fun _ => hsees.continues
      refine hgrows.bind fun ending => quiet_of_keeps fun o => ?_
      cases ending with
      | some o => exact keeps_pure _
      | none =>
          exact keeps_bind (keeps_get_bind fun _ hw => keeps_pure _) fun p =>
            keeps_ite ((hpace o).accept _ _ _).keeps ((hpace o).escalate _ _ _).keeps

/-- A lap asks the question that it poses, and perhaps another one. -/
theorem Poses.exists_log {goal : Goal R} (h : w.Poses setup goal) (hrecords : setup.Records)
    (now : R) : ∃ extra, w.Continues setup extra ∧
      (w.step setup now).log = w.log ++ ⟨w.box, goal⟩ :: extra := by
  rw [step_eq_moveTo]
  unfold Poses at h
  cases hstage : w.run.stage with
  | root =>
      rw [hstage] at h
      subst h
      exact log_solveRoot hrecords now hstage
  | projecting target =>
      rw [hstage] at h
      exact log_iterate hrecords now hstage h
  | _ =>
      rw [hstage] at h
      exact h.elim

/-- The log grows by what is asked. -/
theorem Asked.log_eq {start : World R (Logged R σ)} {calls : List (Question R)}
    (h : start.Asked setup calls w) (hrecords : setup.Records) : w.log = start.log ++ calls := by
  obtain ⟨oracle, horacle⟩ := hrecords
  rw [log, h.oracle, horacle]
  exact oracle.log_leaves_recording _ _

omit [Arith R] in
theorem calls_of_log {l : Lap R (Logged R σ)} {calls : List (Question R)}
    (h : l.after.log = l.before.log ++ calls) : l.calls = calls := by
  rw [Lap.calls, h, List.drop_left]

/-- The log of a run is what its laps ask. -/
theorem Lapped.log {start : World R (Logged R σ)} {done : List (Lap R (Logged R σ))}
    (h : Lapped setup start done w) (hrecords : setup.Records) :
    w.log = start.log ++ done.flatMap (·.calls) := by
  induction h with
  | start => simp
  | @look done w h looks now ih =>
      rw [← ih]
      exact congrArg Prod.snd (looks.oracle_step setup now)
  | @lap done w h begins now ih =>
      obtain ⟨calls, hasked⟩ := Leads.step ⟨[], asked_nil setup w⟩ now
      have hcalls := hasked.log_eq hrecords
      rw [hcalls, ih, List.flatMap_append, List.flatMap_singleton,
        calls_of_log (l := ⟨w, w.step setup now⟩) hcalls, List.append_assoc]

end Laps

end World

section Choices

variable {R σ : Type} [Arith R] {setup : Setup R σ} {w : World R σ} {s : Sighting R}
  {g : Random.Generator} {stage stage' : Stage R} {b b' : Ledger R} {phase : Phase}
  {target : List R}

/-- A decision chooses its target. -/
theorem Decides.chooses (h : Decides setup s stage b stage' b' phase)
    (htarget : stage' = .top target) : s.Chooses setup phase target := by
  cases h with
  | converged _ _ _ _ _ next | stalledOut _ _ _ _ _ next => cases htarget.symm.trans next
  | rooted _ _ next =>
      cases htarget.symm.trans next
      exact .rooted
  | accepted _ _ _ next =>
      cases htarget.symm.trans next
      exact .accepted
  | perturbed _ _ _ move _ next =>
      cases htarget.symm.trans next
      exact .perturbed move
  | restarted _ _ _ _ move _ next =>
      cases htarget.symm.trans next
      exact .restarted move

theorem Sighting.Chooses.length_eq (h : s.Chooses setup phase target) :
    target.length = s.candidate.length := by
  cases h with
  | rooted | accepted => rfl
  | perturbed move => exact (Perturber.perturb_eq_ok move).2.length_eq
  | restarted move => exact (Perturber.restart_eq_ok move).2.length_eq

end Choices

section Runs

variable {R : Type} [Arith R] {vars : List (Variable R)}

/-- The decision behind the target that a lap leaves. -/
theorem World.decides_of_target {σ : Type} {setup : Setup R σ} {start : World R σ}
    {clock : Nat → R} {fuel k : Nat} {l : Lap R σ} {target : List R}
    (hl : (World.laps setup clock fuel start)[k]? = some l) (htarget : l.target? = some target) :
    ∃ s g phase, l.before.Sees setup s ∧ l.phase? = some phase ∧
      Decides setup s l.before.run.stage (l.before.seen setup g s) (.top target) l.after.ledger
        phase := by
  obtain ⟨w, next⟩ := l
  obtain ⟨-, -, hbegins, now, hafter⟩ := World.lapped_of_getElem? hl
  dsimp only at hbegins hafter
  subst hafter
  have hstage : (w.step setup now).run.stage = .top target := by
    unfold Lap.target? at htarget
    split at htarget <;> cases htarget
    assumption
  have goes : (w.step setup now).Goes := fun _ h => nomatch hstage.symm.trans h
  obtain ⟨s, g, phase, hsees, hd⟩ := hbegins.decides goes
  refine ⟨s, g, phase, hsees, World.phase_of_decides hd fun e => goes _, ?_⟩
  rw [hstage] at hd
  exact hd

/-- What is seen is shown after an answer. -/
theorem World.Sees.exists_shows {σ : Type} {setup : Setup R σ} {w : World R σ} {s : Sighting R}
    (h : w.Sees setup s) : ∃ v : World R σ, v.Shows setup s := by
  unfold World.Sees at h
  split at h
  · exact ⟨_, h.2⟩
  · exact ⟨_, h.2⟩
  · exact h.elim

variable {σ : Type} {setup : Setup R (Logged R σ)} {start : World R (Logged R σ)}
  {clock : Nat → R} {fuel : Nat} {laps : List (Lap R (Logged R σ))}

/-- The questions of each lap. -/
theorem World.calls_of_laps (hrecords : setup.Records) (hlists : setup.table.Lists vars)
    (hstage : start.run.stage = .opening) (halpha : start.alpha = setup.settings.initialAlpha)
    (hlaps : laps = World.laps setup clock fuel start) {k : Nat}
    {l : Lap R (Logged R σ)} (hl : laps[k]? = some l) :
    ∃ goal extra, l.calls = ⟨l.before.box, goal⟩ :: extra ∧ Aims setup laps k goal ∧
      l.before.Continues setup extra := by
  obtain ⟨hlen, hlapped, hbegins, now, hafter⟩ := World.lapped_of_getElem? (hlaps ▸ hl)
  rw [← hlaps] at hlen hlapped
  obtain ⟨w, next⟩ := l
  dsimp only at hlapped hbegins hafter ⊢
  subst hafter
  rcases hbegins with hroot | ⟨target, hprojecting⟩
  · rw [hlapped.eq_nil_of_root hstage hroot, List.length_nil] at hlen
    have hposes : w.Poses setup (Goal.ofCost setup.table) := by simp only [World.Poses, hroot]
    obtain ⟨extra, hextra, hlog⟩ := hposes.exists_log hrecords now
    exact ⟨_, extra, World.calls_of_log hlog, hlen ▸ .root, hextra⟩
  · have goes : w.Goes := World.Begins.goes (.inr ⟨target, hprojecting⟩)
    rcases hlapped.last_target hstage goes with
      ⟨hw | hw, -⟩ | ⟨before, m, target', hdone, hm, hw | hw⟩
    · cases hprojecting.symm.trans hw
    · cases hprojecting.symm.trans hw
    · cases hprojecting.symm.trans hw
    · cases hprojecting.symm.trans hw
      have hbefore : laps[before.length]? = some m := by
        have hm' : (laps.take k)[before.length]? = some m := by
          rw [hdone, List.getElem?_concat_length]
        rwa [List.getElem?_take_of_lt (by rw [← hlen, hdone]; simp)] at hm'
      obtain ⟨s, g, phase, hsees, hphase, hd⟩ := World.decides_of_target (hlaps ▸ hbefore) hm
      have hchosen := hd.chooses rfl
      have hk : k = before.length + 1 := by rw [← hlen, hdone, List.length_append]; rfl
      obtain ⟨i, hlatest, hw⟩ := (hlapped.alpha hstage halpha goes).resolve_left fun hempty => by
        rw [hdone] at hempty
        exact absurd hempty.1 (by simp)
      rw [hlen] at hlatest hw
      obtain ⟨v, hshows⟩ := hsees.exists_shows
      obtain ⟨goal, hgoal⟩ := exists_projection hlists w.alpha
        (hchosen.length_eq.trans (check_iff.mp hshows.checked).1)
      have hposes : w.Poses setup goal := by
        simp only [World.Poses, hprojecting]
        exact hgoal
      obtain ⟨extra, hextra, hlog⟩ := hposes.exists_log hrecords now
      rw [hw] at hgoal
      subst hk
      rw [Nat.sub_right_comm, Nat.add_sub_cancel] at hgoal
      exact ⟨goal, extra, World.calls_of_log hlog,
        .projection hlatest.of_take hbefore hsees hphase hchosen hm hgoal, hextra⟩

end Runs

section Completions

variable {R Key σ : Type} [Arith R] [LinearOrder Key] (o : IntegerOrder R Key)
  {setup : Setup R (Logged R σ)} {vars : List (Variable R)} {s : Sighting R} {call : Question R}
include o

/-- The bounds of a completion are both the entry of the candidate, also for variables with one
index: their entries are near the same value of the point, and integral. -/
theorem Completes.bounds (h : Completes setup s call) (hlists : setup.table.Lists vars)
    (hnonneg : ∀ v ∈ vars, 0 ≤ v.index) (hpos : 0 < setup.settings.toleranceEpsilon)
    (hsmall : setup.settings.toleranceEpsilon < Arith.ratio 1 2)
    {w : World R (Logged R σ)} (hshows : w.Shows setup s) :
    call.box.FixedAt setup.table s.candidate := by
  obtain ⟨base, hlower, hupper⟩ := h.fixed
  obtain ⟨hlen, hwhole, -⟩ := check_iff.mp hshows.checked
  unfold Table.fullPoint at hlower hupper
  rw [Vec.place_of_length hlen] at hlower hupper
  have hnear := o.near_of_isZero hpos hsmall hlen hshows.measured h.zero
  have hindex : ∀ w ∈ setup.table.integers.zip s.candidate, 0 ≤ w.1 := fun w hw => by
    have hmem := (List.of_mem_zip hw).1
    rw [hlists.integers] at hmem
    obtain ⟨v, hv, hj⟩ := List.mem_map.mp hmem
    exact hj ▸ hnonneg v (List.mem_of_mem_filter hv)
  have hagree {xs ys : List R} (hplace : (Vec.placeAll xs
      (setup.table.integers.zip s.candidate) : Except (Fault R) (List R)) = .ok ys) :
      ∀ w ∈ setup.table.integers.zip s.candidate,
        ∃ y, Vec.at? ys w.1 = some y ∧ (y == w.2) = true := by
    intro w hw
    obtain ⟨w', hw', hsame, hvalue⟩ := Vec.exists_write_of_placeAll hplace hw
    obtain ⟨p, hp⟩ := Vec.exists_position?_of_placeAll hplace w hw
    have hequal : w'.1 = w.1 :=
      Vec.position?_inj (hindex _ hw') (hindex _ hw) (hsame.trans hp) hp
    obtain ⟨x, hx, hxw⟩ := hnear w hw
    obtain ⟨x', hx', hxw'⟩ := hnear w' hw'
    rw [hequal, hx, Option.some.injEq] at hx'
    subst hx'
    exact ⟨w'.2, hvalue, o.beq_of_near (fun _ => hwhole _ (List.of_mem_zip hw').2)
      (fun _ => hwhole _ (List.of_mem_zip hw).2) hxw' hxw⟩
  intro w hw
  obtain ⟨lower, hlower, hsame⟩ := hagree hlower w hw
  obtain ⟨upper, hupper, hsame'⟩ := hagree hupper w hw
  exact ⟨lower, upper, hlower, hupper, hsame, hsame'⟩

end Completions

namespace PumpTask

section Protocol

variable {R σ : Type} [Arith R]

/-- The laps of a run under admitted settings, with an oracle that keeps a log. -/
structure LoggedLaps (task : PumpTask R σ) (clock : Nat → R) (shared : Shared R)
    (domain : Domain R) (oracle : σ) (setup : Setup R (Logged R σ))
    (laps : List (Lap R (Logged R σ))) : Prop where
  admitted : ∃ requested : RequestedSettings R, requested.toSettings = .ok task.settings
  launched : ∃ run, task.recording.launch (clock (World.enoughSteps task.settings)) domain
      (oracle, []) = .ok (setup, run) ∧
    laps = World.laps setup clock (World.enoughSteps task.settings) { shared, run }

/-- What a run asks its oracle. -/
structure SolvesInOrder (task : PumpTask R σ) (clock : Nat → R) (shared : Shared R)
    (domain : Domain R) (oracle : σ) (setup : Setup R (Logged R σ))
    (laps : List (Lap R (Logged R σ))) : Prop where
  /-- The run does not notice the log. -/
  mirrors : (task.run clock shared domain oracle).Mirrors (fun s t => t.1 = s)
    (task.recording.run clock shared domain (oracle, []))
  trace : ∀ o, (task.run clock shared domain oracle).result = .ok o →
    o.trace = laps.filterMap (·.record?)
  /-- The lap at place `k` is iteration `k`, the root being the first. -/
  iterations : ∀ (k : Nat) (l : Lap R (Logged R σ)) r, laps[k]? = some l → l.record? = some r →
    r.iteration = k
  /-- The log is what the laps ask, in order. -/
  log : (task.recording.run clock shared domain (oracle, [])).oracle.2 = laps.flatMap (·.calls)
  /-- Each lap asks first for the cost of the problem, if it is the root, or for the projection onto
  the candidate that the lap before it has chosen, with the weight that its epoch has come to; after
  that it asks at most once more, to complete a rounding at distance zero. -/
  calls : ∀ k l, laps[k]? = some l → ∃ goal extra, l.calls = ⟨l.before.box, goal⟩ :: extra ∧
    Aims setup laps k goal ∧ l.before.Continues setup extra

theorem LoggedLaps.solvesInOrder {task : PumpTask R σ} {clock : Nat → R} {shared : Shared R}
    {domain : Domain R} {oracle : σ} {setup : Setup R (Logged R σ)}
    {laps : List (Lap R (Logged R σ))}
    (h : task.LoggedLaps clock shared domain oracle setup laps) :
    task.SolvesInOrder clock shared domain oracle setup laps := by
  obtain ⟨⟨requested, hsettings⟩, run, hlaunch, hlaps⟩ := h
  have hmirrors := task.report_recording clock shared domain oracle []
  have hl := launched_of_launch hlaunch
  obtain ⟨hstage, -, horacle, -⟩ := hl.start
  have hrecords : setup.Records := ⟨task.oracle, hl.asks⟩
  have halpha : World.alpha { shared, run } = setup.settings.initialAlpha := by
    rw [World.alpha, hl.epoch.2, hl.settings]
    rfl
  refine ⟨hmirrors, fun o ho => ?_, fun k l r hk hr => ?_, ?_, fun k l hk => ?_⟩
  · rw [hlaps]
    exact trace_of_laps hlaunch (hmirrors.result.trans ho)
  · have hrestarts : 0 ≤ task.recording.settings.maxRestarts :=
      RequestedSettings.maxRestarts_nonneg hsettings
    rw [hlaps] at hk
    exact iteration_of_laps hrestarts hlaunch hk hr
  · have hlog := (World.lapped_advance setup clock (World.enoughSteps task.settings)
      { shared, run }).log hrecords
    have hnil : World.log { shared, run } = [] := congrArg Prod.snd horacle
    rw [← hlaps, hnil, List.nil_append] at hlog
    rw [task.recording.run_eq_of_launch clock shared hlaunch]
    exact hlog
  · exact World.calls_of_laps hrecords hl.table hstage halpha hlaps hk

/-- The oracle answers with finite numbers. -/
def AnswersWithNumbers (task : PumpTask R σ) : Prop :=
  ∀ s box goal point, (task.oracle s box goal).answer = .ok point → ∀ x ∈ point, Arith.IsFinite x

/-- How the questions of a run keep to the problem and to its settings. -/
structure SolvesInBounds (task : PumpTask R σ) (setup : Setup R (Logged R σ))
    (laps : List (Lap R (Logged R σ))) : Prop where
  /-- If the oracle answers with finite numbers, every candidate that a lap leaves to the next one
  is integral and inside the integral bounds. -/
  checked : task.AnswersWithNumbers → ∀ (k : Nat) (l : Lap R (Logged R σ)) target,
    laps[k]? = some l → l.target? = some target → setup.table.check target = .ok ()
  /-- If no index is negative, a completion fixes the integer variables to the candidate. -/
  fixed : (∀ v ∈ task.problem.vars, 0 ≤ v.index) → ∀ (k : Nat) (l : Lap R (Logged R σ)) s call,
    laps[k]? = some l → l.before.Sees setup s → Completes setup s call →
      call.box.FixedAt setup.table s.candidate
  falling : Falling task.settings.initialAlpha laps

theorem LoggedLaps.solvesInBounds {Key : Type} [LinearOrder Key] (order : IntegerOrder R Key)
    {task : PumpTask R σ} {clock : Nat → R} {shared : Shared R} {domain : Domain R} {oracle : σ}
    {setup : Setup R (Logged R σ)} {laps : List (Lap R (Logged R σ))}
    (h : task.LoggedLaps clock shared domain oracle setup laps) :
    task.SolvesInBounds setup laps := by
  obtain ⟨⟨requested, hsettings⟩, run, hlaunch, hlaps⟩ := h
  have hl := launched_of_launch hlaunch
  obtain ⟨hstage, htrace, -, -⟩ := hl.start
  have halpha : World.alpha { shared, run } = setup.settings.initialAlpha := by
    rw [World.alpha, hl.epoch.2, hl.settings]
    rfl
  have hadmitted : requested.toSettings = .ok setup.settings := by
    rw [hl.settings]
    exact hsettings
  refine ⟨fun hfinite k l target hk htarget => ?_, fun hnonneg k l s call _ hsees hcall => ?_, ?_⟩
  · obtain ⟨s, g, phase, hsees, -, hd⟩ := World.decides_of_target (hlaps ▸ hk) htarget
    obtain ⟨v, hshows⟩ := hsees.exists_shows
    have hanswered := hshows.answered
    rw [World.reply, hl.asks] at hanswered
    exact hd.target_checked order hl.table (hfinite _ _ _ _ hanswered) hshows.checked rfl
  · obtain ⟨v, hshows⟩ := hsees.exists_shows
    obtain ⟨hpos, hsmall⟩ := RequestedSettings.toleranceEpsilon_inside hadmitted
    exact hcall.bounds order hl.table hnonneg hpos hsmall hshows
  · have hfalling := falling_of_laps order.toShareOrder hadmitted hstage htrace halpha hlaps
    rw [hl.settings] at hfalling
    exact hfalling

end Protocol

/-- **The solves of a run follow a protocol.**  In every arithmetic the log of a run is what its laps
ask, in order.  In floating point and in exact arithmetic the weights of the projections are those of
falling epochs, the candidates that are aimed at are integral and inside the integral bounds if the
oracle answers with finite numbers, and the bounds of a completion fix the integer variables to the
candidate if no index is negative. -/
theorem solves_follow_protocol :
    (∀ (R σ : Type) [Arith R] (task : PumpTask R σ) clock shared domain oracle setup laps,
      task.LoggedLaps clock shared domain oracle setup laps →
      task.SolvesInOrder clock shared domain oracle setup laps) ∧
    (∀ (σ : Type) (task : PumpTask Float σ) clock shared domain oracle setup laps,
      task.LoggedLaps clock shared domain oracle setup laps → task.SolvesInBounds setup laps) ∧
    ∀ (σ : Type) (task : PumpTask ExtRat σ) clock shared domain oracle setup laps,
      task.LoggedLaps clock shared domain oracle setup laps → task.SolvesInBounds setup laps :=
  ⟨fun _ _ _ _ _ _ _ _ _ _ h => h.solvesInOrder,
    fun _ _ _ _ _ _ _ _ h => h.solvesInBounds Binary64.integerOrder,
    fun _ _ _ _ _ _ _ _ h => h.solvesInBounds ExtRat.integerOrder⟩

open ExtRat

/-- Two variables below one with the row `x + y ≥ 2`, and a solver that keeps to the row only when
`x` is fixed. -/
def completed (R : Type) [Arith R] : PumpTask R Unit where
  name := "completed"
  settings := { rounding := .propagation, initialAlpha := Arith.ratio 1 2 }
  problem :=
    { vars :=
        [ { index := 0, lb := 0, ub := 1, kind := .binary, cost := 0 }
        , { index := 1, lb := 0, ub := 1, kind := .continuous, cost := 0 } ]
      rows := { coefficients := [[1, 1]], senses := [.atLeast], rhs := [2] }
      offset := 0 }
  oracle := fun _ box goal =>
    { answer := .ok (
        if box.lb == [1, 0] then [1, 1]
        else if goal.objective == [0, 0] then [Arith.ratio 1 2, 0]
        else [1, 0])
      next := () }

/-- The bounds of its two variables. -/
def unitSquare (R : Type) [Arith R] : Domain R := ⟨⟨[0, 0], [1, 1]⟩, []⟩

theorem answersWithNumbers_completed {R : Type} [Arith R]
    (h : ∀ x ∈ [(0 : R), 1, Arith.ratio 1 2], Arith.IsFinite x) :
    (completed R).AnswersWithNumbers := by
  intro s box goal point hpoint
  have hanswer : (if box.lb == [1, 0] then [1, 1]
      else if goal.objective == [0, 0] then [Arith.ratio 1 2, 0] else [1, 0]) = point :=
    Except.ok.inj hpoint
  subst hanswer
  intro x hx
  refine h x ?_
  split_ifs at hx <;> simp only [List.mem_cons, List.not_mem_nil, or_false] at hx ⊢ <;> tauto

/-- In both arithmetics the run solves at the root, projects, and completes the projection. -/
theorem solves_follow_protocol_completed :
    (∃ setup laps,
      (completed Float).LoggedLaps (fun _ => 0) ⟨{}, none⟩ (unitSquare Float) () setup laps ∧
      laps.map (·.calls.length) = [1, 2] ∧ (completed Float).AnswersWithNumbers ∧
      (completed Float).SolvesInBounds setup laps) ∧
    ∃ setup laps l s call,
      (completed ExtRat).LoggedLaps (fun _ => 0) ⟨{}, none⟩ (unitSquare ExtRat) () setup laps ∧
      laps.map (·.calls.length) = [1, 2] ∧
      (completed ExtRat).SolvesInOrder (fun _ => 0) ⟨{}, none⟩ (unitSquare ExtRat) () setup laps ∧
      (completed ExtRat).AnswersWithNumbers ∧ (∀ v ∈ (completed ExtRat).problem.vars, 0 ≤ v.index) ∧
      (completed ExtRat).SolvesInBounds setup laps ∧
      laps[1]? = some l ∧ l.before.Sees setup s ∧ Completes setup s call ∧
      call.box.FixedAt setup.table s.candidate := by
  refine ⟨?_, ?_⟩
  · have hsettings : (completed Float).settings.requested.toSettings =
        .ok (completed Float).settings := Settings.toSettings_requested (by decide +kernel)
    obtain ⟨setup, laps, hlogged, hcalls⟩ : ∃ setup laps,
        (completed Float).LoggedLaps (fun _ => 0) ⟨{}, none⟩ (unitSquare Float) () setup laps ∧
        laps.map (·.calls.length) = [1, 2] :=
      ⟨_, _, ⟨⟨_, hsettings⟩, _, rfl, rfl⟩, by decide +kernel⟩
    have hfinite := answersWithNumbers_completed (R := Float) (by decide +kernel)
    exact ⟨setup, laps, hlogged, hcalls, hfinite,
      solves_follow_protocol.2.1 _ _ _ _ _ _ _ _ hlogged⟩
  · have hsettings : (completed ExtRat).settings.requested.toSettings =
        .ok (completed ExtRat).settings := Settings.toSettings_requested (by decide +kernel)
    obtain ⟨setup, laps, hlogged, hcalls⟩ : ∃ setup laps,
        (completed ExtRat).LoggedLaps (fun _ => 0) ⟨{}, none⟩ (unitSquare ExtRat) () setup laps ∧
        laps.map (·.calls.length) = [1, 2] :=
      ⟨_, _, ⟨⟨_, hsettings⟩, _, rfl, rfl⟩, by decide +kernel⟩
    have hfinite := answersWithNumbers_completed (R := ExtRat) (by decide +kernel)
    have hnonneg : ∀ v ∈ (completed ExtRat).problem.vars, 0 ≤ v.index := by decide
    have horder := solves_follow_protocol.1 _ _ _ _ _ _ _ _ _ hlogged
    have hbounds := solves_follow_protocol.2.2 _ _ _ _ _ _ _ _ hlogged
    obtain ⟨l, hl, hlength⟩ : ∃ l, laps[1]? = some l ∧ l.calls.length = 2 := by
      have hsecond : (laps.map (·.calls.length))[1]? = some 2 := by rw [hcalls]; rfl
      rw [List.getElem?_map, Option.map_eq_some_iff] at hsecond
      exact hsecond
    obtain ⟨goal, extra, hl', -, hextra⟩ := horder.calls 1 l hl
    rw [hl'] at hlength
    rcases hextra with rfl | ⟨s, call, hsees, hcall, -⟩
    · cases hlength
    · exact ⟨setup, laps, l, s, call, hlogged, hcalls, horder, hfinite, hnonneg, hbounds, hl, hsees,
        hcall, hbounds.fixed hnonneg 1 l s call hl hsees hcall⟩

/-- One integer variable without an upper bound, and a solver that answers with infinity. -/
def escaping : PumpTask ExtRat Unit where
  name := "escaping"
  settings := { maxIterations := 2 }
  problem :=
    { vars := [{ index := 0, lb := .fin 0, ub := .posInf, kind := .integer, cost := .fin (-1) }]
      rows := { coefficients := [], senses := [], rhs := [] }
      offset := .fin 0 }
  oracle := fun _ _ _ => { answer := .ok [.posInf], next := () }

/-- Two integer variables with one place in the bounds, since one of their indices is negative, but
with two places in the points of the solver, which are too long. -/
def doubled : PumpTask ExtRat Unit where
  name := "doubled"
  settings := { maxIterations := 1 }
  problem :=
    { vars :=
        [ { index := 0, lb := .fin 0, ub := .fin 1, kind := .continuous, cost := .fin 0 }
        , { index := 1, lb := .fin 0, ub := .fin 9, kind := .integer, cost := .fin 0 }
        , { index := -1, lb := .fin 0, ub := .fin 9, kind := .integer, cost := .fin 0 } ]
      rows := { coefficients := [], senses := [], rhs := [] }
      offset := .fin 0 }
  oracle := fun _ _ _ => { answer := .ok [.fin 5, .fin 0, .fin 1], next := () }

/-- After an infinite answer a run may aim at what is no number, and a completion may fix a variable
with a negative index over another one. -/
theorem solves_out_of_bounds :
    (∃ setup laps, escaping.LoggedLaps (fun _ => .fin 0) ⟨{}, none⟩ ⟨⟨[.fin 0], [.posInf]⟩, []⟩ ()
        setup laps ∧
      (laps.map (·.target?))[1]? = some (some [.nan]) ∧
      (setup.table.check [.nan]).isOk = false ∧ laps.map (·.calls.length) = [1, 1, 1]) ∧
    ∃ setup laps l s call, doubled.LoggedLaps (fun _ => .fin 0) ⟨{}, none⟩
        ⟨⟨[.fin 0, .fin 0], [.fin 1, .fin 9]⟩, []⟩ () setup laps ∧
      laps[0]? = some l ∧ l.before.Sees setup s ∧ Completes setup s call ∧
      setup.table.integers.zip s.candidate = [(1, .fin 0), (-1, .fin 1)] ∧
      call.box.lb = [.fin 0, .fin 1] := by
  have hescaping : escaping.settings.requested.toSettings = .ok escaping.settings :=
    Settings.toSettings_requested (by decide +kernel)
  have hdoubled : doubled.settings.requested.toSettings = .ok doubled.settings :=
    Settings.toSettings_requested (by decide +kernel)
  refine ⟨⟨_, _, ⟨⟨_, hescaping⟩, _, rfl, rfl⟩, by decide +kernel, by decide +kernel,
    by decide +kernel⟩, ?_⟩
  obtain ⟨setup, laps, hlogged, hcalls, hseen⟩ : ∃ setup laps,
      doubled.LoggedLaps (fun _ => .fin 0) ⟨{}, none⟩ ⟨⟨[.fin 0, .fin 0], [.fin 1, .fin 9]⟩, []⟩ ()
        setup laps ∧
      laps[0]?.map (fun l => l.calls.map (·.box.lb)) = some [[.fin 0, .fin 0], [.fin 0, .fin 1]] ∧
      (laps[0]?.bind (·.before.sighting? setup)).map (fun s =>
        setup.table.integers.zip s.candidate) = some [(1, .fin 0), (-1, .fin 1)] :=
    ⟨_, _, ⟨⟨_, hdoubled⟩, _, rfl, rfl⟩, by decide +kernel, by decide +kernel⟩
  obtain ⟨l, hl, hboxes⟩ := Option.map_eq_some_iff.mp hcalls
  rw [hl, Option.bind_some] at hseen
  obtain ⟨goal, extra, hasked, -, hextra⟩ := hlogged.solvesInOrder.calls 0 l hl
  rw [hasked] at hboxes
  rcases hextra with rfl | ⟨s, call, hsees, hcall, rfl⟩
  · cases (List.cons.inj hboxes).2
  · rw [World.sees_iff.mp hsees, Option.map_some, Option.some.injEq] at hseen
    exact ⟨setup, laps, l, s, call, hlogged, hl, hsees, hcall, hseen,
      (List.cons.inj (List.cons.inj hboxes).2).1⟩

end PumpTask

end MipPump
