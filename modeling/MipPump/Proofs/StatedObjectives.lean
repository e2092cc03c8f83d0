import MipPump.Cli.Session
import MipPump.Proofs.Incumbents
import MipPump.Proofs.NumericSuccess
import MipPump.Proofs.RepresentedInstances
import Mathlib.Order.Bounds.Basic

/-!
# The objective as a file states it

A maximisation is taken in as a minimisation: its costs and its constant change sign.  The outcomes
of runs are compared by what is minimised, and the sign changes back when a value is reported.

* `StatedObjective`: a direction, costs and a constant; `StatedObjective.IsBest` is the least or the
  greatest of several values.
* `Instance.Delivers`: what a reader has delivered.
* `PumpTask.Finds`: a success of a run has a point that the task may report, at its cost.
* `Slot.RunsOneOf`: a slot runs one of the given tasks, and ends only with what the task finds.
  Each move of a pool keeps this, by `Pool.Move.runsOneOf`.
* `Outcome.Priced`: a success has a finite point at its cost; `Cli.priced_of_setUp` finds this in
  the outcomes of a session under every schedule.

**Result.**  `Cli.stated_objective_reported`: the stated value of what is minimised is the value of
the file, the order of points is that of the file, and a session reports the best success.
`Cli.greatest_value_reported` is a maximisation.
-/

namespace MipPump

open ExtRat

section Meaning

/-- The objective of a file. -/
structure StatedObjective where
  direction : Direction
  costs : List ℚ
  constant : ℚ

/-- Value of a point in the file. -/
def StatedObjective.value (f : StatedObjective) (x : List ℚ) : ℚ := dotRat f.costs x + f.constant

/-- Whether one value is better than another in the direction of the file. -/
def StatedObjective.Better (f : StatedObjective) (a b : ℚ) : Prop :=
  match f.direction with
  | .minimize => a < b
  | .maximize => b < a

/-- The best of several values: the least of a minimisation, the greatest of a maximisation. -/
def StatedObjective.IsBest (f : StatedObjective) (values : Set ℚ) (v : ℚ) : Prop :=
  match f.direction with
  | .minimize => IsLeast values v
  | .maximize => IsGreatest values v

/-- A reader has delivered an instance with the objective of a file: the columns agree in number,
there is a name for every cost, and the numbers are finite. -/
structure Instance.Delivers (given : Instance ExtRat) (f : StatedObjective) : Prop where
  aligned : given.Aligned
  names : given.numVars = given.cost.length
  cost : given.cost = f.costs.map fin
  constant : given.constant = fin f.constant

/-- The outcome is a success at a finite point. -/
def Outcome.SucceedsAt (o : Outcome ExtRat) (x : List ℚ) : Prop :=
  ∃ objective, o.ending = .success (x.map fin) objective

/-- A success has a finite point, at its cost. -/
def Outcome.Priced (p : Problem ExtRat) (o : Outcome ExtRat) : Prop :=
  ∀ point objective, o.ending = .success point objective →
    (∃ x : List ℚ, point = x.map fin) ∧ p.objective point = .ok objective

/-- The values that the successes among some outcomes have in the file. -/
def StatedObjective.valuesOf (f : StatedObjective) (os : List (Outcome ExtRat)) : Set ℚ :=
  {v | ∃ o ∈ os, ∃ x : List ℚ, o.SucceedsAt x ∧ f.value x = v}

end Meaning

section Signs

variable {f : StatedObjective} {given : Instance ExtRat}

/-- Changing the sign twice changes nothing. -/
theorem Direction.factor_mul_self (d : Direction) : d.factor * d.factor = 1 := by
  cases d <;> rfl

/-- What is minimised has the order of the file. -/
theorem StatedObjective.factor_lt_iff (f : StatedObjective) (a b : ℚ) :
    f.direction.factor * a < f.direction.factor * b ↔ f.Better a b := by
  unfold Better
  cases f.direction <;> simp [Direction.factor]

/-- The least of what is minimised is the best of the file. -/
theorem StatedObjective.isBest_of_least {values : Set ℚ} {v : ℚ} (hv : v ∈ values)
    (hleast : ∀ w ∈ values, f.direction.factor * v ≤ f.direction.factor * w) :
    f.IsBest values v := by
  unfold IsBest
  cases hd : f.direction with
  | minimize => exact ⟨hv, fun w hw => by simpa [hd, Direction.factor] using hleast w hw⟩
  | maximize => exact ⟨hv, fun w hw => by simpa [hd, Direction.factor] using hleast w hw⟩

namespace Instance

variable {R : Type} [Neg R] (direction : Direction) (m : Instance R)

@[simp] theorem direction_takeIn : (m.takeIn direction).direction = direction := by
  cases direction <;> rfl

@[simp] theorem length_cost_takeIn : (m.takeIn direction).cost.length = m.cost.length := by
  cases direction with
  | minimize => rfl
  | maximize => exact List.length_map _

@[simp] theorem numVars_takeIn : (m.takeIn direction).numVars = m.numVars := by
  cases direction <;> rfl

/-- The columns of an instance still agree in number after it was taken in. -/
theorem Aligned.takeIn {m : Instance R} (h : m.Aligned) : (m.takeIn direction).Aligned := by
  have hlength := m.length_cost_takeIn direction
  cases direction with
  | minimize => exact ⟨h.lb, h.ub, h.kinds, h.width, h.coefficients, h.senses, h.rhs⟩
  | maximize =>
      exact ⟨h.lb.trans hlength.symm, h.ub.trans hlength.symm, h.kinds.trans hlength.symm,
        fun row hrow => (h.width row hrow).trans hlength.symm, h.coefficients, h.senses, h.rhs⟩

end Instance

namespace Instance.Delivers

/-- The costs and the constant that are minimised. -/
theorem taken (h : given.Delivers f) :
    (given.takeIn f.direction).cost = (f.costs.map ((f.direction.factor : ℚ) * ·)).map fin ∧
      (given.takeIn f.direction).constant = fin (f.direction.factor * f.constant) := by
  cases hd : f.direction with
  | minimize =>
      refine ⟨?_, ?_⟩
      · show given.cost = _
        simp [h.cost, Direction.factor]
      · show given.constant = _
        simp [h.constant, Direction.factor]
  | maximize =>
      refine ⟨?_, ?_⟩
      · show given.cost.map (-·) = _
        simp [h.cost, Direction.factor]
      · show -given.constant = _
        simp [h.constant, Direction.factor]

/-- What was delivered is a problem. -/
theorem exists_problem (h : given.Delivers f) :
    ∃ p : Problem ExtRat, (given.takeIn f.direction).problem = .ok p :=
  Instance.exists_problem (h.aligned.takeIn f.direction) (by simp [h.names])

variable {p : Problem ExtRat}

/-- The columns of the problem that was delivered. -/
theorem problem_eq (h : given.Delivers f) (hp : (given.takeIn f.direction).problem = .ok p) :
    p.vars.map (·.cost) = (f.costs.map ((f.direction.factor : ℚ) * ·)).map fin ∧
      p.offset = fin (f.direction.factor * f.constant) := by
  obtain ⟨hcost, hconstant⟩ := h.taken
  have hlists := Instance.lists_of_problem (h.aligned.takeIn f.direction) (by simp [h.names]) hp
  obtain ⟨-, -, -, -, -, -, -, hoffset⟩ := Instance.problem_eq_ok hp
  exact ⟨hlists.cost.trans hcost, hoffset.trans hconstant⟩

/-- Cost of a finite point. -/
theorem objective_eq (h : given.Delivers f) (hp : (given.takeIn f.direction).problem = .ok p)
    {x : List ℚ} (hx : x.length = f.costs.length) :
    p.objective (x.map fin) = .ok (fin (f.direction.factor * f.value x)) := by
  obtain ⟨hcost, hoffset⟩ := h.problem_eq hp
  unfold Problem.objective StatedObjective.value
  rw [hcost, hoffset, dot_map_fin _ _ (by rw [List.length_map, hx]), dotRat_map_mul, mul_add]
  rfl

/-- Only points with an entry for every cost have a cost. -/
theorem objective_eq_ok (h : given.Delivers f)
    (hp : (given.takeIn f.direction).problem = .ok p) {x : List ℚ} {v : ExtRat}
    (hv : p.objective (x.map fin) = .ok v) :
    x.length = f.costs.length ∧ v = fin (f.direction.factor * f.value x) := by
  have hlength : x.length = f.costs.length := by
    obtain ⟨hcost, -⟩ := h.problem_eq hp
    unfold Problem.objective Vec.dot at hv
    rw [hcost] at hv
    split at hv
    · rename_i hlength
      simpa using hlength.symm
    · cases hv
  refine ⟨hlength, ?_⟩
  rw [h.objective_eq hp hlength] at hv
  exact (Except.ok.inj hv).symm

end Instance.Delivers

/-- The sign of a value changes back. -/
theorem Cli.statedValue_factor (d : Direction) (v : ℚ) :
    Cli.statedValue d (fin (d.factor * v)) = fin v := by
  have hsquare : (d.factor : ℚ) * d.factor = 1 := by exact_mod_cast d.factor_mul_self
  unfold Cli.statedValue
  rw [ofInt_eq, fin_mul, ← mul_assoc, hsquare, one_mul]

end Signs

section Pools

variable {R σ : Type} [Arith R]

/-- A success of a run of the task has a point that the task may report, at its cost. -/
def PumpTask.Finds (task : PumpTask R σ) (o : Outcome R) : Prop :=
  ∀ point objective, o.ending = .success point objective →
    (∃ answered, task.MayReport answered point) ∧ task.problem.objective point = .ok objective

/-- The slot runs one of the tasks, and ends only with what the task finds. -/
def Slot.RunsOneOf (tasks : Set (PumpTask R σ)) : Slot R σ → Prop
  | .waiting task _ _ => task ∈ tasks
  | .active setup run => ∃ task ∈ tasks,
      (∃ started domain oracle first, task.Launched started domain oracle setup first) ∧
      ∀ o, run.stage = .ended (.ok o) → task.Finds o
  | .finished result _ _ => ∀ o, result = .ok o → ∃ task ∈ tasks, task.Finds o

variable {tasks : Set (PumpTask R σ)} {p p' : Pool R σ} {now : R} {i : ℕ}

/-- A slot that starts runs its task. -/
theorem Slot.runsOneOf_start {task : PumpTask R σ} (h : task ∈ tasks) (now : R) (domain : Domain R)
    (oracle : σ) : (Slot.start now task domain oracle).RunsOneOf tasks := by
  unfold Slot.start
  split
  · rename_i setup run hlaunch
    have hl := PumpTask.launched_of_launch hlaunch
    exact ⟨task, h, ⟨now, domain, oracle, run, hl⟩, fun o ho => absurd ho (hl.going _)⟩
  · nofun

/-- A step of a run ends it only with what its task finds. -/
theorem Slot.RunsOneOf.step {setup : Setup R σ} {run : Run R σ} {shared : Shared R}
    (h : (Slot.active setup run).RunsOneOf tasks) (going : ∀ result, run.stage ≠ .ended result)
    (now : R) :
    (Slot.active setup (World.step setup now { shared, run }).run).RunsOneOf tasks := by
  obtain ⟨task, htask, ⟨started, domain, oracle, first, hl⟩, -⟩ := h
  refine ⟨task, htask, ⟨started, domain, oracle, first, hl⟩, fun o ho point objective hending => ?_⟩
  rcases World.step_transition setup now { shared, run } with ⟨e, he⟩ | ht
  · cases he.symm.trans ho
  · obtain ⟨candidate, hcheck, hsolves, hcost⟩ := ht.solves ho going hending
    rw [hl.problem] at hcost
    exact ⟨hl.mayReport hcheck hsolves, hcost⟩

/-- A move of a pool keeps all its slots at their tasks. -/
theorem Pool.Move.runsOneOf (hmove : Pool.Move now i p p')
    (h : ∀ slot ∈ p.slots, slot.RunsOneOf tasks) : ∀ slot ∈ p'.slots, slot.RunsOneOf tasks := by
  cases hmove with
  | stays => exact h
  | starts hslot free =>
      exact forall_mem_set h hslot fun htask => Slot.runsOneOf_start htask _ _ _
  | steps hslot going hw =>
      subst hw
      exact forall_mem_set h hslot fun hrun => hrun.step going now
  | ends hslot ended =>
      refine forall_mem_set h hslot ?_
      rintro ⟨task, htask, -, hfinds⟩ o rfl
      exact ⟨task, htask, hfinds o ended⟩

/-- The outcomes of a pool are found by its tasks, under every schedule. -/
theorem Pool.finds_of_follow (h : ∀ slot ∈ p.slots, slot.RunsOneOf tasks)
    (schedule : List (ℕ × R)) {os : List (Outcome R)}
    (hos : (p.follow schedule).outcomes = .ok os) : ∀ o ∈ os, ∃ task ∈ tasks, task.Finds o := by
  have hslots : ∀ slot ∈ (p.follow schedule).slots, slot.RunsOneOf tasks :=
    Pool.follow_induct (I := fun p => ∀ slot ∈ p.slots, slot.RunsOneOf tasks)
      (fun _ _ _ _ h hmove => hmove.runsOneOf h) schedule h
  intro o ho
  obtain ⟨slot, hslot, hresult⟩ :=
    Vec.exists_of_mem_left (Pool.outcomes_eq_ok.mp hos).flip ho
  have hrun := hslots slot hslot
  cases slot with
  | waiting task domain oracle => cases hresult
  | active setup run => cases hresult
  | finished result oracle lines => exact hrun o (Option.some.inj hresult)

end Pools

section Answers

theorem Ending.isSuccess_iff {R : Type} {e : Ending R} :
    e.isSuccess = true ↔ ∃ objective, e.objective? = some objective := by
  cases e with
  | success point objective => exact iff_of_true rfl ⟨objective, rfl⟩
  | failure reason => exact iff_of_false nofun nofun

/-- The oracle that is made for an instance answers with finite points. -/
def Solver.AnswersFinite {σ : Type} (solver : Solver ExtRat σ) (m : Instance ExtRat) : Prop :=
  ∀ oracle start, solver m = .ok (oracle, start) → ∀ s box goal point,
    (oracle s box goal).answer = .ok point → ∃ x : List ℚ, point = x.map fin

/-- The optimum of a relaxation is a finite point. -/
theorem Relaxation.exists_fin_of_answer {r : Relaxation ExtRat} {s : RelaxationState ExtRat}
    {box : Box ExtRat} {goal : Goal ExtRat} {point : List ExtRat}
    (h : (r.oracle s box goal).answer = .ok point) : ∃ x : List ℚ, point = x.map fin := by
  unfold oracle at h
  split at h
  · dsimp only at h
    unfold answer at h
    split at h
    · cases h
    · unfold solveProgram at h
      split at h
      · exact ⟨_, (Except.ok.inj h).symm⟩
      all_goals cases h
  · cases h

theorem Relaxation.answersFinite_solver (m : Instance ExtRat) : solver.AnswersFinite m := by
  intro oracle start hsolver s box goal point hanswer
  obtain ⟨r, -, hr⟩ := Act.exceptBind_eq_ok.mp hsolver
  cases hr
  exact exists_fin_of_answer hanswer

/-- What may be reported is finite if the answers are. -/
theorem PumpTask.MayReport.exists_fin {σ : Type} {task : PumpTask ExtRat σ} {x : List ℚ}
    {full : List ExtRat} (h : task.MayReport (x.map fin) full) :
    ∃ y : List ℚ, full = y.map fin := by
  refine exists_map_fin fun v hv => ?_
  obtain ⟨k, hk⟩ := List.mem_iff_getElem?.mp hv
  by_cases hinteger : AtInteger task.problem.vars full.length k
  · exact isFinite_iff.mp ((h.coordinates hk).1 hinteger)
  · have hentry := (h.coordinates hk).2 hinteger
    rw [List.getElem?_map, Option.map_eq_some_iff] at hentry
    obtain ⟨q, -, hq⟩ := hentry
    exact ⟨q, hq.symm⟩

end Answers

namespace Cli

section Sessions

variable {R σ : Type} [Arith R] {solver : Solver R σ} {args : Arguments} {m : Instance R}
  {s : Settings R}

/-- What a session runs: the problem of an instance with an oracle that its solver has made. -/
def tasksOf (solver : Solver R σ) (m : Instance R) : Set (PumpTask R σ) :=
  {task | m.problem = .ok task.problem ∧ ∃ start, solver m = .ok (task.oracle, start)}

theorem slot_eq_ok {seed : Option Int} {new : Slot R σ}
    (h : slot solver args m seed s = .ok new) : new.RunsOneOf (tasksOf solver m) := by
  unfold slot at h
  obtain ⟨_, -, h⟩ := Act.exceptBind_eq_ok.mp h
  obtain ⟨problem, hproblem, h⟩ := Act.exceptBind_eq_ok.mp h
  obtain ⟨⟨oracle, start⟩, hsolver, h⟩ := Act.exceptBind_eq_ok.mp h
  cases seed with
  | none =>
      cases h
      exact ⟨hproblem, start, hsolver⟩
  | some seed =>
      cases h
      exact ⟨hproblem, start, hsolver⟩

theorem slotsOf_eq_ok {seeds : List (Option Int)} {slots : List (Slot R σ)}
    (h : slotsOf solver args m s seeds = .ok slots) :
    ∀ slot ∈ slots, slot.RunsOneOf (tasksOf solver m) := by
  unfold slotsOf at h
  obtain ⟨made, hmade, h⟩ := Act.exceptBind_eq_ok.mp h
  have hslots : made = slots := by
    split at h
    · obtain ⟨_, -, h⟩ := Act.exceptBind_eq_ok.mp h
      cases h
    · exact Except.ok.inj h
  subst hslots
  intro slot hslot
  obtain ⟨seed, -, hseed⟩ := Vec.exists_of_mem_left (Vec.mapM_eq_ok.mp hmade).flip hslot
  exact slot_eq_ok hseed

/-- A session that is set up has the instance and runs its tasks. -/
theorem setUp_eq_ok {now : R} {line : String} {job : Job R σ}
    (h : setUp solver args m s now = .ok (line, .ok job)) :
    job.instanceData = m ∧ ∀ slot ∈ job.pool.slots, slot.RunsOneOf (tasksOf solver m) := by
  have hpool {s : Settings R} (h : setUpPool solver args m s now = (line, .ok job)) :
      job.instanceData = m ∧ ∀ slot ∈ job.pool.slots, slot.RunsOneOf (tasksOf solver m) := by
    obtain ⟨slots, hslots, h⟩ := Act.exceptBind_eq_ok.mp (Prod.mk.inj h).2
    cases h
    exact ⟨rfl, slotsOf_eq_ok hslots⟩
  have hrun {s : Settings R} (h : setUpRun solver args m s = (line, .ok job)) :
      job.instanceData = m ∧ ∀ slot ∈ job.pool.slots, slot.RunsOneOf (tasksOf solver m) := by
    obtain ⟨slots, hslots, h⟩ := Act.exceptBind_eq_ok.mp (Prod.mk.inj h).2
    cases h
    exact ⟨rfl, slotsOf_eq_ok hslots⟩
  unfold setUp at h
  obtain ⟨_, -, h⟩ := Act.exceptBind_eq_ok.mp h
  split at h
  · obtain ⟨_, -, h⟩ := Act.exceptBind_eq_ok.mp h
    exact hpool (Except.ok.inj h)
  · split at h
    · exact hrun (Except.ok.inj h)
    · exact hrun (Except.ok.inj h)

end Sessions

section Reports

variable {σ : Type} {solver : Solver ExtRat σ} {given : Instance ExtRat} {f : StatedObjective}
  {p : Problem ExtRat} {os : List (Outcome ExtRat)} {args : Arguments} {s : Settings ExtRat}

/-- The outcomes of a session have finite points at their cost, under every schedule. -/
theorem priced_of_setUp {m : Instance ExtRat} (hp : m.problem = .ok p)
    (hfinite : solver.AnswersFinite m) {now : ExtRat} {line : String} {job : Job ExtRat σ}
    (h : setUp solver args m s now = .ok (line, .ok job))
    (schedule : List (ℕ × ExtRat)) (hos : (job.pool.follow schedule).outcomes = .ok os) :
    ∀ o ∈ os, o.Priced p := by
  intro o ho point objective hending
  obtain ⟨task, ⟨hproblem, start, hsolver⟩, hfinds⟩ :=
    Pool.finds_of_follow (setUp_eq_ok h).2 schedule hos o ho
  cases hp.symm.trans hproblem
  obtain ⟨⟨answered, hreport⟩, hcost⟩ := hfinds point objective hending
  obtain ⟨state, box, goal, hanswer⟩ := hreport.answer
  obtain ⟨x, rfl⟩ := hfinite _ _ hsolver _ _ _ _ hanswer
  exact ⟨hreport.exists_fin, hcost⟩

/-- The outcome is reported, at its value in the file, and no success has a better one. -/
structure Reports (f : StatedObjective) (os : List (Outcome ExtRat)) (o : Outcome ExtRat)
    (x : List ℚ) : Prop where
  reported : reported? os = some o
  success : ∃ objective, o.ending = .success (x.map fin) objective ∧
    statedValue f.direction objective = fin (f.value x)
  best : f.IsBest (f.valuesOf os) (f.value x)

/-- A success has the cost that the file gives its point, up to the sign. -/
theorem success_cost (h : given.Delivers f) (hp : (given.takeIn f.direction).problem = .ok p)
    {o : Outcome ExtRat} (ho : o.Priced p) {objective : ExtRat}
    (hobjective : o.ending.objective? = some objective) :
    ∃ x : List ℚ, o.ending = .success (x.map fin) objective ∧
      objective = fin (f.direction.factor * f.value x) := by
  cases hending : o.ending with
  | failure reason =>
      rw [hending] at hobjective
      cases hobjective
  | success point value =>
      rw [hending] at hobjective
      cases hobjective
      obtain ⟨⟨x, rfl⟩, hvalue⟩ := ho _ _ hending
      exact ⟨x, rfl, (h.objective_eq_ok hp hvalue).2⟩

/-- The best success is reported, if there is one. -/
theorem exists_reports (h : given.Delivers f) (hp : (given.takeIn f.direction).problem = .ok p)
    (hpriced : ∀ o ∈ os, o.Priced p) (hsuccess : ∃ o ∈ os, o.ending.isSuccess = true) :
    ∃ o ∈ os, ∃ x, Reports f os o x := by
  have hmem {o : Outcome ExtRat} (ho : o ∈ os) :
      o.ending.objective? ∈ (os.map (·.ending)).map Ending.objective? :=
    List.mem_map_of_mem (List.mem_map_of_mem ho)
  have hnumbers : ∀ e ∈ os.map (·.ending), e.objective? ≠ some nan := by
    intro e he hnan
    obtain ⟨o, ho, rfl⟩ := List.mem_map.mp he
    obtain ⟨x, -, hx⟩ := success_cost h hp (hpriced o ho) hnan
    cases hx
  obtain ⟨best, hbest, hleast⟩ := firstLeast_bestOf (os.map (·.ending)) hnumbers
  cases best with
  | none =>
      obtain ⟨o, ho, hsuccess⟩ := hsuccess
      obtain ⟨objective, hobjective⟩ := Ending.isSuccess_iff.mp hsuccess
      cases hobjective.symm.trans (hleast _ (hmem ho))
  | some best =>
      obtain ⟨i, least⟩ := best
      obtain ⟨hi, -, hall⟩ := hleast
      simp only [List.getElem?_map, Option.map_map, Option.map_eq_some_iff] at hi
      obtain ⟨o, hi, hobjective⟩ := hi
      have ho := List.mem_of_getElem? hi
      obtain ⟨x, hending, rfl⟩ := success_cost h hp (hpriced o ho) hobjective
      refine ⟨o, ho, x, ?_, ⟨_, hending, statedValue_factor _ _⟩, ?_⟩
      · unfold reported?
        rw [hbest]
        exact hi
      · refine StatedObjective.isBest_of_least ⟨o, ho, x, ⟨_, hending⟩, rfl⟩ ?_
        rintro _ ⟨o', ho', y, ⟨objective, hy⟩, rfl⟩
        obtain ⟨-, hcost⟩ := hpriced o' ho' _ _ hy
        obtain ⟨-, rfl⟩ := h.objective_eq_ok hp hcost
        have hle := hmem ho'
        rw [hy] at hle
        exact (fin_le_fin _ _).mp (hall _ hle)

/-- What a session tells in the end about the success that it reports. -/
theorem conclude_of_reports {number : ExtRat → String} {job : Job ExtRat σ}
    (hdirection : job.instanceData.direction = f.direction) {time : String}
    {pool : Pool ExtRat σ} (hos : pool.outcomes = .ok os)
    {o : Outcome ExtRat} {x : List ℚ} (h : Reports f os o x) :
    (conclude number job time pool).exit = .ok exitFound ∧ ∃ rest,
      (conclude number job time pool).text =
        counters o time ++ found (number (fin (f.value x))) ++ rest := by
  obtain ⟨hreported, ⟨objective, hending, hvalue⟩, -⟩ := h
  have hverdict : verdict number job.instanceData.direction o =
      found (number (fin (f.value x))) := by
    unfold verdict
    rw [hending, ← hvalue, hdirection]
  have hsuccess : o.ending.isSuccess = true := by
    rw [hending]
    rfl
  have hconclude : conclude number job time pool = report number job time o := by
    unfold conclude
    rw [hos]
    dsimp only
    rw [hreported]
  rw [hconclude]
  unfold report
  rw [hverdict, hsuccess]
  dsimp only
  split
  · refine ⟨rfl, "\n📈 Distance plot saved to " ++ pictureName job.instanceData.name ++ "\n", ?_⟩
    simp only [String.append_assoc]
  · exact ⟨rfl, "", String.append_empty.symm⟩

end Reports

section Result

/-- The outcomes of a session under a schedule. -/
def outcomesUnder {σ : Type} (solver : Solver ExtRat σ) (args : Arguments) (m : Instance ExtRat)
    (s : Settings ExtRat) (schedule : List (ℕ × ExtRat)) :
    Except (Fault ExtRat) (List (Outcome ExtRat)) := do
  let (_, made) ← setUp solver args m s 0
  let job ← made
  (job.pool.follow schedule).outcomes

theorem outcomesUnder_eq_ok {σ : Type} {solver : Solver ExtRat σ} {args : Arguments}
    {m : Instance ExtRat} {s : Settings ExtRat} {schedule : List (ℕ × ExtRat)}
    {os : List (Outcome ExtRat)}
    (h : outcomesUnder solver args m s schedule = .ok os) :
    ∃ line job, setUp solver args m s 0 = .ok (line, .ok job) ∧
      (job.pool.follow schedule).outcomes = .ok os := by
  obtain ⟨⟨line, made⟩, hsetUp, h⟩ := Act.exceptBind_eq_ok.mp h
  obtain ⟨job, hjob, h⟩ := Act.exceptBind_eq_ok.mp h
  exact ⟨line, job, hjob ▸ hsetUp, h⟩

/-- **The objective is reported as the file states it.**  Let a reader have delivered an instance
with the objective of a file, and let `m` be the instance as it is taken in.  There is a problem for
it, whose objective is the one of `m`; its stated value is the value of the file, and it orders points
from the best to the worst as the file does.  Among any outcomes whose successes have finite points
at their cost, one of them a success, a success is reported with its value in the file, which is the
least of all successes for a minimisation and the greatest for a maximisation.  The outcomes of a
session are like that for every solver with finite answers, whatever its workers and its schedule,
and the session ends by telling that value. -/
theorem stated_objective_reported {given m : Instance ExtRat} {f : StatedObjective}
    (h : given.Delivers f) (hm : given.takeIn f.direction = m) :
    ∃ p, m.problem = .ok p ∧
      (∀ x : List ℚ, x.length = f.costs.length → ∃ v,
        p.objective (x.map fin) = .ok v ∧
        (Vec.dot m.cost (x.map fin)).map (· + m.constant) = .ok v ∧
        statedValue m.direction v = fin (f.value x)) ∧
      (∀ (x y : List ℚ) (v w : ExtRat), p.objective (x.map fin) = .ok v →
        p.objective (y.map fin) = .ok w → (v < w ↔ f.Better (f.value x) (f.value y))) ∧
      (∀ os : List (Outcome ExtRat), (∀ o ∈ os, o.Priced p) →
        (∃ o ∈ os, o.ending.isSuccess = true) → ∃ o ∈ os, ∃ x, Reports f os o x) ∧
      ∀ (σ : Type) (solver : Solver ExtRat σ) (args : Arguments) (s : Settings ExtRat)
        (now : ExtRat) (line : String) (job : Job ExtRat σ) (schedule : List (ℕ × ExtRat))
        (os : List (Outcome ExtRat)),
        solver.AnswersFinite m → setUp solver args m s now = .ok (line, .ok job) →
        (job.pool.follow schedule).outcomes = .ok os → (∀ o ∈ os, o.Priced p) ∧
        ((∃ o ∈ os, o.ending.isSuccess = true) → ∃ o ∈ os, ∃ x, Reports f os o x ∧
          ∀ (number : ExtRat → String) (time : String),
            (conclude number job time (job.pool.follow schedule)).exit = .ok exitFound ∧
            ∃ rest, (conclude number job time (job.pool.follow schedule)).text =
              counters o time ++ found (number (fin (f.value x))) ++ rest) := by
  subst hm
  obtain ⟨p, hp⟩ := h.exists_problem
  have hdirection : (given.takeIn f.direction).direction = f.direction :=
    Instance.direction_takeIn _ _
  refine ⟨p, hp, fun x hx => ?_, fun x y v w hv hw => ?_, fun os => exists_reports h hp, ?_⟩
  · have hobjective := h.objective_eq hp hx
    refine ⟨_, hobjective, ?_, ?_⟩
    · rw [← hobjective, Problem.objective, (h.problem_eq hp).1, (h.problem_eq hp).2, h.taken.1,
        h.taken.2]
    · rw [hdirection]
      exact statedValue_factor _ _
  · obtain ⟨-, rfl⟩ := h.objective_eq_ok hp hv
    obtain ⟨-, rfl⟩ := h.objective_eq_ok hp hw
    rw [fin_lt_fin, f.factor_lt_iff]
  · intro σ solver args s now line job schedule os hfinite hsetUp hos
    have hpriced := priced_of_setUp hp hfinite hsetUp schedule hos
    refine ⟨hpriced, fun hsuccess => ?_⟩
    obtain ⟨o, ho, x, hreports⟩ := exists_reports h hp hpriced hsuccess
    exact ⟨o, ho, x, hreports, fun number time => conclude_of_reports
      ((congrArg Instance.direction (setUp_eq_ok hsetUp).1).trans hdirection) hos hreports⟩

/-- Two binary variables with `2x + 2y ≤ 3`, as a reader delivers them. -/
def twoBits : Instance ExtRat where
  name := "bits.mps"
  cost := [1, 2]
  constant := 3
  direction := .minimize
  coefficients := [[2, 2]]
  rhs := [3]
  senses := [.atMost]
  lb := [0, 0]
  ub := [1, 1]
  kinds := [.binary, .binary]
  names := ["x", "y"]
  rowNames := ["row"]

/-- The greatest value of `x + 2y + 3`. -/
def greatestSum : StatedObjective := { direction := .maximize, costs := [1, 2], constant := 3 }

theorem delivers_twoBits : twoBits.Delivers greatestSum where
  aligned := ⟨rfl, rfl, rfl, by decide, rfl, rfl, rfl⟩
  names := rfl
  cost := rfl
  constant := rfl

/-- Two runs. -/
def twoRuns : Arguments := { path := "bits.mps", settings := {}, workers := 2 }

/-- Rounding by draws. -/
def byDraws : Settings ExtRat := { rounding := .randomized, randomSeed := 3 }

/-- The second run looks for the last time before the first one has ended. -/
def interleaved : List (ℕ × ExtRat) :=
  (0, 0) :: List.replicate 4 (1, 0) ++ List.replicate 9 (0, 0) ++ List.replicate 2 (1, 0)

/-- Of two successes of a maximisation the second is reported, which has the greater value. -/
theorem greatest_value_reported :
    Relaxation.solver.AnswersFinite (twoBits.takeIn .maximize) ∧ ∃ line job os,
      setUp Relaxation.solver twoRuns (twoBits.takeIn .maximize) byDraws 0 = .ok (line, .ok job) ∧
      (job.pool.follow interleaved).outcomes = .ok os ∧
      os.map (·.ending.objective?) = [some (fin (-4)), some (fin (-5))] ∧
      ∃ o ∈ os, ∃ x, Reports greatestSum os o x ∧ greatestSum.value x = 5 := by
  have hfound : (outcomesUnder Relaxation.solver twoRuns (twoBits.takeIn .maximize) byDraws
      interleaved).toOption.map
      (fun os => (os.map (·.ending.objective?), (reported? os).map (·.ending.objective?))) =
      some ([some (fin (-4)), some (fin (-5))], some (some (fin (-5)))) := by decide +kernel
  obtain ⟨os, hos, hviews⟩ := Act.exists_ok_of_map hfound
  obtain ⟨hvalues, hbest⟩ := Prod.mk.inj hviews
  obtain ⟨line, job, hsetUp, hos⟩ := outcomesUnder_eq_ok hos
  obtain ⟨p, -, -, -, -, hsession⟩ := stated_objective_reported delivers_twoBits rfl
  have hfinite := Relaxation.answersFinite_solver (twoBits.takeIn .maximize)
  obtain ⟨-, hreports⟩ := hsession _ _ _ _ _ _ _ _ _ hfinite hsetUp hos
  have hmem : some (fin (-5)) ∈ os.map (·.ending.objective?) := by
    rw [hvalues]
    exact List.mem_of_getElem? (i := 1) rfl
  obtain ⟨o', ho', hobjective⟩ := List.mem_map.mp hmem
  obtain ⟨o, ho, x, hx, -⟩ := hreports ⟨o', ho', Ending.isSuccess_iff.mpr ⟨_, hobjective⟩⟩
  refine ⟨hfinite, line, job, os, hsetUp, hos, hvalues, o, ho, x, hx, ?_⟩
  obtain ⟨objective, hending, hstated⟩ := hx.success
  rw [hx.reported, Option.map_some, hending] at hbest
  cases hbest
  have hfive : statedValue .maximize (fin (-5)) = fin 5 := by decide +kernel
  exact fin.inj (hstated.symm.trans hfive)

end Result

end Cli

end MipPump
