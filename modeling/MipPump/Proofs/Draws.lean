import MipPump.Proofs.RestingBounds

/-!
# Random draws of a rounding

A rounding may draw random numbers: the randomized policy for its values, and the propagating policy
for a random ranking.

* `keeps_drawn_roundByPolicy`: a rounding moves the generator and changes nothing else of the
  progress.
* `roundOrNearest_fits`: a rounding that draws answers only if there are fewer integer variables
  than numbers fit the memory.
-/

namespace MipPump

section Progresses

variable {R : Type}

/-- The second progress differs from the first in its generator only. -/
def Progress.Drawn (p q : Progress R) : Prop := ∃ g, q = { p with generator := g }

theorem Progress.Drawn.refl (p : Progress R) : p.Drawn p := ⟨p.generator, rfl⟩

/-- A fault other than that of propagation. -/
def Fault.NotEmptied (e : Fault R) : Prop := ∀ j lb ub, e ≠ .emptiedDomain j lb ub

/-- The faults of a ranking: lists that do not fit together, and numbers that cannot be drawn. -/
def Fault.OfRanking (e : Fault R) : Prop :=
  e = .noSuchEntry ∨ e = .lengthsDiffer ∨ e = .impossibleCount ∨ e = .unboundedRange ∨
    e = .reversedRange

theorem Fault.OfRanking.notEmptied {e : Fault R} (h : e.OfRanking) : e.NotEmptied := by
  rintro j lb ub rfl
  rcases h with h | h | h | h | h <;> cases h

theorem Progress.keeps_draw {α : Type} (p : Progress R)
    (f : Random.Generator → α × Random.Generator) : Act.Keeps p.Drawn (draw f) := by
  rintro _ ⟨g, rfl⟩
  exact ⟨(f g).2, rfl⟩

variable (p : Progress R)

theorem Progress.keeps_drawMany (f : Random.Generator → R × Random.Generator) (n : Int) :
    Act.Keeps p.Drawn (drawMany f n) := by
  unfold drawMany
  exact Act.keeps_ite (Act.keeps_throw _) (keeps_draw p _)

/-- Numbers are drawn only if they fit the memory. -/
theorem Progress.drawMany_fits {f : Random.Generator → R × Random.Generator} {n : Int}
    {xs : List R} {q : Progress R} (h : drawMany f n p = .ok xs q) : n < countLimit := by
  unfold drawMany at h
  split at h
  · cases h
  · rename_i hn
    simp only [Bool.or_eq_true, decide_eq_true_eq, not_or, Int.not_le] at hn
    exact hn.2

theorem Random.Generator.length_many {α : Type} (f : Generator → α × Generator) (n : Nat)
    (g : Generator) : (many f n g).1.length = n := by
  induction n generalizing g with
  | zero => rfl
  | succ n ih => simp [many, ih]

/-- Numbers that fit the memory can be drawn. -/
theorem Progress.drawMany_of_fits (f : Random.Generator → R × Random.Generator) {n : Nat}
    (h : (n : Int) < countLimit) : ∃ xs q, drawMany f n p = .ok xs q ∧ xs.length = n := by
  have hn : ¬ (decide ((n : Int) < 0) || decide (countLimit ≤ (n : Int))) = true := by
    simp only [Bool.or_eq_true, decide_eq_true_eq]
    omega
  refine ⟨_, { p with generator := (Random.Generator.many f n p.generator).2 }, ?_,
    Random.Generator.length_many f n p.generator⟩
  unfold drawMany
  rw [if_neg hn, Int.toNat_natCast]
  rfl

variable [Arith R]

theorem Progress.keeps_drawUniform (low high : R) (n : Int) :
    Act.Keeps p.Drawn (drawUniform low high n) := by
  unfold drawUniform
  exact Act.keeps_ite (Act.keeps_throw _)
    (Act.keeps_ite (Act.keeps_throw _) (keeps_drawMany p _ n))

theorem Progress.drawUniform_fits {low high : R} {n : Int} {xs : List R} {q : Progress R}
    (h : drawUniform low high n p = .ok xs q) : n < countLimit := by
  unfold drawUniform at h
  split at h
  · cases h
  · split at h
    · cases h
    · exact drawMany_fits p h

end Progresses

section Rankings

variable {R : Type} [Arith R] (p : Progress R)

/-- Ranking moves the generator and nothing else. -/
theorem Ranker.keeps_rank (k : Ranker R) (t : Table R) (point : List R)
    (candidate : Option (List R)) : Act.Keeps p.Drawn (k.rank t point candidate) := by
  have hweigh (base : List R) : Act.Keeps p.Drawn (k.weigh base) := by
    unfold weigh
    split
    · exact Act.keeps_pure _
    · exact Act.keeps_ofExcept _
    · exact Act.keeps_bind (Progress.keeps_drawUniform p _ _ _) fun _ => Act.keeps_ofExcept _
  unfold rank scores
  refine Act.keeps_bind ?_ fun scores => Act.keeps_ite (Act.keeps_pure _) (Act.keeps_throw _)
  refine Act.keeps_bind (Act.keeps_ofExcept _) fun values => ?_
  refine Act.keeps_bind (Act.keeps_ofExcept _) fun base => ?_
  refine Act.keeps_bind (hweigh base) fun weighed => ?_
  refine Act.keeps_ite (Act.keeps_bind ?_ fun _ => Act.keeps_pure _)
    (Act.keeps_bind (Act.keeps_pure _) fun _ => Act.keeps_pure _)
  unfold penalize
  exact Act.keeps_bind Act.keeps_get fun q => Act.keeps_bind (Act.keeps_ofExcept _) fun counts =>
    Act.keeps_ofExcept _

/-- A random ranking draws one number for each integer variable. -/
theorem Ranker.rank_fits {k : Ranker R} (hk : k.policy = .random) {t : Table R} {point : List R}
    {order : List Int} {q : Progress R} (h : k.rank t point none p = .ok order q) :
    (t.numIntegers : Int) < Progress.countLimit := by
  unfold rank at h
  obtain ⟨scored, p₁, hscores, -⟩ := Act.bind_eq_ok.mp h
  unfold scores at hscores
  obtain ⟨values, p₂, hvalues, hscores⟩ := Act.bind_eq_ok.mp hscores
  obtain ⟨hpick, rfl⟩ := Act.ofExcept_eq_ok.mp hvalues
  obtain ⟨base, p₃, hbase, hscores⟩ := Act.bind_eq_ok.mp hscores
  obtain ⟨hclose, rfl⟩ := Act.ofExcept_eq_ok.mp hbase
  obtain ⟨weighed, p₄, hweigh, -⟩ := Act.bind_eq_ok.mp hscores
  unfold weigh at hweigh
  rw [hk] at hweigh
  obtain ⟨draws, p₅, hdraw, -⟩ := Act.bind_eq_ok.mp hweigh
  have hlen : base.length = t.numIntegers := by
    cases hclose
    rw [List.length_map]
    exact Vec.length_of_pick hpick
  rw [← hlen]
  exact Progress.drawUniform_fits _ hdraw

/-- A ranking stops only for a fault of its own. -/
theorem Ranker.throws_rank (k : Ranker R) (t : Table R) (point : List R) :
    Act.Throws Fault.OfRanking (k.rank t point none) := by
  have hweigh (base : List R) : Act.Throws Fault.OfRanking (k.weigh base) := by
    unfold weigh
    split
    · exact Act.throws_pure _
    · exact Act.throws_ofExcept fun e he => .inr (.inl (Vec.map2_eq_error he))
    · refine Act.throws_bind ?_ fun factors => Act.throws_ofExcept fun e he =>
        .inr (.inl (Vec.map2_eq_error he))
      unfold Progress.drawUniform Progress.drawMany
      refine Act.throws_ite (Act.throws_throw ?_) (Act.throws_ite (Act.throws_throw ?_)
        (Act.throws_ite (Act.throws_throw ?_) ?_))
      · exact .inr (.inr (.inr (.inl rfl)))
      · exact .inr (.inr (.inr (.inr rfl)))
      · exact .inr (.inr (.inl rfl))
      · intro _ _ _ h
        cases h
  unfold rank scores
  refine Act.throws_bind ?_ fun scores => Act.throws_ite (Act.throws_pure _)
    (Act.throws_throw (.inr (.inl rfl)))
  refine Act.throws_bind (Act.throws_ofExcept fun e he => .inl (Vec.pick_eq_error he))
    fun values => ?_
  refine Act.throws_bind (Act.throws_ofExcept fun e he => by cases he) fun base => ?_
  refine Act.throws_bind (hweigh base) fun weighed => ?_
  rw [Option.isSome_none, Bool.and_false, if_neg Bool.false_ne_true]
  exact Act.throws_bind (Act.throws_pure _) fun _ => Act.throws_pure _

end Rankings

section Roundings

variable {R σ : Type} [Arith R]

open Rounding

theorem Rounding.keeps_randomizedPoint (p : Progress R) (eps : R) (t : Table R) (point : List R) :
    Act.Keeps p.Drawn (randomizedPoint eps t point) := by
  unfold randomizedPoint
  refine Act.keeps_bind (Act.keeps_ofExcept _) fun values => ?_
  exact Act.keeps_bind (Progress.keeps_drawMany p _ _) fun draws => Act.keeps_pure _

theorem Rounding.keeps_drawn_propagatedPoint (p : Progress R) (tieBreak : TieBreak) (eps : R)
    (t : Table R) (ranker : Ranker R) (point : List R) :
    Act.Keeps (fun ws => p.Drawn ws.progress) (propagatedPoint tieBreak eps t ranker point) := by
  unfold propagatedPoint
  refine Act.keeps_get_bind fun ws hws => Act.keeps_bind (Act.keeps_ofExcept _) fun bounds => ?_
  refine Act.keeps_bind (Act.keeps_set hws) fun _ => ?_
  refine Act.keeps_bind ?_ fun order => ?_
  · exact Act.keeps_zoom (ranker.keeps_rank p t point none) (fun _ hs => hs) fun _ _ _ hq => hq
  exact Act.keeps_bind (Act.keeps_zoom_of_put _ fun _ _ hs => hs) fun writes =>
    Act.keeps_ofExcept _

theorem Rounding.randomizedPoint_fits {eps : R} {t : Table R} {point x : List R}
    {p q : Progress R} (h : randomizedPoint eps t point p = .ok x q) :
    (t.numIntegers : Int) < Progress.countLimit := by
  unfold randomizedPoint at h
  obtain ⟨values, p₁, hvalues, h⟩ := Act.bind_eq_ok.mp h
  obtain ⟨hpick, rfl⟩ := Act.ofExcept_eq_ok.mp hvalues
  obtain ⟨draws, p₂, hdraw, -⟩ := Act.bind_eq_ok.mp h
  have hlen : values.length = t.numIntegers := Vec.length_of_pick hpick
  rw [← hlen]
  exact Progress.drawMany_fits _ hdraw

theorem Rounding.throws_randomizedPoint (eps : R) (t : Table R) (point : List R) :
    Act.Throws Fault.NotEmptied (randomizedPoint eps t point) := by
  unfold randomizedPoint
  refine Act.throws_bind (Act.throws_ofExcept fun e he => ?_) fun values => ?_
  · rw [Vec.pick_eq_error he]
    intro _ _ _ h
    cases h
  refine Act.throws_bind ?_ fun draws => Act.throws_pure _
  unfold Progress.drawUnits Progress.drawMany
  refine Act.throws_ite (Act.throws_throw ?_) ?_
  · intro _ _ _ h
    cases h
  · intro _ _ _ h
    cases h

/-- Rounding with propagation ranks the variables before it can empty a domain. -/
theorem Rounding.propagatedPoint_ranked (tieBreak : TieBreak) (eps : R) (t : Table R)
    (ranker : Ranker R) (point : List R) (ws : Workspace R) :
    (∃ order q, ranker.rank t point none ws.progress = .ok order q) ∨
      ∃ e ws', propagatedPoint tieBreak eps t ranker point ws = .error e ws' ∧ e.NotEmptied := by
  cases hrank : ranker.rank t point none ws.progress with
  | ok order q => exact Or.inl ⟨order, q, rfl⟩
  | error e q =>
      right
      unfold propagatedPoint
      rw [Act.bind_of_ok (Act.get_apply ws)]
      cases hb : (List.range t.numVars).mapM fun (j : Nat) => ws.domain.bounds j with
      | error e' =>
          refine ⟨e', ws, Act.bind_of_error (by rw [Act.ofExcept_error]), ?_⟩
          obtain ⟨j, -, hj⟩ := Vec.mapM_eq_error hb
          rcases Box.bounds_eq_error hj with rfl | rfl
          · intro _ _ _ h
            cases h
          · intro _ _ _ h
            cases h
      | ok bounds =>
          rw [Act.bind_of_ok (Act.ofExcept_ok bounds ws), Act.bind_of_ok (Act.set_apply ws _)]
          exact ⟨e, _, Act.bind_of_error (Act.zoom_of_error hrank),
            (ranker.throws_rank t point hrank).notEmptied⟩

/-- A policy that draws a number for each integer variable can do so. -/
def Setup.DrawsFit (setup : Setup R σ) : Prop :=
  setup.settings.rounding = .randomized ∨
      setup.settings.rounding = .propagation ∧ setup.ranker.policy = .random →
    (setup.table.numIntegers : Int) < Progress.countLimit

namespace World

theorem roundByPolicy_of_nearest {setup : Setup R σ} (h : setup.settings.rounding = .nearest)
    (point : List R) :
    roundByPolicy setup point = Act.ofExcept (nearestPoint setup.settings.tieBreak
      setup.settings.toleranceEpsilon setup.table point) := by
  simp only [roundByPolicy, h]

theorem roundByPolicy_of_randomized {setup : Setup R σ}
    (h : setup.settings.rounding = .randomized) (point : List R) :
    roundByPolicy setup point = Workspace.onProgress
      (randomizedPoint setup.settings.toleranceEpsilon setup.table point) := by
  simp only [roundByPolicy, h]

theorem roundByPolicy_of_propagation {setup : Setup R σ}
    (h : setup.settings.rounding = .propagation) (point : List R) :
    roundByPolicy setup point = propagatedPoint setup.settings.tieBreak
      setup.settings.toleranceEpsilon setup.table setup.ranker point := by
  simp only [roundByPolicy, h]

/-- A rounding moves the generator and changes nothing else of the progress. -/
theorem keeps_drawn_roundByPolicy (p : Progress R) (setup : Setup R σ) (point : List R) :
    Act.Keeps (fun ws => p.Drawn ws.progress) (roundByPolicy setup point) := by
  unfold roundByPolicy
  dsimp only
  split
  · exact Act.keeps_ofExcept _
  · exact Act.keeps_zoom (keeps_randomizedPoint p _ _ _) (fun _ hs => hs) fun _ _ _ hq => hq
  · exact keeps_drawn_propagatedPoint p _ _ _ _ _

/-- A rounding answers only if its draws fit the memory. -/
theorem roundOrNearest_fits {setup : Setup R σ} {point : List R} {ws ws' : Workspace R}
    {x : List R × Bool} (h : roundOrNearest setup point ws = .ok x ws') : setup.DrawsFit := by
  rintro (hr | ⟨hr, hk⟩)
  · unfold roundOrNearest at h
    rw [roundByPolicy_of_randomized hr] at h
    unfold Workspace.onProgress at h
    split at h
    · rename_i hround
      obtain ⟨q, hq, -⟩ := Act.zoom_eq_ok.mp hround
      exact randomizedPoint_fits hq
    · rename_i hround
      obtain ⟨q, hq, -⟩ := Act.zoom_eq_error.mp hround
      exact absurd rfl (throws_randomizedPoint _ _ _ hq _ _ _)
    · cases h
  · rcases propagatedPoint_ranked setup.settings.tieBreak setup.settings.toleranceEpsilon
      setup.table setup.ranker point ws with ⟨order, q, hrank⟩ | ⟨e, ws₁, he, hne⟩
    · exact Ranker.rank_fits _ hk hrank
    · unfold roundOrNearest at h
      rw [roundByPolicy_of_propagation hr, he] at h
      cases e with
      | emptiedDomain j lb ub => exact absurd rfl (hne j lb ub)
      | _ => cases h

end World

end Roundings

end MipPump
