import MipPump.Proofs.ProgramCosts

/-!
# Relaxations kept between solves

A relaxation is built once and changed in place from solve to solve.  Nothing of the earlier calls
shows in a later solve, except for the bounds that went through.

* `Relaxation.performAll`: what a sequence of calls leaves, among them calls that were refused.
* `Kept.Sound`: between two calls the columns have the bounds that are reported, and the auxiliary
  columns are sound.  Every call keeps this (`Relaxation.sound_perform`).
* `Relaxation.program_of_performAll`: the program of a solve is that of the instance in the bounds
  that are reported, and costs what its goal says.
-/

namespace MipPump

open ExtRat

section Meaning

/-- A call on a relaxation that is kept. -/
inductive Call where
  | solve (goal : Goal ExtRat)
  | tighten (i : Int) (lb ub : ExtRat)

/-- A relaxation between two calls: costs and auxiliary columns, the bounds that are reported, and
the bounds of the columns. -/
structure Kept where
  state : RelaxationState ExtRat
  domain : Domain ExtRat
  columns : Box ExtRat

/-- The relaxation of an instance before the first call. -/
def Relaxation.opened (r : Relaxation ExtRat) (m : Instance ExtRat) : Kept :=
  { state := r.start, domain := { box := ⟨m.lb, m.ub⟩ }, columns := r.columns m }

/-- What a call leaves, whether it answers or stops with a fault. -/
def Relaxation.perform (r : Relaxation ExtRat) (k : Kept) : Call → Kept
  | .solve goal => { k with state := (r.oracle k.state k.columns goal).next }
  | .tighten i lb ub =>
      let (domain, columns) := (Relaxation.tighten i lb ub).after (k.domain, k.columns)
      { k with domain, columns }

/-- What a sequence of calls leaves. -/
def Relaxation.performAll (r : Relaxation ExtRat) (k : Kept) (calls : List Call) : Kept :=
  calls.foldl r.perform k

/-- A call with targets that are not infinite or bounds that are numbers.  A solve may still be
refused, and so may bounds. -/
def Call.Sane : Call → Prop
  | .solve goal => ∀ t ∈ goal.targets, Arith.isInf t.value = false
  | .tighten _ lb ub => lb ≠ nan ∧ ub ≠ nan

end Meaning

section Bounds

/-- Bounds that are numbers are set in the domain and in the columns alike, or nothing changes. -/
theorem Relaxation.tighten_cases {d : Domain ExtRat} {i : Int} {lb ub : ExtRat} (hlb : lb ≠ nan)
    (hub : ub ≠ nan) :
    (∃ e, Relaxation.tighten i lb ub (d, d.box) = .error e (d, d.box)) ∨
      ∃ d', d'.box.lb.length = d.box.lb.length ∧ d'.box.ub.length = d.box.ub.length ∧
        Relaxation.tighten i lb ub (d, d.box) = .ok () (d', d'.box) := by
  have hvalue {x : ExtRat} (hx : x ≠ nan) : requireValue x = .ok () := by
    cases x <;> first | exact absurd rfl hx | rfl
  unfold Relaxation.tighten
  cases hd : Domain.tighten i lb ub d with
  | error e d' =>
      rw [Domain.tighten_eq_error hd] at hd
      exact .inl ⟨e, Act.bind_of_error (Act.zoom_of_error hd)⟩
  | ok _ d' =>
      obtain ⟨-, box, hset, rfl⟩ := Domain.tighten_eq_ok.mp hd
      obtain ⟨-, hl, hu⟩ := Box.set_eq_ok.mp hset
      refine .inr ⟨⟨box, d.changes ++ [⟨i, lb, ub⟩]⟩, Vec.length_of_setAt? hl,
        Vec.length_of_setAt? hu, ?_⟩
      have hcolumn : setColumn i lb ub d.box = .ok () box := by
        unfold setColumn
        rw [Act.bind_of_ok (Act.get_apply _), Act.ofExcept_bind (Vec.set_eq_ok.mpr hl),
          Act.ofExcept_bind (hvalue hlb), Act.bind_of_ok (Act.modify_apply _ _),
          Act.ofExcept_bind (hvalue hub), Act.bind_of_ok (Act.get_apply _),
          Act.ofExcept_bind (Vec.set_eq_ok.mpr hu), Act.modify_apply]
      have hdomain : Act.first (Domain.tighten i lb ub) (d, d.box) =
          .ok () (⟨box, d.changes ++ [⟨i, lb, ub⟩]⟩, d.box) := Act.zoom_of_ok hd
      exact (Act.bind_of_ok hdomain).trans (Act.zoom_of_ok hcolumn)

end Bounds

section Sequences

/-- Between two calls the columns have the bounds that are reported. -/
structure Kept.Sound (n : Nat) (k : Kept) : Prop where
  columns : k.columns = k.domain.box
  lower : k.domain.box.lb.length = n
  upper : k.domain.box.ub.length = n
  state : k.state.Sound n

variable {m : Instance ExtRat} {timeLimit : Option ExtRat} {r : Relaxation ExtRat} {k : Kept}

theorem Relaxation.sound_opened (hr : Relaxation.ofInstance m timeLimit = .ok r)
    (hm : m.Consistent) : (r.opened m).Sound r.numVars := by
  obtain ⟨hn, -⟩ := Relaxation.ofInstance_eq_ok hr
  refine ⟨?_, hm.lb.trans hn.symm, hm.ub.trans hn.symm, ⟨fun a ha => ?_, List.nodup_nil⟩⟩
  · show Box.mk (m.lb.take r.numVars) (m.ub.take r.numVars) = _
    rw [hn, List.take_of_length_le hm.lb.le, List.take_of_length_le hm.ub.le]
    rfl
  · cases ha

/-- A sane call keeps a relaxation sound. -/
theorem Relaxation.sound_perform (h : k.Sound r.numVars) {c : Call} (hc : c.Sane) :
    (r.perform k c).Sound r.numVars := by
  cases c with
  | solve goal =>
      have hkeeps := RelaxationState.keeps_aim (n := r.numVars) goal hc
      refine ⟨h.columns, h.lower, h.upper, ?_⟩
      unfold Relaxation.perform Relaxation.oracle
      dsimp only
      split
      · rename_i s hs
        have hsound := hkeeps.of_ok h.state hs
        exact ⟨hsound.placed, hsound.distinct⟩
      · rename_i e s hs
        exact hkeeps.of_error h.state hs
  | tighten i lb ub =>
      unfold Relaxation.perform
      rw [h.columns]
      dsimp only
      rcases Relaxation.tighten_cases (d := k.domain) (i := i) hc.1 hc.2 with
        ⟨e, he⟩ | ⟨d', hl, hu, hok⟩
      · rw [Act.after_of_error he]
        exact ⟨rfl, h.lower, h.upper, h.state⟩
      · rw [Act.after_of_ok hok]
        exact ⟨rfl, hl.trans h.lower, hu.trans h.upper, h.state⟩

/-- Sane calls keep a relaxation sound. -/
theorem Relaxation.sound_performAll (h : k.Sound r.numVars) {calls : List Call}
    (hcalls : ∀ c ∈ calls, c.Sane) : (r.performAll k calls).Sound r.numVars := by
  induction calls generalizing k with
  | nil => exact h
  | cons c calls ih =>
      exact ih (Relaxation.sound_perform h (hcalls c (List.mem_cons_self ..)))
        fun c' hc' => hcalls c' (List.mem_cons_of_mem _ hc')

end Sequences

section Solves

variable {m : Instance ExtRat} {timeLimit : Option ExtRat} {r : Relaxation ExtRat}
  {goal : Goal ExtRat} {calls : List Call}

/-- **A kept relaxation is the relaxation of its instance in the bounds it reports.**  Whatever was
asked of it before, and however it ended, the next solve is for a program whose points are, on the
variables, the points of these bounds at which the rows of the instance hold.  The least cost of
such a point over the auxiliary columns is its cost for the goal of this solve alone.  Bounds that
are refused change nothing. -/
theorem Relaxation.program_of_performAll {k : Kept}
    (hr : Relaxation.ofInstance m timeLimit = .ok r) (hm : m.Consistent)
    (hcalls : ∀ c ∈ calls, c.Sane) (hk : r.performAll (r.opened m) calls = k)
    (hgoal : goal.Sane m.numVars) :
    (∀ (i : Int) (lb ub : ExtRat) e p, lb ≠ nan → ub ≠ nan →
      Relaxation.tighten i lb ub (k.domain, k.columns) = .error e p →
        p = (k.domain, k.columns)) ∧
    ∃ s, r.oracle k.state k.columns goal =
        { answer := r.answer s k.columns, next := { s with solves := s.solves + 1 } } ∧
      ∀ x : List ℚ, x.length = m.numVars →
        ((∃ d, (r.program s k.columns).Admits (x ++ d)) ↔
          m.rows.SatisfiedBy x ∧ k.domain.box.Contains x) ∧
        (m.rows.SatisfiedBy x → k.domain.box.Contains x →
          ∃ q, goal.costAt (x.map fin) = fin q ∧
            IsLeast {c | ∃ d, (r.program s k.columns).Admits (x ++ d) ∧
              (r.program s k.columns).costAt (x ++ d) = fin c} q) := by
  obtain ⟨hn, -⟩ := Relaxation.ofInstance_eq_ok hr
  have hsound : k.Sound r.numVars := hk ▸
    Relaxation.sound_performAll (Relaxation.sound_opened hr hm) hcalls
  rw [← hn] at hgoal
  obtain ⟨_, s, haim, hs, haimed⟩ := RelaxationState.runs_aim hgoal k.state hsound.state
  rw [hsound.columns]
  refine ⟨fun i lb ub e p hlb hub herror => ?_, s, ?_, fun x hx => ?_⟩
  · rcases Relaxation.tighten_cases (d := k.domain) (i := i) hlb hub with
      ⟨e', he⟩ | ⟨d', -, -, hok⟩
    · rw [he] at herror
      cases herror
      rfl
    · rw [hok] at herror
      cases herror
  · unfold Relaxation.oracle
    rw [haim]
  · rw [← hn] at hx
    have hleast := Relaxation.isLeast_cost hr hm hs haimed hgoal hsound.lower hsound.upper hx
    refine ⟨⟨?_, ?_⟩, hleast⟩
    · rintro ⟨d, hd⟩
      obtain ⟨c, hc, hclen⟩ := hgoal.objective
      have hcost : s.cost.length = r.numVars := by rw [haimed.cost, hc, List.length_map, hclen]
      exact ((Relaxation.admits_iff hr hm hs hcost hsound.lower hsound.upper hx).mp hd).1
    · rintro ⟨hrows, hbox⟩
      obtain ⟨q, -, ⟨d, hd, -⟩, -⟩ := hleast hrows hbox
      exact ⟨d, hd⟩

end Solves

section Samples

/-- Two integer variables that share three units. -/
def sharing : Instance ExtRat :=
  { name := "sharing"
    cost := [1, 1]
    constant := 0
    direction := .minimize
    coefficients := [[1, 1]]
    rhs := [3]
    senses := [.atMost]
    lb := [0, 0]
    ub := [4, 4]
    kinds := [.integer, .integer]
    names := ["x", "y"]
    rowNames := ["c0"] }

/-- A solve for a target, bounds that are refused, bounds that are set, and a solve that is
refused. -/
def sharingCalls : List Call :=
  [ .solve { objective := [0, 0], targets := [{ index := 0, value := 2, weight := 1 }] }
  , .tighten 0 3 1
  , .tighten 1 1 2
  , .solve { objective := [1], targets := [] } ]

/-- A linear cost and a target for the second variable. -/
def sharingGoal : Goal ExtRat :=
  { objective := [1, 0], targets := [{ index := 1, value := 2, weight := 3 }] }

/-- Its relaxation. -/
def sharingRelaxation : Relaxation ExtRat :=
  { numVars := 2, rows := [{ terms := [(0, 1), (1, 1)], sense := .atMost, rhs := 3 }] }

theorem consistent_sharing : sharing.Consistent where
  lb := rfl
  ub := rfl
  coefficients := rfl
  senses := rfl
  rhs := rfl
  entries := by
    intro row hrow
    rw [List.mem_singleton.mp hrow]
    exact ⟨[1, 1], rfl, rfl⟩

theorem sane_sharingGoal : sharingGoal.Sane sharing.numVars where
  objective := ⟨[1, 0], rfl, rfl⟩
  targets := by
    intro t ht
    rw [List.mem_singleton.mp ht]
    exact ⟨1, 2, 3, rfl, rfl, rfl, by norm_num⟩
  distinct := by decide

theorem sane_sharingCalls : ∀ c ∈ sharingCalls, c.Sane := by
  intro c hc
  simp only [sharingCalls, List.mem_cons, List.not_mem_nil, or_false] at hc
  rcases hc with rfl | rfl | rfl | rfl
  · intro t ht
    rw [List.mem_singleton.mp ht]
    rfl
  · exact ⟨nofun, nofun⟩
  · exact ⟨nofun, nofun⟩
  · intro t ht
    cases ht

theorem satisfiedBy_sharing : sharing.rows.SatisfiedBy [1, 1] := by
  intro i row hrow
  cases i with
  | zero =>
      cases hrow
      exact ⟨[1, 1], .atMost, fin 3, rfl, rfl, rfl, rfl,
        (fin_le_fin _ _).mpr (by norm_num [dotRat])⟩
  | succ i => cases hrow

/-- The target of the first solve plays no part in the next: in the bounds that were set, the point
`(1, 1)` costs `1 + 3 · |1 - 2|`. -/
theorem Relaxation.program_of_performAll_sharing : ∃ k s,
    Relaxation.ofInstance sharing none = .ok sharingRelaxation ∧
      sharingRelaxation.performAll (sharingRelaxation.opened sharing) sharingCalls = k ∧
      (sharingRelaxation.oracle k.state k.columns sharingGoal).answer =
        sharingRelaxation.answer s k.columns ∧
      IsLeast {c | ∃ d, (sharingRelaxation.program s k.columns).Admits ([1, 1] ++ d) ∧
        (sharingRelaxation.program s k.columns).costAt ([1, 1] ++ d) = fin c} 4 := by
  have hr : Relaxation.ofInstance sharing none = .ok sharingRelaxation := by rfl
  obtain ⟨-, s, horacle, hpoints⟩ := Relaxation.program_of_performAll hr consistent_sharing
    sane_sharingCalls rfl sane_sharingGoal
  have hbox : (sharingRelaxation.performAll (sharingRelaxation.opened sharing)
      sharingCalls).domain.box = ⟨[fin 0, fin 1], [fin 4, fin 2]⟩ := by rfl
  have hinside : Box.Contains ⟨[fin 0, fin 1], [fin 4, fin 2]⟩ [1, 1] := by
    constructor <;> simp
  rw [← hbox] at hinside
  obtain ⟨q, hcost, hleast⟩ := (hpoints [1, 1] rfl).2 satisfiedBy_sharing hinside
  refine ⟨_, s, hr, rfl, by rw [horacle], ?_⟩
  have hfour : sharingGoal.costAt ([1, 1].map fin) = fin 4 := by decide +kernel
  rw [hfour] at hcost
  cases hcost
  exact hleast

end Samples

end MipPump
