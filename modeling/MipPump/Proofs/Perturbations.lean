import MipPump.Proofs.Moves
import MipPump.Proofs.Rankings

/-!
# Perturbations always move

A perturbation draws how many variables it moves, ranks the integer variables and moves the first of
them.  Under a share in `(0, 1]` the range that the number is drawn from is not empty, and the
variables that move are integer variables, so that all their entries are found.

* `exists_flipCount`: the number of moves.
* `runs_flip`: a move of integer variables.
* `runs_perturb`, `runs_restart`: the two perturbations, which leave a progress that can count its
  moves.
-/

namespace MipPump

open ExtRat

section Counts

/-- A share of the integer variables is rounded up, and it is one at least. -/
theorem Options.flipCount_eq {o : Options ExtRat} {share : ℚ}
    (hshare : o.perturbationFraction = fin share) (n : Nat) :
    o.flipCount n = .ok (max 1 (share * n).ceil) := by
  have hnumber : (nearestNumber (n : Int) : Except (Fault ExtRat) ExtRat) = .ok (fin n) := rfl
  have hceil : (ceilInteger (fin share * fin n) : Except (Fault ExtRat) Int) =
      .ok (share * n).ceil := rfl
  unfold flipCount
  rw [Act.exceptBind_of_ok hnumber, hshare, Act.exceptBind_of_ok hceil]
  rfl

theorem ceil_share_le {share : ℚ} (hle : share ≤ 1) (n : Nat) : (share * n).ceil ≤ n := by
  rw [Rat.ceil_le_iff]
  simpa using mul_le_of_le_one_left (Nat.cast_nonneg n) hle

/-- A share of the integer variables is at least one and at most all of them, or one. -/
theorem Options.exists_flipCount {o : Options ExtRat} {share : ℚ}
    (hshare : o.perturbationFraction = fin share) (hle : share ≤ 1) (n : Nat) :
    ∃ count, o.flipCount n = .ok count ∧ 1 ≤ count ∧ count ≤ max 1 (n : Int) :=
  ⟨max 1 (share * n).ceil, o.flipCount_eq hshare n, le_max_left _ _,
    max_le_max le_rfl (ceil_share_le hle n)⟩

/-- An integer can be drawn from a range that is not empty. -/
theorem Progress.exists_drawInteger (low high : Int) (hlow : 0 ≤ low) (hlt : low < high)
    (hhigh : high ≤ Power.two 63) (p : Progress ExtRat) :
    ∃ x q, drawInteger low high p = .ok x q ∧ p.Drawn q := by
  have hrange : (decide (high ≤ low) || decide (low < -((Power.two 63 : Nat) : Int)) ||
      decide (((Power.two 63 : Nat) : Int) < high)) = false := by
    simp only [Bool.or_eq_false_iff, decide_eq_false_iff_not]
    omega
  obtain ⟨x, hx⟩ : ∃ x, (Random.Generator.integer low high p.generator :
      Except (Fault ExtRat) _) = .ok x := by
    unfold Random.Generator.integer
    dsimp only
    rw [hrange]
    exact ⟨_, rfl⟩
  have hdraw : drawInteger low high p = .ok x.1 { p with generator := x.2 } := by
    unfold drawInteger
    rw [hx]
  exact ⟨x.1, _, hdraw, x.2, rfl⟩

/-- The number of moves can be drawn. -/
theorem Perturber.exists_flipCount {s : Settings ExtRat} {share : ℚ}
    (hshare : s.perturbationFraction = fin share) (hle : share ≤ 1)
    {t : Table ExtRat} (hfew : (t.numIntegers : Int) < Progress.countLimit) (p : Progress ExtRat) :
    ∃ count q, flipCount s t p = .ok count q ∧ p.Drawn q := by
  obtain ⟨count, hcount, hone, hmost⟩ := s.toOptions.exists_flipCount hshare hle t.numIntegers
  have hlimit : 2 * Progress.countLimit ≤ Power.two 63 := by decide +kernel
  unfold flipCount
  rw [Act.ofExcept_bind hcount]
  split
  · obtain ⟨drawn, q, hdrawn, hq⟩ := Progress.exists_drawInteger (max 1 (count / 2))
      (3 * count / 2 + 1) (by omega) (by omega) (by omega) p
    exact ⟨_, q, Act.bind_of_ok hdrawn, hq⟩
  · exact ⟨_, p, rfl, Progress.Drawn.refl p⟩

end Counts

section Moves

variable {R : Type} [Arith R] {vars : List (Variable R)} {t : Table R}

/-- Integer variables have their places in a candidate. -/
theorem Table.Lists.exists_positions (h : t.Lists vars) (horder : InOrder vars)
    {indices : List Int} (hindices : ∀ i ∈ indices, i ∈ t.integers) :
    ∃ positions, (Vec.pick t.position indices : Except (Fault R) (List Int)) = .ok positions ∧
      ∀ p ∈ positions, Vec.InRange t.numIntegers p := by
  have hplace : ∀ i ∈ indices, ∃ p : Nat, Vec.at? t.position i = some (p : Int) ∧
      p < t.numIntegers := by
    intro i hi
    have hself : vars.length = vars.length := rfl
    obtain ⟨p, v, hp, hv, -⟩ := h.exists_place horder hself (hindices i hi)
    rw [h.numIntegers_eq, ← length_chosen hself]
    exact ⟨p, hp, (List.getElem?_eq_some_iff.mp hv).1⟩
  obtain ⟨positions, hpositions⟩ : ∃ positions,
      (Vec.pick t.position indices : Except (Fault R) (List Int)) = .ok positions :=
    Vec.exists_mapM fun i hi =>
      have ⟨p, hp, _⟩ := hplace i hi
      ⟨p, Vec.get_eq_ok.mpr hp⟩
  refine ⟨positions, hpositions, fun p hp => ?_⟩
  obtain ⟨i, hi, hat⟩ := Vec.exists_of_mem_left (Vec.pick_eq_ok.mp hpositions).flip hp
  obtain ⟨k, hk, hlt⟩ := hplace i hi
  exact ⟨k, Option.some.inj (hat.symm.trans hk), hlt⟩

theorem exists_moveAway {values current lb ub : List R} {n : Nat} (step : R)
    (hvalues : values.length = n) (hcurrent : current.length = n) (hlb : lb.length = n)
    (hub : ub.length = n) :
    ∃ moved, moveAway step values current lb ub = .ok moved ∧ moved.length = n := by
  have hpoints : (List.zipWith Prod.mk values current).length = n := by
    rw [List.length_zipWith, hvalues, hcurrent, min_self]
  have hbounds : (List.zipWith Prod.mk lb ub).length = n := by
    rw [List.length_zipWith, hlb, hub, min_self]
  unfold moveAway
  rw [Act.exceptBind_of_ok (Vec.map2_of_length Prod.mk (hvalues.trans hcurrent.symm)),
    Act.exceptBind_of_ok (Vec.map2_of_length Prod.mk (hlb.trans hub.symm))]
  refine ⟨_, Vec.map2_of_length _ (hpoints.trans hbounds.symm), ?_⟩
  rw [List.length_zipWith, hpoints, hbounds, min_self]

end Moves

namespace Perturber

variable {s : Settings ExtRat} {vars : List (Variable ExtRat)} {t : Table ExtRat}
  {k : Ranker ExtRat} {point candidate : List ExtRat}

/-- What a perturbation leaves: a candidate with a value for every integer variable, and a progress
that can count its moves. -/
def Settled (n : Nat) (m : Perturbed ExtRat) (p : Progress ExtRat) : Prop :=
  m.candidate.length = n ∧ p.Tracks n

section Steps

/-- Integer variables can be moved. -/
theorem runs_flip (h : t.Lists vars) (horder : InOrder vars)
    (hfew : (vars.length : Int) < Progress.countLimit) (hpoint : point.length = vars.length)
    (hcandidate : candidate.length = t.numIntegers) {indices : List Int}
    (hindices : ∀ i ∈ indices, i ∈ t.integers) :
    Act.Runs (Progress.Tracks t.numIntegers) (flip s t point candidate indices)
      (Settled t.numIntegers) := by
  obtain ⟨positions, hpositions, hrange⟩ := h.exists_positions horder hindices
  have hplaces := fun i hi => (hrange i hi).exists_position?
  obtain ⟨values, hvalues⟩ := Vec.exists_pick (R := ExtRat) hpoint
    fun i hi => h.exists_position? i (hindices i hi)
  obtain ⟨current, hcurrent⟩ := Vec.exists_pick (R := ExtRat) hcandidate hplaces
  obtain ⟨lb, hlb⟩ := Vec.exists_pick (R := ExtRat) h.length_intLb hplaces
  obtain ⟨ub, hub⟩ := Vec.exists_pick (R := ExtRat) h.length_intUb hplaces
  have hstep : (nearestNumber s.perturbationStep : Except (Fault ExtRat) ExtRat) =
      .ok (fin s.perturbationStep) := rfl
  obtain ⟨moved, hmoved, -⟩ := exists_moveAway (fin s.perturbationStep)
    ((Vec.length_of_pick hvalues).trans (Vec.length_of_pick hpositions).symm)
    (Vec.length_of_pick hcurrent) (Vec.length_of_pick hlb) (Vec.length_of_pick hub)
  have hwrites : ∀ w ∈ positions.zip moved, ∃ p, Vec.position? t.numIntegers w.1 = some p :=
    fun w hw => (hrange w.1 (List.of_mem_zip hw).1).exists_position?
  obtain ⟨perturbed, hplace, hlen⟩ := Vec.exists_placeAll (R := ExtRat) hwrites hcandidate
  have hwords : (positions.forM requireWord : Except (Fault ExtRat) Unit) = .ok () :=
    Vec.forM_of_ok fun i hi =>
      requireWord_of_inRange ((hrange i hi).mono h.numIntegers_le) (Progress.short_of_few hfew)
  intro p hp
  refine ⟨{ candidate := perturbed, positions }, p.noteFlips positions, ?_, hlen,
    hp.noteFlips hrange⟩
  unfold flip Progress.recordFlips
  rw [Act.ofExcept_bind hpositions, Act.ofExcept_bind hvalues, Act.ofExcept_bind hcurrent,
    Act.ofExcept_bind hlb, Act.ofExcept_bind hub, Act.ofExcept_bind hstep,
    Act.ofExcept_bind hmoved, Act.ofExcept_bind hplace]
  exact Act.bind_of_ok (Act.ofExcept_bind hwords p)

/-- A ranking of a candidate keeps track of the moves. -/
theorem runs_rank (h : t.Lists vars) (hfew : (vars.length : Int) < Progress.countLimit)
    (hpoint : point.length = vars.length) (hcandidate : candidate.length = t.numIntegers)
    (hlocks : k.policy = .locks → ∃ ps, k.lockPressure = some ps ∧ ps.length = t.numIntegers) :
    Act.Runs (Progress.Tracks t.numIntegers) (k.rank t point (some candidate))
      fun order p => order.Perm t.integers ∧ p.Tracks t.numIntegers := by
  intro p hp
  have hfits : (t.numIntegers : Int) < Progress.countLimit := by
    have hle := h.numIntegers_le
    omega
  have hlen : ∀ c ∈ some candidate, c.length = t.numIntegers := by
    rintro _ ⟨⟩
    exact hcandidate
  obtain ⟨order, q, hrank, hperm⟩ :=
    Ranker.exists_rank h hpoint hlen hlocks (fun _ => Ranker.factorsFit hfits) fun _ => hp
  have hdrawn : p.Drawn q := (k.keeps_rank p t point _).of_ok (Progress.Drawn.refl p) hrank
  exact ⟨order, q, hrank, hperm, hp.drawn hdrawn⟩

/-- The noise of a restart can be drawn. -/
theorem drawable_noiseBounds :
    Progress.Drawable (noiseBounds (R := ExtRat)).1 noiseBounds.2 := by
  decide +kernel

/-- What exceeds one half with some noise are integer variables. -/
theorem runs_displaced (h : t.Lists vars) (hfew : (vars.length : Int) < Progress.countLimit)
    (hpoint : point.length = vars.length) (hcandidate : candidate.length = t.numIntegers) :
    Act.Runs (Progress.Tracks t.numIntegers) (displaced t point candidate)
      fun chosen p => (∀ i ∈ chosen, i ∈ t.integers) ∧ p.Tracks t.numIntegers := by
  intro p hp
  obtain ⟨values, hvalues, hlen⟩ := exists_integerValues h hpoint
  have hfits : (t.numIntegers : Int) < Progress.countLimit := by
    have hle := h.numIntegers_le
    omega
  obtain ⟨gaps, hmap, hgaps⟩ : ∃ gaps, (Vec.map2 (fun x c => Arith.abs (x - c)) values candidate :
      Except (Fault ExtRat) (List ExtRat)) = .ok gaps ∧ gaps.length = t.numIntegers :=
    ⟨_, Vec.map2_of_length _ (hlen.trans hcandidate.symm),
      by rw [List.length_zipWith, hlen, hcandidate, min_self]⟩
  obtain ⟨draws, q, hdraws, hdrawslen, hdrawn⟩ :=
    Progress.exists_drawUniform (R := ExtRat) drawable_noiseBounds hfits p
  rw [← hgaps] at hdraws
  let exceeds (gap x : ExtRat) : Bool := decide (Arith.ratio 1 2 < gap + positivePart x)
  have hmask : (List.zipWith exceeds gaps draws).length = t.integers.length := by
    rw [List.length_zipWith, hgaps, hdrawslen, min_self]
    rfl
  obtain ⟨chosen, hchosen, hmem⟩ := Vec.exists_select (R := ExtRat) hmask
  refine ⟨chosen, q, ?_, hmem, hp.drawn hdrawn⟩
  unfold displaced
  rw [Act.ofExcept_bind hvalues, Act.ofExcept_bind hmap, Act.bind_of_ok hdraws]
  exact Act.ofExcept_eq_ok.mpr ⟨hchosen, rfl⟩

end Steps

section Perturbations

variable {share : ℚ}

/-- **A perturbation always comes to a candidate.** -/
theorem runs_perturb (h : t.Lists vars) (horder : InOrder vars)
    (hfew : (vars.length : Int) < Progress.countLimit)
    (hshare : s.perturbationFraction = fin share) (hle : share ≤ 1)
    (hlocks : k.policy = .locks → ∃ ps, k.lockPressure = some ps ∧ ps.length = t.numIntegers)
    (hpoint : point.length = vars.length) (hcandidate : candidate.length = t.numIntegers) :
    Act.Runs (Progress.Tracks t.numIntegers) (perturb s t k point candidate)
      (Settled t.numIntegers) := by
  have hfits : (t.numIntegers : Int) < Progress.countLimit := by
    have hle := h.numIntegers_le
    omega
  unfold perturb
  refine Act.runs_bind (Q := fun _ p => p.Tracks t.numIntegers) (fun p hp => ?_) fun count =>
    Act.runs_bind (runs_rank h hfew hpoint hcandidate hlocks) fun order =>
      Act.runs_of_and fun hperm => ?_
  · obtain ⟨count, q, hcount, hq⟩ := exists_flipCount hshare hle hfits p
    exact ⟨count, q, hcount, hp.drawn hq⟩
  · exact runs_flip h horder hfew hpoint hcandidate
      fun i hi => hperm.mem_iff.mp (List.mem_of_mem_take hi)

theorem runs_restartTop (h : t.Lists vars) (horder : InOrder vars)
    (hfew : (vars.length : Int) < Progress.countLimit)
    (hshare : s.perturbationFraction = fin share) (hle : share ≤ 1)
    (hlocks : k.policy = .locks → ∃ ps, k.lockPressure = some ps ∧ ps.length = t.numIntegers)
    (hpoint : point.length = vars.length) (hcandidate : candidate.length = t.numIntegers) :
    Act.Runs (Progress.Tracks t.numIntegers) (restartTop s t k point candidate)
      (Settled t.numIntegers) := by
  obtain ⟨count, hcount, -⟩ := s.toOptions.exists_flipCount hshare hle t.numIntegers
  unfold restartTop
  refine Act.runs_of_ok_bind hcount (Act.runs_bind
    (runs_rank h hfew hpoint hcandidate hlocks) fun order => Act.runs_of_and fun hperm => ?_)
  exact runs_flip h horder hfew hpoint hcandidate
    fun i hi => hperm.mem_iff.mp (List.mem_of_mem_take hi)

/-- The perturbation of a restart comes to a candidate as well. -/
theorem runs_restart (h : t.Lists vars) (horder : InOrder vars)
    (hfew : (vars.length : Int) < Progress.countLimit)
    (hshare : s.perturbationFraction = fin share) (hle : share ≤ 1)
    (hlocks : k.policy = .locks → ∃ ps, k.lockPressure = some ps ∧ ps.length = t.numIntegers)
    (hpoint : point.length = vars.length) (hcandidate : candidate.length = t.numIntegers) :
    Act.Runs (Progress.Tracks t.numIntegers) (restart s t k point candidate)
      (Settled t.numIntegers) := by
  have htop := runs_restartTop h horder hfew hshare hle hlocks hpoint hcandidate
  unfold restart
  split
  · refine Act.runs_bind (runs_displaced h hfew hpoint hcandidate) fun chosen =>
      Act.runs_of_and fun hchosen => ?_
    split
    · exact htop
    · exact runs_flip h horder hfew hpoint hcandidate hchosen
  · exact htop

end Perturbations

end Perturber

end MipPump
