import MipPump.Proofs.DrawnNumbers
import MipPump.Proofs.MovedEntries

/-!
# What perturbations select and leave

A perturbation flips the variables that rank highest; that of a restart flips the variables that are
far from their rounding, or twice as many of the highest ranked.

* `exists_flipCount_between`: how many variables a perturbation flips.
* `FlipsTop`: the first variables of a ranking are flipped, and the flips are counted.
* `farVariables`: the variables whose displacement with noise exceeds one half.
* `perturbations_are_valid`: both perturbations select what they should and leave a candidate that
  passes the check.
-/

namespace MipPump

open ExtRat

namespace Perturber

variable {s : Settings ExtRat} {vars : List (Variable ExtRat)} {t : Table ExtRat}
  {k : Ranker ExtRat} {x c : List ℚ} {p : Progress ExtRat} {share : ℚ}

section Counts

/-- The number of variables that a perturbation flips, out of `n` with the usual number `f`. -/
structure CountsFlips (s : Settings ExtRat) (n : ℕ) (f count : Int) : Prop where
  usual : s.randomFlipCount = false → count = min f n
  low : s.randomFlipCount = true → min (max 1 (f / 2)) n ≤ count
  high : s.randomFlipCount = true → count ≤ min (3 * f / 2) n

theorem CountsFlips.le {n : ℕ} {f count : Int} (h : CountsFlips s n f count) : count ≤ n := by
  cases hrandom : s.randomFlipCount with
  | true => exact (h.high hrandom).trans (min_le_right _ _)
  | false => exact (h.usual hrandom).trans_le (min_le_right _ _)

/-- A random number of flips with the usual number `f` is drawn from a range that fits the words
of the generator. -/
def DrawsFit (s : Settings ExtRat) (f : Int) : Prop :=
  s.randomFlipCount = true → 3 * f / 2 < Power.two 63

/-- The range fits for every share of at most all variables. -/
theorem drawsFit_of_le_one (s : Settings ExtRat) (hle : share ≤ 1) {n : ℕ}
    (hfew : (n : Int) < Progress.countLimit) : DrawsFit s (max 1 (share * n).ceil) := by
  intro _
  have hall := ceil_share_le hle n
  have hlimit : 2 * Progress.countLimit ≤ Power.two 63 := by decide +kernel
  omega

theorem exists_flipCount_between (hshare : s.perturbationFraction = fin share)
    (hfit : DrawsFit s (max 1 (share * t.numIntegers).ceil)) (p : Progress ExtRat) :
    ∃ count q, flipCount s t p = .ok count q ∧ p.Drawn q ∧ (s.randomFlipCount = false → q = p) ∧
      CountsFlips s t.numIntegers (max 1 (share * t.numIntegers).ceil) count := by
  unfold flipCount
  rw [Act.ofExcept_bind (s.toOptions.flipCount_eq hshare t.numIntegers)]
  have hone : 1 ≤ max 1 (share * t.numIntegers).ceil := le_max_left _ _
  generalize max 1 (share * t.numIntegers).ceil = f at hone hfit
  cases hrandom : s.randomFlipCount with
  | true =>
      have hword := hfit hrandom
      obtain ⟨drawn, q, hdrawn, hq⟩ := Progress.exists_drawInteger (max 1 (f / 2))
        (3 * f / 2 + 1) (by omega) (by omega) (by omega) p
      obtain ⟨hlow, hhigh⟩ := Progress.drawInteger_eq_ok hdrawn
      refine ⟨_, q, Act.bind_of_ok hdrawn, hq, nofun, ?_, fun _ => ?_, fun _ => ?_⟩
      · rw [hrandom]
        nofun
      · exact min_le_min_right _ hlow
      · exact min_le_min_right _ (by omega)
  | false =>
      refine ⟨_, p, rfl, Progress.Drawn.refl p, fun _ => rfl, fun _ => rfl, ?_, ?_⟩
      · rw [hrandom]
        nofun
      · rw [hrandom]
        nofun

end Counts

section Selections

/-- The first `count` variables of the ranking are flipped, and the flips are counted. -/
def FlipsTop (s : Settings ExtRat) (vars : List (Variable ExtRat)) (t : Table ExtRat)
    (k : Ranker ExtRat) (x c : List ℚ) (count : Int) (p : Progress ExtRat) (m : Perturbed ExtRat)
    (q : Progress ExtRat) : Prop :=
  ∃ order r, k.rank t (x.map fin) (some (c.map fin)) p = .ok order r ∧ p.Drawn r ∧
    q = r.noteFlips m.positions ∧ order.Perm t.integers ∧
    Flips s vars t x c (order.take count.toNat) m

/-- The displacements of the integer variables, with the positive part of the noise. -/
def noisyGaps (vars : List (Variable ExtRat)) (x c noise : List ℚ) : List ℚ :=
  List.zipWith (fun gap z => gap + max z 0) (List.zipWith (fun q r => |q - r|) (chosen vars x) c)
    noise

/-- The integer variables whose displacement with noise exceeds one half. -/
def farVariables (vars : List (Variable ExtRat)) (x c noise : List ℚ) : List Int :=
  (((vars.filter (·.kind.isIntegral)).zip (noisyGaps vars x c noise)).filter
    fun e => decide (1 / 2 < e.2)).map (·.1.index)

/-- Besides the generator, the count of the perturbations and the note of the flips change. -/
theorem FlipsTop.perturbations {count : Int} {m : Perturbed ExtRat} {q : Progress ExtRat}
    (h : FlipsTop s vars t k x c count p m q) : q.perturbations = p.perturbations + 1 := by
  obtain ⟨_, _, -, ⟨g, rfl⟩, rfl, -⟩ := h
  rfl

theorem Flips.length_positions {selected : List Int} {m : Perturbed ExtRat}
    (h : Flips s vars t x c selected m) : m.positions.length = selected.length :=
  h.placed.length_eq.symm

/-- At least one variable is flipped if there is one. -/
theorem FlipsTop.positions_ne_nil {count : Int} {m : Perturbed ExtRat} {q : Progress ExtRat}
    (h : FlipsTop s vars t k x c count p m q) (hcount : 1 ≤ count) (hn : 0 < t.numIntegers) :
    m.positions ≠ [] := by
  obtain ⟨order, _, -, -, -, hperm, hflips⟩ := h
  have hlen := hflips.length_positions
  have horder : order.length = t.numIntegers := hperm.length_eq
  rw [List.length_take] at hlen
  exact List.ne_nil_of_length_pos (by omega)

theorem exists_flipsTop (h : t.Lists vars) (horder : InOrder vars)
    (hfew : (vars.length : Int) < Progress.countLimit) (hstep : 1 ≤ s.perturbationStep)
    (hlocks : k.policy = .locks → ∃ ps, k.lockPressure = some ps ∧ ps.length = t.numIntegers)
    (hx : x.length = vars.length) (hc : t.check (c.map fin) = .ok ())
    (hp : p.Tracks t.numIntegers) (count : Int) :
    ∃ m q, (k.rank t (x.map fin) (some (c.map fin)) >>= fun order =>
        flip s t (x.map fin) (c.map fin) (order.take count.toNat)) p = .ok m q ∧
      FlipsTop s vars t k x c count p m q := by
  have hpoint : (x.map fin).length = vars.length := by rw [List.length_map, hx]
  obtain ⟨order, r, hrank, hperm, htracks⟩ :=
    runs_rank h hfew hpoint (check_iff.mp hc).1 hlocks p hp
  have hdrawn : p.Drawn r := (k.keeps_rank p t _ _).of_ok (Progress.Drawn.refl p) hrank
  have hdistinct : (order.take count.toNat).Nodup :=
    (hperm.nodup_iff.mpr (h.nodup_integers horder)).sublist (List.take_sublist _ _)
  obtain ⟨m, hflip, hflips⟩ := exists_flip h horder hfew hx hstep hc hdistinct
    (fun j hj => hperm.mem_iff.mp (List.mem_of_mem_take hj)) htracks
  exact ⟨m, _, (Act.bind_of_ok hrank).trans hflip, order, r, hrank, hdrawn, rfl, hperm, hflips⟩

theorem positivePart_fin (z : ℚ) : positivePart (fin z) = fin (max z 0) := by
  unfold positivePart
  rw [isNaN_fin, if_neg Bool.false_ne_true]
  split
  · rename_i hpos
    rw [max_eq_left ((fin_lt_fin 0 z).mp hpos).le]
  · rename_i hneg
    rw [max_eq_right (not_lt.mp (mt (fin_lt_fin 0 z).mpr hneg))]
    rfl

theorem length_noisyGaps (h : t.Lists vars) (hx : x.length = vars.length)
    (hc : c.length = t.numIntegers) {noise : List ℚ} (hnoise : noise.length = t.numIntegers) :
    (noisyGaps vars x c noise).length = (vars.filter (·.kind.isIntegral)).length := by
  rw [noisyGaps, List.length_zipWith, List.length_zipWith, length_chosen hx, ← h.numIntegers_eq,
    hc, hnoise, min_self, min_self]

/-- The integer variables go with the entries of a vector that has one for each of them. -/
theorem integers_eq_zip (h : t.Lists vars) {gaps : List ℚ}
    (hgaps : gaps.length = (vars.filter (·.kind.isIntegral)).length) :
    t.integers = ((vars.filter (·.kind.isIntegral)).zip gaps).map (·.1.index) := by
  rw [h.integers]
  conv_lhs => rw [← List.map_fst_zip hgaps.ge, List.map_map]
  rfl

theorem sublist_farVariables (h : t.Lists vars) (hx : x.length = vars.length)
    (hc : c.length = t.numIntegers) {noise : List ℚ} (hnoise : noise.length = t.numIntegers) :
    (farVariables vars x c noise).Sublist t.integers := by
  rw [integers_eq_zip h (length_noisyGaps h hx hc hnoise)]
  exact List.filter_sublist.map _

/-- What the comparison with one half selects are the far variables. -/
theorem select_farVariables (h : t.Lists vars) (hx : x.length = vars.length)
    (hc : c.length = t.numIntegers) {noise : List ℚ} (hnoise : noise.length = t.numIntegers) :
    (Vec.select (List.zipWith
        (fun gap z => decide ((Arith.ratio 1 2 : ExtRat) < gap + positivePart z))
        ((List.zipWith (fun q r => |q - r|) (chosen vars x) c).map fin) (noise.map fin))
      t.integers : Except (Fault ExtRat) (List Int)) = .ok (farVariables vars x c noise) := by
  have hlen := length_noisyGaps h hx hc hnoise
  have hexceeds (gap z : ℚ) : decide ((Arith.ratio 1 2 : ExtRat) < fin gap + positivePart (fin z)) =
      decide (1 / 2 < gap + max z 0) := by
    rw [ratio_eq 1 2 two_ne_zero, positivePart_fin, fin_add]
    exact decide_eq_decide.mpr (fin_lt_fin _ _)
  have hmask : List.zipWith
      (fun gap z => decide ((Arith.ratio 1 2 : ExtRat) < gap + positivePart z))
      ((List.zipWith (fun q r => |q - r|) (chosen vars x) c).map fin) (noise.map fin) =
      ((vars.filter (·.kind.isIntegral)).zip (noisyGaps vars x c noise)).map
        fun e => decide (1 / 2 < e.2) := by
    calc _ = (noisyGaps vars x c noise).map fun q => decide (1 / 2 < q) := by
          rw [List.zipWith_map, noisyGaps, List.map_zipWith]
          simp only [hexceeds]
      _ = _ := by
          conv_lhs => rw [← List.map_snd_zip hlen.le, List.map_map]
          rfl
  rw [hmask, integers_eq_zip h hlen]
  exact Vec.select_map _ _ _

/-- The variables that a restart finds far from their rounding, under the noise that it draws. -/
theorem exists_displaced (h : t.Lists vars) (horder : InOrder vars)
    (hfew : (vars.length : Int) < Progress.countLimit) (hx : x.length = vars.length)
    (hc : c.length = t.numIntegers) (p : Progress ExtRat) :
    ∃ (noise : List ℚ) (q : Progress ExtRat),
      Progress.drawUniform noiseBounds.1 noiseBounds.2 t.numIntegers p = .ok (noise.map fin) q ∧
      noise.length = t.numIntegers ∧ (∀ z ∈ noise, -(3 / 10) ≤ z ∧ z < 7 / 10) ∧ p.Drawn q ∧
      displaced t (x.map fin) (c.map fin) p = .ok (farVariables vars x c noise) q := by
  have hfits : (t.numIntegers : Int) < Progress.countLimit := by
    have hle := h.numIntegers_le
    omega
  have hnoise : (noiseBounds : ExtRat × ExtRat) = (fin (-(3 / 10)), fin (7 / 10)) := by
    decide +kernel
  obtain ⟨draws, q, hdraw, hlen, hdrawn⟩ := Progress.exists_drawUniform (R := ExtRat)
    drawable_noiseBounds hfits p
  obtain ⟨noise, rfl, hrange⟩ : ∃ noise : List ℚ, draws = noise.map fin ∧
      ∀ z ∈ noise, -(3 / 10) ≤ z ∧ z < 7 / 10 := by
    rw [hnoise] at hdraw
    exact Progress.drawUniform_eq_ok (by norm_num) hdraw
  have hvalues := integerValues_map_fin h horder hx
  have hlength : (chosen vars x).length = c.length := by
    rw [length_chosen hx, ← h.numIntegers_eq, hc]
  have hgaps : (Vec.map2 (fun y r => Arith.abs (y - r)) ((chosen vars x).map fin) (c.map fin) :
      Except (Fault ExtRat) (List ExtRat)) =
      .ok ((List.zipWith (fun q r => |q - r|) (chosen vars x) c).map fin) := by
    rw [Vec.map2_of_length _ (by rw [List.length_map, List.length_map, hlength]),
      List.zipWith_map, List.map_zipWith]
    simp only [fin_sub, abs_fin]
  have hcount : (((List.zipWith (fun q r => |q - r|) (chosen vars x) c).map fin).length : Int) =
      t.numIntegers := by
    rw [List.length_map, List.length_zipWith, hlength, min_self, hc]
  rw [List.length_map] at hlen
  refine ⟨noise, q, hdraw, hlen, hrange, hdrawn, ?_⟩
  unfold displaced
  rw [Act.ofExcept_bind hvalues, Act.ofExcept_bind hgaps, hcount, Act.bind_of_ok hdraw]
  exact Act.ofExcept_eq_ok.mpr ⟨select_farVariables h hx hc hlen, rfl⟩

end Selections

section Perturbations

/-- What a perturbation leaves, with the usual number `f` of flips: the first variables of the
ranking are flipped, and how many are flipped may be drawn before. -/
def Perturbs (s : Settings ExtRat) (vars : List (Variable ExtRat)) (t : Table ExtRat)
    (k : Ranker ExtRat) (x c : List ℚ) (f : Int) (p : Progress ExtRat) (m : Perturbed ExtRat)
    (q : Progress ExtRat) : Prop :=
  ∃ count p', p.Drawn p' ∧ (s.randomFlipCount = false → p' = p) ∧
    CountsFlips s t.numIntegers f count ∧ FlipsTop s vars t k x c count p' m q

/-- A perturbation flips the variables that rank highest. -/
theorem exists_perturb (h : t.Lists vars) (horder : InOrder vars)
    (hfew : (vars.length : Int) < Progress.countLimit)
    (hshare : s.perturbationFraction = fin share)
    (hfit : DrawsFit s (max 1 (share * t.numIntegers).ceil)) (hstep : 1 ≤ s.perturbationStep)
    (hlocks : k.policy = .locks → ∃ ps, k.lockPressure = some ps ∧ ps.length = t.numIntegers)
    (hx : x.length = vars.length) (hc : t.check (c.map fin) = .ok ())
    (hp : p.Tracks t.numIntegers) :
    ∃ m q, perturb s t k (x.map fin) (c.map fin) p = .ok m q ∧
      Perturbs s vars t k x c (max 1 (share * t.numIntegers).ceil) p m q := by
  obtain ⟨count, p', hcount, hdrawn, hsame, hcounts⟩ := exists_flipCount_between hshare hfit p
  obtain ⟨m, q, hflip, htop⟩ :=
    exists_flipsTop h horder hfew hstep hlocks hx hc (hp.drawn hdrawn) count
  exact ⟨m, q, (Act.bind_of_ok hcount).trans hflip, count, p', hdrawn, hsame, hcounts, htop⟩

theorem Perturbs.perturbations {f : Int} {m : Perturbed ExtRat} {q : Progress ExtRat}
    (h : Perturbs s vars t k x c f p m q) : q.perturbations = p.perturbations + 1 := by
  obtain ⟨_, _, ⟨g, rfl⟩, -, -, htop⟩ := h
  exact htop.perturbations

/-- What the perturbation of a restart leaves, with the usual number `f` of flips. -/
structure Restarts (s : Settings ExtRat) (vars : List (Variable ExtRat)) (t : Table ExtRat)
    (k : Ranker ExtRat) (x c : List ℚ) (f : Int) (p : Progress ExtRat) (m : Perturbed ExtRat)
    (q : Progress ExtRat) : Prop where
  top : s.randomRestarts = false → FlipsTop s vars t k x c (min (2 * f) t.numIntegers) p m q
  noisy : s.randomRestarts = true → ∃ (noise : List ℚ) (p' : Progress ExtRat),
    Progress.drawUniform noiseBounds.1 noiseBounds.2 t.numIntegers p = .ok (noise.map fin) p' ∧
    (∀ z ∈ noise, -(3 / 10) ≤ z ∧ z < 7 / 10) ∧ p.Drawn p' ∧
    (farVariables vars x c noise = [] →
      FlipsTop s vars t k x c (min (2 * f) t.numIntegers) p' m q) ∧
    (farVariables vars x c noise ≠ [] →
      q = p'.noteFlips m.positions ∧ Flips s vars t x c (farVariables vars x c noise) m)

theorem exists_restartTop (h : t.Lists vars) (horder : InOrder vars)
    (hfew : (vars.length : Int) < Progress.countLimit)
    (hshare : s.perturbationFraction = fin share) (hstep : 1 ≤ s.perturbationStep)
    (hlocks : k.policy = .locks → ∃ ps, k.lockPressure = some ps ∧ ps.length = t.numIntegers)
    (hx : x.length = vars.length) (hc : t.check (c.map fin) = .ok ())
    (hp : p.Tracks t.numIntegers) :
    ∃ m q, restartTop s t k (x.map fin) (c.map fin) p = .ok m q ∧
      FlipsTop s vars t k x c (min (2 * max 1 (share * t.numIntegers).ceil) t.numIntegers)
        p m q := by
  obtain ⟨m, q, hflip, htop⟩ := exists_flipsTop h horder hfew hstep hlocks hx hc hp
    (min (2 * max 1 (share * t.numIntegers).ceil) t.numIntegers)
  unfold restartTop
  rw [Act.ofExcept_bind (s.toOptions.flipCount_eq hshare t.numIntegers)]
  exact ⟨m, q, hflip, htop⟩

/-- The perturbation of a restart flips the far variables, or twice the usual number. -/
theorem exists_restart (h : t.Lists vars) (horder : InOrder vars)
    (hfew : (vars.length : Int) < Progress.countLimit)
    (hshare : s.perturbationFraction = fin share) (hstep : 1 ≤ s.perturbationStep)
    (hlocks : k.policy = .locks → ∃ ps, k.lockPressure = some ps ∧ ps.length = t.numIntegers)
    (hx : x.length = vars.length) (hc : t.check (c.map fin) = .ok ())
    (hp : p.Tracks t.numIntegers) :
    ∃ m q, restart s t k (x.map fin) (c.map fin) p = .ok m q ∧
      Restarts s vars t k x c (max 1 (share * t.numIntegers).ceil) p m q := by
  have hlen : c.length = t.numIntegers := by rw [← (check_iff.mp hc).1, List.length_map]
  unfold restart
  cases hrandom : s.randomRestarts with
  | false =>
      obtain ⟨m, q, hflip, htop⟩ := exists_restartTop h horder hfew hshare hstep hlocks hx hc hp
      exact ⟨m, q, hflip, fun _ => htop, fun hyes => absurd (hrandom.symm.trans hyes) nofun⟩
  | true =>
      obtain ⟨noise, p', hdraw, hnoise, hrange, hdrawn, hfar⟩ :=
        exists_displaced h horder hfew hx hlen p
      have hsublist := sublist_farVariables h hx hlen hnoise
      have hno : s.randomRestarts ≠ false := by rw [hrandom]; nofun
      rw [if_pos rfl, Act.bind_of_ok hfar]
      cases hempty : (farVariables vars x c noise).isEmpty with
      | true =>
          have hnil := List.isEmpty_iff.mp hempty
          obtain ⟨m, q, hflip, htop⟩ :=
            exists_restartTop h horder hfew hshare hstep hlocks hx hc (hp.drawn hdrawn)
          exact ⟨m, q, hflip, fun hf => absurd hf hno, fun _ => ⟨noise, p', hdraw, hrange, hdrawn,
            fun _ => htop, fun hne => absurd hnil hne⟩⟩
      | false =>
          have hne := List.isEmpty_eq_false_iff.mp hempty
          obtain ⟨m, hflip, hflips⟩ := exists_flip h horder hfew hx hstep hc
            ((h.nodup_integers horder).sublist hsublist) (fun _ hj => hsublist.subset hj)
            (hp.drawn hdrawn)
          exact ⟨m, _, hflip, fun hf => absurd hf hno, fun _ => ⟨noise, p', hdraw, hrange, hdrawn,
            fun hnil => absurd hnil hne, fun _ => ⟨rfl, hflips⟩⟩⟩

theorem Restarts.perturbations {f : Int} {m : Perturbed ExtRat} {q : Progress ExtRat}
    (h : Restarts s vars t k x c f p m q) : q.perturbations = p.perturbations + 1 := by
  cases hrandom : s.randomRestarts with
  | false => exact (h.top hrandom).perturbations
  | true =>
      obtain ⟨noise, p', -, -, ⟨g, rfl⟩, htop, hfar⟩ := h.noisy hrandom
      by_cases hnil : farVariables vars x c noise = []
      · exact (htop hnil).perturbations
      · rw [(hfar hnil).1]
        rfl

/-- A restart flips at least one variable if there is one. -/
theorem Restarts.positions_ne_nil {f : Int} {m : Perturbed ExtRat} {q : Progress ExtRat}
    (h : Restarts s vars t k x c f p m q) (hf : 1 ≤ f) (hn : 0 < t.numIntegers) :
    m.positions ≠ [] := by
  have hcount : 1 ≤ min (2 * f) t.numIntegers := by omega
  cases hrandom : s.randomRestarts with
  | false => exact (h.top hrandom).positions_ne_nil hcount hn
  | true =>
      obtain ⟨noise, p', -, -, -, htop, hfar⟩ := h.noisy hrandom
      by_cases hnil : farVariables vars x c noise = []
      · exact (htop hnil).positions_ne_nil hcount hn
      · refine List.ne_nil_of_length_pos ?_
        rw [(hfar hnil).2.length_positions]
        exact List.length_pos_of_ne_nil hnil

end Perturbations

/-- **Perturbations are valid.**  From every tracked progress both perturbations come to a
candidate: that of `perturb` flips the first variables of the ranking, that of `restart` the far
variables or the first of the ranking, and at least one if there is one.  The flipped candidate
passes the check, and it keeps the entries of all other variables.  Each perturbation is counted
once.  Of a random number of flips it is asked that its range can be drawn from, as is the case for
every share of at most all variables. -/
theorem perturbations_are_valid (ht : Table.ofVariables vars = .ok t) (horder : InOrder vars)
    (hfew : (vars.length : Int) < Progress.countLimit)
    (hshare : s.perturbationFraction = fin share)
    (hfit : DrawsFit s (max 1 (share * t.numIntegers).ceil))
    (hstep : 1 ≤ s.perturbationStep) {policy : RankingPolicy} {rows : Option (Rows ExtRat)}
    {visitPenalty eps : ExtRat} (hk : Ranker.make policy t rows visitPenalty eps = .ok k)
    (hx : x.length = vars.length) (hc : t.check (c.map fin) = .ok ())
    (hp : p.Tracks t.numIntegers) :
    ∃ f, s.flipCount t.numIntegers = .ok f ∧ f = max 1 (share * t.numIntegers).ceil ∧
      (∃ m q, perturb s t k (x.map fin) (c.map fin) p = .ok m q ∧
        Perturbs s vars t k x c f p m q ∧ q.perturbations = p.perturbations + 1) ∧
      ∃ m q, restart s t k (x.map fin) (c.map fin) p = .ok m q ∧
        Restarts s vars t k x c f p m q ∧ q.perturbations = p.perturbations + 1 ∧
        (0 < t.numIntegers → m.positions ≠ []) := by
  have h := Table.lists_of_ofVariables ht
  obtain ⟨hpolicy, hlocks⟩ := Ranker.make_eq_ok hk
  rw [← hpolicy] at hlocks
  obtain ⟨m, q, hperturb, hperturbs⟩ :=
    exists_perturb h horder hfew hshare hfit hstep hlocks hx hc hp
  obtain ⟨m', q', hrestart, hrestarts⟩ :=
    exists_restart h horder hfew hshare hstep hlocks hx hc hp
  exact ⟨_, s.toOptions.flipCount_eq hshare t.numIntegers, rfl,
    ⟨m, q, hperturb, hperturbs, hperturbs.perturbations⟩, m', q', hrestart, hrestarts,
    hrestarts.perturbations, hrestarts.positions_ne_nil (le_max_left _ _)⟩

/-- A fixed integer variable, a free continuous one and an integer variable without upper bound,
with a row of all three. -/
def cornered : List (Variable ExtRat) × Rows ExtRat :=
  ( [ { index := 0, lb := .fin 2, ub := .fin 2, kind := .integer, cost := .fin 0 }
    , { index := 1, lb := .negInf, ub := .posInf, kind := .continuous, cost := .fin 1 }
    , { index := 2, lb := .fin (1 / 2), ub := .posInf, kind := .integer, cost := .fin 1 } ]
  , { coefficients := [[.fin 1, .fin 2, .fin (-1)]], senses := [.atMost], rhs := [.fin 2] } )

/-- The rounding `(2, 2)` of the point `(2, 1/3, 5/3)`, with a random number of flips. -/
theorem perturbations_are_valid_cornered :
    ∃ (s : Settings ExtRat) (t : Table ExtRat) (k : Ranker ExtRat) (p : Progress ExtRat),
      Table.ofVariables cornered.1 = .ok t ∧ InOrder cornered.1 ∧
      (cornered.1.length : Int) < Progress.countLimit ∧
      s.perturbationFraction = fin (1 / 10) ∧
      DrawsFit s (max 1 ((1 / 10 : ℚ) * t.numIntegers).ceil) ∧ 1 ≤ s.perturbationStep ∧
      Ranker.make .locks t (some cornered.2) (fin (1 / 10)) (fin (1 / 1000000)) = .ok k ∧
      t.check ([2, 2].map fin) = .ok () ∧ p.Tracks t.numIntegers ∧
      ∃ f, s.flipCount t.numIntegers = .ok f ∧ f = max 1 ((1 / 10 : ℚ) * t.numIntegers).ceil ∧
        (∃ m q, perturb s t k ([2, 1 / 3, 5 / 3].map fin) ([2, 2].map fin) p = .ok m q ∧
          Perturbs s cornered.1 t k [2, 1 / 3, 5 / 3] [2, 2] f p m q ∧
          q.perturbations = p.perturbations + 1) ∧
        ∃ m q, restart s t k ([2, 1 / 3, 5 / 3].map fin) ([2, 2].map fin) p = .ok m q ∧
          Restarts s cornered.1 t k [2, 1 / 3, 5 / 3] [2, 2] f p m q ∧
          q.perturbations = p.perturbations + 1 ∧ (0 < t.numIntegers → m.positions ≠ []) := by
  obtain ⟨t, ht⟩ : ∃ t, Table.ofVariables cornered.1 = .ok t :=
    Act.exists_ok_of_isOk (by decide +kernel)
  have h := Table.lists_of_ofVariables ht
  have horder : InOrder cornered.1 := rfl
  have hfew : (cornered.1.length : Int) < Progress.countLimit := by decide
  have hshaped : cornered.2.Shaped cornered.1.length := ⟨by decide, rfl, rfl⟩
  obtain ⟨k, hk⟩ :=
    Ranker.exists_make h hshaped .locks (fin (1 / 10)) (fin (1 / 1000000))
  let s : Settings ExtRat := { randomFlipCount := true }
  have hshare : s.perturbationFraction = fin (1 / 10) := by decide +kernel
  have hc : t.check ([2, 2].map fin) = .ok () := by
    refine (check_iff_forall₂ h horder).mpr (.cons ?_ (.cons ?_ .nil))
    · decide +kernel
    · decide +kernel
  obtain ⟨p, hp⟩ : ∃ p, Progress.start s t.numIntegers = .ok p := ⟨_, rfl⟩
  have hfit : DrawsFit s (max 1 ((1 / 10 : ℚ) * t.numIntegers).ceil) :=
    drawsFit_of_le_one s (by norm_num) (by rw [h.numIntegers_eq]; decide)
  exact ⟨s, t, k, p, ht, horder, hfew, hshare, hfit, le_rfl, hk, hc, Progress.Tracks.of_start hp,
    perturbations_are_valid ht horder hfew hshare hfit le_rfl hk rfl hc
      (Progress.Tracks.of_start hp)⟩

end Perturber

end MipPump
