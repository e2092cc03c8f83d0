import MipPump.Proofs.LockCounts
import MipPump.Proofs.NearestIntegers
import MipPump.Proofs.SortedRankings

/-!
# Rankings respect dominance

Apart from random factors, the score of an integer variable depends on its gap to the candidate, its
locks and its visits.  A variable that is not worse in any of these, and has the smaller index, is
ranked first: each step from the gap to the score keeps the order.

* `rintRat_mono`, `roundedScore_mono`: the scores are rounded, which keeps the order.
* `Locks.Counted.scaled_pressure`: the pressures are the locks in one scale.
* `Ranker.exists_weights`: factors at least one, greater for more locks.
* `Ranker.exists_ranked`: the score of a variable as a formula.
* `Ranker.Dominates`: the variable at one place is not worse than the one at another place.

**Result.**  `Ranker.rank_sorts_and_respects_dominance`.
-/

namespace MipPump

open ExtRat

section Meaning

/-- The locks of the variables in both directions together. -/
def Locks.total {R : Type} [Arith R] (locks : Locks R) : List R :=
  List.zipWith (· + ·) locks.down locks.up

namespace Ranker

/-- Every ranking is sorted by its scores. -/
def Sorts (R : Type) [Arith R] : Prop :=
  ∀ {vars : List (Variable R)} {t : Table R} {policy : RankingPolicy} {rows : Option (Rows R)}
    {visitPenalty eps : R} {k : Ranker R} {point : List R} {candidate : Option (List R)}
    {p : Progress R},
    Table.ofVariables vars = .ok t → make policy t rows visitPenalty eps = .ok k →
    (policy = .random → (t.numIntegers : Int) < Progress.countLimit) →
    point.length = vars.length → (∀ c ∈ candidate, c.length = t.numIntegers) →
    (candidate.isSome = true → p.Tracks t.numIntegers) → k.SortsByScore t point candidate p

/-- The gap between a value and its rounding, none up to the tolerance. -/
def gap (eps : ExtRat) (q v : ℚ) : ℚ := if fin |q - v| ≤ eps then 0 else |q - v|

/-- The variable `i` has at least the locks of the variable `j`, if locks count. -/
def LocksAtLeast (policy : RankingPolicy) (rows : Option (Rows ExtRat)) (t : Table ExtRat)
    (i j : ℤ) : Prop :=
  policy = .locks → ∃ rows' locks n n', rows = some rows' ∧
    Locks.ofRows rows' t.numVars = .ok locks ∧ Vec.at? locks.total i = some n ∧
    Vec.at? locks.total j = some n' ∧ n' ≤ n

/-- The integer variable `i` at the place `a` is not worse than `j` at the place `b`: it has at
least the gap, at least the locks if they count, and at most the visits. -/
structure Dominates (policy : RankingPolicy) (rows : Option (Rows ExtRat)) (eps : ExtRat)
    (t : Table ExtRat) (x y : List ℚ) (p : Progress ExtRat) (i j : ℤ) (a b : ℕ) : Prop where
  gaps : ∃ q v q' v', Vec.at? x i = some q ∧ y[a]? = some v ∧ Vec.at? x j = some q' ∧
    y[b]? = some v' ∧ gap eps q' v' ≤ gap eps q v
  locks : LocksAtLeast policy rows t i j
  visits : p.visits a ≤ p.visits b

end Ranker

end Meaning

section Rounded

variable {q q' : ℚ}

/-- The value is above a half, or at the half above an odd integer. -/
def rintUp (w : ℚ) : Bool :=
  decide (1 / 2 < Int.fract w) || decide (Int.fract w = 1 / 2 ∧ ¬ ⌊w⌋ % 2 = 0)

theorem rintUp_iff :
    rintUp q = true ↔ 1 / 2 < Int.fract q ∨ Int.fract q = 1 / 2 ∧ ¬ ⌊q⌋ % 2 = 0 := by
  rw [rintUp, Bool.or_eq_true, decide_eq_true_iff, decide_eq_true_iff]

theorem rintRat_eq (w : ℚ) : rintRat w = ((if rintUp w then ⌊w⌋ + 1 else ⌊w⌋ : ℤ) : ℚ) := by
  have hfloor : w.floor = ⌊w⌋ := rfl
  have hpart : w - ⌊w⌋ = Int.fract w := rfl
  unfold rintRat
  simp only [hfloor, hpart, rintUp_iff]
  rcases lt_trichotomy (Int.fract w) (1 / 2) with hlt | heq | hgt
  · rw [if_pos hlt, if_neg (not_or.mpr ⟨hlt.not_gt, fun h => hlt.ne h.1⟩)]
  · simp only [heq, lt_irrefl, if_false, false_or, true_and]
    split_ifs <;> push_cast <;> rfl
  · rw [if_neg hgt.not_gt, if_pos hgt, if_pos (.inl hgt), Int.cast_add, Int.cast_one]

theorem rintUp_mono (hfloor : ⌊q⌋ = ⌊q'⌋) (h : q ≤ q') (hup : rintUp q = true) :
    rintUp q' = true := by
  rw [rintUp_iff] at hup ⊢
  rcases (Rounding.fract_le_fract hfloor h).lt_or_eq with hlt | heq
  · exact .inl (hup.elim hlt.trans' fun hhalf => hhalf.1 ▸ hlt)
  · rwa [← heq, ← hfloor]

/-- Rounding to the nearest integer keeps the order. -/
theorem rintRat_mono (h : q ≤ q') : rintRat q ≤ rintRat q' := by
  rw [rintRat_eq, rintRat_eq]
  exact Int.cast_le.mpr (Rounding.floorOrNext_mono (fun _ _ => rintUp_mono) h)

/-- A score after rounding. -/
def roundedScore (q : ℚ) : ℚ := rintRat (q * 10 ^ 12) / 10 ^ 12

theorem roundTwelve_fin (q : ℚ) : Arith.roundTwelve (fin q) = fin (roundedScore q) := by
  have hten : (Arith.ofInt (Power.ten 12 : ℕ) : ExtRat) = fin (10 ^ 12) := by
    rw [ofInt_eq]
    norm_num [show Power.ten 12 = 10 ^ 12 by decide +kernel]
  unfold Arith.roundTwelve roundedScore
  rw [hten, fin_mul, rint_fin, fin_div _ _ (by norm_num)]

theorem roundedScore_mono (h : q ≤ q') : roundedScore q ≤ roundedScore q' := by
  unfold roundedScore
  gcongr
  exact rintRat_mono (by gcongr)

end Rounded

section Pressures

/-- The entries are finite and not negative. -/
def Counts (xs : List ExtRat) : Prop := ∀ x ∈ xs, ∃ q : ℚ, 0 ≤ q ∧ x = fin q

theorem counts_zeros (n : ℕ) : Counts (Vec.zeros n) := by
  intro x hx
  exact ⟨0, le_rfl, (List.eq_of_mem_replicate hx).trans zero_eq⟩

theorem Counts.increment {xs ys : List ExtRat} (h : Counts xs) {j : ℤ}
    (hys : increment xs j = .ok ys) : Counts ys := by
  obtain ⟨x, hget, hset⟩ := Act.exceptBind_eq_ok.mp hys
  obtain ⟨q, hq, rfl⟩ := h x (Vec.mem_of_at? (Vec.get_eq_ok.mp hget))
  obtain ⟨k, -, rfl⟩ := Vec.setAt?_eq_some.mp (Vec.set_eq_ok.mp hset)
  intro y hy
  rcases List.mem_or_eq_of_mem_set hy with hold | rfl
  · exact h y hold
  · exact ⟨q + 1, by linarith, rfl⟩

namespace Locks

/-- Locks are counts in both directions. -/
def Counted (locks : Locks ExtRat) : Prop := Counts locks.down ∧ Counts locks.up

theorem Counted.add {locks locks' : Locks ExtRat} (h : locks.Counted) {s : Sense} {j : ℕ}
    {coef : ExtRat} (hadd : locks.add s j coef = .ok locks') : locks'.Counted := by
  unfold Locks.add at hadd
  split at hadd
  · obtain ⟨down, hdown, hadd⟩ := Act.exceptBind_eq_ok.mp hadd
    obtain ⟨up, hup, hadd⟩ := Act.exceptBind_eq_ok.mp hadd
    cases hadd
    exact ⟨h.1.increment hdown, h.2.increment hup⟩
  · split at hadd
    · obtain ⟨up, hup, hadd⟩ := Act.exceptBind_eq_ok.mp hadd
      cases hadd
      exact ⟨h.1, h.2.increment hup⟩
    · obtain ⟨down, hdown, hadd⟩ := Act.exceptBind_eq_ok.mp hadd
      cases hadd
      exact ⟨h.1.increment hdown, h.2⟩

theorem Counted.addRow {rows : Rows ExtRat} {locks locks' : Locks ExtRat} (h : locks.Counted)
    {row : List ExtRat × ℕ} (hadd : locks.addRow rows row = .ok locks') : locks'.Counted := by
  refine Vec.foldlM_keeps (fun locks hlocks term _ locks' hterm => ?_) h hadd
  obtain ⟨s, -, hterm⟩ := Act.exceptBind_eq_ok.mp hterm
  exact hlocks.add hterm

theorem counts_of_ofRows {rows : Rows ExtRat} {n : ℕ} {locks : Locks ExtRat}
    (h : ofRows rows n = .ok locks) : locks.Counted :=
  Vec.foldlM_keeps (fun _ hlocks _ _ _ hrow => hlocks.addRow hrow)
    ⟨counts_zeros n, counts_zeros n⟩ h

theorem Counted.total {locks : Locks ExtRat} (h : locks.Counted) : Counts locks.total := by
  intro x hx
  rw [Locks.total, ← List.map_uncurry_zip_eq_zipWith] at hx
  obtain ⟨⟨down, up⟩, hpair, rfl⟩ := List.mem_map.mp hx
  obtain ⟨hdown, hup⟩ := List.of_mem_zip hpair
  obtain ⟨m, hm, rfl⟩ := h.1 down hdown
  obtain ⟨n, hn, rfl⟩ := h.2 up hup
  exact ⟨m + n, add_nonneg hm hn, rfl⟩

theorem greatest_map_fin (ns : List ℚ) (start : ℚ) :
    Vec.greatest (fin start) (ns.map fin) = fin (ns.foldl max start) := by
  unfold Vec.greatest
  induction ns generalizing start with
  | nil => rfl
  | cons n ns ih => rw [List.map_cons, List.foldl_cons, larger_fin, ih, List.foldl_cons]

/-- The pressures are the locks in one scale. -/
theorem Counted.scaled_pressure {t : Table ExtRat} {locks : Locks ExtRat} {pressure : List ExtRat}
    (hlocks : locks.Counted) (h : locks.pressure t = .ok pressure) :
    ∃ (scale : ℚ) (ps : List ℚ), 0 < scale ∧ pressure = ps.map fin ∧
      List.Forall₂ (fun j p => 0 ≤ p ∧ Vec.at? locks.total j = some (fin (p * scale)))
        t.integers ps := by
  obtain ⟨picked, hpick, h⟩ := Act.exceptBind_eq_ok.mp h
  obtain rfl := Except.ok.inj h
  obtain ⟨ns, rfl⟩ : picked ∈ Set.range (List.map fin) := by
    rw [Set.range_list_map]
    intro x hx
    obtain ⟨q, -, hq⟩ := hlocks.total x (Vec.mem_of_pick hpick hx)
    exact ⟨q, hq.symm⟩
  let scale := max 1 (ns.foldl max 0)
  have hscale : 0 < scale := lt_max_of_lt_left one_pos
  refine ⟨scale, ns.map (· / scale), hscale, ?_, ?_⟩
  · rw [zero_eq, greatest_map_fin, one_eq, larger_fin, List.map_map, List.map_map]
    exact List.map_congr_left fun n _ => fin_div n scale hscale.ne'
  · have hplaces := Vec.pick_eq_ok.mp hpick
    rw [List.forall₂_map_right_iff] at hplaces ⊢
    refine hplaces.imp fun j n hn => ?_
    obtain ⟨q, hq, hfin⟩ := hlocks.total _ (Vec.mem_of_at? hn)
    obtain rfl := fin.inj hfin
    exact ⟨div_nonneg hq hscale.le, by rwa [div_mul_cancel₀ n hscale.ne']⟩

end Locks

end Pressures

section Scores

variable {vars : List (Variable ExtRat)} {t : Table ExtRat} {policy : RankingPolicy}
  {rows : Option (Rows ExtRat)} {pen : ℚ} {eps : ExtRat} {k : Ranker ExtRat} {p : Progress ExtRat}

namespace Ranker

/-- The policy multiplies the gaps by the weights `ws`. -/
def Weighs (k : Ranker ExtRat) (ws : List ℚ) : Prop :=
  ∀ (gaps : List ℚ) (p : Progress ExtRat), gaps.length = ws.length →
    k.weigh (gaps.map fin) p = .ok ((List.zipWith (· * ·) gaps ws).map fin) p

theorem weighs_displacement (hk : k.policy = .displacement) (n : ℕ) :
    k.Weighs (List.replicate n 1) := by
  intro gaps p hlen
  rw [List.length_replicate] at hlen
  have hones : List.zipWith (· * ·) gaps (List.replicate n 1) = gaps := by
    rw [← hlen, ← List.map_const', List.zipWith_map_right, List.zipWith_self]
    simp
  unfold weigh
  rw [hk, hones]
  rfl

theorem weighs_locks (hk : k.policy = .locks) {ps : List ℚ}
    (hps : k.lockPressure = some (ps.map fin)) : k.Weighs (ps.map (1 + ·)) := by
  intro gaps p hlen
  rw [List.length_map] at hlen
  unfold weigh
  rw [hk, hps]
  refine Act.ofExcept_eq_ok.mpr ⟨?_, rfl⟩
  rw [Option.getD_some, Vec.map2_of_length _ (by simp [hlen]), List.zipWith_map,
    List.zipWith_map_right, List.map_zipWith]
  rfl

/-- A variable with more locks has the greater pressure: both are in one scale. -/
theorem pressure_le {rows : Rows ExtRat} {locks : Locks ExtRat}
    (hlocks : Locks.ofRows rows t.numVars = .ok locks) {scale : ℚ} (hscale : 0 < scale) {p p' : ℚ}
    {i j : ℤ} (hi : Vec.at? locks.total i = some (fin (p * scale)))
    (hj : Vec.at? locks.total j = some (fin (p' * scale)))
    (hmore : LocksAtLeast .locks (some rows) t i j) : p' ≤ p := by
  obtain ⟨_, _, n, n', hrows, hlocks', hn, hn', hle⟩ := hmore rfl
  cases hrows
  cases hlocks.symm.trans hlocks'
  obtain rfl := Option.some.inj (hi.symm.trans hn)
  obtain rfl := Option.some.inj (hj.symm.trans hn')
  exact le_of_mul_le_mul_right ((fin_le_fin _ _).mp hle) hscale

/-- Without random factors the weights are not negative, and greater for more locks. -/
theorem exists_weights (hk : make policy t rows (fin pen) eps = .ok k)
    (hpolicy : policy ≠ .random) :
    ∃ ws : List ℚ, k.Weighs ws ∧ ws.length = t.numIntegers ∧ (∀ w ∈ ws, 0 ≤ w) ∧
      ∀ {i j : ℤ} {a b : ℕ} {w w' : ℚ}, t.integers[a]? = some i → t.integers[b]? = some j →
        LocksAtLeast policy rows t i j → ws[a]? = some w → ws[b]? = some w' → w' ≤ w := by
  obtain ⟨hkpolicy, -, -⟩ := fields_of_make hk
  cases policy with
  | random => exact absurd rfl hpolicy
  | displacement =>
      refine ⟨_, weighs_displacement hkpolicy t.numIntegers, List.length_replicate, ?_, ?_⟩
      · intro w hw
        rw [List.eq_of_mem_replicate hw]
        exact zero_le_one
      · intro i j a b w w' _ _ _ hw hw'
        rw [List.eq_of_mem_replicate (List.mem_of_getElem? hw),
          List.eq_of_mem_replicate (List.mem_of_getElem? hw')]
  | locks =>
      obtain ⟨rows', locks, pressure, rfl, hlocks, hpressure, hkpressure⟩ := locks_of_make hk
      obtain ⟨scale, ps, hscale, rfl, hps⟩ :=
        (Locks.counts_of_ofRows hlocks).scaled_pressure hpressure
      refine ⟨_, weighs_locks hkpolicy hkpressure, ?_, ?_, ?_⟩
      · rw [List.length_map]
        exact hps.length_eq.symm
      · intro w hw
        obtain ⟨q, hq, rfl⟩ := List.mem_map.mp hw
        obtain ⟨j, -, hnonneg, -⟩ := Vec.exists_of_mem_left hps.flip hq
        linarith
      · intro i j a b w w' hi hj hmore hw hw'
        obtain ⟨q, hq, -, hi⟩ := Vec.forall₂_getElem? hps hi
        obtain ⟨q', hq', -, hj⟩ := Vec.forall₂_getElem? hps hj
        rw [List.getElem?_map, hq] at hw
        rw [List.getElem?_map, hq'] at hw'
        cases hw
        cases hw'
        exact add_le_add_right (pressure_le hlocks hscale hi hj hmore) 1

/-- The score of a variable with a gap, a weight and a number of visits. -/
def score (eps : ExtRat) (pen q v w : ℚ) (visits : ℕ) : ℚ :=
  roundedScore (gap eps q v * w - pen * visits)

theorem gap_nonneg (eps : ExtRat) (q v : ℚ) : 0 ≤ gap eps q v := by
  unfold gap
  split
  · exact le_rfl
  · exact abs_nonneg _

/-- Each step from the gap to the score keeps the order. -/
theorem score_mono (hpen : 0 ≤ pen) {q v q' v' w w' : ℚ} {n n' : ℕ}
    (hgap : gap eps q' v' ≤ gap eps q v) (hweight : w' ≤ w) (hnonneg : 0 ≤ w') (hvisits : n ≤ n') :
    score eps pen q' v' w' n' ≤ score eps pen q v w n := by
  have hpenalty : pen * n ≤ pen * n' := mul_le_mul_of_nonneg_left (by exact_mod_cast hvisits) hpen
  have hweighed : gap eps q' v' * w' ≤ gap eps q v * w :=
    mul_le_mul hgap hweight hnonneg (gap_nonneg eps q v)
  exact roundedScore_mono (sub_le_sub hweighed hpenalty)

/-- Scores lowered by the visits of their places. -/
def lowered (pen : ℚ) (visits : ℕ → ℕ) (base : List ℚ) : List ℚ :=
  List.zipWith (fun b n => b - pen * n) base
    ((List.range base.length).map fun k => (visits k : ℚ))

theorem penalize_eq (hpen : k.visitPenalty = fin pen) {base : List ℚ} (hp : p.Tracks base.length) :
    k.penalize (base.map fin) p = .ok ((lowered pen p.visits base).map fin) p := by
  unfold penalize
  rw [Act.bind_of_ok (Act.get_apply p), Act.ofExcept_bind hp.visitCounts_eq]
  refine Act.ofExcept_eq_ok.mpr ⟨?_, rfl⟩
  rw [Vec.map2_of_length _ (by rw [List.length_map, length_tally]), hpen, tally, lowered,
    List.zipWith_map, List.zipWith_map_right, List.map_zipWith]
  simp only [fin_mul, fin_sub]

/-- Without a penalty the visits do not count. -/
theorem lowered_zero (visits : ℕ → ℕ) (base : List ℚ) : lowered 0 visits base = base := by
  unfold lowered
  simp only [zero_mul, sub_zero]
  rw [← List.map_uncurry_zip_eq_zipWith]
  exact List.map_fst_zip (by simp)

/-- The scores of the places: gaps in weights, lowered by the visits and rounded. -/
theorem scores_eq (hk : make policy t rows (fin pen) eps = .ok k) (hpen : 0 ≤ pen)
    {x values y ws : List ℚ} (hvalues : t.integerValues (x.map fin) = .ok (values.map fin))
    (hweighs : k.Weighs ws) (hlen : values.length = t.numIntegers)
    (hws : ws.length = t.numIntegers) (hy : y.length = t.numIntegers)
    (hp : p.Tracks t.numIntegers) :
    k.scores t (x.map fin) (some (y.map fin)) p =
      .ok ((lowered pen p.visits (List.zipWith (· * ·) (List.zipWith (gap eps) values y) ws)).map
        fun q => fin (roundedScore q)) p := by
  obtain ⟨-, hkpen, hkeps⟩ := fields_of_make hk
  let gaps := List.zipWith (gap eps) values y
  have hgaps : gaps.length = ws.length := by simp [gaps, hlen, hy, hws]
  have hbase : k.baseScores (values.map fin) (some (y.map fin)) = .ok (gaps.map fin) := by
    have hgap (q v : ℚ) : displacement k.eps (fin q) (fin v) = fin (gap eps q v) := by
      unfold displacement gap
      rw [hkeps, fin_sub, abs_fin, apply_ite fin, zero_eq]
    unfold baseScores
    dsimp only
    rw [Vec.map2_of_length _ (by simp [hlen, hy]), List.zipWith_map, List.map_zipWith]
    simp only [hgap]
  have hround (base : List ℚ) : (base.map fin).map Arith.roundTwelve =
      base.map fun q => fin (roundedScore q) := by
    rw [List.map_map]
    exact List.map_congr_left fun q _ => roundTwelve_fin q
  unfold scores
  rw [Act.ofExcept_bind hvalues, Act.ofExcept_bind hbase, Act.bind_of_ok (hweighs gaps p hgaps)]
  split
  · have hplaces : p.Tracks (List.zipWith (· * ·) gaps ws).length := by simpa [hgaps, hws] using hp
    rw [Act.bind_of_ok (penalize_eq hkpen hplaces)]
    exact congrArg (EStateM.Result.ok · p) (hround _)
  · rename_i hnone
    have hzero : pen = 0 := by
      rw [hkpen, zero_eq, Option.isSome_some, Bool.and_true, decide_eq_true_eq, fin_lt_fin,
        not_lt] at hnone
      exact le_antisymm hnone hpen
    rw [hzero, lowered_zero]
    exact congrArg (EStateM.Result.ok · p) (hround _)

theorem getElem?_scores {values y ws : List ℚ} {visits : ℕ → ℕ} {a : ℕ} {q v w : ℚ}
    (hq : values[a]? = some q) (hv : y[a]? = some v) (hw : ws[a]? = some w) :
    ((lowered pen visits (List.zipWith (· * ·) (List.zipWith (gap eps) values y) ws)).map
        fun q => fin (roundedScore q))[a]? = some (fin (score eps pen q v w (visits a))) := by
  have hweighed : (List.zipWith (· * ·) (List.zipWith (gap eps) values y) ws)[a]? =
      some (gap eps q v * w) := by
    simp [List.getElem?_zipWith, hq, hv, hw]
  obtain ⟨ha, -⟩ := List.getElem?_eq_some_iff.mp hweighed
  rw [List.getElem?_map, lowered, List.getElem?_zipWith, hweighed, List.getElem?_map,
    List.getElem?_range ha]
  rfl

/-- Each integer variable stands in the ranking with its score. -/
theorem exists_ranked (ht : Table.ofVariables vars = .ok t)
    (hk : make policy t rows (fin pen) eps = .ok k) (hpen : 0 ≤ pen) {x y ws : List ℚ}
    (hx : x.length = vars.length) (hy : y.length = t.numIntegers) (hp : p.Tracks t.numIntegers)
    (hweighs : k.Weighs ws) (hws : ws.length = t.numIntegers) :
    ∃ ranked : List (ExtRat × ℤ),
      k.rank t (x.map fin) (some (y.map fin)) p = .ok (ranked.map (·.2)) p ∧
      ranked.Pairwise Precedes ∧
      ∀ {i : ℤ} {a : ℕ} {q v : ℚ}, t.integers[a]? = some i → Vec.at? x i = some q →
        y[a]? = some v →
        ∃ w, ws[a]? = some w ∧ (fin (score eps pen q v w (p.visits a)), i) ∈ ranked := by
  have h := Table.lists_of_ofVariables ht
  obtain ⟨values, hvalues, hlen, hplaces⟩ := h.exists_values hx
  have hscores := scores_eq hk hpen hvalues hweighs hlen hws hy hp
  refine ⟨_, rank_of_scores hscores (by simp [lowered, hlen, hy, hws]),
    ExtRat.numberOrder.pairwise_order _, fun {i a q v} hi hq hv => ?_⟩
  have ha : a < ws.length := hws.symm ▸ (List.getElem?_eq_some_iff.mp hi).1
  have hw := List.getElem?_eq_getElem ha
  obtain ⟨_, hvalue, hat⟩ := Vec.forall₂_getElem? hplaces hi
  obtain rfl := Option.some.inj (hq.symm.trans hat)
  exact ⟨ws[a], hw, (order_perm _).mem_iff.mpr (List.mem_of_getElem?
    (List.getElem?_zip_eq_some.mpr ⟨getElem?_scores hvalue hv hw, hi⟩))⟩

/-- A variable that is not worse and has the smaller index comes first. -/
theorem sublist_of_dominates (ht : Table.ofVariables vars = .ok t)
    (hk : make policy t rows (fin pen) eps = .ok k) (hpolicy : policy ≠ .random) (hpen : 0 ≤ pen)
    {x y : List ℚ} (hx : x.length = vars.length) (hy : y.length = t.numIntegers)
    (hp : p.Tracks t.numIntegers) {i j : ℤ} {a b : ℕ} (hi : t.integers[a]? = some i)
    (hj : t.integers[b]? = some j) (hij : i < j)
    (hdom : Dominates policy rows eps t x y p i j a b) :
    ∃ order q, k.rank t (x.map fin) (some (y.map fin)) p = .ok order q ∧ [i, j].Sublist order := by
  obtain ⟨ws, hweighs, hws, hnonneg, hmono⟩ := exists_weights hk hpolicy
  obtain ⟨ranked, hrank, hsorted, hplace⟩ := exists_ranked ht hk hpen hx hy hp hweighs hws
  obtain ⟨q, v, q', v', hq, hv, hq', hv', hgap⟩ := hdom.gaps
  obtain ⟨w, hw, hmem⟩ := hplace hi hq hv
  obtain ⟨w', hw', hmem'⟩ := hplace hj hq' hv'
  have hle : score eps pen q' v' w' (p.visits b) ≤ score eps pen q v w (p.visits a) :=
    score_mono hpen hgap (hmono hi hj hdom.locks hw hw')
      (hnonneg w' (List.mem_of_getElem? hw')) hdom.visits
  have hlast : ¬ Precedes (fin (score eps pen q' v' w' (p.visits b)), j)
      (fin (score eps pen q v w (p.visits a)), i) := by
    rintro (hlt | ⟨-, hji⟩)
    · simp [Outranks, hle.not_gt] at hlt
    · exact absurd hij hji.not_gt
  have hfirst := sublist_of_pairwise hsorted hmem hmem' hlast
    fun heq => hij.ne (congrArg Prod.snd heq)
  exact ⟨_, p, hrank, hfirst.map Prod.snd⟩

/-- Every ranking is sorted where the numbers are ordered and random factors can be drawn. -/
theorem sorts_of_order {R Key : Type} [Arith R] [LinearOrder Key] (o : NumberOrder R Key)
    (hwidth : Progress.Drawable (Arith.ratio 1 2 : R) (Arith.ratio 3 2)) : Sorts R := by
  intro vars t policy rows visitPenalty eps k point candidate p ht hk hfits hpoint hcandidate hp
  obtain ⟨hpolicy, hlocks⟩ := make_eq_ok hk
  refine o.sortsByScore (Table.lists_of_ofVariables ht) hpoint hcandidate
    (fun hkpolicy => hlocks (hpolicy ▸ hkpolicy)) (fun hkpolicy => ?_) hp
  exact ⟨hfits (hpolicy ▸ hkpolicy), hwidth⟩

end Ranker

end Scores

/-- **Rankings are sorted and respect dominance.**  In both arithmetics every ranking is a
permutation of the integer variables by descending score, equal scores by ascending index.  In
exact arithmetic, without random factors and with a penalty that is not negative, an integer
variable that is not worse than another one in gap, locks and visits, and has the smaller index,
comes before it. -/
theorem Ranker.rank_sorts_and_respects_dominance :
    Sorts Float ∧ Sorts ExtRat ∧
    ∀ {vars : List (Variable ExtRat)} {t : Table ExtRat} {policy : RankingPolicy}
      {rows : Option (Rows ExtRat)} {pen : ℚ} {eps : ExtRat} {k : Ranker ExtRat}
      {x y : List ℚ} {p : Progress ExtRat} {i j : ℤ} {a b : ℕ},
      Table.ofVariables vars = .ok t → make policy t rows (fin pen) eps = .ok k →
      policy ≠ .random → 0 ≤ pen → x.length = vars.length → y.length = t.numIntegers →
      p.Tracks t.numIntegers → t.integers[a]? = some i → t.integers[b]? = some j → i < j →
      Dominates policy rows eps t x y p i j a b →
      ∃ order q, k.rank t (x.map fin) (some (y.map fin)) p = .ok order q ∧
        [i, j].Sublist order :=
  ⟨sorts_of_order Binary64.numberOrder (by decide +kernel),
    sorts_of_order ExtRat.numberOrder (by decide +kernel),
    fun ht hk hpolicy hpen hx hy hp hi hj hij hdom =>
      sublist_of_dominates ht hk hpolicy hpen hx hy hp hi hj hij hdom⟩

/-- The first integer variable has the greater gap and three locks, the other one a single lock. -/
theorem Ranker.rank_sorts_and_respects_dominance_crossed :
    ∃ t k p, Table.ofVariables Rounding.roomy = .ok t ∧
      make .locks t (some crossed) (fin (1 / 10)) (fin (1 / 1000000)) = .ok k ∧
      p.Tracks t.numIntegers ∧
      Dominates .locks (some crossed) (fin (1 / 1000000)) t [9 / 5, 7, 1 / 2] [1, 0] p 0 2 0 1 ∧
      k.SortsByScore t ([9 / 5, 7, 1 / 2].map fin) (some ([1, 0].map fin)) p ∧
      ∃ order q, k.rank t ([9 / 5, 7, 1 / 2].map fin) (some ([1, 0].map fin)) p = .ok order q ∧
        [0, 2].Sublist order := by
  obtain ⟨t, ht⟩ : ∃ t, Table.ofVariables Rounding.roomy = .ok t :=
    Act.exists_ok_of_isOk (by decide +kernel)
  have h := Table.lists_of_ofVariables ht
  have hintegers : t.integers = [0, 2] := h.integers
  have hnum : t.numIntegers = 2 := congrArg List.length hintegers
  have hvars : t.numVars = 3 := h.numVars_eq
  obtain ⟨k, hk⟩ : ∃ k, make .locks t (some crossed) (fin (1 / 10)) (fin (1 / 1000000)) = .ok k :=
    exists_make h (show crossed.Shaped 3 from ⟨by decide, rfl, rfl⟩) _ _ _
  obtain ⟨p, hstart, hvisits⟩ : ∃ p, Progress.start ({} : Settings ExtRat) t.numIntegers = .ok p ∧
      ∀ a, p.visits a = 0 := ⟨_, rfl, fun _ => rfl⟩
  have hp := Progress.Tracks.of_start hstart
  have hdom : Dominates .locks (some crossed) (fin (1 / 1000000)) t [9 / 5, 7, 1 / 2] [1, 0] p
      0 2 0 1 := by
    refine ⟨⟨_, _, _, _, rfl, rfl, rfl, rfl, ?_⟩, fun _ => ?_, by rw [hvisits, hvisits]⟩
    · norm_num [gap, abs_of_pos]
    · obtain ⟨locks, hlocks⟩ : ∃ locks, Locks.ofRows crossed 3 = .ok locks :=
        Act.exists_ok_of_isOk (by decide +kernel)
      have htotal : (Locks.ofRows crossed 3).toOption.map Locks.total =
          some [.fin 3, .fin 2, .fin 1] := by decide +kernel
      rw [hlocks] at htotal
      refine ⟨crossed, locks, fin 3, fin 1, rfl, hvars ▸ hlocks, ?_, ?_, by decide +kernel⟩
      · rw [Option.some.inj htotal]
        rfl
      · rw [Option.some.inj htotal]
        rfl
  obtain ⟨-, hsorts, hdominance⟩ := rank_sorts_and_respects_dominance
  refine ⟨t, k, p, ht, hk, hp, hdom, ?_, ?_⟩
  · refine hsorts ht hk (fun hrandom => by cases hrandom) rfl (fun c hc => ?_) fun _ => hp
    cases hc
    exact hnum.symm
  · exact hdominance ht hk (by decide) (by norm_num) rfl hnum.symm hp (by rw [hintegers]; rfl)
      (by rw [hintegers]; rfl) (by decide) hdom

end MipPump
