import MipPump.Proofs.CoherentProblems
import MipPump.Proofs.Draws

/-!
# Rankings

A ranking orders the integer variables, by scores that depend on the locks, on random factors and on
the moves that the run remembers.  It always comes to an order.

* `Progress.Tracks n`: the remembered moves are moves of `n` integer variables, so that they can be
  counted (`exists_visitCounts`).
* `exists_make`: a ranker finds the locks of all variables in rows that are in shape.
* `exists_scores`, `exists_rank`: when the scores can be computed and the variables ranked.
* `perm_of_rank`: a ranking lists the integer variables, each once.
-/

namespace MipPump

section Visits

variable {R : Type}

/-- The progress is that of `n` integer variables, and so are the moves it remembers. -/
structure Progress.Tracks (n : Nat) (p : Progress R) : Prop where
  count : p.numIntegers = n
  flips : ∀ positions ∈ p.epoch.flips.entries, ∀ i ∈ positions, Vec.InRange n i

namespace Progress

variable {n : Nat} {p q : Progress R}

theorem Tracks.drawn (h : p.Tracks n) (hq : p.Drawn q) : q.Tracks n := by
  obtain ⟨g, rfl⟩ := hq
  exact ⟨h.count, h.flips⟩

theorem Tracks.noteFlips (h : p.Tracks n) {positions : List Int}
    (hpositions : ∀ i ∈ positions, Vec.InRange n i) : (p.noteFlips positions).Tracks n := by
  refine ⟨h.count, fun entry hentry => ?_⟩
  rcases List.mem_append.mp (List.mem_of_mem_drop hentry) with hold | hnew
  · exact h.flips entry hold
  · rw [List.mem_singleton.mp hnew]
    exact hpositions

variable [Arith R]

/-- A new epoch remembers no moves. -/
theorem Tracks.reset (h : p.Tracks n) (s : Settings R) : (p.reset s).Tracks n :=
  ⟨h.count, fun _ hentry => by cases hentry⟩

/-- A run begins without moves. -/
theorem Tracks.of_start {s : Settings R} (h : start s n = .ok p) : p.Tracks n := by
  unfold start at h
  dsimp only at h
  split at h
  · cases h
  · obtain ⟨history, -, h⟩ := Act.exceptBind_eq_ok.mp h
    cases h
    exact ⟨rfl, fun _ hentry => by cases hentry⟩

theorem Tracks.recordDistance (h : p.Tracks n) (value eps : R) :
    (p.recordDistance value eps).2.Tracks n := by
  unfold Progress.recordDistance Epoch.measure
  dsimp only
  split
  · exact ⟨h.count, h.flips⟩
  · exact ⟨h.count, h.flips⟩

theorem exists_countAt {positions : List Int} (hpositions : ∀ i ∈ positions, Vec.InRange n i)
    {counts : List R} (hlen : counts.length = n) :
    ∃ counts', countAt counts positions = .ok counts' ∧ counts'.length = n := by
  induction positions generalizing counts with
  | nil => exact ⟨counts, rfl, hlen⟩
  | cons i rest ih =>
      have hi := hpositions i (List.mem_cons_self ..)
      obtain ⟨x, hx⟩ := hi.exists_at? hlen
      obtain ⟨counts', hset, hlen'⟩ := hi.exists_setAt? hlen (x + 1)
      unfold countAt
      rw [Act.exceptBind_of_ok (Vec.get_eq_ok.mpr hx), Act.exceptBind_of_ok (Vec.set_eq_ok.mpr hset)]
      exact ih (fun j hj => hpositions j (List.mem_cons_of_mem _ hj)) hlen'

/-- The remembered moves can be counted. -/
theorem Tracks.exists_visitCounts (h : p.Tracks n) :
    ∃ counts, p.visitCounts = .ok counts ∧ counts.length = n :=
  Vec.exists_foldlM (fun _ hcounts positions hpositions =>
    exists_countAt (h.flips positions hpositions) hcounts) (by simp [Vec.zeros, h.count])

end Progress

end Visits

section Locks

variable {R : Type} [Arith R] {n : Nat}

/-- There are locks for `n` variables. -/
def Locks.Sized (n : Nat) (locks : Locks R) : Prop := locks.down.length = n ∧ locks.up.length = n

theorem exists_increment {counts : List R} (hlen : counts.length = n) {j : Nat} (hj : j < n) :
    ∃ counts', increment counts j = .ok counts' ∧ counts'.length = n := by
  have hrange : Vec.InRange n (j : Int) := ⟨j, rfl, hj⟩
  obtain ⟨x, hx⟩ := hrange.exists_at? hlen
  obtain ⟨counts', hset, hlen'⟩ := hrange.exists_setAt? hlen (x + 1)
  refine ⟨counts', ?_, hlen'⟩
  unfold increment
  rw [Act.exceptBind_of_ok (Vec.get_eq_ok.mpr hx)]
  exact Vec.set_eq_ok.mpr hset

theorem Locks.exists_add {locks : Locks R} (h : locks.Sized n) (sense : Sense) {j : Nat}
    (hj : j < n) (coef : R) : ∃ locks', locks.add sense j coef = .ok locks' ∧ locks'.Sized n := by
  obtain ⟨down, hdown, hdownlen⟩ := exists_increment h.1 hj
  obtain ⟨up, hup, huplen⟩ := exists_increment h.2 hj
  unfold add
  split
  · rw [Act.exceptBind_of_ok hdown, Act.exceptBind_of_ok hup]
    exact ⟨_, rfl, hdownlen, huplen⟩
  · split
    · rw [Act.exceptBind_of_ok hup]
      exact ⟨_, rfl, h.1, huplen⟩
    · rw [Act.exceptBind_of_ok hdown]
      exact ⟨_, rfl, hdownlen, h.2⟩

theorem Locks.exists_addRow {rows : Rows R} {locks : Locks R} (h : locks.Sized n)
    {row : List R × Nat} (hwidth : row.1.length = n) (hsense : row.2 < rows.senses.length) :
    ∃ locks', locks.addRow rows row = .ok locks' ∧ locks'.Sized n := by
  refine Vec.exists_foldlM (fun locks hlocks term hterm => ?_) h
  have hj : term.2 < n := by
    have hlt := List.snd_lt_of_mem_zipIdx (List.mem_filter.mp hterm).1
    omega
  have hget : (Vec.get rows.senses (row.2 : Int) : Except (Fault R) Sense) =
      .ok rows.senses[row.2] :=
    Vec.get_eq_ok.mpr (Vec.at?_of_getElem? (List.getElem?_eq_getElem hsense))
  dsimp only
  rw [Act.exceptBind_of_ok hget]
  exact exists_add hlocks _ hj _

theorem Locks.exists_ofRows {rows : Rows R} (hrows : rows.Shaped n) :
    ∃ locks, ofRows rows n = .ok locks ∧ locks.Sized n := by
  refine Vec.exists_foldlM (fun locks hlocks row hrow => ?_) ⟨by simp [Vec.zeros], by simp [Vec.zeros]⟩
  have hlt := List.snd_lt_of_mem_zipIdx hrow
  exact exists_addRow hlocks (hrows.width row.1 (List.fst_mem_of_mem_zipIdx hrow))
    (by rw [hrows.senses]; omega)

variable {vars : List (Variable R)} {t : Table R}

theorem Locks.exists_pressure (h : t.Lists vars) {locks : Locks R}
    (hlocks : locks.Sized vars.length) : ∃ pressure, locks.pressure t = .ok pressure := by
  have hlen : (List.zipWith (· + ·) locks.down locks.up).length = vars.length := by
    rw [List.length_zipWith, hlocks.1, hlocks.2, min_self]
  obtain ⟨total, htotal⟩ := Vec.exists_pick (R := R) hlen h.exists_position?
  unfold pressure
  rw [Act.exceptBind_of_ok htotal]
  exact ⟨_, rfl⟩

/-- There is a ranker of every policy. -/
theorem Ranker.exists_make (h : t.Lists vars) {rows : Rows R}
    (hrows : rows.Shaped vars.length) (policy : RankingPolicy) (visitPenalty eps : R) :
    ∃ k, make policy t (some rows) visitPenalty eps = .ok k := by
  unfold make
  split
  · obtain ⟨locks, hlocks, hsized⟩ := Locks.exists_ofRows hrows
    obtain ⟨pressure, hpressure⟩ := Locks.exists_pressure h hsized
    dsimp only
    rw [h.numVars_eq, Act.exceptBind_of_ok hlocks, Act.exceptBind_of_ok hpressure]
    exact ⟨_, rfl⟩
  · exact ⟨_, rfl⟩

/-- A ranker keeps what it was made with. -/
theorem Ranker.fields_of_make {policy : RankingPolicy} {rows : Option (Rows R)}
    {visitPenalty eps : R} {k : Ranker R} (h : make policy t rows visitPenalty eps = .ok k) :
    k.policy = policy ∧ k.visitPenalty = visitPenalty ∧ k.eps = eps := by
  unfold make at h
  split at h
  · split at h
    · cases h
    · obtain ⟨_, -, h⟩ := Act.exceptBind_eq_ok.mp h
      obtain ⟨_, -, h⟩ := Act.exceptBind_eq_ok.mp h
      cases h
      exact ⟨rfl, rfl, rfl⟩
  · cases h
    exact ⟨rfl, rfl, rfl⟩

/-- A ranker by locks has the locks of the rows. -/
theorem Ranker.locks_of_make {rows : Option (Rows R)} {visitPenalty eps : R} {k : Ranker R}
    (h : make .locks t rows visitPenalty eps = .ok k) :
    ∃ rows' locks pressure, rows = some rows' ∧ Locks.ofRows rows' t.numVars = .ok locks ∧
      locks.pressure t = .ok pressure ∧ k.lockPressure = some pressure := by
  cases rows with
  | none => cases h
  | some rows =>
      obtain ⟨locks, hlocks, h⟩ := Act.exceptBind_eq_ok.mp h
      obtain ⟨pressure, hpressure, h⟩ := Act.exceptBind_eq_ok.mp h
      cases h
      exact ⟨rows, locks, pressure, rfl, hlocks, hpressure, rfl⟩

/-- What is known of a ranker that was made. -/
theorem Ranker.make_eq_ok {policy : RankingPolicy} {rows : Option (Rows R)} {visitPenalty eps : R}
    {k : Ranker R} (h : make policy t rows visitPenalty eps = .ok k) :
    k.policy = policy ∧
      (policy = .locks → ∃ ps, k.lockPressure = some ps ∧ ps.length = t.numIntegers) := by
  refine ⟨(fields_of_make h).1, ?_⟩
  rintro rfl
  obtain ⟨_, locks, _, -, -, hpressure, hk⟩ := locks_of_make h
  obtain ⟨total, hpick, hpressure⟩ := Act.exceptBind_eq_ok.mp hpressure
  cases hpressure
  exact ⟨_, hk, by rw [List.length_map]; exact Vec.length_of_pick hpick⟩

end Locks

section Orders

variable {R : Type} [Arith R] {vars : List (Variable R)} {t : Table R} {k : Ranker R} {n : Nat}

/-- The interval has a finite width that carries no minus. -/
def Progress.Drawable (low high : R) : Prop :=
  Arith.isInf (high - low) = false ∧ Arith.isNaN (high - low) = false ∧
    isReversed (high - low) = false

instance Progress.decidableDrawable (low high : R) : Decidable (Drawable low high) :=
  inferInstanceAs (Decidable (_ ∧ _ ∧ _))

/-- An interval of such a width can be drawn from. -/
theorem Progress.exists_drawUniform {low high : R} (hwidth : Drawable low high)
    (hfits : (n : Int) < countLimit) (p : Progress R) :
    ∃ xs q, drawUniform low high n p = .ok xs q ∧ xs.length = n ∧ p.Drawn q := by
  obtain ⟨xs, q, hdraw, hlen⟩ := drawMany_of_fits p (Random.Generator.uniform low high) hfits
  have huniform : drawUniform low high n p = .ok xs q := by
    unfold drawUniform
    rw [hwidth.1, hwidth.2.1, hwidth.2.2]
    exact hdraw
  exact ⟨xs, q, huniform, hlen, (keeps_drawUniform p low high n).of_ok (Drawn.refl p) huniform⟩

/-- Random factors for `n` variables can be drawn. -/
def Ranker.FactorsFit (R : Type) [Arith R] (n : Nat) : Prop :=
  (n : Int) < Progress.countLimit ∧ Progress.Drawable (Arith.ratio 1 2 : R) (Arith.ratio 3 2)

/-- In exact arithmetic there is only the memory to ask for. -/
theorem Ranker.factorsFit (h : (n : Int) < Progress.countLimit) : FactorsFit ExtRat n :=
  ⟨h, by decide +kernel⟩

/-- The policy weighs one score for each integer variable. -/
theorem Ranker.exists_weigh
    (hlocks : k.policy = .locks → ∃ ps, k.lockPressure = some ps ∧ ps.length = n)
    (hfits : k.policy = .random → FactorsFit R n) {base : List R}
    (hbase : base.length = n) (p : Progress R) :
    ∃ weighed q, k.weigh base p = .ok weighed q ∧ weighed.length = n ∧ p.Drawn q := by
  unfold weigh
  cases hpolicy : k.policy with
  | displacement => exact ⟨base, p, rfl, hbase, Progress.Drawn.refl p⟩
  | locks =>
      obtain ⟨ps, hps, hlen⟩ := hlocks hpolicy
      refine ⟨_, p, Act.ofExcept_eq_ok.mpr ⟨Vec.map2_of_length _ ?_, rfl⟩, ?_,
        Progress.Drawn.refl p⟩
      · rw [hps, hbase]
        exact hlen.symm
      · rw [List.length_zipWith, hps, hbase]
        simp [hlen]
  | random =>
      obtain ⟨hn, hwidth⟩ := hfits hpolicy
      rw [← hbase] at hn
      obtain ⟨factors, q, huniform, hfactors, hdrawn⟩ := Progress.exists_drawUniform hwidth hn p
      refine ⟨List.zipWith (· * ·) base factors, q, ?_, ?_, hdrawn⟩
      · exact Act.bind_eq_ok.mpr ⟨factors, q, huniform,
          Act.ofExcept_eq_ok.mpr ⟨Vec.map2_of_length _ hfactors.symm, rfl⟩⟩
      · rw [List.length_zipWith, hfactors, min_self, hbase]

theorem Ranker.exists_penalize {base : List R} (hbase : base.length = n)
    {p : Progress R} (hp : p.Tracks n) :
    ∃ lowered, k.penalize base p = .ok lowered p ∧ lowered.length = n := by
  obtain ⟨counts, hcounts, hlen⟩ := hp.exists_visitCounts
  refine ⟨List.zipWith (fun x visits => x - k.visitPenalty * visits) base counts, ?_, ?_⟩
  · unfold penalize
    rw [Act.bind_of_ok (Act.get_apply p), Act.ofExcept_bind hcounts]
    exact Act.ofExcept_eq_ok.mpr ⟨Vec.map2_of_length _ (hbase.trans hlen.symm), rfl⟩
  · rw [List.length_zipWith, hbase, hlen, min_self]

/-- A ranking that answers lists the integer variables in some order. -/
theorem Ranker.perm_of_rank {point : List R} {candidate : Option (List R)} {p q : Progress R}
    {order : List Int} (h : k.rank t point candidate p = .ok order q) :
    order.Perm t.integers := by
  unfold rank at h
  obtain ⟨scored, _, -, h⟩ := Act.bind_eq_ok.mp h
  split at h
  · rename_i hscored
    cases h
    have hperm := (Ranker.order_perm (scored.zip t.integers)).map (·.2)
    rwa [List.map_snd_zip (Nat.le_of_eq hscored.symm)] at hperm
  · cases h

/-- There is one score for each integer variable. -/
theorem Ranker.exists_scores (h : t.Lists vars) {point : List R}
    (hpoint : point.length = vars.length) {candidate : Option (List R)}
    (hcandidate : ∀ c ∈ candidate, c.length = t.numIntegers)
    (hlocks : k.policy = .locks → ∃ ps, k.lockPressure = some ps ∧ ps.length = t.numIntegers)
    (hfits : k.policy = .random → FactorsFit R t.numIntegers)
    {p : Progress R} (hp : candidate.isSome = true → p.Tracks t.numIntegers) :
    ∃ scored q, k.scores t point candidate p = .ok scored q ∧ scored.length = t.numIntegers := by
  obtain ⟨values, hvalues, hlen⟩ := exists_integerValues h hpoint
  obtain ⟨base, hbase, hbaselen⟩ : ∃ base, k.baseScores values candidate = .ok base ∧
      base.length = t.numIntegers := by
    cases candidate with
    | none => exact ⟨_, rfl, by rw [List.length_map, hlen]⟩
    | some c =>
        have hc := hcandidate c rfl
        exact ⟨_, Vec.map2_of_length _ (hlen.trans hc.symm),
          by rw [List.length_zipWith, hlen, hc, min_self]⟩
  obtain ⟨weighed, q, hweigh, hweighed, hdrawn⟩ := k.exists_weigh hlocks hfits hbaselen p
  unfold scores
  rw [Act.ofExcept_bind hvalues, Act.ofExcept_bind hbase, Act.bind_of_ok hweigh]
  split
  · rename_i hpenalty
    rw [Bool.and_eq_true] at hpenalty
    obtain ⟨lowered, hlowered, hloweredlen⟩ :=
      k.exists_penalize hweighed ((hp hpenalty.2).drawn hdrawn)
    rw [Act.bind_of_ok hlowered]
    exact ⟨_, q, rfl, by rw [List.length_map, hloweredlen]⟩
  · exact ⟨_, q, rfl, by rw [List.length_map, hweighed]⟩

/-- The ranking orders the variables by their scores. -/
theorem Ranker.rank_of_scores {point : List R} {candidate : Option (List R)} {p q : Progress R}
    {scored : List R} (hscores : k.scores t point candidate p = .ok scored q)
    (hlen : scored.length = t.numIntegers) :
    k.rank t point candidate p = .ok ((order (scored.zip t.integers)).map (·.2)) q := by
  unfold rank
  rw [Act.bind_of_ok hscores, if_pos hlen]
  rfl

/-- **A ranking answers** if the scores can be computed. -/
theorem Ranker.exists_rank (h : t.Lists vars) {point : List R}
    (hpoint : point.length = vars.length) {candidate : Option (List R)}
    (hcandidate : ∀ c ∈ candidate, c.length = t.numIntegers)
    (hlocks : k.policy = .locks → ∃ ps, k.lockPressure = some ps ∧ ps.length = t.numIntegers)
    (hfits : k.policy = .random → FactorsFit R t.numIntegers)
    {p : Progress R} (hp : candidate.isSome = true → p.Tracks t.numIntegers) :
    ∃ order q, k.rank t point candidate p = .ok order q ∧ order.Perm t.integers := by
  obtain ⟨scored, q, hscores, hlen⟩ :=
    k.exists_scores h hpoint hcandidate hlocks hfits hp
  exact ⟨_, q, rank_of_scores hscores hlen, perm_of_rank (rank_of_scores hscores hlen)⟩

end Orders

end MipPump
