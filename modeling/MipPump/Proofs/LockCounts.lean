import MipPump.Proofs.OpenBoxes
import MipPump.Proofs.Tallies

/-!
# What locks count

A row locks a variable in a direction if some point where the row holds is taken out of it by a move
of the variable in that direction.  The program reads this off the sense of the row and the sign of
the coefficient.

* `Rows.HoldsAt`, `Rows.Locks`: a row at a point, and the moves that violate it.
* `Sense.yields`: the comparison of the program, for a coefficient in the direction of the move.
* `Rows.locks_iff`: the comparison decides whether a row locks a variable.
* `Locks.add_ofCounts`, `Locks.addRow_ofCounts`, `Locks.ofRows_eq_ofCounts`: the counts after one
  coefficient, one row and all rows.
* `Rows.satisfiedBy_moved`: without locks a variable moves freely.

**Result.**  `Locks.ofRows_counts_locks`.
-/

namespace MipPump

open ExtRat

section Meaning

/-- The two directions in which a variable moves. -/
inductive Heading where
  | down
  | up

/-- The sign of a move. -/
def Heading.sign : Heading → ℚ
  | down => -1
  | up => 1

/-- The locks of a direction. -/
def Locks.toward {R : Type} (locks : Locks R) : Heading → List R
  | .down => locks.down
  | .up => locks.up

/-- A point after a move of the variable `j` by `d`. -/
def movedPoint (dir : Heading) (j : ℕ) (d : ℚ) (x : List ℚ) : List ℚ :=
  x.modify j (· + dir.sign * d)

/-- Row `i` holds at a point. -/
def Rows.HoldsAt (rows : Rows ExtRat) (x : List ℚ) (i : ℕ) : Prop :=
  ∃ (a : List ℚ) (s : Sense) (b : ExtRat), rows.coefficients[i]? = some (a.map fin) ∧
    a.length = x.length ∧ rows.senses[i]? = some s ∧ rows.rhs[i]? = some b ∧
    s.Relates (dotRat a x) b

/-- Row `i` locks the variable `j`: a move in this direction leads from a point where the row holds
to one where it does not. -/
def Rows.Locks (rows : Rows ExtRat) (n : ℕ) (dir : Heading) (j i : ℕ) : Prop :=
  ∃ x : List ℚ, x.length = n ∧ rows.HoldsAt x i ∧
    ∃ d, 0 < d ∧ ¬ rows.HoldsAt (movedPoint dir j d x) i

/-- Whether an activity that changes in proportion to `c` can be led out of a row. -/
def Sense.yields (s : Sense) (c : ℚ) : Bool :=
  match s with
  | .atMost => decide (0 < c)
  | .equal => decide (c ≠ 0)
  | _ => decide (c < 0)

/-- The senses of rows are those with a meaning. -/
def Rows.Proper (rows : Rows ExtRat) : Prop :=
  ∀ s ∈ rows.senses, s = .atMost ∨ s = .atLeast ∨ s = .equal

end Meaning

section Moves

variable {a x : List ℚ} {j : ℕ} {v : ℚ}

/-- A variable with a coefficient gives a row any activity. -/
theorem exists_dotRat_eq (hv : a[j]? = some v) (hne : v ≠ 0) (b : ℚ) :
    ∃ x : List ℚ, x.length = a.length ∧ dotRat a x = b := by
  have hzero : dotRat a (List.replicate a.length 0) = 0 := by
    unfold dotRat
    refine List.sum_eq_zero fun y hy => ?_
    obtain ⟨i, hi, rfl⟩ := List.getElem_of_mem hy
    simp
  refine ⟨(List.replicate a.length 0).modify j (· + b / v), by simp, ?_⟩
  rw [dotRat_modify hv (by simp), hzero, zero_add, mul_div_cancel₀ b hne]

end Moves

section Rows

variable {rows : Rows ExtRat} {n i j : ℕ} {x a : List ℚ} {s : Sense} {b : ℚ}

theorem Rows.satisfiedBy_iff :
    rows.SatisfiedBy x ↔ ∀ i < rows.coefficients.length, rows.HoldsAt x i := by
  constructor
  · intro h i hi
    obtain ⟨a, s, b, hrow, hlen, hs, hb, hholds⟩ := h i _ (List.getElem?_eq_getElem hi)
    exact ⟨a, s, b, hrow ▸ List.getElem?_eq_getElem hi, hlen, hs, hb, hholds⟩
  · intro h i row hrow
    obtain ⟨a, s, b, hrow', hlen, hs, hb, hholds⟩ :=
      h i (List.getElem?_eq_some_iff.mp hrow).1
    exact ⟨a, s, b, Option.some.inj (hrow.symm.trans hrow'), hlen, hs, hb, hholds⟩

/-- A row that is known holds where its activity keeps to the right-hand side. -/
theorem Rows.holdsAt_iff (hrow : rows.coefficients[i]? = some (a.map fin))
    (hs : rows.senses[i]? = some s) (hb : rows.rhs[i]? = some (fin b))
    (hlen : a.length = x.length) : rows.HoldsAt x i ↔ s.Relates (dotRat a x) (fin b) := by
  constructor
  · rintro ⟨a', s', b', hrow', -, hs', hb', hholds⟩
    obtain rfl : a = a' :=
      List.map_injective_iff.mpr (fun _ _ => fin.inj) (Option.some.inj (hrow.symm.trans hrow'))
    obtain rfl : s = s' := Option.some.inj (hs.symm.trans hs')
    obtain rfl : fin b = b' := Option.some.inj (hb.symm.trans hb')
    exact hholds
  · exact fun hholds => ⟨a, s, fin b, hrow, hlen, hs, hb, hholds⟩

/-- A move in proportion to `c` violates a row exactly if the row yields to it. -/
theorem Sense.yields_iff (hs : s = .atMost ∨ s = .atLeast ∨ s = .equal) (c b : ℚ) :
    s.yields c = true ↔ s.Relates b (fin b) ∧ ¬ s.Relates (b + c) (fin b) := by
  rcases hs with rfl | rfl | rfl
  all_goals simp [yields, Relates]

/-- A row that does not yield to a move keeps holding. -/
theorem Sense.relates_of_not_yields {c y d : ℚ} (hs : s = .atMost ∨ s = .atLeast ∨ s = .equal)
    (hc : ¬ s.yields c = true) (hd : 0 ≤ d) (h : s.Relates y (fin b)) :
    s.Relates (y + c * d) (fin b) := by
  rcases hs with rfl | rfl | rfl
  · have hneg : c ≤ 0 := by simpa [yields] using hc
    have hy : y ≤ b := (fin_le_fin y b).mp h
    exact (fin_le_fin _ _).mpr (by nlinarith)
  · have hpos : 0 ≤ c := by simpa [yields] using hc
    have hy : b ≤ y := (fin_le_fin b y).mp h
    exact (fin_le_fin _ _).mpr (by nlinarith)
  · have hzero : c = 0 := by simpa [yields] using hc
    rw [hzero, zero_mul, add_zero]
    exact h

/-- The comparison of the program decides whether a row locks a variable. -/
theorem Rows.locks_iff (hrow : rows.coefficients[i]? = some (a.map fin))
    (hs : rows.senses[i]? = some s) (hb : rows.rhs[i]? = some (fin b)) (hproper : rows.Proper)
    (hlen : a.length = n) (dir : Heading) {v : ℚ} (hv : a[j]? = some v) :
    rows.Locks n dir j i ↔ s.yields (dir.sign * v) = true := by
  have hsense := hproper s (List.mem_of_getElem? hs)
  have hmoved {x : List ℚ} (hx : x.length = n) (d : ℚ) :
      rows.HoldsAt (movedPoint dir j d x) i ↔
        s.Relates (dotRat a x + dir.sign * v * d) (fin b) := by
    rw [holdsAt_iff hrow hs hb (by rw [movedPoint, List.length_modify, hx, hlen]), movedPoint,
      dotRat_modify hv (hlen.trans hx.symm), mul_left_comm, mul_assoc]
  constructor
  · rintro ⟨x, hx, hholds, d, hd, hnot⟩
    rw [holdsAt_iff hrow hs hb (hlen.trans hx.symm)] at hholds
    rw [hmoved hx] at hnot
    exact not_not.mp fun hyields =>
      hnot (Sense.relates_of_not_yields hsense hyields hd.le hholds)
  · intro hyields
    have hne : v ≠ 0 := by
      rintro rfl
      rcases hsense with rfl | rfl | rfl
      all_goals simp [Sense.yields] at hyields
    obtain ⟨x, hx, hdot⟩ := exists_dotRat_eq hv hne b
    have hxn : x.length = n := hx.trans hlen
    obtain ⟨hholds, hnot⟩ := (Sense.yields_iff hsense _ b).mp hyields
    refine ⟨x, hxn, (holdsAt_iff hrow hs hb hx.symm).mpr (hdot ▸ hholds), 1, one_pos, ?_⟩
    rw [hmoved hxn, hdot, mul_one]
    exact hnot

/-- Only rows of the problem lock a variable. -/
theorem Rows.finite_locks (dir : Heading) (j : ℕ) : {i | rows.Locks n dir j i}.Finite := by
  refine (Set.finite_lt_nat rows.coefficients.length).subset ?_
  rintro i ⟨x, -, ⟨a, s, b, hrow, -⟩, -⟩
  exact (List.getElem?_eq_some_iff.mp hrow).1

/-- Without locks a variable moves freely. -/
theorem Rows.satisfiedBy_moved {dir : Heading}
    (hfree : ∀ i, ¬ rows.Locks n dir j i) (hx : x.length = n) (hholds : rows.SatisfiedBy x) {d : ℚ}
    (hd : 0 ≤ d) : rows.SatisfiedBy (movedPoint dir j d x) := by
  rcases hd.eq_or_lt with rfl | hpos
  · have hsame : movedPoint dir j 0 x = x := by
      simp only [movedPoint, mul_zero, add_zero]
      exact List.modify_id j x
    rwa [hsame]
  · refine satisfiedBy_iff.mpr fun i hi => ?_
    by_contra hnot
    exact hfree i ⟨x, hx, satisfiedBy_iff.mp hholds i hi, d, hpos, hnot⟩

end Rows

section Counts

variable {rows : Rows ExtRat} {n i : ℕ} {s : Sense}

namespace Locks

/-- Locks that are counted for each direction and variable. -/
def ofCounts (n : ℕ) (c : Heading → ℕ → ℕ) : Locks ExtRat :=
  { down := tally n (c .down), up := tally n (c .up) }

/-- What a coefficient adds to the counts. -/
def ofTerm (s : Sense) (v : ℚ) (j : ℕ) : Heading → ℕ → ℕ := fun dir =>
  if s.yields (dir.sign * v) then Pi.single j 1 else 0

/-- Whether a row with the coefficients `a` yields to moves of the variable `k`. -/
def yieldsAt (rows : Rows ExtRat) (dir : Heading) (k : ℕ) (a : List ℚ) (i : ℕ) : Bool :=
  rows.senses[i]?.any fun s => a[k]?.any fun v => s.yields (dir.sign * v)

/-- Adds one to an entry in a direction to which a row yields. -/
def incrementIf (yields : Bool) (counts : List ExtRat) (j : Int) :
    Except (Fault ExtRat) (List ExtRat) :=
  if yields then increment counts j else .ok counts

/-- The program tells the direction of an inequality from the sign of the coefficient. -/
theorem add_eq (locks : Locks ExtRat) (s : Sense) {v : ℚ} (hv : v ≠ 0) (j : ℕ) :
    locks.add s j (fin v) = (do
      let down ← incrementIf (s.yields (-v)) locks.down j
      let up ← incrementIf (s.yields v) locks.up j
      pure { down, up }) := by
  have hpos : decide ((0 : ExtRat) < fin v) = decide (0 < v) := by
    simp only [zero_eq, fin_lt_fin]
  have hflip : v < 0 ↔ ¬ 0 < v := by rw [not_lt, le_iff_lt_or_eq, or_iff_left hv]
  unfold add
  rw [hpos]
  cases s <;> by_cases hup : 0 < v <;> simp [incrementIf, Sense.yields, hv, hup, hflip] <;> rfl

/-- A coefficient adds to the counts of the directions to which the row yields. -/
theorem add_ofCounts (c : Heading → ℕ → ℕ) (s : Sense) {v : ℚ} (hv : v ≠ 0) {j : ℕ} (hj : j < n) :
    (ofCounts n c).add s j (fin v) = .ok (ofCounts n (c + ofTerm s v j)) := by
  have hcount (dir : Heading) : incrementIf (s.yields (dir.sign * v)) (tally n (c dir)) j =
      .ok (tally n ((c + ofTerm s v j) dir)) := by
    unfold incrementIf
    rw [Pi.add_apply, ofTerm]
    split
    · exact increment_tally hj
    · rw [add_zero]
  have hdown := hcount .down
  have hup := hcount .up
  rw [Heading.sign, neg_one_mul] at hdown
  rw [Heading.sign, one_mul] at hup
  rw [add_eq _ s hv, ofCounts, Act.exceptBind_of_ok hdown, Act.exceptBind_of_ok hup]
  rfl

/-- Of the coefficients of a row only that of the variable adds to its counts. -/
theorem sum_ofTerm (s : Sense) (a : List ℚ) (dir : Heading) (k : ℕ) :
    (a.zipIdx.map fun x => ofTerm s x.1 x.2).sum dir k =
      if a[k]?.any fun v => s.yields (dir.sign * v) then 1 else 0 := by
  have hone (v : ℚ) (j : ℕ) : ofTerm s v j dir k =
      if s.yields (dir.sign * v) && decide (k = j) then 1 else 0 := by
    unfold ofTerm
    split
    · simp [*, Pi.single_apply]
    · simp [*]
  rw [Pi.list_sum_apply, Pi.list_sum_apply, List.map_map, List.map_map]
  simp only [Function.comp_def, hone]
  rw [sum_indicator_zipIdx fun v j => s.yields (dir.sign * v) && decide (k = j)]
  split
  · rename_i hany
    obtain ⟨v, hv, hyields⟩ := (Option.any_eq_true _ _).mp hany
    have hplaces : {j | ∃ v, a[j]? = some v ∧
        (s.yields (dir.sign * v) && decide (k = j)) = true} = {k} := by
      ext j
      simp only [Bool.and_eq_true, decide_eq_true_eq, Set.mem_ofPred_eq, Set.mem_singleton_iff]
      exact ⟨fun ⟨_, _, _, hkj⟩ => hkj.symm, fun hjk => ⟨v, hjk ▸ hv, hyields, hjk.symm⟩⟩
    rw [hplaces, Set.ncard_singleton]
  · rename_i hany
    have hplaces : {j | ∃ v, a[j]? = some v ∧
        (s.yields (dir.sign * v) && decide (k = j)) = true} = ∅ := by
      refine Set.eq_empty_of_forall_notMem fun j ⟨v, hv, hyields⟩ => hany ?_
      obtain ⟨hyields, hkj⟩ := Bool.and_eq_true_iff.mp hyields
      exact (Option.any_eq_true _ _).mpr ⟨v, of_decide_eq_true hkj ▸ hv, hyields⟩
    rw [hplaces, Set.ncard_empty]

/-- A row adds one to the counts of the variables and directions to which it yields. -/
theorem addRow_ofCounts (rows : Rows ExtRat) (c : Heading → ℕ → ℕ) {a : List ℚ} {i : ℕ}
    (hlen : a.length = n) (hsense : rows.senses[i]? = some s) :
    (ofCounts n c).addRow rows (a.map fin, i) =
      .ok (ofCounts n (c + fun dir k => if yieldsAt rows dir k a i then 1 else 0)) := by
  have hget : (Vec.get rows.senses (i : Int) : Except (Fault ExtRat) Sense) = .ok s :=
    Vec.get_eq_ok.mpr (Vec.at?_of_getElem? hsense)
  have hsum : (a.zipIdx.map fun x => ofTerm s x.1 x.2).sum =
      fun dir k => if yieldsAt rows dir k a i then 1 else 0 := by
    funext dir k
    rw [sum_ofTerm, yieldsAt, hsense, Option.any_some]
  unfold addRow
  rw [List.zipIdx_map, List.foldlM_filter, List.foldlM_map, ← hsum]
  refine foldlM_of_adds (ofCounts n) _ (fun c x hx => ?_) c
  have hj : x.2 < n := by
    have hlt := List.snd_lt_of_mem_zipIdx hx
    omega
  have hnonzero : Arith.nonzero (fin x.1) = decide (x.1 ≠ 0) := by
    rw [Arith.nonzero, zero_eq, fin_beq_fin, ← decide_not]
  simp only [Prod.map, id_eq, hnonzero, decide_eq_true_eq]
  split
  · rw [Act.exceptBind_of_ok hget]
    exact add_ofCounts c s ‹_› hj
  · rename_i hzero
    have hnone : ofTerm s x.1 x.2 = 0 := by
      funext dir
      rw [not_not.mp hzero, ofTerm, mul_zero]
      cases s <;> rfl
    rw [hnone, add_zero]
    rfl

/-- The counts of all rows are those of the rows that yield. -/
theorem ofRows_eq_ofCounts {as : List (List ℚ)}
    (hcoefficients : rows.coefficients = as.map (·.map fin)) (hrows : rows.Shaped n) :
    Locks.ofRows rows n = .ok (ofCounts n fun dir k =>
      {i | ∃ a, as[i]? = some a ∧ yieldsAt rows dir k a i = true}.ncard) := by
  have hwidth : ∀ a ∈ as, a.length = n := fun a ha => by
    have hwidth := hrows.width (a.map fin) (hcoefficients ▸ List.mem_map_of_mem ha)
    rwa [List.length_map] at hwidth
  have hsenses : rows.senses.length = as.length := by
    rw [hrows.senses, hcoefficients, List.length_map]
  have hzeros : ({ down := Vec.zeros n, up := Vec.zeros n } : Locks ExtRat) = ofCounts n 0 := by
    rw [zeros_eq_tally]
    rfl
  have hsum :
      (as.zipIdx.map fun x => fun dir k => if yieldsAt rows dir k x.1 x.2 then 1 else 0).sum =
        fun dir k => {i | ∃ a, as[i]? = some a ∧ yieldsAt rows dir k a i = true}.ncard := by
    funext dir k
    rw [Pi.list_sum_apply, Pi.list_sum_apply, List.map_map, List.map_map,
      ← sum_indicator_zipIdx fun a i => yieldsAt rows dir k a i]
    rfl
  unfold Locks.ofRows
  rw [hcoefficients, List.zipIdx_map, List.foldlM_map, hzeros, ← hsum, ← zero_add (List.sum _)]
  refine foldlM_of_adds (ofCounts n) _ (fun c x hx => ?_) 0
  have hi : x.2 < rows.senses.length := by
    have hlt := List.snd_lt_of_mem_zipIdx hx
    omega
  exact addRow_ofCounts rows c (hwidth x.1 (List.fst_mem_of_mem_zipIdx hx))
    (List.getElem?_eq_getElem hi)

/-- Rows yield where they lock. -/
theorem setOf_yieldsAt {as : List (List ℚ)} (hcoefficients : rows.coefficients = as.map (·.map fin))
    (hrows : rows.Shaped n) (hfinite : rows.Finite) (hproper : rows.Proper) (dir : Heading) {j : ℕ}
    (hj : j < n) : {i | ∃ a, as[i]? = some a ∧ yieldsAt rows dir j a i = true} =
      {i | rows.Locks n dir j i} := by
  have hrow (i : ℕ) (a : List ℚ) (ha : as[i]? = some a) :
      yieldsAt rows dir j a i = true ↔ rows.Locks n dir j i := by
    have hcoefficient : rows.coefficients[i]? = some (a.map fin) := by
      rw [hcoefficients, List.getElem?_map, ha]
      rfl
    obtain ⟨hi, -⟩ := List.getElem?_eq_some_iff.mp hcoefficient
    have hlen : a.length = n := by
      rw [← hrows.width _ (List.mem_of_getElem? hcoefficient), List.length_map]
    have hs := List.getElem?_eq_getElem (hrows.senses ▸ hi)
    have hb := List.getElem?_eq_getElem (hrows.rhs ▸ hi)
    have hv := List.getElem?_eq_getElem (hlen ▸ hj)
    obtain ⟨b, hbfin⟩ := hfinite.rhs _ (List.mem_of_getElem? hb)
    rw [hbfin] at hb
    rw [Rows.locks_iff hcoefficient hs hb hproper hlen dir hv, yieldsAt, hs, Option.any_some, hv,
      Option.any_some]
  ext i
  constructor
  · rintro ⟨a, ha, hyields⟩
    exact (hrow i a ha).mp hyields
  · intro hlocks
    have ⟨_, _, ⟨_, _, _, hcoefficient, _⟩, _⟩ := hlocks
    rw [hcoefficients, List.getElem?_map] at hcoefficient
    obtain ⟨a, ha, -⟩ := Option.map_eq_some_iff.mp hcoefficient
    exact ⟨a, ha, (hrow i a ha).mpr hlocks⟩

end Locks

end Counts

/-- **The locks count the rows that moves violate.**  For finite rows with a coefficient for each of
`n` variables, the locks of a variable in a direction are the rows that some move of the variable in
this direction leads from holding to not holding.  If there are none, all moves in the direction
keep all rows. -/
theorem Locks.ofRows_counts_locks {rows : Rows ExtRat} {n : ℕ} (hrows : rows.Shaped n)
    (hfinite : rows.Finite) (hproper : rows.Proper) :
    ∃ locks, Locks.ofRows rows n = .ok locks ∧ locks.Sized n ∧ ∀ (dir : Heading), ∀ j < n,
      (locks.toward dir)[j]? = some (fin ({i | rows.Locks n dir j i}.ncard : ℕ)) ∧
      ((locks.toward dir)[j]? = some 0 → ∀ x : List ℚ, x.length = n → rows.SatisfiedBy x →
        ∀ d, 0 ≤ d → rows.SatisfiedBy (movedPoint dir j d x)) := by
  obtain ⟨as, hcoefficients⟩ : rows.coefficients ∈ Set.range (List.map (List.map fin)) := by
    rw [Set.range_list_map]
    exact fun row hrow => (hfinite.coefficients row hrow).imp fun _ ha => ha.symm
  refine ⟨_, ofRows_eq_ofCounts hcoefficients.symm hrows, ⟨length_tally, length_tally⟩,
    fun dir j hj => ?_⟩
  have hcount : ((ofCounts n fun dir k =>
      {i | ∃ a, as[i]? = some a ∧ yieldsAt rows dir k a i = true}.ncard).toward dir)[j]? =
        some (fin ({i | rows.Locks n dir j i}.ncard : ℕ)) := by
    rw [← setOf_yieldsAt hcoefficients.symm hrows hfinite hproper dir hj]
    cases dir with
    | down => exact getElem?_tally hj
    | up => exact getElem?_tally hj
  refine ⟨hcount, fun hzero x hx hholds d hd => ?_⟩
  have hnone : {i | rows.Locks n dir j i}.ncard = 0 := by
    have hfin := fin.inj (Option.some.inj (hcount.symm.trans hzero))
    exact_mod_cast hfin
  refine Rows.satisfiedBy_moved (fun i hi => ?_) hx hholds hd
  have hempty := (Set.ncard_eq_zero (Rows.finite_locks dir j)).mp hnone
  exact Set.eq_empty_iff_forall_notMem.mp hempty i hi

/-- Three variables in a row of each sense. -/
def crossed : Rows ExtRat :=
  { coefficients :=
      [[.fin 1, .fin (-2), .fin 0], [.fin 0, .fin 1, .fin 1], [.fin 3, .fin 0, .fin 0]]
    senses := [.atMost, .atLeast, .equal]
    rhs := [.fin 1, .fin 2, .fin 3] }

/-- The first variable is locked by two rows above it; the others move up freely. -/
theorem Locks.ofRows_counts_locks_crossed :
    crossed.Shaped 3 ∧ crossed.Finite ∧ crossed.Proper ∧
      {i | crossed.Locks 3 .up 0 i}.ncard = 2 ∧ {i | crossed.Locks 3 .down 0 i}.ncard = 1 ∧
      ∀ x : List ℚ, x.length = 3 → crossed.SatisfiedBy x → ∀ d, 0 ≤ d →
        crossed.SatisfiedBy (movedPoint .up 1 d x) := by
  have hshaped : crossed.Shaped 3 := ⟨by decide, rfl, rfl⟩
  have hfinite : crossed.Finite := by
    constructor
    · exact List.forall_mem_cons.mpr ⟨⟨[1, -2, 0], rfl⟩, List.forall_mem_cons.mpr
        ⟨⟨[0, 1, 1], rfl⟩, List.forall_mem_singleton.mpr ⟨[3, 0, 0], rfl⟩⟩⟩
    · exact List.forall_mem_cons.mpr ⟨⟨1, rfl⟩, List.forall_mem_cons.mpr
        ⟨⟨2, rfl⟩, List.forall_mem_singleton.mpr ⟨3, rfl⟩⟩⟩
  have hproper : crossed.Proper := by
    unfold Rows.Proper
    decide
  obtain ⟨locks, hlocks, -, hcounts⟩ := Locks.ofRows_counts_locks hshaped hfinite hproper
  have hvalues : (Locks.ofRows crossed 3).toOption.map (fun locks => (locks.down, locks.up)) =
      some ([.fin 1, .fin 2, .fin 1], [.fin 2, .fin 0, .fin 0]) := by decide +kernel
  rw [hlocks] at hvalues
  obtain ⟨hdown, hup⟩ := Prod.mk.inj (Option.some.inj hvalues)
  obtain ⟨hupCount, -⟩ := hcounts .up 0 (by decide)
  obtain ⟨hdownCount, -⟩ := hcounts .down 0 (by decide)
  rw [Locks.toward, hup] at hupCount
  rw [Locks.toward, hdown] at hdownCount
  refine ⟨hshaped, hfinite, hproper, ?_, ?_, (hcounts .up 1 (by decide)).2 ?_⟩
  · exact_mod_cast (fin.inj (Option.some.inj hupCount)).symm
  · exact_mod_cast (fin.inj (Option.some.inj hdownCount)).symm
  · rw [Locks.toward, hup]
    rfl

end MipPump
