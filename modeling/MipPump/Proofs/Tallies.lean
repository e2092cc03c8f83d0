import Mathlib.Data.Set.Card
import Mathlib.Algebra.BigOperators.Pi
import MipPump.Proofs.ExactNumbers
import MipPump.Proofs.Rankings

/-!
# Tallies

Locks and visits are counted in vectors of numbers, one entry after the other, from zero on.  In
exact arithmetic such a vector is a tally: its entries are natural numbers.

* `counted n c`: the numbers that `c 0, …, c (n - 1)` ones add up to; in exact arithmetic this is
  `tally n c`.
* `increment_tally`, `countAt_counted`: to count is to add to the numbers.
* `foldlM_of_adds`: a loop whose rounds add amounts adds the sum of the amounts.
* `sum_indicator_zipIdx`: a sum of ones over the entries of a list is a number of places.
* `visitCounts_eq_counted`, `Tracks.visitCounts_eq`: the visits of the integer variables.
-/

namespace MipPump

open ExtRat

section Counts

variable {R : Type} [Arith R] {n : ℕ} {c : ℕ → ℕ}

/-- The number that `k` ones add up to. -/
def ones : ℕ → R
  | 0 => 0
  | k + 1 => ones k + 1

variable (R) in
/-- The numbers that `c 0` to `c (n - 1)` ones add up to. -/
def counted (n : ℕ) (c : ℕ → ℕ) : List R := (List.range n).map fun k => ones (c k)

@[simp] theorem length_counted : (counted R n c).length = n := by simp [counted]

theorem getElem?_counted {k : ℕ} (hk : k < n) :
    (counted R n c)[k]? = some (ones (c k)) := by
  simp [counted, hk]

theorem zeros_eq_counted : (Vec.zeros n : List R) = counted R n 0 := by
  refine List.ext_getElem (by simp [Vec.zeros]) fun k hk _ => ?_
  simp [counted, Vec.zeros, ones]

/-- An entry can be read at each index that addresses it. -/
theorem at?_counted {i : Int} {j : ℕ} (hi : Vec.position? n i = some j) :
    Vec.at? (counted R n c) i = some (ones (c j)) :=
  Vec.at?_eq_some.mpr ⟨j, by simpa using hi, getElem?_counted (Vec.position?_lt hi)⟩

theorem setAt?_counted {i : Int} {j : ℕ} (hi : Vec.position? n i = some j) :
    Vec.setAt? (counted R n c) i (ones (c j) + 1) =
      some (counted R n (c + Pi.single j 1)) := by
  refine Vec.setAt?_eq_some.mpr ⟨j, by simpa using hi, ?_⟩
  refine List.ext_getElem? fun k => ?_
  by_cases hk : k < n
  · rw [getElem?_counted hk, List.getElem?_set]
    by_cases hjk : j = k
    · subst hjk
      simp [hk, ones]
    · rw [if_neg hjk, getElem?_counted hk]
      simp [Ne.symm hjk]
  · rw [List.getElem?_eq_none (by simpa using hk), List.getElem?_eq_none (by simpa using hk)]

/-- How often indices address position `k` of a vector of `n` entries. -/
def hits (n k : ℕ) (positions : List Int) : ℕ :=
  positions.countP fun i => Vec.position? n i = some k

theorem hits_eq_count {positions : List Int} (h : ∀ i ∈ positions, Vec.InRange n i) (k : ℕ) :
    hits n k positions = positions.count (k : Int) := by
  refine List.countP_congr fun i hi => ?_
  obtain ⟨j, rfl, hj⟩ := h i hi
  simp [Vec.position?_natCast hj]

/-- To count at indices is to add what they hit. -/
theorem countAt_counted {positions : List Int}
    (h : ∀ i ∈ positions, ∃ j, Vec.position? n i = some j) (c : ℕ → ℕ) :
    Progress.countAt (counted R n c) positions =
      .ok (counted R n (c + fun k => hits n k positions)) := by
  induction positions generalizing c with
  | nil => exact congrArg (fun c => Except.ok (counted R n c)) (add_zero c).symm
  | cons i rest ih =>
      obtain ⟨⟨j, hj⟩, hrest⟩ := List.forall_mem_cons.mp h
      unfold Progress.countAt
      rw [Act.exceptBind_of_ok (Vec.get_eq_ok.mpr (at?_counted hj)),
        Act.exceptBind_of_ok (Vec.set_eq_ok.mpr (setAt?_counted hj)), ih hrest, add_assoc]
      refine congrArg (fun d => Except.ok (counted R n (c + d))) (funext fun k => ?_)
      by_cases hk : j = k
      · simp [hits, hj, hk, add_comm]
      · simp [hits, hj, hk, Ne.symm hk]

end Counts

section Numbers

/-- The numbers `c 0` to `c (n - 1)`. -/
def tally (n : ℕ) (c : ℕ → ℕ) : List ExtRat := (List.range n).map fun k => fin (c k)

variable {n : ℕ} {c : ℕ → ℕ}

@[simp] theorem ones_eq (k : ℕ) : (ones k : ExtRat) = fin k := by
  induction k with
  | zero => simp [ones]
  | succ k ih => simp [ones, ih]

theorem counted_eq_tally : counted ExtRat n c = tally n c := by simp [counted, tally]

theorem length_tally : (tally n c).length = n := by rw [tally, List.length_map, List.length_range]

theorem getElem?_tally {k : ℕ} (hk : k < n) : (tally n c)[k]? = some (fin (c k)) := by
  rw [← counted_eq_tally, getElem?_counted hk, ones_eq]

theorem zeros_eq_tally : Vec.zeros n = tally n 0 := zeros_eq_counted.trans counted_eq_tally

theorem increment_tally {j : ℕ} (hj : j < n) :
    increment (tally n c) j = .ok (tally n (c + Pi.single j 1)) := by
  rw [← counted_eq_tally, ← counted_eq_tally]
  unfold increment
  rw [Act.exceptBind_of_ok (Vec.get_eq_ok.mpr (at?_counted (Vec.position?_natCast hj)))]
  exact Vec.set_eq_ok.mpr (setAt?_counted (Vec.position?_natCast hj))

end Numbers

section Loops

/-- A loop whose rounds add amounts adds all of them. -/
theorem foldlM_of_adds {ε α β γ : Type} [AddMonoid γ] {f : β → α → Except ε β} (rep : γ → β)
    (amount : α → γ) {xs : List α} (h : ∀ c, ∀ x ∈ xs, f (rep c) x = .ok (rep (c + amount x)))
    (c : γ) : xs.foldlM f (rep c) = .ok (rep (c + (xs.map amount).sum)) := by
  induction xs generalizing c with
  | nil =>
      rw [List.map_nil, List.sum_nil, add_zero]
      rfl
  | cons x xs ih =>
      rw [List.foldlM_cons, Act.exceptBind_of_ok (h c x (List.mem_cons_self ..)),
        ih fun c y hy => h c y (List.mem_cons_of_mem _ hy), List.map_cons, List.sum_cons, add_assoc]

/-- Ones that are added up over the entries of a list count places. -/
theorem sum_indicator_zipIdx {α : Type} (p : α → ℕ → Bool) (xs : List α) :
    (xs.zipIdx.map fun x => if p x.1 x.2 then 1 else 0).sum =
      {i | ∃ x, xs[i]? = some x ∧ p x i = true}.ncard := by
  let places : List ℕ := (xs.zipIdx.filter fun x => p x.1 x.2).map (·.2)
  have hsum (ys : List (α × ℕ)) : (ys.map fun x => if p x.1 x.2 then 1 else 0).sum =
      ((ys.filter fun x => p x.1 x.2).map (·.2)).length := by
    induction ys with
    | nil => rfl
    | cons y ys ih =>
        rw [List.map_cons, List.sum_cons, ih, List.filter_cons]
        split_ifs
        · rw [List.map_cons, List.length_cons, add_comm]
        · rw [zero_add]
  have hnodup : places.Nodup := by
    refine (List.filter_sublist.map _).nodup ?_
    rw [List.zipIdx_map_snd]
    exact List.nodup_range' 1
  have hplaces : {i | ∃ x, xs[i]? = some x ∧ p x i = true} = ↑places.toFinset := by
    ext i
    simp [places, List.mk_mem_zipIdx_iff_getElem?]
  rw [hsum, hplaces, Set.ncard_coe_finset, List.toFinset_card_of_nodup hnodup]

end Loops

section Visits

namespace Progress

/-- The visits count how often the remembered perturbations hit each position. -/
theorem visitCounts_eq_counted {R : Type} [Arith R] {p : Progress R} {n : ℕ}
    (hcount : p.numIntegers = n)
    (h : ∀ positions ∈ p.epoch.flips.entries, ∀ i ∈ positions,
      ∃ j, Vec.position? n i = some j) :
    p.visitCounts = .ok (counted R n fun k => hits n k p.epoch.flips.entries.flatten) := by
  unfold visitCounts
  rw [hcount, zeros_eq_counted,
    foldlM_of_adds (counted R n) (fun positions k => hits n k positions)
      (fun c positions hpositions => countAt_counted (h positions hpositions) c), zero_add]
  refine congrArg (fun c => Except.ok (counted R n c)) (funext fun k => ?_)
  rw [Pi.list_sum_apply, List.map_map, hits, List.countP_flatten]
  rfl

variable {n : ℕ} {p : Progress ExtRat}

/-- How often the remembered perturbations moved a position. -/
def visits (p : Progress ExtRat) (k : ℕ) : ℕ := p.epoch.flips.entries.flatten.count (k : Int)

/-- The visits of an integer variable are the remembered moves of its position. -/
theorem Tracks.visitCounts_eq (h : p.Tracks n) :
    p.visitCounts = .ok (tally n p.visits) := by
  have hrange : ∀ i ∈ p.epoch.flips.entries.flatten, Vec.InRange n i := by
    intro i hi
    obtain ⟨positions, hpositions, hi⟩ := List.mem_flatten.mp hi
    exact h.flips positions hpositions i hi
  rw [visitCounts_eq_counted h.count fun positions hpositions i hi =>
    (h.flips positions hpositions i hi).exists_position?, counted_eq_tally]
  exact congrArg (fun c => Except.ok (tally n c)) (funext fun k => hits_eq_count hrange k)

end Progress

end Visits

end MipPump
