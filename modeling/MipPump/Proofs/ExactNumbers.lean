import MipPump.Number.ExtRat
import MipPump.Vec
import Mathlib.Algebra.BigOperators.Ring.List
import Mathlib.Data.Rat.Floor
import Mathlib.Tactic.Linarith

/-!
# Laws of exact arithmetic

On finite values the operations are those of the rational numbers.

* The `simp` lemmas `fin_add`, `fin_lt_fin` and so on push `fin` outwards.
* `not_lt_iff`: away from the value that is no number the order is linear.
* `Whole x` says that `x` is an integer; rounding to the nearest integer fixes exactly the whole
  values and the infinities.
* `plainSum_map_fin` and `pairedSum_map_fin`: both orders of summation give the sum.
-/

namespace MipPump

/-- Sign of a rational number, as a number. -/
def signRat (q : ℚ) : ℚ := if 0 < q then 1 else if q < 0 then -1 else 0

namespace ExtRat

section Finite

variable (a b : ℚ)

@[simp] theorem fin_add : (fin a + fin b : ExtRat) = fin (a + b) := rfl

@[simp] theorem fin_sub : (fin a - fin b : ExtRat) = fin (a - b) := by
  rw [sub_eq_add_neg]
  rfl

@[simp] theorem fin_mul : (fin a * fin b : ExtRat) = fin (a * b) := rfl

@[simp] theorem neg_fin : (-fin a : ExtRat) = fin (-a) := rfl

@[simp] theorem fin_lt_fin : (fin a < fin b) ↔ a < b := decide_eq_true_iff

@[simp] theorem fin_le_fin : (fin a ≤ fin b) ↔ a ≤ b := decide_eq_true_iff

@[simp] theorem fin_beq_fin : (fin a == fin b) = decide (a = b) := rfl

@[simp] theorem zero_eq : (0 : ExtRat) = fin 0 := rfl

@[simp] theorem one_eq : (1 : ExtRat) = fin 1 := rfl

@[simp] theorem ofInt_eq (n : ℤ) : (Arith.ofInt n : ExtRat) = fin n := rfl

@[simp] theorem abs_fin : Arith.abs (fin a) = fin |a| := by
  show fin (if a < 0 then -a else a) = fin |a|
  split
  · rename_i h
    rw [abs_of_neg h]
  · rename_i h
    rw [abs_of_nonneg (not_lt.mp h)]

@[simp] theorem floor_fin : Arith.floor (fin a) = fin a.floor := rfl

@[simp] theorem ceil_fin : Arith.ceil (fin a) = fin a.ceil := rfl

@[simp] theorem rint_fin : Arith.rint (fin a) = fin (rintRat a) := rfl

@[simp] theorem isNaN_fin : Arith.isNaN (fin a) = false := rfl

@[simp] theorem isInf_fin : Arith.isInf (fin a) = false := rfl

theorem fin_div (h : b ≠ 0) : (fin a / fin b : ExtRat) = fin (a / b) := if_neg h

theorem ratio_eq (m n : ℕ) (h : n ≠ 0) : (Arith.ratio m n : ExtRat) = fin (m / n) := by
  have hn : ((n : ℤ) : ℚ) ≠ 0 := by exact_mod_cast h
  show (if ((n : ℤ) : ℚ) = 0 then _ else fin (((m : ℤ) : ℚ) / ((n : ℤ) : ℚ))) = _
  rw [if_neg hn, Int.cast_natCast, Int.cast_natCast]

@[simp] theorem larger_fin : Arith.larger (fin a) (fin b) = fin (max a b) := by
  unfold Arith.larger
  split
  · rename_i h
    rw [max_eq_right ((fin_lt_fin a b).mp h).le]
  · rename_i h
    rw [fin_lt_fin, not_lt] at h
    rw [max_eq_left h]

@[simp] theorem sign_fin : Arith.sign (fin a) = fin (signRat a) := by
  unfold Arith.sign signRat
  rcases lt_trichotomy a 0 with h | rfl | h
  · simp [h, h.le.not_gt]
  · simp
  · simp [h]

end Finite

section Order

variable {x y z : ExtRat}

@[simp] theorem not_nan_lt : ¬ nan < x := by
  cases x <;> exact Bool.false_ne_true

@[simp] theorem not_lt_nan : ¬ x < nan := by
  cases x <;> exact Bool.false_ne_true

@[simp] theorem not_lt_negInf : ¬ x < negInf := by
  cases x <;> exact Bool.false_ne_true

@[simp] theorem not_posInf_lt : ¬ posInf < x := by
  cases x <;> exact Bool.false_ne_true

/-- No number is below itself. -/
theorem not_lt_self (x : ExtRat) : ¬ x < x := by
  cases x with
  | fin q => exact fun h => lt_irrefl q (of_decide_eq_true h)
  | _ => exact Bool.false_ne_true

@[simp] theorem negInf_lt_fin (a : ℚ) : negInf < fin a := rfl

@[simp] theorem fin_lt_posInf (a : ℚ) : fin a < posInf := rfl

@[simp] theorem negInf_lt_posInf : negInf < posInf := rfl

@[simp] theorem not_nan_le : ¬ nan ≤ x := by
  cases x <;> exact Bool.false_ne_true

@[simp] theorem not_le_nan : ¬ x ≤ nan := by
  cases x <;> exact Bool.false_ne_true

@[simp] theorem negInf_le_iff : negInf ≤ x ↔ x ≠ nan := by
  cases x
  · exact iff_of_false not_le_nan (fun h => h rfl)
  all_goals exact iff_of_true rfl nofun

@[simp] theorem le_posInf_iff : x ≤ posInf ↔ x ≠ nan := by
  cases x
  · exact iff_of_false not_nan_le (fun h => h rfl)
  all_goals exact iff_of_true rfl nofun

@[simp] theorem not_fin_le_negInf (a : ℚ) : ¬ fin a ≤ negInf := Bool.false_ne_true

@[simp] theorem not_posInf_le_fin (a : ℚ) : ¬ posInf ≤ fin a := Bool.false_ne_true

@[simp] theorem not_posInf_le_negInf : ¬ posInf ≤ negInf := Bool.false_ne_true

theorem fin_ne_nan (a : ℚ) : fin a ≠ nan := nofun

theorem ne_nan_of_le (h : x ≤ y) : x ≠ nan ∧ y ≠ nan := by
  constructor
  · rintro rfl
    exact not_nan_le h
  · rintro rfl
    exact not_le_nan h

/-- Away from the value that is no number the order is linear. -/
theorem not_lt_iff (hx : x ≠ nan) (hy : y ≠ nan) : ¬ x < y ↔ y ≤ x := by
  cases x <;> cases y <;> simp_all

theorem le_of_lt (h : x < y) : x ≤ y := by
  cases x <;> cases y <;> simp_all
  exact h.le

theorem le_trans (h : x ≤ y) (h' : y ≤ z) : x ≤ z := by
  cases y with
  | fin b =>
      cases x <;> cases z <;> simp_all
      exact h.trans h'
  | nan => exact absurd h not_le_nan
  | negInf => cases x <;> simp_all
  | posInf => cases z <;> simp_all

theorem le_refl (hx : x ≠ nan) : x ≤ x := by
  cases x <;> simp_all

theorem eq_of_le_of_le (h : x ≤ y) (h' : y ≤ x) : x = y := by
  cases x <;> cases y <;> simp_all
  exact h.antisymm h'

theorem lt_of_lt_of_le (h : x < y) (h' : y ≤ z) : x < z := by
  cases x <;> cases y <;> cases z <;> simp_all
  exact h.trans_le h'

/-- A value below a finite one and above another is finite. -/
theorem exists_fin_of_le {a b : ℚ} (h : fin a ≤ x) (h' : x ≤ fin b) : ∃ q, x = fin q := by
  cases x with
  | fin q => exact ⟨q, rfl⟩
  | nan => exact absurd h not_le_nan
  | negInf => exact absurd h (not_fin_le_negInf a)
  | posInf => exact absurd h' (not_posInf_le_fin b)

theorem not_posInf_add_lt (y z : ExtRat) : ¬ posInf + y < z := by
  cases y with
  | negInf => exact not_nan_lt
  | nan => exact not_nan_lt
  | fin q => exact not_posInf_lt
  | posInf => exact not_posInf_lt

theorem not_lt_negInf_sub (y z : ExtRat) : ¬ z < negInf - y := by
  cases y with
  | negInf => exact not_lt_nan
  | nan => exact not_lt_nan
  | fin q => exact not_lt_negInf
  | posInf => exact not_lt_negInf

theorem sub_fin_ne_nan (hx : x ≠ nan) (e : ℚ) : x - fin e ≠ nan := by
  cases x <;> first | exact absurd rfl hx | nofun

theorem add_fin_ne_nan (hx : x ≠ nan) (e : ℚ) : x + fin e ≠ nan := by
  cases x <;> first | exact absurd rfl hx | nofun

end Order

section Integers

/-- The value is an integer. -/
def Whole (x : ExtRat) : Prop := ∃ z : ℤ, x = fin z

theorem rintRat_intCast (z : ℤ) : rintRat z = z := by
  simp [rintRat, Rat.floor_intCast]

theorem exists_rintRat (q : ℚ) : ∃ z : ℤ, rintRat q = z := by
  unfold rintRat
  dsimp only
  split
  · exact ⟨q.floor, rfl⟩
  · split
    · exact ⟨q.floor + 1, by push_cast; rfl⟩
    · split
      · exact ⟨q.floor, rfl⟩
      · exact ⟨q.floor + 1, by push_cast; rfl⟩

/-- A finite value that rounding leaves alone is whole. -/
theorem whole_of_beq_rint {x : ExtRat} (h : (x == Arith.rint x) = true)
    (hinf : Arith.isInf x = false) : Whole x := by
  cases x with
  | fin q =>
      rw [rint_fin, fin_beq_fin, decide_eq_true_iff] at h
      obtain ⟨z, hz⟩ := exists_rintRat q
      exact ⟨z, by rw [h, hz]⟩
  | nan => cases h
  | negInf => cases hinf
  | posInf => cases hinf

theorem beq_rint_of_whole {x : ExtRat} (h : Whole x) : (x == Arith.rint x) = true := by
  obtain ⟨z, rfl⟩ := h
  rw [rint_fin, fin_beq_fin, rintRat_intCast]
  exact decide_eq_true rfl

end Integers

/-- Finite entries form a rational vector. -/
theorem exists_map_fin {xs : List ExtRat} (h : ∀ x ∈ xs, ∃ q, x = fin q) :
    ∃ qs : List ℚ, xs = qs.map fin := by
  induction xs with
  | nil => exact ⟨[], rfl⟩
  | cons x rest ih =>
      obtain ⟨q, rfl⟩ := h x (List.mem_cons_self ..)
      obtain ⟨qs, hqs⟩ := ih fun y hy => h y (List.mem_cons_of_mem _ hy)
      exact ⟨q :: qs, by rw [hqs, List.map_cons]⟩

section Sums

variable (xs ys : List ℚ)

/-- Inner product of rational vectors. -/
def dotRat (xs ys : List ℚ) : ℚ := (List.zipWith (· * ·) xs ys).sum

theorem foldl_map_fin (a : ℚ) : (xs.map fin).foldl (· + ·) (fin a) = fin (a + xs.sum) := by
  induction xs generalizing a with
  | nil => simp
  | cons x rest ih =>
      rw [List.map_cons, List.foldl_cons, fin_add, ih, List.sum_cons, add_assoc]

theorem plainSum_map_fin : Vec.plainSum (xs.map fin) = fin xs.sum := by
  unfold Vec.plainSum
  rw [zero_eq, foldl_map_fin, zero_add]

theorem zipWith_mul_map_fin :
    List.zipWith (· * ·) (xs.map fin) (ys.map fin) = (List.zipWith (· * ·) xs ys).map fin := by
  rw [List.zipWith_map, List.map_zipWith]
  rfl

/-- Blocks of eight are added to eight partial sums. -/
theorem addBlocks_map_fin (sums xs : List ℚ) (hsums : sums.length = 8) :
    ∃ sums' rest : List ℚ,
      Vec.addBlocks (sums.map fin) (xs.map fin) = (sums'.map fin, rest.map fin) ∧
        sums'.length = 8 ∧ sums'.sum + rest.sum = sums.sum + xs.sum := by
  generalize hss : sums.map fin = ss
  generalize hys : xs.map fin = ys
  induction ss, ys using Vec.addBlocks.induct generalizing sums xs with
  | case1 ss y₁ y₂ y₃ y₄ y₅ y₆ y₇ y₈ rest ih =>
      match xs, hys with
      | q₁ :: q₂ :: q₃ :: q₄ :: q₅ :: q₆ :: q₇ :: q₈ :: qs, hys =>
          match sums, hsums with
          | [s₁, s₂, s₃, s₄, s₅, s₆, s₇, s₈], _ =>
              subst hss
              simp only [List.map_cons, List.cons.injEq] at hys
              obtain ⟨rfl, rfl, rfl, rfl, rfl, rfl, rfl, rfl, hqs⟩ := hys
              obtain ⟨sums', left, heq, hlen, hsum⟩ :=
                ih [s₁ + q₁, s₂ + q₂, s₃ + q₃, s₄ + q₄, s₅ + q₅, s₆ + q₆, s₇ + q₇, s₈ + q₈] qs rfl
                  rfl hqs
              refine ⟨sums', left, heq, hlen, hsum.trans ?_⟩
              simp only [List.sum_cons, List.sum_nil]
              ring
  | case2 ss ys hshort =>
      refine ⟨sums, xs, ?_, hsums, rfl⟩
      rw [Vec.addBlocks.eq_2 ss ys hshort, hss, hys]

theorem combinePairs_map_fin (sums : List ℚ) (h : sums.length = 8) :
    Vec.combinePairs (sums.map fin) = fin sums.sum := by
  match sums, h with
  | [s₁, s₂, s₃, s₄, s₅, s₆, s₇, s₈], _ =>
      simp only [List.map_cons, List.map_nil, Vec.combinePairs, fin_add, List.sum_cons,
        List.sum_nil, fin.injEq]
      ring

theorem blockSum_map_fin : Vec.blockSum (xs.map fin) = fin xs.sum := by
  unfold Vec.blockSum
  rw [List.length_map]
  split
  · exact plainSum_map_fin xs
  · rename_i hlong
    have htake : (xs.take 8).length = 8 := by
      rw [List.length_take]
      omega
    obtain ⟨sums, rest, heq, hlen, hsum⟩ := addBlocks_map_fin (xs.take 8) (xs.drop 8) htake
    rw [← List.map_take, ← List.map_drop, heq]
    show (rest.map fin).foldl (· + ·) (Vec.combinePairs (sums.map fin)) = _
    rw [combinePairs_map_fin sums hlen, foldl_map_fin, hsum, List.sum_take_add_sum_drop]

theorem halvedSum_map_fin (fuel : ℕ) : Vec.halvedSum fuel (xs.map fin) = fin xs.sum := by
  induction fuel generalizing xs with
  | zero => exact blockSum_map_fin xs
  | succ fuel ih =>
      unfold Vec.halvedSum
      split
      · exact blockSum_map_fin xs
      · dsimp only
        rw [← List.map_take, ← List.map_drop, ih, ih, fin_add, List.sum_take_add_sum_drop]

theorem pairedSum_map_fin : Vec.pairedSum (xs.map fin) = fin xs.sum := halvedSum_map_fin xs _

theorem dot_map_fin (h : xs.length = ys.length) :
    Vec.dot (xs.map fin) (ys.map fin) = .ok (fin (dotRat xs ys)) := by
  unfold Vec.dot
  rw [if_pos (by rw [List.length_map, List.length_map, h]), zipWith_mul_map_fin, plainSum_map_fin]
  rfl

theorem dotRat_map_mul (a : ℚ) : dotRat (xs.map (a * ·)) ys = a * dotRat xs ys := by
  have hscaled : List.zipWith (· * ·) (xs.map (a * ·)) ys =
      (List.zipWith (· * ·) xs ys).map (a * ·) := by
    simp only [List.zipWith_map_left, List.map_zipWith, mul_assoc]
  unfold dotRat
  rw [hscaled, List.sum_map_mul_left, List.map_id']

/-- What one entry adds to an inner product. -/
theorem dotRat_modify {a x : List ℚ} {j : ℕ} {v : ℚ} (hv : a[j]? = some v)
    (hlen : a.length = x.length) (c : ℚ) :
    dotRat a (x.modify j (· + c)) = dotRat a x + v * c := by
  unfold dotRat
  induction a generalizing x j with
  | nil => cases hv
  | cons u a ih =>
      cases x with
      | nil => cases hlen
      | cons y x =>
          cases j with
          | zero =>
              obtain rfl : u = v := Option.some.inj hv
              simp only [List.modify_zero_cons, List.zipWith_cons_cons, List.sum_cons]
              ring
          | succ j =>
              have hrest := ih (j := j) (by simpa using hv) (by simpa using hlen)
              simp only [List.modify_succ_cons, List.zipWith_cons_cons, List.sum_cons, hrest]
              ring

end Sums

end ExtRat
end MipPump
