import MipPump.Proofs.CoherentProblems
import MipPump.Proofs.FloatParts
import MipPump.Rounding.Nearest

/-!
# Equal candidates and the cycle history

The history recognises a candidate by its exact entries, while two numbers are equal already if both
are zeros.  A rounding can answer with either zero.

* `clampBound_zero`: a zero that was clipped into a box is a bound of the box, unless the box has
  zero strictly inside; then the clamp did not move it.
* `nearestValue_eq_negZero_iff`: strictly inside the box a zero has the sign of the value that it was
  rounded from, which is minus for minus zero only.
* `nearestValue_eq_iff`: when two equal roundings into one box are the same number.
* `SignsAgree`: two points have their zeros of one sign where it is kept.

**Result.**  `equal_candidates_recognized_iff`: equal roundings of two points are recognised as one
candidate if and only if the signs agree, and with them the history finds the repetition.
`equal_candidates_overlooked` is a repetition that it does not find.
-/

namespace MipPump

section Keys

variable {R : Type} [Arith R]

theorem sameEntries_iff {c d : List R} :
    sameEntries c d = true ↔ List.Forall₂ (fun a b => Arith.same a b = true) c d := by
  induction c generalizing d with
  | nil => cases d <;> simp [sameEntries]
  | cons a c ih => cases d <;> simp [sameEntries, ih]

end Keys

namespace Binary64

theorem same_iff {x y : Float} : Arith.same x y = true ↔ x = y := by
  rw [← Float.toBits_inj]
  exact beq_iff_eq

theorem beq_zero_iff {x : Float} : (x == 0) = true ↔ x = 0 ∨ x = -0 := by
  rw [Float.beq_iff_ne_nan_and_eq]
  have hzero : (0 : Float) ≠ Float.nan := by decide +kernel
  have hneg : (-0 : Float) ≠ Float.nan := by decide +kernel
  have hsigns : (0 : Float) ≠ -0 := by decide +kernel
  constructor
  · rintro ⟨-, -, h | ⟨h, -⟩ | ⟨h, -⟩⟩
    · exact .inl h
    · exact .inl h
    · exact .inr h
  · rintro (rfl | rfl)
    · exact ⟨hzero, hzero, .inl rfl⟩
    · exact ⟨hneg, hzero, .inr (.inr ⟨rfl, rfl⟩)⟩

theorem beq_zero_congr {x y : Float} (h : (x == y) = true) : (x == 0) = true ↔ (y == 0) = true := by
  simp only [beq_zero_iff]
  rcases (Float.beq_iff_ne_nan_and_eq.mp h).2.2 with rfl | ⟨rfl, rfl⟩ | ⟨rfl, rfl⟩ <;> simp

theorem eq_of_beq_of_nonzero {x y : Float} (h : (x == y) = true) (hx : ¬ (x == 0) = true) :
    x = y := by
  rw [beq_zero_iff] at hx
  rcases (Float.beq_iff_ne_nan_and_eq.mp h).2.2 with heq | ⟨heq, -⟩ | ⟨heq, -⟩
  · exact heq
  · exact absurd (.inl heq) hx
  · exact absurd (.inr heq) hx

/-- Zeros are the same if both or none is minus zero. -/
theorem eq_of_zeros {x y : Float} (hx : (x == 0) = true) (hy : (y == 0) = true)
    (h : x = -0 ↔ y = -0) : x = y := by
  rcases beq_zero_iff.mp hx with rfl | rfl
  · have hy' : y ≠ -0 := fun hneg => absurd (h.mpr hneg) (by decide +kernel)
    exact ((beq_zero_iff.mp hy).resolve_right hy').symm
  · exact (h.mp rfl).symm

theorem isNaN_of_zero {x : Float} (h : (x == 0) = true) : Arith.isNaN x = false := by
  rcases beq_zero_iff.mp h with rfl | rfl <;> decide +kernel

theorem negZero_beq_zero : ((-0 : Float) == 0) = true := beq_zero_iff.mpr (.inr rfl)

/-- Either zero is compared like zero. -/
theorem lt_iff_of_zero {x : Float} (h : (x == 0) = true) (a : Float) :
    (x < a ↔ 0 < a) ∧ (a < x ↔ a < 0) := by
  have hkey : numberOrder.key (-0) = numberOrder.key 0 := by
    show orderKey (-0 : Float).toModel.unpack = orderKey (0 : Float).toModel.unpack
    rw [unpack_negZero, unpack_zero]
    rfl
  have hzero : Arith.isNaN (0 : Float) = false := by decide +kernel
  have hnumber := isNaN_of_zero h
  rcases beq_zero_iff.mp h with rfl | rfl
  · exact ⟨Iff.rfl, Iff.rfl⟩
  · simp only [numberOrder.lt_iff, hkey, hzero, hnumber, and_self]

theorem not_lt_self (x : Float) : ¬ x < x := fun h =>
  (lt_self_iff_false _).mp ((numberOrder.lt_iff x x).mp h).2.2

end Binary64

namespace Rounding

open Binary64

section Values

variable {tieBreak : TieBreak} {eps lo hi x x' r : Float}

/-- What a clamp answers with, if it is a number. -/
theorem clampBound_cases (h : (Arith.clampBound lo hi r == 0) = true) :
    (lo < r ∧ r < hi ∧ Arith.clampBound lo hi r = r) ∨
      (lo < hi ∧ Arith.clampBound lo hi r = lo) ∨ Arith.clampBound lo hi r = hi := by
  have hnumber := isNaN_of_zero h
  unfold Arith.clampBound at hnumber ⊢
  dsimp only at hnumber ⊢
  split_ifs at hnumber ⊢ <;> simp_all

/-- A zero that was clipped into a box was not moved if the box has zero strictly inside, and is a
bound otherwise, the lower one unless the upper one is no more than zero. -/
theorem clampBound_zero (h : (Arith.clampBound lo hi r == 0) = true) :
    Arith.clampBound lo hi r = if lo < 0 ∧ 0 < hi then r else if 0 < hi then lo else hi := by
  have hzero := lt_iff_of_zero h
  rcases clampBound_cases h with ⟨hlo, hhi, heq⟩ | ⟨hlt, heq⟩ | heq
  · rw [heq] at hzero ⊢
    rw [if_pos ⟨(hzero lo).2.mp hlo, (hzero hi).1.mp hhi⟩]
  · rw [heq] at hzero ⊢
    have hlo : ¬ lo < 0 := mt (hzero 0).1.mp (not_lt_self 0)
    rw [if_neg fun hin => hlo hin.1, if_pos ((hzero hi).1.mp hlt)]
  · rw [heq] at hzero ⊢
    have hhi : ¬ 0 < hi := mt (hzero 0).2.mp (not_lt_self 0)
    rw [if_neg fun hin => hhi hin.2, if_neg hhi]

theorem clampBound_zero_inside (hlo : lo < 0) (hhi : 0 < hi)
    (h : (Arith.clampBound lo hi r == 0) = true) : Arith.clampBound lo hi r = r := by
  rw [clampBound_zero h, if_pos ⟨hlo, hhi⟩]

theorem clampBound_negZero (hlo : lo < 0) (hhi : 0 < hi) : Arith.clampBound lo hi (-0) = -0 := by
  have hzero := lt_iff_of_zero negZero_beq_zero
  have hnumber := isNaN_of_zero negZero_beq_zero
  unfold Arith.clampBound
  simp [hnumber, (hzero lo).2.mpr hlo, (hzero hi).1.mpr hhi]

/-- The rounding of a value is the floor of the clipped value or the integer above it, clipped
again. -/
theorem exists_nearestValue_eq (tieBreak : TieBreak) (eps lo hi x : Float) :
    ∃ r, nearestValue Arith.clampBound tieBreak eps lo hi x = Arith.clampBound lo hi r ∧
      (r = floor (Arith.clampBound lo hi x) + Arith.ofInt 1 ∨
        r = floor (Arith.clampBound lo hi x)) := by
  refine ⟨_, rfl, ?_⟩
  split_ifs
  · exact .inl rfl
  · exact .inr rfl
  · exact .inl rfl
  · exact .inr rfl

/-- A zero strictly inside its box has the sign of the value that was rounded: the integer above a
floor is no minus zero. -/
theorem nearestValue_eq_negZero_iff (hlo : lo < 0) (hhi : 0 < hi)
    (h : (nearestValue Arith.clampBound tieBreak eps lo hi x == 0) = true) :
    nearestValue Arith.clampBound tieBreak eps lo hi x = -0 ↔ x = -0 := by
  obtain ⟨r, heq, hr⟩ := exists_nearestValue_eq tieBreak eps lo hi x
  rw [heq] at h ⊢
  have hinside := clampBound_zero_inside hlo hhi h
  rw [hinside] at h ⊢
  constructor
  · rintro rfl
    have hwhole : floor (Arith.clampBound lo hi x) = -0 := by
      rcases hr with hr | hr
      · exact (add_eq_negZero_iff.mp hr.symm).1
      · exact hr.symm
    have hclipped := floor_eq_negZero_iff.mp hwhole
    rw [← hclipped, clampBound_zero_inside hlo hhi (hclipped ▸ negZero_beq_zero)]
  · rintro rfl
    have hwhole : floor (-0) = -0 := by decide +kernel
    rw [clampBound_negZero hlo hhi, hwhole] at hr
    rcases hr with rfl | hr
    · exact absurd h (by decide +kernel)
    · exact hr

/-- When two equal roundings into one box are the same number. -/
theorem nearestValue_eq_iff
    (h : (nearestValue Arith.clampBound tieBreak eps lo hi x ==
      nearestValue Arith.clampBound tieBreak eps lo hi x') = true) :
    nearestValue Arith.clampBound tieBreak eps lo hi x =
        nearestValue Arith.clampBound tieBreak eps lo hi x' ↔
      (lo < 0 → 0 < hi → (nearestValue Arith.clampBound tieBreak eps lo hi x == 0) = true →
        (x = -0 ↔ x' = -0)) := by
  by_cases hzero : (nearestValue Arith.clampBound tieBreak eps lo hi x == 0) = true
  · have hzero' := (beq_zero_congr h).mp hzero
    by_cases hinside : lo < 0 ∧ 0 < hi
    · rw [← nearestValue_eq_negZero_iff hinside.1 hinside.2 hzero,
        ← nearestValue_eq_negZero_iff hinside.1 hinside.2 hzero']
      exact ⟨fun heq _ _ _ => by rw [heq], fun hsigns =>
        eq_of_zeros hzero hzero' (hsigns hinside.1 hinside.2 hzero)⟩
    · obtain ⟨r, hr, -⟩ := exists_nearestValue_eq tieBreak eps lo hi x
      obtain ⟨r', hr', -⟩ := exists_nearestValue_eq tieBreak eps lo hi x'
      refine iff_of_true ?_ fun hlo hhi => absurd ⟨hlo, hhi⟩ hinside
      rw [hr] at hzero ⊢
      rw [hr'] at hzero' ⊢
      rw [clampBound_zero hzero, clampBound_zero hzero', if_neg hinside, if_neg hinside]
  · exact iff_of_true (eq_of_beq_of_nonzero h hzero) fun _ _ h => absurd h hzero

end Values

section Entries

variable {R : Type} [Arith R] {vars : List (Variable R)} {t : Table R} {tieBreak : TieBreak}
  {eps : R} {point candidate : List R}

theorem nearestPoint_eq_ok (ht : t.Lists vars)
    (h : nearestPoint tieBreak eps t point = .ok candidate) :
    ∃ values, List.Forall₂ (fun j x => Vec.at? point j = some x) t.integers values ∧
      candidate = List.zipWith (fun x (b : R × R) =>
        nearestValue Arith.clampBound tieBreak eps b.1 b.2 x) values (t.intLb.zip t.intUb) := by
  obtain ⟨values, hvalues, hround⟩ := Act.exceptBind_eq_ok.mp h
  have hpick := Vec.pick_eq_ok.mp hvalues
  have hbounds : t.intLb.length = t.intUb.length := ht.length_intLb.trans ht.length_intUb.symm
  have hlen : values.length = (t.intLb.zip t.intUb).length := by
    rw [← hpick.length_eq, List.length_zip, ← hbounds, min_self, ht.length_intLb, Table.numIntegers]
  unfold nearest at hround
  rw [Act.exceptBind_of_ok (Vec.map2_of_length _ hbounds), ← List.zip,
    Vec.map2_of_length _ hlen] at hround
  cases hround
  exact ⟨values, hpick, rfl⟩

/-- Every entry of a rounding is that of an integer variable. -/
theorem nearestPoint_getElem? (ht : t.Lists vars)
    (h : nearestPoint tieBreak eps t point = .ok candidate) {k : ℕ} {r : R}
    (hr : candidate[k]? = some r) :
    ∃ j x lo hi, t.integers[k]? = some j ∧ Vec.at? point j = some x ∧ t.intLb[k]? = some lo ∧
      t.intUb[k]? = some hi ∧ r = nearestValue Arith.clampBound tieBreak eps lo hi x := by
  obtain ⟨values, hvalues, rfl⟩ := nearestPoint_eq_ok ht h
  obtain ⟨x, ⟨lo, hi⟩, hx, hbounds, rfl⟩ := List.getElem?_zipWith_eq_some.mp hr
  obtain ⟨hlo, hhi⟩ := List.getElem?_zip_eq_some.mp hbounds
  obtain ⟨j, hj, hat⟩ := Vec.forall₂_getElem? hvalues.flip hx
  exact ⟨j, x, lo, hi, hj, hat, hlo, hhi, rfl⟩

end Entries

section Points

variable {vars : List (Variable Float)} {t : Table Float} {tieBreak : TieBreak} {eps : Float}
  {point point' candidate candidate' : List Float}

/-- At the integer variable with number `k`, if it has zero strictly between its integral bounds and
is rounded to it, both points have minus zero or none has. -/
def SignsAgreeAt (t : Table Float) (point point' candidate : List Float) (k : ℕ) : Prop :=
  ∀ j ∈ t.integers[k]?, (∃ lo ∈ t.intLb[k]?, lo < 0) → (∃ hi ∈ t.intUb[k]?, 0 < hi) →
    (∃ r ∈ candidate[k]?, (r == 0) = true) →
    (Vec.at? point j = some (-0) ↔ Vec.at? point' j = some (-0))

/-- Two points have zeros of one sign wherever the rounding keeps it. -/
def SignsAgree (t : Table Float) (point point' candidate : List Float) : Prop :=
  ∀ k, SignsAgreeAt t point point' candidate k

/-- Equal entries of two roundings are the same if and only if the signs agree there. -/
theorem entry_eq_iff (ht : t.Lists vars) (h : nearestPoint tieBreak eps t point = .ok candidate)
    (h' : nearestPoint tieBreak eps t point' = .ok candidate') {k : ℕ} {r r' : Float}
    (hr : candidate[k]? = some r) (hr' : candidate'[k]? = some r') (hequal : (r == r') = true) :
    r = r' ↔ SignsAgreeAt t point point' candidate k := by
  obtain ⟨j, x, lo, hi, hj, hx, hlo, hhi, heq⟩ := nearestPoint_getElem? ht h hr
  obtain ⟨j', x', lo', hi', hj', hx', hlo', hhi', heq'⟩ := nearestPoint_getElem? ht h' hr'
  cases hj.symm.trans hj'
  cases hlo.symm.trans hlo'
  cases hhi.symm.trans hhi'
  subst heq heq'
  rw [nearestValue_eq_iff hequal]
  simp [SignsAgreeAt, hj, hlo, hhi, hr, hx, hx']

/-- Equal roundings of two points are the same if and only if the signs of their zeros agree. -/
theorem sameEntries_iff_signsAgree (ht : t.Lists vars)
    (h : nearestPoint tieBreak eps t point = .ok candidate)
    (h' : nearestPoint tieBreak eps t point' = .ok candidate')
    (hequal : List.Forall₂ (fun a b => (a == b) = true) candidate candidate') :
    sameEntries candidate candidate' = true ↔ SignsAgree t point point' candidate := by
  rw [sameEntries_iff]
  simp only [same_iff]
  constructor
  · rintro hsame k j hj hlo hhi ⟨r, hr, hzero⟩
    obtain ⟨r', hr', heq⟩ := Vec.forall₂_getElem? hsame hr
    obtain ⟨r'', hr'', hbeq⟩ := Vec.forall₂_getElem? hequal hr
    cases hr'.symm.trans hr''
    exact (entry_eq_iff ht h h' hr hr' hbeq).mp heq j hj hlo hhi ⟨r, hr, hzero⟩
  · intro hsigns
    refine List.forall₂_iff_get.mpr ⟨hequal.length_eq, fun k hk hk' => ?_⟩
    exact (entry_eq_iff ht h h' (List.getElem?_eq_getElem hk) (List.getElem?_eq_getElem hk')
      ((List.forall₂_iff_get.mp hequal).2 k hk hk')).mpr (hsigns k)

end Points

/-- **Equal candidates are one candidate but for the sign of a zero.**  If two points are rounded to
candidates that are equal entry by entry, then the candidates are recognised as the same exactly if
the signs of the zeros agree: no integer variable with zero strictly between its integral bounds is
rounded to zero from minus zero at one point and from another value at the other.  If they agree, a
run that remembers the one candidate under nearly the current weight has cycled with the other. -/
theorem equal_candidates_recognized_iff {vars : List (Variable Float)} {t : Table Float}
    {tieBreak : TieBreak} {eps : Float} {point point' candidate candidate' : List Float}
    (ht : Table.ofVariables vars = .ok t) (h : nearestPoint tieBreak eps t point = .ok candidate)
    (h' : nearestPoint tieBreak eps t point' = .ok candidate')
    (hequal : List.Forall₂ (fun a b => (a == b) = true) candidate candidate') :
    (sameEntries candidate candidate' = true ↔ SignsAgree t point point' candidate) ∧
    (SignsAgree t point point' candidate → ∀ (s : Settings Float) (p : Progress Float),
      (∃ m ∈ p.epoch.history.entries, m.candidate = candidate ∧
        Arith.abs (p.epoch.alpha - m.alpha) ≤ s.cycleAlphaTolerance) →
      p.hasCycled s candidate' = true) := by
  have hiff := sameEntries_iff_signsAgree (Table.lists_of_ofVariables ht) h h' hequal
  refine ⟨hiff, fun hsigns s p ⟨m, hm, hcandidate, halpha⟩ => ?_⟩
  refine List.any_eq_true.mpr ⟨m, hm, ?_⟩
  rw [Mark.recalls, hcandidate, hiff.mpr hsigns, decide_eq_true halpha]
  rfl

/-- One integer variable between `-5` and `5`. -/
def aroundZeroVariables : List (Variable Float) :=
  [{ index := 0, lb := -5, ub := 5, kind := .integer, cost := 0 }]

/-- Its table. -/
def aroundZero : Table Float :=
  { lb := [-5], ub := [5], cost := [0], kinds := [.integer], integers := [0], others := []
    intLb := [-5], intUb := [5], position := [0] }

theorem ofVariables_aroundZero : Table.ofVariables aroundZeroVariables = .ok aroundZero := rfl

theorem nearestPoint_aroundZero (x : Float) : nearestPoint .range 1e-6 aroundZero [x] =
    .ok [nearestValue Arith.clampBound .range 1e-6 (-5) 5 x] := rfl

/-- The roundings of `0.3` and `0` are zero, and no minus zero is among them. -/
theorem equal_candidates_recognized_iff_aroundZero :
    ∃ candidate candidate', nearestPoint .range 1e-6 aroundZero [0.3] = .ok candidate ∧
      nearestPoint .range 1e-6 aroundZero [0] = .ok candidate' ∧
      List.Forall₂ (fun a b => (a == b) = true) candidate candidate' ∧
      SignsAgree aroundZero [0.3] [0] candidate ∧ sameEntries candidate candidate' = true ∧
      ∀ (s : Settings Float) (p : Progress Float),
        (∃ m ∈ p.epoch.history.entries, m.candidate = candidate ∧
          Arith.abs (p.epoch.alpha - m.alpha) ≤ s.cycleAlphaTolerance) →
        p.hasCycled s candidate' = true := by
  have hequal : List.Forall₂ (fun a b => (a == b) = true)
      [nearestValue Arith.clampBound .range 1e-6 (-5) 5 0.3]
      [nearestValue Arith.clampBound .range 1e-6 (-5) 5 0] :=
    .cons (by decide +kernel) .nil
  obtain ⟨hiff, hcycled⟩ := equal_candidates_recognized_iff ofVariables_aroundZero
    (nearestPoint_aroundZero 0.3) (nearestPoint_aroundZero 0) hequal
  have hsame : sameEntries [nearestValue Arith.clampBound .range 1e-6 (-5) 5 0.3]
      [nearestValue Arith.clampBound .range 1e-6 (-5) 5 0] = true := by decide +kernel
  exact ⟨_, _, nearestPoint_aroundZero 0.3, nearestPoint_aroundZero 0, hequal, hiff.mp hsame, hsame,
    hcycled (hiff.mp hsame)⟩

/-- The roundings of `0` and of `-0` are equal, but the history that remembers the one does not find
the other. -/
theorem equal_candidates_overlooked : Table.ofVariables aroundZeroVariables = .ok aroundZero ∧
    ∃ candidate candidate', nearestPoint .range 1e-6 aroundZero [0] = .ok candidate ∧
      nearestPoint .range 1e-6 aroundZero [-0] = .ok candidate' ∧
      List.Forall₂ (fun a b => (a == b) = true) candidate candidate' ∧
      sameEntries candidate candidate' = false ∧
      History.contains { capacity := 3, entries := [{ candidate, alpha := 0 }] } candidate' 0 1 =
        false :=
  ⟨ofVariables_aroundZero, _, _, nearestPoint_aroundZero 0, nearestPoint_aroundZero (-0),
    .cons (by decide +kernel) .nil, by decide +kernel, by decide +kernel⟩

end Rounding
end MipPump
