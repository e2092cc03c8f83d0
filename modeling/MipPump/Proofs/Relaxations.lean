import MipPump.Oracle.Basic
import MipPump.Proofs.ExactNumbers
import MipPump.Proofs.Scopes
import MipPump.Proofs.Tables

/-!
# Exact relaxations

What a relaxation oracle is asked for, in exact arithmetic and over rational points.

* `Problem.Relaxed p box x`: the point `x` keeps to the rows of `p` and to the bounds of `box`.
* `Goal.costAt`: the cost of a point for a goal, its linear part and its targets together.
* `Problem.Exact p oracle`: the oracle answers with a point of least cost whenever there is one.
* `Box.Contains`: a box with a point in it can be read at every index of the point, and stays one
  that contains the point if bounds around its entries are set.
-/

namespace MipPump

open ExtRat

section Meaning

/-- An activity keeps to a right-hand side, which may be infinite. -/
def Sense.Relates (s : Sense) (activity : ℚ) (rhs : ExtRat) : Prop :=
  match s with
  | atMost => fin activity ≤ rhs
  | atLeast => rhs ≤ fin activity
  | equal => fin activity = rhs
  | other _ => True

/-- All rows hold at a point. -/
def Rows.SatisfiedBy (rows : Rows ExtRat) (x : List ℚ) : Prop :=
  ∀ (i : Nat) row, rows.coefficients[i]? = some row → ∃ (a : List ℚ) (s : Sense) (b : ExtRat),
    row = a.map fin ∧ a.length = x.length ∧ rows.senses[i]? = some s ∧ rows.rhs[i]? = some b ∧
      s.Relates (dotRat a x) b

/-- The point is inside the bounds. -/
structure Box.Contains (b : Box ExtRat) (x : List ℚ) : Prop where
  lower : List.Forall₂ (fun l q => l ≤ fin q) b.lb x
  upper : List.Forall₂ (fun u q => fin q ≤ u) b.ub x

/-- The bounds are inside those of the variables. -/
structure Box.Within (b : Box ExtRat) (vars : List (Variable ExtRat)) : Prop where
  lower : List.Forall₂ (fun v l => v.lb ≤ l) vars b.lb
  upper : List.Forall₂ (fun v u => u ≤ v.ub) vars b.ub

/-- A point of the relaxation in a box. -/
structure Problem.Relaxed (p : Problem ExtRat) (box : Box ExtRat) (x : List ℚ) : Prop where
  length : x.length = p.vars.length
  inside : box.Contains x
  rows : p.rows.SatisfiedBy x

/-- What a point costs for a goal: `objective · x + Σ weight · |x_index - value|`. -/
def Goal.costAt (goal : Goal ExtRat) (x : List ExtRat) : ExtRat :=
  Vec.plainSum (List.zipWith (· * ·) goal.objective x) +
    Vec.plainSum (goal.targets.map fun t =>
      t.weight * Arith.abs ((Vec.at? x t.index).getD nan - t.value))

/-- A point of the relaxation with the least cost for a goal. -/
structure Problem.IsBest (p : Problem ExtRat) (box : Box ExtRat) (goal : Goal ExtRat)
    (x : List ℚ) : Prop where
  relaxed : p.Relaxed box x
  least : ∃ q : ℚ, goal.costAt (x.map fin) = fin q ∧
    ∀ z, p.Relaxed box z → fin q ≤ goal.costAt (z.map fin)

/-- The oracle answers with a best point whenever there is one. -/
def Problem.Exact {σ : Type} (p : Problem ExtRat) (oracle : Oracle ExtRat σ) : Prop :=
  ∀ s box goal, (∃ x, p.IsBest box goal x) →
    ∃ x : List ℚ, (oracle s box goal).answer = .ok (x.map fin) ∧ p.IsBest box goal x

/-- Bounds of a variable that are integers or infinite. -/
def Variable.IntegralBounds (v : Variable ExtRat) : Prop :=
  (Whole v.lb ∨ Arith.isInf v.lb = true) ∧ (Whole v.ub ∨ Arith.isInf v.ub = true)

end Meaning

section Rows

/-- A row that holds is found to hold. -/
theorem Sense.holds_of_relates {s : Sense} {activity eps : ℚ} {rhs : ExtRat}
    (h : s.Relates activity rhs) (hpos : 0 < eps) : s.holds (fin eps) (fin activity) rhs = true := by
  have htol (b : ℚ) : rowTolerance (fin eps) (fin b) = fin (eps * max 1 |b|) := by
    rw [rowTolerance, abs_fin, one_eq, larger_fin, fin_mul]
  have hslack (b : ℚ) : 0 ≤ eps * max 1 |b| := by positivity
  cases s with
  | atMost =>
      cases rhs with
      | fin b =>
          have hle := (fin_le_fin activity b).mp h
          simp only [Sense.holds, htol, fin_add, fin_lt_fin, Bool.not_eq_true',
            decide_eq_false_iff_not, not_lt]
          linarith [hslack b]
      | posInf => simp [Sense.holds, not_posInf_add_lt]
      | negInf => exact absurd h (not_fin_le_negInf activity)
      | nan => exact absurd h not_le_nan
  | atLeast =>
      cases rhs with
      | fin b =>
          have hle := (fin_le_fin b activity).mp h
          simp only [Sense.holds, htol, fin_sub, fin_lt_fin, Bool.not_eq_true',
            decide_eq_false_iff_not, not_lt]
          linarith [hslack b]
      | negInf => simp [Sense.holds, not_lt_negInf_sub]
      | posInf => exact absurd h (not_posInf_le_fin activity)
      | nan => exact absurd h not_nan_le
  | equal =>
      cases h
      simp only [Sense.holds, htol, fin_sub, sub_self, abs_fin, abs_zero, fin_lt_fin,
        Bool.not_eq_true', decide_eq_false_iff_not, not_lt]
      exact hslack activity
  | other code => rfl

end Rows

section Indices

/-- Indices of a vector that fits a machine word have words. -/
theorem requireIndex_of_at? {R α : Type} {xs : List α} (hshort : xs.length ≤ Power.two 63)
    {i : Int} {x : α} (h : Vec.at? xs i = some x) : requireIndex (R := R) i = .ok () := by
  have hi : i < xs.length := by
    obtain ⟨p, hp, -⟩ := Vec.at?_eq_some.mp h
    unfold Vec.position? at hp
    split at hp
    · split at hp
      · assumption
      · cases hp
    · omega
  have hword : Word.isUnsignedOnly i = false := by
    simp only [Word.isUnsignedOnly, Bool.and_eq_false_iff, decide_eq_false_iff_not]
    omega
  unfold requireIndex
  rw [hword]
  rfl

/-- The fault of an index that no machine word holds, which takes a vector longer than that. -/
def Fault.BeyondWords {R : Type} (n : Nat) (e : Fault R) : Prop :=
  e = .integerTooLarge ∧ Power.two 63 < n

theorem beyondWords_of_requireIndex {R α : Type} {xs : List α} {i : Int} {x : α}
    (h : Vec.at? xs i = some x) {e : Fault R} (hi : requireIndex i = .error e) :
    e.BeyondWords xs.length := by
  constructor
  · unfold requireIndex at hi
    split at hi
    · cases hi
      rfl
    · cases hi
  · by_contra hlong
    rw [requireIndex_of_at? (Nat.not_lt.mp hlong) h] at hi
    cases hi

/-- The variables of a table fit a machine word. -/
theorem Table.Lists.short {R : Type} [Arith R] {vars : List (Variable R)} {t : Table R}
    (h : t.Lists vars) (horder : InOrder vars) : vars.length ≤ Power.two 63 := by
  cases hlast : vars.getLast? with
  | none =>
      rw [List.getLast?_eq_none_iff] at hlast
      rw [hlast]
      exact Nat.zero_le _
  | some v =>
      have hindex : v.index = (vars.length - 1 : Nat) := by
        have hget : vars[vars.length - 1]? = some v := by
          rw [← List.getLast?_eq_getElem?]
          exact hlast
        have hmap : (vars.map (·.index))[vars.length - 1]? = some v.index := by
          rw [List.getElem?_map, hget]
          rfl
        obtain ⟨hlt, -⟩ := List.getElem?_eq_some_iff.mp hget
        rw [horder, List.getElem?_map, List.getElem?_range' (by simpa using hlt)] at hmap
        simpa using hmap.symm
      have hmem : v.index ∈ t.integers ++ t.others := by
        rw [h.integers, h.others, ← List.map_append]
        refine List.mem_map_of_mem ?_
        have hv := List.mem_of_getLast? hlast
        cases hint : v.kind.isIntegral with
        | true => exact List.mem_append_left _ (List.mem_filter.mpr ⟨hv, hint⟩)
        | false => exact List.mem_append_right _ (List.mem_filter.mpr ⟨hv, by simp [hint]⟩)
      have hword := Vec.forM_eq_ok h.words v.index hmem
      unfold requireWord at hword
      split at hword
      · rename_i hfits
        have hlt := (Word.fits_iff.mp hfits).2
        rw [hindex] at hlt
        omega
      · cases hword

end Indices

section Boxes

variable {b : Box ExtRat} {x : List ℚ}

/-- The bounds of an entry of a point inside a box. -/
theorem Box.Contains.bounds (h : b.Contains x) (hshort : x.length ≤ Power.two 63) {i : Int} {q : ℚ}
    (hq : Vec.at? x i = some q) : ∃ l u, b.bounds i = .ok (l, u) ∧ l ≤ fin q ∧ fin q ≤ u := by
  obtain ⟨l, hl, hlq⟩ := Vec.forall₂_at? h.lower hq
  obtain ⟨u, hu, hqu⟩ := Vec.forall₂_at? h.upper hq
  exact ⟨l, u, Box.bounds_eq_ok.mpr ⟨requireIndex_of_at? hshort hq, hl, hu⟩, hlq, hqu⟩

/-- The same of a point that may be longer than a machine word can count. -/
theorem Box.Contains.bounds_cases (h : b.Contains x) {i : Int} {q : ℚ}
    (hq : Vec.at? x i = some q) :
    (∃ l u, b.bounds i = .ok (l, u) ∧ l ≤ fin q ∧ fin q ≤ u) ∨
      ∃ e, b.bounds i = .error e ∧ e.BeyondWords x.length := by
  obtain ⟨l, hl, hlq⟩ := Vec.forall₂_at? h.lower hq
  obtain ⟨u, hu, hqu⟩ := Vec.forall₂_at? h.upper hq
  cases hi : requireIndex (R := ExtRat) i with
  | ok _ => exact .inl ⟨l, u, Box.bounds_eq_ok.mpr ⟨hi, hl, hu⟩, hlq, hqu⟩
  | error e =>
      refine .inr ⟨e, ?_, beyondWords_of_requireIndex hq hi⟩
      unfold Box.bounds
      rw [hi]
      rfl

/-- Bounds that are read are around the point. -/
theorem Box.Contains.read (h : b.Contains x) (hshort : x.length ≤ Power.two 63)
    {k : Nat} (hk : k < x.length) :
    ∃ l u, b.bounds k = .ok (l, u) ∧ ∃ q, x[k]? = some q ∧ l ≤ fin q ∧ fin q ≤ u := by
  have hx : x[k]? = some x[k] := List.getElem?_eq_getElem hk
  obtain ⟨l, u, hbounds, hl, hu⟩ := h.bounds hshort (Vec.at?_of_getElem? hx)
  exact ⟨l, u, hbounds, x[k], hx, hl, hu⟩

/-- The bounds of all variables, one after the other, are those of the box. -/
theorem Box.mapM_bounds {R : Type} {b : Box R} {n : Nat} (hl : b.lb.length = n)
    (hu : b.ub.length = n) (hindex : ∀ k < n, requireIndex (R := R) (k : Int) = .ok ()) :
    (List.range n).mapM (fun j : Nat => b.bounds j) = .ok (b.lb.zip b.ub) := by
  rw [Vec.mapM_eq_ok, List.forall₂_iff_get]
  refine ⟨by simp [hl, hu], fun i hi hi' => ?_⟩
  rw [List.length_range] at hi
  have hat {α : Type} {xs : List α} (hxs : i < xs.length) : Vec.at? xs (i : Int) = some xs[i] :=
    Vec.at?_of_getElem? (List.getElem?_eq_getElem hxs)
  simp only [List.get_eq_getElem, List.getElem_range, List.getElem_zip]
  exact Box.bounds_eq_ok.mpr ⟨hindex i hi, hat (by omega), hat (by omega)⟩

theorem Box.Contains.mapM_bounds (h : b.Contains x) (hshort : x.length ≤ Power.two 63) :
    (List.range x.length).mapM (fun j : Nat => b.bounds j) = .ok (b.lb.zip b.ub) :=
  Box.mapM_bounds h.lower.length_eq h.upper.length_eq fun _ hk =>
    requireIndex_of_at? hshort (Vec.at?_of_getElem? (List.getElem?_eq_getElem hk))

/-- Bounds around an entry can be set where those in force can be read. -/
theorem Box.Contains.set_of_bounds (h : b.Contains x) {i : Int} {l u l' u' : ExtRat}
    (hbounds : b.bounds i = .ok (l', u')) {q : ℚ} (hq : Vec.at? x i = some q) (hl : l ≤ fin q)
    (hu : fin q ≤ u) : ∃ b', b.set i l u = .ok b' ∧ b'.Contains x := by
  obtain ⟨p, hp, hx⟩ := Vec.at?_eq_some.mp hq
  obtain ⟨hlt, rfl⟩ := List.getElem?_eq_some_iff.mp hx
  refine ⟨⟨b.lb.set p l, b.ub.set p u⟩, Box.set_eq_ok.mpr ⟨(Box.bounds_eq_ok.mp hbounds).1, ?_, ?_⟩,
    ?_, ?_⟩
  · exact Vec.setAt?_eq_some.mpr ⟨p, by rw [h.lower.length_eq]; exact hp, rfl⟩
  · exact Vec.setAt?_eq_some.mpr ⟨p, by rw [h.upper.length_eq]; exact hp, rfl⟩
  · have hset := Vec.forall₂_set (r := fun l q => l ≤ fin q) hl p h.lower
    rwa [List.set_getElem_self] at hset
  · have hset := Vec.forall₂_set (r := fun u q => fin q ≤ u) hu p h.upper
    rwa [List.set_getElem_self] at hset

/-- Bounds around an entry can be set. -/
theorem Box.Contains.set (h : b.Contains x) (hshort : x.length ≤ Power.two 63) {i : Int} {q : ℚ}
    (hq : Vec.at? x i = some q) {l u : ExtRat} (hl : l ≤ fin q) (hu : fin q ≤ u) :
    ∃ b', b.set i l u = .ok b' ∧ b'.Contains x := by
  obtain ⟨l', u', hbounds, -⟩ := h.bounds hshort hq
  exact h.set_of_bounds hbounds hq hl hu

/-- Bounds around a number are in order. -/
theorem ExtRat.not_lt_of_between {l u : ExtRat} {q : ℚ} (hl : l ≤ fin q) (hu : fin q ≤ u) :
    ¬ u < l :=
  (not_lt_iff (ne_nan_of_le hu).2 (ne_nan_of_le hl).1).mpr (ExtRat.le_trans hl hu)

theorem Box.Contains.ordered (h : b.Contains x) : b.Ordered := by
  obtain ⟨lb, ub⟩ := b
  obtain ⟨hl, hu⟩ := h
  unfold Box.Ordered
  dsimp only at hl hu ⊢
  induction hl generalizing ub with
  | nil =>
      cases hu
      exact .nil
  | cons hlq _ ih =>
      cases hu with
      | cons hqu hrest => exact .cons (not_lt_of_between hlq hqu) (ih _ hrest)

/-- A point inside a box is inside the bounds of the variables around the box. -/
theorem Box.Within.bounds {vars : List (Variable ExtRat)} (h : b.Within vars)
    (hx : b.Contains x) : ∀ v q, (v, q) ∈ vars.zip x → v.lb ≤ fin q ∧ fin q ≤ v.ub := by
  obtain ⟨lb, ub⟩ := b
  obtain ⟨hl, hu⟩ := h
  obtain ⟨hxl, hxu⟩ := hx
  dsimp only at hl hu hxl hxu
  induction vars generalizing lb ub x with
  | nil =>
      intro v q hmem
      cases hmem
  | cons w vars ih =>
      cases hl with
      | cons hwl hl =>
          cases hu with
          | cons hwu hu =>
              cases hxl with
              | cons hlq hxl =>
                  cases hxu with
                  | cons hqu hxu =>
                      intro v q hmem
                      rw [List.zip_cons_cons, List.mem_cons] at hmem
                      rcases hmem with heq | hmem
                      · cases heq
                        exact ⟨ExtRat.le_trans hwl hlq, ExtRat.le_trans hqu hwu⟩
                      · exact ih _ _ hl hu hxl hxu v q hmem

end Boxes

end MipPump
