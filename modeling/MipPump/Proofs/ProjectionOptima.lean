import MipPump.Proofs.Cells
import Mathlib.Algebra.Order.Group.Unbundled.Abs

/-!
# Best points of a projection

A projection onto a candidate weighs every integer variable by what keeps it at its value: a
variable at its lower bound by `x`, one at its upper bound by `-x`, any other by `|x - value|`.  The
candidate costs least, and only the candidate does.

* `projection_eq_blend`, `projection_eq`: the goal of a projection, cell by cell, with and without
  the cost of the problem.
* `costAt_weighted`, `costAt_projection`: what a point costs for it.
* `chosen_eq_of_isBest`: if a point of the relaxation has the values of the candidate, the best
  points have them too.
-/

namespace MipPump

open ExtRat

namespace Cell

def atLower (c : Cell) : Bool := decide (fin c.2 ≤ Table.integralLower c.1.lb)

def atUpper (c : Cell) : Bool := decide (Table.integralUpper c.1.ub ≤ fin c.2)

def interior (c : Cell) : Bool := !(c.atLower || c.atUpper)

/-- Linear weight of a variable at a bound. -/
def pull (c : Cell) : Option ℚ :=
  if c.atLower then some 1 else if c.atUpper then some (-1) else none

/-- Target of a variable between its bounds. -/
def target (c : Cell) : Target ExtRat := { index := c.1.index, value := fin c.2, weight := 1 }

/-- The target with another weight. -/
def weighted (w : ExtRat) (c : Cell) : Target ExtRat := { c.target with weight := w }

/-- What the value `q` of a variable costs. -/
def charge (c : Cell) (q : ℚ) : ℚ :=
  if c.atLower then q else if c.atUpper then -q else |q - c.2|

theorem charge_le {c : Cell} {q : ℚ} (hq : c.Around q) : c.charge c.2 ≤ c.charge q := by
  unfold charge
  by_cases hl : c.atLower
  · have hle := ExtRat.le_trans (of_decide_eq_true hl) hq.1
    simpa [hl] using hle
  · by_cases hu : c.atUpper
    · have hle := ExtRat.le_trans hq.2 (of_decide_eq_true hu)
      simpa [hl, hu] using hle
    · simp [hl, hu]

/-- Only the value of the candidate costs as much. -/
theorem eq_of_charge_eq {c : Cell} {q : ℚ} (h : c.charge q = c.charge c.2) : q = c.2 := by
  unfold charge at h
  by_cases hl : c.atLower
  · simpa [hl] using h
  · by_cases hu : c.atUpper
    · simpa [hl, hu] using h
    · simpa [hl, hu, sub_eq_zero] using h

end Cell

section Charges

variable {cells : List Cell} {zs : List ℚ}

/-- What the integer variables of a point cost. -/
def charges (cells : List Cell) (zs : List ℚ) : ℚ := (List.zipWith Cell.charge cells zs).sum

theorem charges_cons (c : Cell) (cells : List Cell) (q : ℚ) (zs : List ℚ) :
    charges (c :: cells) (q :: zs) = c.charge q + charges cells zs := rfl

theorem charges_le (h : List.Forall₂ (fun c q => c.charge c.2 ≤ c.charge q) cells zs) :
    charges cells (cells.map (·.2)) ≤ charges cells zs := by
  induction h with
  | nil => exact le_refl _
  | cons hq _ ih => exact add_le_add hq ih

theorem eq_of_charges_le (h : List.Forall₂ (fun c q => c.charge c.2 ≤ c.charge q) cells zs)
    (hle : charges cells zs ≤ charges cells (cells.map (·.2))) : zs = cells.map (·.2) := by
  induction h with
  | nil => rfl
  | @cons c q cells zs hq hrest ih =>
      rw [List.map_cons, charges_cons, charges_cons] at hle
      have htail := charges_le hrest
      rw [List.map_cons, Cell.eq_of_charge_eq (by linarith : c.charge q = c.charge c.2),
        ih (by linarith)]

end Charges

section Goals

variable {γ α : Type} {vars : List (Variable ExtRat)}

theorem writesOf_map (index : γ → Int) (mask : γ → Bool) (x : α) (cells : List γ) :
    writesOf (cells.map index) (cells.map fun c => if mask c then some x else none) =
      ((cells.filter mask).map index).map (·, x) := by
  induction cells with
  | nil => rfl
  | cons c rest ih =>
      unfold writesOf at ih ⊢
      by_cases h : mask c
      · simp [h, ih]
      · simp [h, ih]

/-- Later entries replace earlier ones. -/
theorem updated_updated (f g : γ → Option α) (vars : List (Variable ExtRat)) (cells : List γ)
    (xs : List α) :
    updated vars (cells.map f) (updated vars (cells.map g) xs) =
      updated vars (cells.map fun c => (f c).orElse fun _ => g c) xs := by
  induction vars generalizing cells xs with
  | nil => rfl
  | cons v vars ih =>
      cases xs with
      | nil => rfl
      | cons x xs =>
          by_cases hv : v.kind.isIntegral
          · cases cells with
            | nil => simpa [updated, hv] using ih [] xs
            | cons c cells => cases hf : f c <;> simp [updated, hv, ih, hf]
          · simp [updated, hv, ih]

/-- The linear cost of weights at the integer variables is that of these variables. -/
theorem zipWith_mul_updated (pull : γ → Option ℚ) {cells : List γ} {z : List ℚ}
    (hz : z.length = vars.length)
    (hcells : cells.length = (vars.filter (·.kind.isIntegral)).length) :
    dotRat (updated vars (cells.map pull) (List.replicate vars.length 0)) z =
      (List.zipWith (fun c q => (pull c).getD 0 * q) cells (chosen vars z)).sum := by
  induction vars generalizing cells z with
  | nil =>
      rw [List.filter_nil, List.length_nil, List.length_eq_zero_iff] at hcells
      rw [hcells]
      rfl
  | cons v vars ih =>
      cases z with
      | nil => cases hz
      | cons q z =>
          have hlen : z.length = vars.length := by simpa using hz
          by_cases hv : v.kind.isIntegral
          · cases cells with
            | nil => simp [hv] at hcells
            | cons c cells =>
                have hrest := ih hlen (by simpa [hv] using hcells)
                unfold dotRat at hrest ⊢
                simp [List.replicate_succ, updated, chosen, hv, hrest]
          · have hrest := ih hlen (by simpa [hv] using hcells)
            unfold dotRat at hrest ⊢
            simp [List.replicate_succ, updated, chosen, hv, hrest]

theorem updated_map {β : Type} (f : α → β) (vars : List (Variable ExtRat))
    (news : List (Option α)) (xs : List α) :
    updated vars (news.map (Option.map f)) (xs.map f) = (updated vars news xs).map f := by
  induction vars generalizing news xs with
  | nil => rfl
  | cons v vars ih =>
      cases xs with
      | nil => rfl
      | cons x xs =>
          by_cases hv : v.kind.isIntegral
          · cases news with
            | nil => simpa [updated, hv] using ih [] xs
            | cons new news => cases new <;> simp [updated, hv, ih]
          · simp [updated, hv, ih]

end Goals

section Columns

variable {vars : List (Variable ExtRat)} {t : Table ExtRat} {y : List ℚ}

/-- The weights of a projection.  Upper bounds are written first, so that a variable with equal
bounds is pulled down. -/
theorem placeAll_pulls (h : t.Lists vars) (horder : InOrder vars) (hy : y.length = vars.length) :
    (Vec.placeAll (Vec.zeros t.numVars)
        ((((cellsOf vars y).filter Cell.atUpper).map (·.1.index)).map (·, (-1 : ExtRat)) ++
          (((cellsOf vars y).filter Cell.atLower).map (·.1.index)).map (·, (1 : ExtRat))) :
      Except (Fault ExtRat) (List ExtRat)) =
    .ok ((updated vars ((cellsOf vars y).map Cell.pull) (List.replicate vars.length 0)).map fin) := by
  have hindices : integerIndices vars = (cellsOf vars y).map (·.1.index) := by
    rw [← h.integers_eq_cells hy]
    exact h.integers.symm
  have hwrites (mask : Cell → Bool) (x : ExtRat) {xs : List ExtRat}
      (hxs : xs.length = vars.length) :
      (Vec.placeAll xs ((((cellsOf vars y).filter mask).map (·.1.index)).map (·, x)) :
        Except (Fault ExtRat) (List ExtRat)) =
      .ok (updated vars ((cellsOf vars y).map fun c => if mask c then some x else none) xs) := by
    rw [← writesOf_map, ← hindices]
    exact placeAll_integers horder _ hxs
  have hpulls : (cellsOf vars y).map (fun c : Cell =>
      (if c.atLower then some (1 : ExtRat) else none).orElse fun _ =>
        if c.atUpper then some (-1) else none) =
      ((cellsOf vars y).map Cell.pull).map (Option.map fin) := by
    rw [List.map_map]
    refine List.map_congr_left fun c _ => ?_
    show _ = Option.map fin c.pull
    unfold Cell.pull
    split
    · rfl
    · split <;> rfl
  have hzeros : (Vec.zeros t.numVars : List ExtRat) =
      (List.replicate vars.length (0 : ℚ)).map fin := by
    rw [h.numVars_eq, List.map_replicate]
    rfl
  have hlen : (Vec.zeros t.numVars : List ExtRat).length = vars.length := by
    rw [hzeros, List.length_map, List.length_replicate]
  rw [Vec.placeAll_append (hwrites Cell.atUpper (-1) hlen),
    hwrites Cell.atLower 1 ((length_updated _ _ _).trans hlen), updated_updated, hpulls, hzeros,
    updated_map]

/-- The goal of a projection: linear weights, joined with the cost of the problem, and targets. -/
theorem projection_eq_blend (h : t.Lists vars) (horder : InOrder vars) (alpha : ExtRat)
    (hy : y.length = vars.length) :
    Goal.projection t alpha ((chosen vars y).map fin) =
      (Goal.blend t alpha ((updated vars ((cellsOf vars y).map Cell.pull)
        (List.replicate vars.length 0)).map fin)).map fun objective =>
          { objective
            targets := ((cellsOf vars y).filter Cell.interior).map
              (Cell.weighted (Goal.distanceWeight alpha)) } := by
  have hlowers : (Vec.map2 (fun x lb : ExtRat => decide (x ≤ lb))
      ((cellsOf vars y).map fun c => fin c.2)
      ((cellsOf vars y).map fun c => Table.integralLower c.1.lb) :
        Except (Fault ExtRat) (List Bool)) = .ok ((cellsOf vars y).map Cell.atLower) :=
    Vec.map2_map _ _ _ _
  have huppers : (Vec.map2 (fun x ub : ExtRat => decide (ub ≤ x))
      ((cellsOf vars y).map fun c => fin c.2)
      ((cellsOf vars y).map fun c => Table.integralUpper c.1.ub) :
        Except (Fault ExtRat) (List Bool)) = .ok ((cellsOf vars y).map Cell.atUpper) :=
    Vec.map2_map _ _ _ _
  have hinterior : List.zipWith (fun l u => !(l || u)) ((cellsOf vars y).map Cell.atLower)
      ((cellsOf vars y).map Cell.atUpper) = (cellsOf vars y).map Cell.interior := by
    rw [List.zipWith_map, List.zipWith_self]
    rfl
  unfold Goal.projection
  rw [chosen_eq_cells hy, h.intLb_eq_cells horder hy, h.intUb_eq_cells horder hy,
    h.integers_eq_cells hy, Act.exceptBind_of_ok hlowers, Act.exceptBind_of_ok huppers,
    Act.exceptBind_of_ok (Vec.select_map _ _ _), Act.exceptBind_of_ok (Vec.select_map _ _ _)]
  dsimp only
  rw [Act.exceptBind_of_ok (placeAll_pulls h horder hy), hinterior,
    Act.exceptBind_of_ok (Vec.select_map _ _ _), Act.exceptBind_of_ok (Vec.select_map _ _ _),
    List.zipWith_map, List.zipWith_self]
  cases Goal.blend t alpha ((updated vars ((cellsOf vars y).map Cell.pull)
    (List.replicate vars.length 0)).map fin) with
  | ok objective => rfl
  | error e => rfl

/-- The goal of a projection that does not look at the cost of the problem. -/
theorem projection_eq (h : t.Lists vars) (horder : InOrder vars) {alpha : ExtRat}
    (halpha : alpha ≤ 0) (hy : y.length = vars.length) :
    Goal.projection t alpha ((chosen vars y).map fin) =
      .ok
        { objective := (updated vars ((cellsOf vars y).map Cell.pull)
            (List.replicate vars.length 0)).map fin
          targets := ((cellsOf vars y).filter Cell.interior).map Cell.target } := by
  rw [projection_eq_blend h horder alpha hy]
  unfold Goal.blend Goal.distanceWeight
  rw [if_pos halpha, if_pos halpha]
  rfl

end Columns

section Costs

variable {vars : List (Variable ExtRat)} {y z : List ℚ}

theorem Cell.pull_add_interior (c : Cell) (q : ℚ) :
    c.pull.getD 0 * q + (if c.interior then |q - c.2| else 0) = c.charge q := by
  unfold pull interior charge
  by_cases hl : c.atLower
  · simp [hl]
  · by_cases hu : c.atUpper
    · simp [hl, hu]
    · simp [hl, hu]

/-- The targets charge what the linear weights leave out. -/
theorem targets_sum (w : ℚ) {x : List ExtRat} {cells : List Cell} {zs : List ℚ}
    (h : List.Forall₂ (fun c q => Vec.at? x c.1.index = some (fin q)) cells zs) :
    ∃ qs : List ℚ,
      ((cells.filter Cell.interior).map (Cell.weighted (fin w))).map (fun t : Target ExtRat =>
        t.weight * Arith.abs ((Vec.at? x t.index).getD nan - t.value)) = qs.map fin ∧
      qs.sum = w * (charges cells zs -
        (List.zipWith (fun c q => (Cell.pull c).getD 0 * q) cells zs).sum) := by
  induction h with
  | nil => exact ⟨[], rfl, by simp [charges]⟩
  | @cons c q cells zs hq _ ih =>
      obtain ⟨qs, hqs, hsum⟩ := ih
      have hcharge := c.pull_add_interior q
      unfold charges at hsum ⊢
      rw [List.zipWith_cons_cons, List.zipWith_cons_cons, List.sum_cons, List.sum_cons, ← hcharge]
      by_cases hc : c.interior
      · refine ⟨w * |q - c.2| :: qs, ?_, ?_⟩
        · simp [hc, hqs, Cell.weighted, Cell.target, hq]
        · rw [if_pos hc, List.sum_cons, hsum]
          ring
      · refine ⟨qs, ?_, ?_⟩
        · rw [List.filter_cons_of_neg hc]
          exact hqs
        · rw [if_neg hc, hsum]
          ring

/-- What a point costs for linear weights of any kind and targets of one weight. -/
theorem costAt_weighted (horder : InOrder vars) (hy : y.length = vars.length)
    (hz : z.length = vars.length) (objective : List ℚ) (w : ℚ) :
    Goal.costAt
      { objective := objective.map fin
        targets := ((cellsOf vars y).filter Cell.interior).map (Cell.weighted (fin w)) }
      (z.map fin) =
      fin (dotRat objective z + w * (charges (cellsOf vars y) (chosen vars z) -
        dotRat (updated vars ((cellsOf vars y).map Cell.pull)
          (List.replicate vars.length 0)) z)) := by
  have hentries : List.Forall₂ (fun c q => Vec.at? (z.map fin) c.1.index = some (fin q))
      (cellsOf vars y) (chosen vars z) := by
    have hpick : (Vec.pick (z.map fin) (integerIndices vars) : Except (Fault ExtRat) _) =
        .ok (chosen vars (z.map fin)) := pick_integers horder (by rw [List.length_map, hz])
    have hindices : integerIndices vars = (cellsOf vars y).map (·.1.index) := by
      rw [integerIndices, ← map_fst_cellsOf hy, List.map_map]
      rfl
    rw [Vec.pick_eq_ok (R := ExtRat), hindices, chosen_map, List.forall₂_map_left_iff,
      List.forall₂_map_right_iff] at hpick
    exact hpick
  obtain ⟨qs, hqs, hsum⟩ := targets_sum w hentries
  unfold Goal.costAt
  dsimp only
  rw [hqs, zipWith_mul_map_fin, plainSum_map_fin, plainSum_map_fin, fin_add, hsum,
    zipWith_mul_updated Cell.pull hz (length_cellsOf hy)]
  rfl

/-- A point costs what its integer variables are charged. -/
theorem costAt_projection (horder : InOrder vars) (hy : y.length = vars.length)
    (hz : z.length = vars.length) :
    Goal.costAt
      { objective := (updated vars ((cellsOf vars y).map Cell.pull)
          (List.replicate vars.length 0)).map fin
        targets := ((cellsOf vars y).filter Cell.interior).map Cell.target } (z.map fin) =
      fin (charges (cellsOf vars y) (chosen vars z)) := by
  refine (costAt_weighted horder hy hz _ 1).trans (congrArg fin ?_)
  ring

end Costs

section Optima

variable {p : Problem ExtRat} {box : Box ExtRat} {t : Table ExtRat} {y z : List ℚ}

/-- The projection onto the integer values of a point `y` of the relaxation has a best point, and
every best point has these values. -/
theorem chosen_eq_of_isBest (h : t.Lists p.vars) (horder : InOrder p.vars)
    (hbounds : ∀ v ∈ p.vars, v.kind.isIntegral = true → v.IntegralBounds)
    (hwithin : box.Within p.vars) (hy : p.Relaxed box y) {alpha : ExtRat} (halpha : alpha ≤ 0) :
    ∃ goal, Goal.projection t alpha ((chosen p.vars y).map fin) = .ok goal ∧
      (∃ x, p.IsBest box goal x) ∧
      ∀ x, p.IsBest box goal x → chosen p.vars x = chosen p.vars y := by
  refine ⟨_, projection_eq h horder halpha hy.length, ⟨y, hy, charges (cellsOf p.vars y)
    (chosen p.vars y), costAt_projection horder hy.length hy.length, ?_⟩, ?_⟩
  · intro z hz
    have hle := charges_le
      ((around_of_relaxed hbounds hwithin hy.length hz).imp fun _ _ => Cell.charge_le)
    rw [map_snd_cellsOf hy.length] at hle
    rw [costAt_projection horder hy.length hz.length, fin_le_fin]
    exact hle
  · rintro x ⟨hx, q, hq, hleast⟩
    have hle := hleast y hy
    rw [← hq, costAt_projection horder hy.length hx.length,
      costAt_projection horder hy.length hy.length, fin_le_fin, ← map_snd_cellsOf hy.length] at hle
    rw [← map_snd_cellsOf hy.length]
    exact eq_of_charges_le
      ((around_of_relaxed hbounds hwithin hy.length hx).imp fun _ _ => Cell.charge_le) hle

end Optima

end MipPump
