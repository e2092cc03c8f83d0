import MipPump.Proofs.AuxiliaryColumns
import Mathlib.Order.Bounds.Basic

/-!
# The least cost of a program

The program of an aimed relaxation, seen from the variables.

* `Relaxation.admits_iff`: its points are the points of the relaxation with values of the auxiliary
  columns that are at least the distances.
* `sum_eq_sum_of_index`: the auxiliary columns charge what the targets cost, although they stand in
  the order in which they were made.
* `Relaxation.isLeast_cost`: over the auxiliary columns the least cost of a point is its cost for
  the goal.
-/

namespace MipPump

open ExtRat

section Points

variable {m : Instance ExtRat} {timeLimit : Option ExtRat} {r : Relaxation ExtRat} {n : Nat}
  {s : RelaxationState ExtRat} {box : Box ExtRat} {x d : List ℚ}

/-- Related lists put one behind the other. -/
theorem forall₂_append_iff {α β : Type} {p : α → β → Prop} {as as' : List α} {bs bs' : List β}
    (h : as.length = bs.length) :
    List.Forall₂ p (as ++ as') (bs ++ bs') ↔ List.Forall₂ p as bs ∧ List.Forall₂ p as' bs' := by
  induction as generalizing bs with
  | nil =>
      rw [List.length_nil, eq_comm, List.length_eq_zero_iff] at h
      subst h
      simp
  | cons a as ih =>
      cases bs with
      | nil => cases h
      | cons b bs =>
          simp only [List.cons_append, List.forall₂_cons, ih (Nat.succ.inj h), and_assoc]

/-- The columns of the variables admit the points of the box. -/
theorem Relaxation.forall₂_variableColumns {lb ub cost : List ExtRat}
    (hl : lb.length = x.length) (hu : ub.length = x.length) (hc : cost.length = x.length) :
    List.Forall₂ Column.Admits (Relaxation.variableColumns ⟨lb, ub⟩ cost) x ↔
      Box.Contains ⟨lb, ub⟩ x := by
  induction x generalizing lb ub cost with
  | nil =>
      rw [List.length_nil, List.length_eq_zero_iff] at hl hu hc
      subst hl hu hc
      exact iff_of_true .nil ⟨.nil, .nil⟩
  | cons q x ih =>
      match lb, ub, cost, hl, hu, hc with
      | l :: lb, u :: ub, c :: cost, hl, hu, hc =>
          have hrest := ih (Nat.succ.inj hl) (Nat.succ.inj hu) (Nat.succ.inj hc)
          unfold Relaxation.variableColumns at hrest ⊢
          simp only [List.zip_cons_cons, List.zipWith_cons_cons, List.forall₂_cons, hrest]
          constructor
          · rintro ⟨⟨hlq, hqu⟩, hlower, hupper⟩
            exact ⟨.cons hlq hlower, .cons hqu hupper⟩
          · rintro ⟨hlower, hupper⟩
            cases hlower with
            | cons hlq hlower =>
                cases hupper with
                | cons hqu hupper => exact ⟨⟨hlq, hqu⟩, hlower, hupper⟩

/-- The values of the auxiliary columns are at least the distances. -/
theorem RelaxationState.Sound.forall₂_iff (h : s.Sound n) (hx : x.length = n)
    (hd : s.auxiliaries.length = d.length) :
    (∀ row ∈ s.auxiliaries.zipIdx.flatMap fun (a, k) => Relaxation.auxiliaryRows a (n + k),
        row.HoldsAt (x ++ d)) ↔
      List.Forall₂ (fun a q => a.gapAt x ≤ fin q) s.auxiliaries d := by
  have hrows {k : Nat} (hk : k < s.auxiliaries.length) :
      (∀ row ∈ Relaxation.auxiliaryRows s.auxiliaries[k] (n + k), row.HoldsAt (x ++ d)) ↔
        s.auxiliaries[k].gapAt x ≤ fin (d.get ⟨k, hd ▸ hk⟩) := by
    obtain ⟨hplaced, v, hv⟩ := h.placed _ (List.getElem_mem hk)
    subst hx
    exact Auxiliary.rows_holdAt_iff hv (Vec.position?_lt hplaced) (hd ▸ hk)
  rw [List.forall₂_iff_get]
  constructor
  · intro hall
    refine ⟨hd, fun k hk _ => (hrows hk).mp fun row hrow => hall row ?_⟩
    exact List.mem_flatMap.mpr ⟨(s.auxiliaries[k], k),
      List.mem_zipIdx_iff_getElem?.mpr (List.getElem?_eq_getElem hk), hrow⟩
  · rintro ⟨-, hall⟩ row hrow
    obtain ⟨⟨a, k⟩, hmem, hrow⟩ := List.mem_flatMap.mp hrow
    obtain ⟨hk, ha⟩ := List.getElem?_eq_some_iff.mp (List.mem_zipIdx_iff_getElem?.mp hmem)
    dsimp only at hk ha
    subst ha
    exact (hrows hk).mpr (hall k hk (hd ▸ hk)) row hrow

/-- The points of a program: points of the box at which the rows of the instance hold, with values
of the auxiliary columns that are at least the distances. -/
theorem Relaxation.admits_iff (hr : Relaxation.ofInstance m timeLimit = .ok r)
    (hm : m.Consistent) (hs : s.Sound r.numVars) (hcost : s.cost.length = r.numVars)
    (hl : box.lb.length = r.numVars) (hu : box.ub.length = r.numVars)
    (hx : x.length = r.numVars) :
    (r.program s box).Admits (x ++ d) ↔
      (m.rows.SatisfiedBy x ∧ box.Contains x) ∧
        List.Forall₂ (fun a q => 0 ≤ q ∧ a.gapAt x ≤ fin q) s.auxiliaries d := by
  obtain ⟨hn, -⟩ := Relaxation.ofInstance_eq_ok hr
  have hvariables : (Relaxation.variableColumns box s.cost).length = x.length := by
    simp [Relaxation.variableColumns, hl, hu, hcost, hx]
  have hbox : List.Forall₂ Column.Admits (Relaxation.variableColumns box s.cost) x ↔
      box.Contains x :=
    Relaxation.forall₂_variableColumns (hl.trans hx.symm) (hu.trans hx.symm) (hcost.trans hx.symm)
  have hauxiliaries : List.Forall₂ Column.Admits
      (s.auxiliaries.map fun a => { lb := 0, ub := Arith.infinity, cost := a.cost }) d ↔
        List.Forall₂ (fun _ q => (0 : ℚ) ≤ q) s.auxiliaries d := by
    rw [List.forall₂_map_left_iff]
    have hadmits (q : ℚ) : fin 0 ≤ fin q ∧ fin q ≤ posInf ↔ 0 ≤ q := by
      rw [fin_le_fin, le_posInf_iff]
      exact and_iff_left (fin_ne_nan q)
    exact ⟨fun h => h.imp fun _ q hq => (hadmits q).mp hq,
      fun h => h.imp fun _ q hq => (hadmits q).mpr hq⟩
  have hrows (hd : s.auxiliaries.length = d.length) :
      (∀ row ∈ (r.program s box).rows, row.HoldsAt (x ++ d)) ↔ m.rows.SatisfiedBy x ∧
        List.Forall₂ (fun a q => a.gapAt x ≤ fin q) s.auxiliaries d := by
    show (∀ row ∈ _ ++ _, _) ↔ _
    rw [List.forall_mem_append, Relaxation.rows_holdAt_iff hr hm (hx.trans hn) d,
      hs.forall₂_iff hx hd]
  constructor
  · rintro ⟨hcolumns, hall⟩
    obtain ⟨hvars, haux⟩ := (forall₂_append_iff hvariables).mp hcolumns
    have hnonneg := hauxiliaries.mp haux
    obtain ⟨hsat, hgaps⟩ := (hrows hnonneg.length_eq).mp hall
    exact ⟨⟨hsat, hbox.mp hvars⟩, List.forall₂_iff_zip.mpr ⟨hnonneg.length_eq, fun hmem =>
      ⟨(List.forall₂_iff_zip.mp hnonneg).2 hmem, (List.forall₂_iff_zip.mp hgaps).2 hmem⟩⟩⟩
  · rintro ⟨⟨hsat, hinside⟩, hgaps⟩
    refine ⟨(forall₂_append_iff hvariables).mpr ⟨hbox.mpr hinside, ?_⟩,
      (hrows hgaps.length_eq).mpr ⟨hsat, hgaps.imp fun _ _ h => h.2⟩⟩
    exact hauxiliaries.mpr (hgaps.imp fun _ _ h => h.1)

end Points

section Costs

variable {n : Nat} {s : RelaxationState ExtRat} {goal : Goal ExtRat} {x d : List ℚ}

/-- Two sums over lists with an index each, where the entries of the first that the second does not
have are zero. -/
theorem sum_eq_sum_of_index {α β : Type} {i : α → Int} {j : β → Int} {f : α → ℚ} {g : β → ℚ}
    {as : List α} {bs : List β} (has : (as.map i).Nodup) (hbs : (bs.map j).Nodup)
    (hused : ∀ b ∈ bs, ∃ a ∈ as, i a = j b ∧ f a = g b)
    (hunused : ∀ a ∈ as, (∀ b ∈ bs, j b ≠ i a) → f a = 0) :
    (as.map f).sum = (bs.map g).sum := by
  induction bs generalizing as with
  | nil =>
      refine List.sum_eq_zero fun q hq => ?_
      obtain ⟨a, ha, rfl⟩ := List.mem_map.mp hq
      exact hunused a ha fun b hb => by cases hb
  | cons b bs ih =>
      obtain ⟨a, ha, hindex, hvalue⟩ := hused b (List.mem_cons_self ..)
      obtain ⟨before, after, rfl⟩ := List.append_of_mem ha
      have hperm : (before ++ a :: after).Perm (a :: (before ++ after)) := List.perm_middle
      rw [(hperm.map i).nodup_iff, List.map_cons, List.nodup_cons] at has
      rw [List.map_cons, List.nodup_cons] at hbs
      have hother {a' : α} (ha' : a' ∈ before ++ after) : i a' ≠ i a := fun heq =>
        has.1 (heq ▸ List.mem_map_of_mem ha')
      rw [(hperm.map f).sum_eq, List.map_cons, List.map_cons, List.sum_cons, List.sum_cons, hvalue]
      congr 1
      refine ih has.2 hbs.2 (fun b' hb' => ?_) fun a' ha' hidle => ?_
      · obtain ⟨a', ha', hindex', hvalue'⟩ := hused b' (List.mem_cons_of_mem _ hb')
        refine ⟨a', ?_, hindex', hvalue'⟩
        rcases List.mem_cons.mp (hperm.subset ha') with rfl | hmem
        · exact absurd (List.mem_map.mpr ⟨b', hb', hindex'.symm.trans hindex⟩) hbs.1
        · exact hmem
      · refine hunused a' (hperm.mem_iff.mpr (List.mem_cons_of_mem _ ha')) fun b' hb' => ?_
        rcases List.mem_cons.mp hb' with rfl | hb'
        · rw [← hindex]
          exact (hother ha').symm
        · exact hidle b' hb'

/-- The cost of an auxiliary column as a rational number. -/
def Auxiliary.rate (a : Auxiliary ExtRat) : ℚ := LinearProgram.rational a.cost

/-- The distance of an auxiliary column as a rational number. -/
def Auxiliary.gapRat (a : Auxiliary ExtRat) (x : List ℚ) : ℚ := LinearProgram.rational (a.gapAt x)

theorem RelaxationState.Sound.gapAt_eq (h : s.Sound n) {a : Auxiliary ExtRat}
    (ha : a ∈ s.auxiliaries) (x : List ℚ) : a.gapAt x = fin (a.gapRat x) ∧ 0 ≤ a.gapRat x := by
  obtain ⟨-, v, hv⟩ := h.placed a ha
  have hgap : a.gapAt x = fin |x.getD a.column 0 - v| := by
    rw [Auxiliary.gapAt, hv, fin_sub, abs_fin]
  unfold Auxiliary.gapRat
  rw [hgap]
  exact ⟨rfl, abs_nonneg _⟩

/-- After a solve every auxiliary column has a finite cost that is not negative. -/
theorem RelaxationState.AimedAt.rate_nonneg (h : s.AimedAt goal.objective goal.targets)
    (hgoal : goal.Sane n) {a : Auxiliary ExtRat} (ha : a ∈ s.auxiliaries)
    (hdistinct : (s.auxiliaries.map (·.index)).Nodup) :
    a.cost = fin a.rate ∧ 0 ≤ a.rate := by
  have hfin {w : ℚ} (hw : a.cost = fin w) (hpos : 0 ≤ w) : a.cost = fin a.rate ∧ 0 ≤ a.rate := by
    unfold Auxiliary.rate
    rw [hw]
    exact ⟨rfl, hpos⟩
  by_cases hidle : ∀ t ∈ goal.targets, t.index ≠ a.index
  · exact hfin (h.unused a ha hidle) le_rfl
  · push Not at hidle
    obtain ⟨t, ht, hindex⟩ := hidle
    obtain ⟨b, hb, hbt, -, hcost⟩ := h.used t ht
    obtain ⟨p, v, w, -, -, hw, hpos⟩ := hgoal.targets t ht
    have hab : b = a := List.inj_on_of_nodup_map hdistinct hb ha (hbt.trans hindex)
    subst hab
    exact hfin (hcost.trans hw) hpos

/-- The columns of the variables cost what the objective says. -/
theorem Relaxation.zipWith_variableColumns {lb ub : List ExtRat} {c : List ℚ}
    (hl : lb.length = x.length) (hu : ub.length = x.length) (hc : c.length = x.length) :
    List.zipWith (fun (column : Column ExtRat) q => column.cost * fin q)
      (Relaxation.variableColumns ⟨lb, ub⟩ (c.map fin)) x =
        (List.zipWith (· * ·) c x).map fin := by
  induction x generalizing lb ub c with
  | nil => simp
  | cons q x ih =>
      match lb, ub, c, hl, hu, hc with
      | l :: lb, u :: ub, w :: c, hl, hu, hc =>
          have hrest := ih (Nat.succ.inj hl) (Nat.succ.inj hu) (Nat.succ.inj hc)
          unfold Relaxation.variableColumns at hrest ⊢
          simp only [List.map_cons, List.zip_cons_cons, List.zipWith_cons_cons, hrest, fin_mul]

/-- Auxiliary columns cost their rates. -/
theorem zipWith_auxiliaries {auxiliaries : List (Auxiliary ExtRat)}
    (h : ∀ a ∈ auxiliaries, a.cost = fin a.rate) :
    List.zipWith (fun (column : Column ExtRat) q => column.cost * fin q)
      (auxiliaries.map fun a => { lb := 0, ub := Arith.infinity, cost := a.cost }) d =
        (List.zipWith (fun a q => a.rate * q) auxiliaries d).map fin := by
  induction auxiliaries generalizing d with
  | nil => rfl
  | cons a auxiliaries ih =>
      cases d with
      | nil => rfl
      | cons q d =>
          rw [List.map_cons, List.zipWith_cons_cons, List.zipWith_cons_cons, List.map_cons,
            ih fun b hb => h b (List.mem_cons_of_mem _ hb), h a (List.mem_cons_self ..), fin_mul]

/-- A point of the program costs what its variables and its auxiliary columns cost. -/
theorem Relaxation.costAt_program {r : Relaxation ExtRat} {box : Box ExtRat} {c : List ℚ}
    (hcost : s.cost = c.map fin) (hrates : ∀ a ∈ s.auxiliaries, a.cost = fin a.rate)
    (hl : box.lb.length = x.length) (hu : box.ub.length = x.length) (hc : c.length = x.length) :
    (r.program s box).costAt (x ++ d) =
      fin (dotRat c x + (List.zipWith (fun a q => a.rate * q) s.auxiliaries d).sum) := by
  have hvariables := Relaxation.zipWith_variableColumns hl hu hc
  rw [← hcost] at hvariables
  unfold LinearProgram.costAt
  show Vec.plainSum (List.zipWith _ (_ ++ _) _) = _
  rw [List.zipWith_append (by simp [Relaxation.variableColumns, hl, hu, hcost, hc]), hvariables,
    zipWith_auxiliaries hrates, ← List.map_append, plainSum_map_fin, List.sum_append]
  rfl

/-- What a goal costs at a point is what the auxiliary columns charge for the distances. -/
theorem RelaxationState.AimedAt.costAt_eq (h : s.AimedAt goal.objective goal.targets)
    (hs : s.Sound n) (hgoal : goal.Sane n) {c : List ℚ} (hc : goal.objective = c.map fin)
    (hx : x.length = n) :
    goal.costAt (x.map fin) =
      fin (dotRat c x + (s.auxiliaries.map fun a => a.rate * a.gapRat x).sum) := by
  have hcharge {t : Target ExtRat} (ht : t ∈ goal.targets) : ∃ a ∈ s.auxiliaries,
      a.index = t.index ∧
        t.weight * Arith.abs ((Vec.at? (x.map fin) t.index).getD nan - t.value) =
          fin (a.rate * a.gapRat x) := by
    obtain ⟨a, ha, hindex, hvalue, hcost⟩ := h.used t ht
    have hplace : Vec.at? (x.map fin) t.index = some (fin (x.getD a.column 0)) := by
      obtain ⟨hplaced, -⟩ := hs.placed a ha
      have hlt : a.column < x.length := hx ▸ Vec.position?_lt hplaced
      refine Vec.at?_eq_some.mpr ⟨a.column, ?_, ?_⟩
      · rw [List.length_map, hx, ← hindex]
        exact hplaced
      · rw [List.getElem?_map, List.getElem?_eq_getElem hlt, List.getD_eq_getElem x 0 hlt]
        rfl
    have hgap := (hs.gapAt_eq ha x).1
    unfold Auxiliary.gapAt at hgap
    rw [hplace, Option.getD_some, ← hvalue, hgap, ← hcost,
      (h.rate_nonneg hgoal ha hs.distinct).1]
    exact ⟨a, ha, hindex, rfl⟩
  have hsum : (s.auxiliaries.map fun a => a.rate * a.gapRat x).sum =
      (goal.targets.map fun t => LinearProgram.rational
        (t.weight * Arith.abs ((Vec.at? (x.map fin) t.index).getD nan - t.value))).sum := by
    refine sum_eq_sum_of_index hs.distinct hgoal.distinct (fun t ht => ?_) fun a ha hidle => ?_
    · obtain ⟨a, ha, hindex, hvalue⟩ := hcharge ht
      refine ⟨a, ha, hindex, ?_⟩
      rw [hvalue]
      rfl
    · unfold Auxiliary.rate
      rw [h.unused a ha hidle]
      exact zero_mul _
  have htargets : (goal.targets.map fun t =>
      t.weight * Arith.abs ((Vec.at? (x.map fin) t.index).getD nan - t.value)) =
      (goal.targets.map fun t => LinearProgram.rational
        (t.weight * Arith.abs ((Vec.at? (x.map fin) t.index).getD nan - t.value))).map fin := by
    rw [List.map_map]
    refine List.map_congr_left fun t ht => ?_
    obtain ⟨a, -, -, hvalue⟩ := hcharge ht
    dsimp only [Function.comp]
    rw [hvalue]
    rfl
  unfold Goal.costAt
  rw [htargets, hc, zipWith_mul_map_fin, plainSum_map_fin, plainSum_map_fin, fin_add, hsum]
  rfl

end Costs

section Optima

variable {m : Instance ExtRat} {timeLimit : Option ExtRat} {r : Relaxation ExtRat}
  {goal : Goal ExtRat}

/-- Values that are at least the distances cost at least as much. -/
theorem sum_rates_le {auxiliaries : List (Auxiliary ExtRat)} {x d : List ℚ}
    (h : List.Forall₂ (fun a q => 0 ≤ a.rate ∧ a.gapRat x ≤ q) auxiliaries d) :
    (auxiliaries.map fun a => a.rate * a.gapRat x).sum ≤
      (List.zipWith (fun a q => a.rate * q) auxiliaries d).sum := by
  induction h with
  | nil => exact le_rfl
  | cons haq _ ih =>
      rw [List.map_cons, List.zipWith_cons_cons, List.sum_cons, List.sum_cons]
      exact add_le_add (mul_le_mul_of_nonneg_left haq.2 haq.1) ih

/-- The least cost over the auxiliary columns is that of the distances. -/
theorem Relaxation.isLeast_cost {s : RelaxationState ExtRat} {box : Box ExtRat} {x : List ℚ}
    (hr : Relaxation.ofInstance m timeLimit = .ok r) (hm : m.Consistent)
    (hs : s.Sound r.numVars) (h : s.AimedAt goal.objective goal.targets)
    (hgoal : goal.Sane r.numVars) (hl : box.lb.length = r.numVars)
    (hu : box.ub.length = r.numVars) (hx : x.length = r.numVars)
    (hrows : m.rows.SatisfiedBy x) (hbox : box.Contains x) :
    ∃ q, goal.costAt (x.map fin) = fin q ∧
      IsLeast {c | ∃ d, (r.program s box).Admits (x ++ d) ∧
        (r.program s box).costAt (x ++ d) = fin c} q := by
  obtain ⟨c, hc, hclen⟩ := hgoal.objective
  have hcost : s.cost = c.map fin := h.cost.trans hc
  have hrate {a : Auxiliary ExtRat} (ha : a ∈ s.auxiliaries) := h.rate_nonneg hgoal ha hs.distinct
  have hadmits (d : List ℚ) : (r.program s box).Admits (x ++ d) ↔ _ :=
    Relaxation.admits_iff hr hm hs (by rw [hcost, List.length_map, hclen]) hl hu hx
  have hprogram (d : List ℚ) := Relaxation.costAt_program (r := r) (d := d) hcost
    (fun a ha => (hrate ha).1) (hl.trans hx.symm) (hu.trans hx.symm) (hclen.trans hx.symm)
  refine ⟨_, h.costAt_eq hs hgoal hc hx, ?_, ?_⟩
  · refine ⟨s.auxiliaries.map (·.gapRat x), (hadmits _).mpr ⟨⟨hrows, hbox⟩, ?_⟩, ?_⟩
    · rw [List.forall₂_map_right_iff, List.forall₂_same]
      intro a ha
      obtain ⟨hgap, hpos⟩ := hs.gapAt_eq ha x
      rw [hgap, fin_le_fin]
      exact ⟨hpos, le_rfl⟩
    · rw [hprogram, List.zipWith_map_right, List.zipWith_self]
  · rintro q ⟨d, hd, hq⟩
    obtain ⟨-, hgaps⟩ := (hadmits d).mp hd
    rw [hprogram] at hq
    cases hq
    refine add_le_add le_rfl (sum_rates_le (List.forall₂_iff_zip.mpr
      ⟨hgaps.length_eq, fun hmem => ?_⟩))
    have ha := (List.of_mem_zip hmem).1
    obtain ⟨-, hgap⟩ := (List.forall₂_iff_zip.mp hgaps).2 hmem
    rw [(hs.gapAt_eq ha x).1, fin_le_fin] at hgap
    exact ⟨(hrate ha).2, hgap⟩

end Optima

end MipPump
