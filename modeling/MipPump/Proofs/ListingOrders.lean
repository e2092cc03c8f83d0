import MipPump.Proofs.CoherentProblems
import Mathlib.Data.List.Sort

/-!
# The order in which variables are listed

Some columns are filled by the place of a variable in the list and others are addressed by its
index.  If the variables stand in index order the two views are one.

* `Indexed`: the indices are the numbers of the variables, in some order; `byIndex` sorts by them.
* `Table.Numbers`: what a table says of indices and positions, in every listing order.
* `Table.ByPlace`: the bounds and costs that a table has for an index are those of the variable that
  is listed at that place.
* `Table.ByIndex`: they are those of the variable with that index, and the indices ascend.
* `Problem.FeasibleAlike`: the same points are feasible.

**Result.**  `listing_order_matters_iff`: a table depends on the order unless that is the index
order, feasibility does not, and the objective does unless the costs stand in the same order.
`swapped_listing_differs` are two variables in the other order.
-/

namespace MipPump

section Meaning

variable {R : Type}

/-- The indices of the variables are the numbers below their count, in some order. -/
def Indexed (vars : List (Variable R)) : Prop :=
  (vars.map (·.index)).Perm ((List.range' 0 vars.length).map fun n : Nat => (n : Int))

/-- The variables in index order. -/
def byIndex (vars : List (Variable R)) : List (Variable R) :=
  vars.mergeSort fun v w => decide (v.index ≤ w.index)

/-- The problem with its variables in index order. -/
def Problem.byIndex (p : Problem R) : Problem R := { p with vars := MipPump.byIndex p.vars }

variable [Arith R]

/-- The table has the indices of the integer variables and of the others, and each integer variable
knows its place. -/
structure Table.Numbers (vars : List (Variable R)) (t : Table R) : Prop where
  integers : ∀ j, j ∈ t.integers ↔ ∃ v ∈ vars, v.kind.isIntegral = true ∧ v.index = j
  others : ∀ j, j ∈ t.others ↔ ∃ v ∈ vars, v.kind.isIntegral = false ∧ v.index = j
  position : ∀ (p : Nat) (j : Int), t.integers[p]? = some j → Vec.at? t.position j = some (p : Int)
  elsewhere : ∀ j ∈ t.others, Vec.at? t.position j = some (-1)

/-- Bounds and costs are those of the variable that is listed at the place of the index. -/
structure Table.ByPlace (vars : List (Variable R)) (t : Table R) : Prop where
  bounds : ∀ (p : Nat) (j : Int), t.integers[p]? = some j → ∃ v, Vec.at? vars j = some v ∧
    t.intLb[p]? = some (integralLower v.lb) ∧ t.intUb[p]? = some (integralUpper v.ub)
  cost : ∀ j v, Vec.at? vars j = some v → Vec.at? t.cost j = some v.cost

/-- Bounds and costs are those of the variable with the index, and the indices ascend. -/
structure Table.ByIndex (vars : List (Variable R)) (t : Table R) : Prop where
  integers : t.integers.Pairwise (· < ·)
  others : t.others.Pairwise (· < ·)
  bounds : ∀ v ∈ vars, ∀ p : Nat, t.integers[p]? = some v.index →
    t.intLb[p]? = some (integralLower v.lb) ∧ t.intUb[p]? = some (integralUpper v.ub)
  cost : ∀ v ∈ vars, Vec.at? t.cost v.index = some v.cost

/-- The check comes to the same for two problems where it comes to an answer for both, and it does
so for points that have an entry for every variable and no special value. -/
structure Problem.FeasibleAlike (p q : Problem R) : Prop where
  answers : ∀ tol point a b, p.isFeasible tol point = .ok a → q.isFeasible tol point = .ok b → a = b
  finite : ∀ tol point, p.vars.length ≤ point.length →
    (∀ x ∈ point, Arith.isNaN x = false ∧ Arith.isInf x = false) →
      p.isFeasible tol point = q.isFeasible tol point

end Meaning

section Orders

variable {R : Type} {vars ws : List (Variable R)}

theorem indexed_of_inOrder (h : InOrder vars) : Indexed vars := by
  unfold Indexed
  rw [h]

theorem byIndex_perm (vars : List (Variable R)) : (byIndex vars).Perm vars :=
  List.mergeSort_perm _ _

/-- The numbers from zero on ascend. -/
theorem pairwise_numbers (n : Nat) :
    ((List.range' 0 n).map fun k : Nat => (k : Int)).Pairwise (· < ·) :=
  List.pairwise_map.mpr ((List.pairwise_lt_range' 1).imp Int.ofNat_lt.mpr)

theorem InOrder.pairwise (h : InOrder vars) : (vars.map (·.index)).Pairwise (· < ·) := by
  rw [h]
  exact pairwise_numbers _

/-- Variables in index order stay as they are. -/
theorem byIndex_of_inOrder (h : InOrder vars) : byIndex vars = vars :=
  List.mergeSort_of_pairwise ((List.pairwise_map.mp h.pairwise).imp fun hlt =>
    decide_eq_true (Int.le_of_lt hlt))

/-- Sorting by the index leads to the index order. -/
theorem inOrder_byIndex (h : Indexed vars) : InOrder (byIndex vars) := by
  have hsorted : ((byIndex vars).map (·.index)).Pairwise (· ≤ ·) :=
    List.pairwise_map.mpr ((List.pairwise_mergeSort
      (fun u v w huv hvw => decide_eq_true ((of_decide_eq_true huv).trans (of_decide_eq_true hvw)))
      (fun u v => by simpa using Int.le_total u.index v.index) vars).imp of_decide_eq_true)
  have hperm : ((byIndex vars).map (·.index)).Perm
      ((List.range' 0 vars.length).map fun n : Nat => (n : Int)) :=
    ((byIndex_perm vars).map _).trans h
  unfold InOrder NumberedFrom
  rw [(byIndex_perm vars).length_eq]
  exact hperm.eq_of_pairwise (fun _ _ _ _ => Int.le_antisymm) hsorted
    ((pairwise_numbers _).imp Int.le_of_lt)

namespace Indexed

theorem nodup (h : Indexed vars) : (vars.map (·.index)).Nodup :=
  h.nodup_iff.mpr ((pairwise_numbers _).imp Int.ne_of_lt)

theorem inRange (h : Indexed vars) : ∀ v ∈ vars, Vec.InRange vars.length v.index := by
  intro v hv
  obtain ⟨k, hk, hindex⟩ := List.mem_map.mp (h.mem_iff.mp (List.mem_map_of_mem hv))
  exact ⟨k, hindex.symm, by simpa using (List.mem_range'_1.mp hk).2⟩

/-- A variable is found by its index. -/
theorem eq_of_index (h : Indexed vars) {u v : Variable R} (hu : u ∈ vars) (hv : v ∈ vars)
    (hindex : u.index = v.index) : u = v :=
  List.inj_on_of_nodup_map h.nodup hu hv hindex

theorem byIndex (h : Indexed vars) : Indexed (byIndex vars) :=
  indexed_of_inOrder (inOrder_byIndex h)

end Indexed

/-- The kinds and the indices of either kind give the indices. -/
theorem map_index_eq (hkinds : vars.map (·.kind) = ws.map (·.kind))
    (hints : (vars.filter (·.kind.isIntegral)).map (·.index) =
      (ws.filter (·.kind.isIntegral)).map (·.index))
    (hothers : (vars.filter (!·.kind.isIntegral)).map (·.index) =
      (ws.filter (!·.kind.isIntegral)).map (·.index)) :
    vars.map (·.index) = ws.map (·.index) := by
  induction vars generalizing ws with
  | nil => rw [List.map_eq_nil_iff.mp hkinds.symm]
  | cons v vars ih =>
      cases ws with
      | nil => cases hkinds
      | cons w ws =>
          obtain ⟨hkind, hkinds⟩ := List.cons.inj hkinds
          have hintegral : v.kind.isIntegral = w.kind.isIntegral := congrArg Kind.isIntegral hkind
          by_cases hv : v.kind.isIntegral
          · have hw : w.kind.isIntegral = true := hintegral.symm.trans hv
            simp only [List.filter_cons, hv, hw, if_true, Bool.not_true, Bool.false_eq_true,
              if_false, List.map_cons, List.cons.injEq] at hints hothers
            rw [List.map_cons, List.map_cons, hints.1, ih hkinds hints.2 hothers]
          · have hw : ¬ w.kind.isIntegral := fun hw => hv (hintegral.trans hw)
            simp only [List.filter_cons, hv, hw, if_true, Bool.not_false, Bool.false_eq_true,
              if_false, List.map_cons, List.cons.injEq] at hints hothers
            rw [List.map_cons, List.map_cons, hothers.1, ih hkinds hints hothers.2]

end Orders

section Tables

variable {R : Type} [Arith R] {vars : List (Variable R)} {t t' : Table R}

namespace Table.Lists

theorem mem_integers_iff (h : t.Lists vars) (j : Int) :
    j ∈ t.integers ↔ ∃ v ∈ vars, v.kind.isIntegral = true ∧ v.index = j := by
  rw [h.integers]
  simp [and_assoc]

theorem mem_others_iff (h : t.Lists vars) (j : Int) :
    j ∈ t.others ↔ ∃ v ∈ vars, v.kind.isIntegral = false ∧ v.index = j := by
  rw [h.others]
  simp [and_assoc]

theorem distinct_of_indexed (h : t.Lists vars) (hi : Indexed vars) : t.Distinct := by
  refine ⟨?_, fun j hj => ?_⟩
  · rw [h.integers]
    exact (List.filter_sublist.map _).nodup hi.nodup
  · obtain ⟨v, hv, -, rfl⟩ := (h.mem_integers_iff j).mp hj
    obtain ⟨k, hk, -⟩ := hi.inRange v hv
    omega

/-- The other variables have no place among the integer ones. -/
theorem at?_position_others (h : t.Lists vars) (hi : Indexed vars) {j : Int} (hj : j ∈ t.others) :
    Vec.at? t.position j = some (-1) := by
  obtain ⟨v, hv, hkind, rfl⟩ := (h.mem_others_iff j).mp hj
  obtain ⟨k, hk, hlt⟩ := hi.inRange v hv
  have hlength : t.position.length = vars.length := by
    rw [Vec.length_of_placeAll h.position, List.length_replicate]
  rw [hk, Vec.at?_natCast]
  have hentry := List.getElem?_eq_getElem (l := t.position) (i := k) (by omega)
  rcases Vec.getElem?_placeAll h.position hentry with ⟨hblank, -⟩ | ⟨w, hw, hposition, -⟩
  · rw [List.getElem?_replicate_of_lt hlt] at hblank
    rw [hentry, ← hblank]
  · -- a write to the place would come from an integer variable with the same index
    obtain ⟨⟨j, p⟩, hjp, rfl⟩ := List.mem_map.mp hw
    obtain ⟨u, hu, hint, rfl⟩ := (h.mem_integers_iff j).mp (List.fst_mem_of_mem_zipIdx hjp)
    obtain ⟨m, hm, -⟩ := hi.inRange u hu
    have hkm : k = m := Vec.eq_of_position?_natCast (n := vars.length) (by
      rw [← hm]
      simpa using hposition)
    rw [hi.eq_of_index hu hv (by rw [hm, hk, hkm]), hkind] at hint
    cases hint

theorem numbers (h : t.Lists vars) (hi : Indexed vars) : t.Numbers vars :=
  ⟨h.mem_integers_iff, h.mem_others_iff, fun _ _ hj => h.at?_position (h.distinct_of_indexed hi) hj,
    fun _ hj => h.at?_position_others hi hj⟩

theorem byPlace (h : t.Lists vars) : t.ByPlace vars := by
  have hread {f : Variable R → R} {picked : List R} {p : Nat} {j : Int}
      (hpick : (Vec.pick (vars.map f) t.integers : Except (Fault R) (List R)) = .ok picked)
      (hj : t.integers[p]? = some j) {v : Variable R} (hv : Vec.at? vars j = some v) :
      picked[p]? = some (f v) := by
    obtain ⟨x, hx, hat⟩ := Vec.forall₂_getElem? (Vec.pick_eq_ok.mp hpick) hj
    rw [hx, ← hat, Vec.at?_map hv]
  refine ⟨fun p j hj => ?_, fun j v hv => ?_⟩
  · obtain ⟨lb, hlb, hintLb⟩ := h.intLb
    obtain ⟨ub, hub, hintUb⟩ := h.intUb
    rw [h.lb] at hlb
    rw [h.ub] at hub
    obtain ⟨k, hk⟩ := h.exists_position? j (List.mem_of_getElem? hj)
    have hlt : k < vars.length := Vec.position?_lt hk
    have hv : Vec.at? vars j = some vars[k] :=
      Vec.at?_eq_some.mpr ⟨k, hk, List.getElem?_eq_getElem hlt⟩
    refine ⟨_, hv, ?_, ?_⟩
    · rw [hintLb, List.getElem?_map, hread hlb hj hv]
      rfl
    · rw [hintUb, List.getElem?_map, hread hub hj hv]
      rfl
  · rw [h.cost, Vec.at?_map hv]

/-- In index order the place of a variable is its index. -/
theorem byIndex (h : t.Lists vars) (horder : InOrder vars) : t.ByIndex vars := by
  have hat {v : Variable R} (hv : v ∈ vars) : Vec.at? vars v.index = some v := by
    obtain ⟨k, hk⟩ := List.mem_iff_getElem?.mp hv
    rw [index_of_getElem? horder hk, Vec.at?_natCast, hk]
  refine ⟨?_, ?_, fun v hv p hp => ?_, fun v hv => h.byPlace.cost _ _ (hat hv)⟩
  · rw [h.integers]
    exact horder.pairwise.sublist (List.filter_sublist.map _)
  · rw [h.others]
    exact horder.pairwise.sublist (List.filter_sublist.map _)
  · obtain ⟨u, hu, hbounds⟩ := h.byPlace.bounds p v.index hp
    cases hu.symm.trans (hat hv)
    exact hbounds

/-- Two lists of variables with one table have their indices in the same order. -/
theorem map_index_eq {ws : List (Variable R)} (h : t.Lists vars) (h' : t.Lists ws) :
    vars.map (·.index) = ws.map (·.index) :=
  MipPump.map_index_eq (h.kinds.symm.trans h'.kinds) (h.integers.symm.trans h'.integers)
    (h.others.symm.trans h'.others)

end Table.Lists

omit [Arith R] in
/-- What is known of an index is known in any order. -/
theorem Table.Numbers.of_perm {ws : List (Variable R)} (h : t.Numbers ws) (hperm : ws.Perm vars) :
    t.Numbers vars :=
  ⟨fun j => by simpa only [hperm.mem_iff] using h.integers j,
    fun j => by simpa only [hperm.mem_iff] using h.others j, h.position, h.elsewhere⟩

theorem Table.ByIndex.of_perm {ws : List (Variable R)} (h : t.ByIndex ws) (hperm : ws.Perm vars) :
    t.ByIndex vars :=
  ⟨h.integers, h.others, fun v hv => h.bounds v (hperm.mem_iff.mpr hv),
    fun v hv => h.cost v (hperm.mem_iff.mpr hv)⟩

/-- The tables of variables and of the same variables in index order agree only if the variables
stand in index order. -/
theorem tables_eq_iff (hi : Indexed vars) (h : Table.ofVariables vars = .ok t)
    (h' : Table.ofVariables (byIndex vars) = .ok t') : t = t' ↔ InOrder vars := by
  constructor
  · rintro rfl
    have hindices := (Table.lists_of_ofVariables h).map_index_eq (Table.lists_of_ofVariables h')
    have horder := inOrder_byIndex hi
    unfold InOrder NumberedFrom at horder ⊢
    rw [hindices, horder, (byIndex_perm vars).length_eq]
  · intro horder
    rw [byIndex_of_inOrder horder, h] at h'
    exact Except.ok.inj h'

end Tables

section Feasibility

variable {R : Type} [Arith R] {vars ws : List (Variable R)} {tol : R} {point : List R} {a b : Bool}

/-- Bounds and integrality are those of the variables, in whatever order they are looked at. -/
theorem allAdmit_perm (hperm : vars.Perm ws) (ha : allAdmit tol point vars = .ok a)
    (hb : allAdmit tol point ws = .ok b) : a = b := by
  have hanswer {us us' : List (Variable R)} (hperm : us.Perm us')
      (h : allAdmit tol point us = .ok true) : allAdmit tol point us' = .ok true :=
    allAdmit_of_admits fun v hv => allAdmit_eq_ok h v (hperm.mem_iff.mpr hv)
  cases a with
  | true => exact Except.ok.inj ((hanswer hperm ha).symm.trans hb)
  | false =>
      cases b with
      | true => exact Except.ok.inj (ha.symm.trans (hanswer hperm.symm hb))
      | false => rfl

/-- The order of the variables does not matter to the check of a point. -/
theorem Problem.feasibleAlike_of_perm {p q : Problem R} (hperm : p.vars.Perm q.vars)
    (hrows : p.rows = q.rows) (hrange : ∀ v ∈ p.vars, Vec.InRange p.vars.length v.index) :
    p.FeasibleAlike q := by
  refine ⟨fun tol point a b ha hb => ?_, fun tol point hlength hfinite => ?_⟩
  · obtain ⟨c, hc, ha⟩ := Act.exceptBind_eq_ok.mp ha
    obtain ⟨d, hd, hb⟩ := Act.exceptBind_eq_ok.mp hb
    rw [← allAdmit_perm hperm hc hd, ← hrows] at hb
    exact Except.ok.inj (ha.symm.trans hb)
  · have hindices (v : Variable R) (hv : v ∈ p.vars) : Vec.InRange point.length v.index :=
      (hrange v hv).mono hlength
    obtain ⟨c, hc⟩ : ∃ c, allAdmit tol point p.vars = .ok c := exists_allAdmit hindices hfinite
    obtain ⟨d, hd⟩ : ∃ d, allAdmit tol point q.vars = .ok d :=
      exists_allAdmit (fun v hv => hindices v (hperm.mem_iff.mpr hv)) hfinite
    unfold Problem.isFeasible
    rw [Act.exceptBind_of_ok hc, Act.exceptBind_of_ok hd, ← allAdmit_perm hperm hc hd, ← hrows]

end Feasibility

section Objectives

open ExtRat

variable {p q : Problem ExtRat}

/-- Two problems with as many finite costs have the same objective if and only if they have the same
costs in the same order.  The costs are told apart by moving one entry of a point by one. -/
theorem Problem.objective_eq_iff {costs costs' : List ℚ} {offset : ℚ}
    (hp : p.vars.map (·.cost) = costs.map fin) (hq : q.vars.map (·.cost) = costs'.map fin)
    (hlength : costs.length = costs'.length) (hoffset : p.offset = fin offset)
    (hoffset' : q.offset = p.offset) :
    (∀ point, p.objective point = q.objective point) ↔ costs = costs' := by
  constructor
  · intro h
    have hdot (x : List ℚ) (hx : x.length = costs.length) : dotRat costs x = dotRat costs' x := by
      have hx' := h (x.map fin)
      unfold Problem.objective at hx'
      rw [hp, hq, dot_map_fin _ _ hx.symm, dot_map_fin _ _ (hlength ▸ hx.symm), hoffset',
        hoffset] at hx'
      simpa [Except.map] using hx'
    refine List.ext_getElem hlength fun j hj hj' => ?_
    let x : List ℚ := List.replicate costs.length 0
    have hmoved := hdot (x.modify j (· + 1)) (by simp [x])
    rw [dotRat_modify (List.getElem?_eq_getElem hj) (by simp [x]),
      dotRat_modify (List.getElem?_eq_getElem hj') (by simp [x, hlength]),
      hdot x (by simp [x])] at hmoved
    simpa using hmoved
  · rintro rfl point
    unfold Problem.objective
    rw [hp, hq, hoffset']

end Objectives

section Result

open ExtRat

/-- Let the indices of the variables of `p` be their numbers in some order.  There is a table for
the given order and one for the index order, and both know the indices and positions.  The table of
the index order has the bounds and costs of the variable with an index, the other one those of the
variable that is listed at the place of the index; they are one table if and only if the variables
stand in index order.  The check of a point does not depend on the order.  For a problem `q` in
exact arithmetic the objective is the same for all points if and only if the costs are the same in
both orders. -/
theorem listing_order_matters_iff {R : Type} [Arith R] (p : Problem R) (q : Problem ExtRat)
    (hp : Indexed p.vars) (hshort : p.vars.length ≤ Power.two 63)
    (hcosts : ∀ v ∈ q.vars, ∃ c : ℚ, v.cost = fin c) (hoffset : ∃ c : ℚ, q.offset = fin c) :
    (∃ t t' : Table R, Table.ofVariables p.vars = .ok t ∧
      Table.ofVariables p.byIndex.vars = .ok t' ∧
      (t.Numbers p.vars ∧ t.ByPlace p.vars) ∧ (t'.Numbers p.vars ∧ t'.ByIndex p.vars) ∧
      (t = t' ↔ InOrder p.vars)) ∧
    p.FeasibleAlike p.byIndex ∧
    ((∀ point, q.objective point = q.byIndex.objective point) ↔
      q.vars.map (·.cost) = q.byIndex.vars.map (·.cost)) := by
  refine ⟨?_, Problem.feasibleAlike_of_perm (byIndex_perm p.vars).symm rfl hp.inRange, ?_⟩
  · have hperm := byIndex_perm p.vars
    obtain ⟨t, ht⟩ := Table.exists_ofVariables hp.inRange hshort
    obtain ⟨t', ht'⟩ := Table.exists_ofVariables hp.byIndex.inRange (hperm.length_eq ▸ hshort)
    have hlists := Table.lists_of_ofVariables ht
    have hlists' := Table.lists_of_ofVariables ht'
    exact ⟨t, t', ht, ht', ⟨hlists.numbers hp, hlists.byPlace⟩,
      ⟨(hlists'.numbers hp.byIndex).of_perm hperm,
        (hlists'.byIndex (inOrder_byIndex hp)).of_perm hperm⟩, tables_eq_iff hp ht ht'⟩
  · obtain ⟨offset, hoffset⟩ := hoffset
    have hfinite {vars : List (Variable ExtRat)} (h : ∀ v ∈ vars, ∃ c : ℚ, v.cost = fin c) :
        ∃ costs : List ℚ, vars.map (·.cost) = costs.map fin :=
      exists_map_fin (by simpa using h)
    obtain ⟨costs, hvars⟩ := hfinite hcosts
    obtain ⟨costs', hvars'⟩ : ∃ costs' : List ℚ, q.byIndex.vars.map (·.cost) = costs'.map fin :=
      hfinite fun v hv => hcosts v ((byIndex_perm q.vars).mem_iff.mp hv)
    have hlength : costs.length = costs'.length := by
      have hcount := congrArg List.length hvars
      have hcount' := congrArg List.length hvars'
      rw [List.length_map, List.length_map] at hcount hcount'
      rw [← hcount, ← hcount']
      exact (byIndex_perm q.vars).symm.length_eq
    rw [Problem.objective_eq_iff hvars hvars' hlength hoffset rfl, hvars, hvars']
    exact (List.map_injective_iff.mpr fun _ _ => fin.inj).eq_iff.symm

/-- Two integer variables, of which the one with the greater index is listed first. -/
def swapped : Problem ExtRat :=
  { vars :=
      [ { index := 1, lb := 0, ub := 5, kind := .integer, cost := 1 }
      , { index := 0, lb := 2, ub := 3, kind := .integer, cost := 3 } ]
    rows := { coefficients := [], senses := [], rhs := [] }
    offset := 0 }

theorem vars_byIndex_swapped : swapped.byIndex.vars = swapped.vars.reverse := by
  simp [Problem.byIndex, byIndex, swapped, List.mergeSort, List.MergeSort.Internal.splitInTwo]

/-- Two variables in the other order have another table and another objective, but the same feasible
points. -/
theorem swapped_listing_feasible_alike :
    (∃ t t', Table.ofVariables swapped.vars = .ok t ∧
      Table.ofVariables swapped.byIndex.vars = .ok t' ∧ t'.ByIndex swapped.vars ∧ t ≠ t') ∧
      swapped.FeasibleAlike swapped.byIndex ∧
      ¬ ∀ point, swapped.objective point = swapped.byIndex.objective point := by
  have hi : Indexed swapped.vars := List.Perm.swap 0 1 []
  have horder : ¬ InOrder swapped.vars := by
    unfold InOrder NumberedFrom
    decide
  have hcosts : ∀ v ∈ swapped.vars, ∃ c : ℚ, v.cost = fin c := by
    intro v hv
    rcases List.mem_pair.mp hv with rfl | rfl
    · exact ⟨1, rfl⟩
    · exact ⟨3, rfl⟩
  obtain ⟨⟨t, t', ht, ht', -, ⟨-, hindex⟩, hiff⟩, hfeasible, hobjective⟩ :=
    listing_order_matters_iff swapped swapped hi (by decide) hcosts ⟨0, rfl⟩
  refine ⟨⟨t, t', ht, ht', hindex, fun heq => horder (hiff.mp heq)⟩, hfeasible, ?_⟩
  rw [hobjective, vars_byIndex_swapped]
  decide

/-- The integer variable that is listed first has the index 1, but the bounds that the table has for
it are those of the variable with the index 0, and the objective takes the costs in the order of the
list. -/
theorem swapped_listing_differs :
    (∃ t : Table ExtRat, Table.ofVariables swapped.vars = .ok t ∧ t.integers = [1, 0] ∧
      t.intLb = [2, 0]) ∧
    (∃ t : Table ExtRat, Table.ofVariables swapped.byIndex.vars = .ok t ∧ t.integers = [0, 1] ∧
      t.intLb = [2, 0]) ∧
    swapped.objective [1, 0] = .ok 1 ∧ swapped.byIndex.objective [1, 0] = .ok 3 := by
  have hsorted : swapped.byIndex = { swapped with vars := swapped.vars.reverse } := by
    rw [← vars_byIndex_swapped]
    rfl
  have htable : (Table.ofVariables swapped.vars).toOption.map
      (fun t => (t.integers, t.intLb)) = some ([1, 0], [2, 0]) := by decide +kernel
  have htable' : (Table.ofVariables swapped.vars.reverse).toOption.map
      (fun t => (t.integers, t.intLb)) = some ([0, 1], [2, 0]) := by decide +kernel
  obtain ⟨t, ht, hview⟩ := Act.exists_ok_of_map htable
  obtain ⟨t', ht', hview'⟩ := Act.exists_ok_of_map htable'
  rw [hsorted]
  refine ⟨⟨t, ht, Prod.mk.inj hview⟩, ⟨t', ht', Prod.mk.inj hview'⟩, ?_, ?_⟩
  · show Except.ok (fin (0 + 1 * 1 + 3 * 0 + 0)) = .ok (fin 1)
    norm_num
  · show Except.ok (fin (0 + 3 * 1 + 1 * 0 + 0)) = .ok (fin 3)
    norm_num

end Result

end MipPump
