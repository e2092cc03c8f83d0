import MipPump.Table
import MipPump.Proofs.Vectors

/-!
# Tables of variables

What the table of a list of variables holds, and what it means to read and to write the entries of
the integer variables.  The index arithmetic of tables is needed here only: if the variables are
listed in index order, then

* `pick_integers`: to pick the integer variables of a vector is to filter it along the variables;
* `placeAll_integers`: to write at integer variables is to walk along the variables.
-/

namespace MipPump

variable {R : Type} [Arith R]

/-- The table `t` is that of the variables `vars`. -/
structure Table.Lists (vars : List (Variable R)) (t : Table R) : Prop where
  lb : t.lb = vars.map (·.lb)
  ub : t.ub = vars.map (·.ub)
  cost : t.cost = vars.map (·.cost)
  kinds : t.kinds = vars.map (·.kind)
  integers : t.integers = (vars.filter (·.kind.isIntegral)).map (·.index)
  others : t.others = (vars.filter (!·.kind.isIntegral)).map (·.index)
  words : ((t.integers ++ t.others).forM requireWord : Except (Fault R) Unit) = .ok ()
  intLb : ∃ lb, (Vec.pick t.lb t.integers : Except (Fault R) (List R)) = .ok lb ∧
    t.intLb = lb.map integralLower
  intUb : ∃ ub, (Vec.pick t.ub t.integers : Except (Fault R) (List R)) = .ok ub ∧
    t.intUb = ub.map integralUpper
  position : (Vec.placeAll (List.replicate vars.length (-1))
    (t.integers.zipIdx.map fun (j, p) => (j, (p : Int))) : Except (Fault R) (List Int)) =
      .ok t.position

theorem Table.lists_of_ofVariables {vars : List (Variable R)} {t : Table R}
    (h : ofVariables vars = .ok t) : t.Lists vars := by
  unfold ofVariables at h
  obtain ⟨_, hwords, h⟩ := Act.exceptBind_eq_ok.mp h
  obtain ⟨intLb, hlb, h⟩ := Act.exceptBind_eq_ok.mp h
  obtain ⟨intUb, hub, h⟩ := Act.exceptBind_eq_ok.mp h
  obtain ⟨position, hposition, h⟩ := Act.exceptBind_eq_ok.mp h
  cases h
  exact ⟨rfl, rfl, rfl, rfl, rfl, rfl, hwords, ⟨intLb, hlb, rfl⟩, ⟨intUb, hub, rfl⟩, hposition⟩

section Walks

variable {R α β : Type}

/-- The entries of a vector that belong to integer variables. -/
def chosen : List (Variable R) → List α → List α
  | v :: vars, x :: xs => if v.kind.isIntegral then x :: chosen vars xs else chosen vars xs
  | _, _ => []

/-- A vector with entries of integer variables replaced where a new entry is given. -/
def updated : List (Variable R) → List (Option α) → List α → List α
  | v :: vars, news, x :: xs =>
      if v.kind.isIntegral then
        match news with
        | new :: news => new.getD x :: updated vars news xs
        | [] => x :: updated vars [] xs
      else x :: updated vars news xs
  | _, _, xs => xs

theorem chosen_cons (v : Variable R) (vars : List (Variable R)) (x : α) (xs : List α) :
    chosen (v :: vars) (x :: xs) =
      if v.kind.isIntegral then x :: chosen vars xs else chosen vars xs := rfl

theorem length_updated (vars : List (Variable R)) (news : List (Option α)) (xs : List α) :
    (updated vars news xs).length = xs.length := by
  induction vars generalizing news xs with
  | nil => rfl
  | cons v vars ih =>
      cases xs with
      | nil => rfl
      | cons x xs =>
          unfold updated
          split
          · cases news <;> simp [ih]
          · simp [ih]

theorem chosen_map (f : α → β) (vars : List (Variable R)) (xs : List α) :
    chosen vars (xs.map f) = (chosen vars xs).map f := by
  induction vars generalizing xs with
  | nil => rfl
  | cons v vars ih =>
      cases xs with
      | nil => rfl
      | cons x xs =>
          rw [List.map_cons, chosen_cons, chosen_cons, ih]
          split
          · rfl
          · rfl

theorem chosen_of_map (f : Variable R → α) (vars : List (Variable R)) :
    chosen vars (vars.map f) = (vars.filter (·.kind.isIntegral)).map f := by
  induction vars with
  | nil => rfl
  | cons v vars ih =>
      unfold chosen
      by_cases h : v.kind.isIntegral
      · simp [h, ih]
      · simp [h, ih]

/-- If all variables are integer, all entries are chosen. -/
theorem chosen_of_all {vars : List (Variable R)} {xs : List α} (h : xs.length = vars.length)
    (hints : ∀ v ∈ vars, v.kind.isIntegral = true) : chosen vars xs = xs := by
  induction vars generalizing xs with
  | nil => exact (List.length_eq_zero_iff.mp h).symm
  | cons v vars ih =>
      obtain ⟨hv, hints⟩ := List.forall_mem_cons.mp hints
      cases xs with
      | nil => cases h
      | cons x xs => rw [chosen_cons, if_pos hv, ih (by simpa using h) hints]

theorem length_chosen {vars : List (Variable R)} {xs : List α} (h : xs.length = vars.length) :
    (chosen vars xs).length = (vars.filter (·.kind.isIntegral)).length := by
  induction vars generalizing xs with
  | nil => rfl
  | cons v vars ih =>
      cases xs with
      | nil => cases h
      | cons x xs =>
          have hlen : xs.length = vars.length := by simpa using h
          unfold chosen
          by_cases hv : v.kind.isIntegral
          · simp [hv, ih hlen]
          · simp [hv, ih hlen]

/-- What was written is read back. -/
theorem chosen_updated {vars : List (Variable R)} {values xs : List α}
    (hxs : xs.length = vars.length)
    (hvalues : values.length = (vars.filter (·.kind.isIntegral)).length) :
    chosen vars (updated vars (values.map some) xs) = values := by
  induction vars generalizing values xs with
  | nil =>
      rw [List.filter_nil, List.length_nil, List.length_eq_zero_iff] at hvalues
      rw [hvalues]
      rfl
  | cons v vars ih =>
      cases xs with
      | nil => cases hxs
      | cons x xs =>
          have hlen : xs.length = vars.length := by simpa using hxs
          by_cases hv : v.kind.isIntegral
          · cases values with
            | nil => simp [hv] at hvalues
            | cons y values =>
                have hrest : values.length =
                    (vars.filter (·.kind.isIntegral)).length := by simpa [hv] using hvalues
                simp [updated, chosen, hv, ih hlen hrest]
          · have hrest : values.length =
                (vars.filter (·.kind.isIntegral)).length := by simpa [hv] using hvalues
            simp [updated, chosen, hv, ih hlen hrest]

/-- To write what is there changes nothing. -/
theorem updated_chosen (vars : List (Variable R)) (xs : List α) :
    updated vars ((chosen vars xs).map some) xs = xs := by
  induction vars generalizing xs with
  | nil => rfl
  | cons v vars ih =>
      cases xs with
      | nil => rfl
      | cons x xs =>
          by_cases hv : v.kind.isIntegral
          · simp [updated, chosen, hv, ih]
          · simp [updated, chosen, hv, ih]

/-- Integer variables go with the chosen entries. -/
theorem zip_chosen (vars : List (Variable R)) (xs : List α) :
    (vars.zip xs).filter (·.1.kind.isIntegral) =
      (vars.filter (·.kind.isIntegral)).zip (chosen vars xs) := by
  induction vars generalizing xs with
  | nil => rfl
  | cons v vars ih =>
      cases xs with
      | nil => simp [chosen]
      | cons x xs =>
          by_cases hv : v.kind.isIntegral
          · simp [chosen, hv, ih]
          · simp [chosen, hv, ih]

/-- Other variables keep their entries. -/
theorem mem_zip_of_mem_zip_updated {vars : List (Variable R)} {news : List (Option α)}
    {xs : List α} {v : Variable R} {x : α} (h : (v, x) ∈ vars.zip (updated vars news xs))
    (hv : v.kind.isIntegral = false) : (v, x) ∈ vars.zip xs := by
  induction vars generalizing news xs with
  | nil => cases h
  | cons u vars ih =>
      cases xs with
      | nil => simp [updated] at h
      | cons y xs =>
          by_cases hu : u.kind.isIntegral
          · cases news with
            | nil =>
                simp only [updated, hu, if_true, List.zip_cons_cons, List.mem_cons,
                  Prod.mk.injEq] at h ⊢
                exact h.imp_right ih
            | cons new news =>
                simp only [updated, hu, if_true, List.zip_cons_cons, List.mem_cons,
                  Prod.mk.injEq] at h ⊢
                rcases h with ⟨rfl, -⟩ | h
                · rw [hu] at hv
                  cases hv
                · exact Or.inr (ih h)
          · simp only [updated, hu, if_false, Bool.false_eq_true, List.zip_cons_cons,
              List.mem_cons, Prod.mk.injEq] at h ⊢
            exact h.imp_right ih

end Walks

section Orders

variable {R α : Type}

/-- The variables are listed in index order, from `m` on. -/
def NumberedFrom (m : Nat) (vars : List (Variable R)) : Prop :=
  vars.map (·.index) = (List.range' m vars.length).map fun n : Nat => (n : Int)

theorem numberedFrom_cons {m : Nat} {v : Variable R} {vars : List (Variable R)} :
    NumberedFrom m (v :: vars) ↔ v.index = m ∧ NumberedFrom (m + 1) vars := by
  unfold NumberedFrom
  rw [List.map_cons, List.length_cons, List.range'_succ, List.map_cons, List.cons.injEq]

/-- Indices of the integer variables. -/
def integerIndices (vars : List (Variable R)) : List Int :=
  (vars.filter (·.kind.isIntegral)).map (·.index)

theorem integerIndices_cons (v : Variable R) (vars : List (Variable R)) :
    integerIndices (v :: vars) =
      if v.kind.isIntegral then v.index :: integerIndices vars else integerIndices vars := by
  unfold integerIndices
  by_cases h : v.kind.isIntegral
  · simp [h]
  · simp [h]

theorem at?_of_mem_zip_after {vars : List (Variable R)} {m : Nat} (h : NumberedFrom m vars)
    (before : List α) {xs : List α} (hm : before.length = m) {v : Variable R} {x : α}
    (hmem : (v, x) ∈ vars.zip xs) : Vec.at? (before ++ xs) v.index = some x := by
  induction vars generalizing m before xs with
  | nil => cases hmem
  | cons u vars ih =>
      obtain ⟨hu, hvars⟩ := numberedFrom_cons.mp h
      cases xs with
      | nil => simp at hmem
      | cons y xs =>
          rw [List.zip_cons_cons, List.mem_cons] at hmem
          rcases hmem with heq | hmem
          · cases heq
            rw [hu, ← hm, Vec.at?_natCast]
            simp
          · have hlen : (before ++ [y]).length = m + 1 := by simp [hm]
            have hrest := ih hvars (before ++ [y]) hlen hmem
            rwa [List.append_assoc] at hrest

theorem pick_integers_after {vars : List (Variable R)} {m : Nat} (h : NumberedFrom m vars)
    (before : List α) {xs : List α} (hm : before.length = m) (hlen : xs.length = vars.length) :
    (Vec.pick (before ++ xs) (integerIndices vars) : Except (Fault R) (List α)) =
      .ok (chosen vars xs) := by
  rw [Vec.pick_eq_ok]
  induction vars generalizing m before xs with
  | nil => exact .nil
  | cons v vars ih =>
      obtain ⟨hv, hvars⟩ := numberedFrom_cons.mp h
      cases xs with
      | nil => cases hlen
      | cons x xs =>
          have hlen' : (before ++ [x]).length = m + 1 := by simp [hm]
          have hrest := ih hvars (before ++ [x]) hlen' (by simpa using hlen)
          rw [List.append_assoc, List.singleton_append] at hrest
          rw [integerIndices_cons]
          unfold chosen
          split
          · refine .cons ?_ hrest
            rw [hv, ← hm, Vec.at?_natCast]
            simp
          · exact hrest

/-- The writes of new entries at the integer variables. -/
def writesOf (indices : List Int) (news : List (Option α)) : List (Int × α) :=
  (indices.zip news).filterMap fun (i, new) => new.map (i, ·)

theorem placeAll_integers_after {vars : List (Variable R)} {m : Nat} (h : NumberedFrom m vars)
    (news : List (Option α)) (before : List α) {xs : List α} (hm : before.length = m)
    (hlen : xs.length = vars.length) :
    (Vec.placeAll (before ++ xs) (writesOf (integerIndices vars) news) :
      Except (Fault R) (List α)) = .ok (before ++ updated vars news xs) := by
  induction vars generalizing m news before xs with
  | nil =>
      cases xs with
      | nil => rfl
      | cons x xs => cases hlen
  | cons v vars ih =>
      obtain ⟨hv, hvars⟩ := numberedFrom_cons.mp h
      cases xs with
      | nil => cases hlen
      | cons x xs =>
          have hlen' : xs.length = vars.length := by simpa using hlen
          have hstep (y : α) (news : List (Option α)) :=
            ih hvars news (before ++ [y]) (by simp [hm]) hlen'
          simp only [List.append_assoc, List.singleton_append] at hstep
          rw [integerIndices_cons]
          unfold updated
          by_cases hint : v.kind.isIntegral
          · rw [if_pos hint, if_pos hint]
            cases news with
            | nil =>
                have hnil : writesOf (α := α) (integerIndices vars) [] = [] := by simp [writesOf]
                have hrest := hstep x []
                rw [hnil] at hrest
                simpa [writesOf] using hrest
            | cons new news =>
                cases new with
                | none => simpa [writesOf] using hstep x news
                | some y =>
                    have hwrite : Vec.setAt? (before ++ x :: xs) v.index y =
                        some (before ++ y :: xs) := by
                      rw [hv, ← hm]
                      exact Vec.setAt?_append before x y xs
                    have hcons : writesOf (v.index :: integerIndices vars) (some y :: news) =
                        (v.index, y) :: writesOf (integerIndices vars) news := by
                      simp [writesOf]
                    rw [hcons, Vec.placeAll_cons_of_set hwrite]
                    exact hstep y news
          · rw [if_neg hint, if_neg hint]
            exact hstep x news

/-- The variables are listed in index order. -/
def InOrder (vars : List (Variable R)) : Prop := NumberedFrom 0 vars

variable {vars : List (Variable R)} {xs : List α}

/-- A variable has its place for its index. -/
theorem index_of_getElem? (h : InOrder vars) {k : Nat} {v : Variable R} (hv : vars[k]? = some v) :
    v.index = k := by
  obtain ⟨hlt, rfl⟩ := List.getElem?_eq_some_iff.mp hv
  have hindex : (vars.map (·.index))[k]? = some vars[k].index := by
    rw [List.getElem?_map, hv]
    rfl
  rw [h, List.getElem?_map, List.getElem?_range' hlt] at hindex
  simpa using hindex.symm

/-- A variable addresses its own entry. -/
theorem at?_of_mem_zip (h : InOrder vars) {v : Variable R} {x : α} (hmem : (v, x) ∈ vars.zip xs) :
    Vec.at? xs v.index = some x := at?_of_mem_zip_after h [] rfl hmem

/-- To pick the integer variables is to choose along the variables. -/
theorem pick_integers (h : InOrder vars) (hlen : xs.length = vars.length) :
    (Vec.pick xs (integerIndices vars) : Except (Fault R) (List α)) = .ok (chosen vars xs) :=
  pick_integers_after h [] rfl hlen

/-- To write at integer variables is to walk along the variables. -/
theorem placeAll_integers (h : InOrder vars) (news : List (Option α))
    (hlen : xs.length = vars.length) :
    (Vec.placeAll xs (writesOf (integerIndices vars) news) : Except (Fault R) (List α)) =
      .ok (updated vars news xs) := placeAll_integers_after h news [] rfl hlen

end Orders

section OrderedTables

variable {R : Type} [Arith R] {vars : List (Variable R)} {t : Table R}

/-- The indices of the integer variables are different numbers that are not negative. -/
structure Table.Distinct (t : Table R) : Prop where
  nodup : t.integers.Nodup
  nonneg : ∀ j ∈ t.integers, 0 ≤ j

namespace Table.Lists

theorem numVars_eq (h : t.Lists vars) : t.numVars = vars.length := by
  rw [numVars, h.lb, List.length_map]

theorem numIntegers_eq (h : t.Lists vars) :
    t.numIntegers = (vars.filter (·.kind.isIntegral)).length := by
  rw [numIntegers, h.integers, List.length_map]

theorem integerValues_eq (h : t.Lists vars) (horder : InOrder vars) {point : List R}
    (hlen : point.length = vars.length) : t.integerValues point = .ok (chosen vars point) := by
  unfold integerValues
  rw [h.integers]
  exact pick_integers horder hlen

theorem intLb_eq (h : t.Lists vars) (horder : InOrder vars) :
    t.intLb = (vars.filter (·.kind.isIntegral)).map fun v => integralLower v.lb := by
  obtain ⟨lb, hpick, hlb⟩ := h.intLb
  rw [h.lb, h.integers] at hpick
  have hchosen := pick_integers horder (show (vars.map (·.lb)).length = _ from List.length_map _)
  rw [integerIndices] at hchosen
  rw [hchosen, chosen_of_map] at hpick
  cases hpick
  rw [hlb, List.map_map]
  rfl

theorem intUb_eq (h : t.Lists vars) (horder : InOrder vars) :
    t.intUb = (vars.filter (·.kind.isIntegral)).map fun v => integralUpper v.ub := by
  obtain ⟨ub, hpick, hub⟩ := h.intUb
  rw [h.ub, h.integers] at hpick
  have hchosen := pick_integers horder (show (vars.map (·.ub)).length = _ from List.length_map _)
  rw [integerIndices] at hchosen
  rw [hchosen, chosen_of_map] at hpick
  cases hpick
  rw [hub, List.map_map]
  rfl

/-- The writes of values at all integer variables. -/
theorem zip_integers (h : t.Lists vars) {α : Type} (values : List α) :
    t.integers.zip values = writesOf (integerIndices vars) (values.map some) := by
  rw [h.integers, writesOf, List.zip_map_right, List.filterMap_map]
  exact (List.filterMap_some).symm

/-- Variables in index order have different indices. -/
theorem distinct (h : t.Lists vars) (horder : InOrder vars) : t.Distinct := by
  have hsub : t.integers.Sublist ((List.range' 0 vars.length).map fun n : Nat => (n : Int)) := by
    rw [h.integers, ← horder]
    exact List.filter_sublist.map _
  refine ⟨hsub.nodup ((List.nodup_range' 1).map fun _ _ => Int.ofNat.inj), fun j hj => ?_⟩
  obtain ⟨n, -, rfl⟩ := List.mem_map.mp (hsub.subset hj)
  exact Int.natCast_nonneg n

/-- An integer variable knows its place among the integer variables. -/
theorem at?_position (h : t.Lists vars) (hd : t.Distinct) {k : Nat} {j : Int}
    (hj : t.integers[k]? = some j) : Vec.at? t.position j = some (k : Int) := by
  have hindices : (t.integers.zipIdx.map fun (j, p) => (j, (p : Int))).map (·.1) = t.integers := by
    rw [List.map_map]
    exact List.zipIdx_map_fst 0 t.integers
  exact Vec.at?_placeAll h.position (hindices.symm ▸ hd.nodup)
    (fun w hw => hd.nonneg _ (hindices ▸ List.mem_map_of_mem hw))
    (List.mem_map.mpr ⟨(j, k), List.mk_mem_zipIdx_iff_getElem?.mpr hj, rfl⟩)

/-- The place of an integer variable holds its value. -/
theorem exists_place (h : t.Lists vars) (horder : InOrder vars) {α : Type} {xs : List α}
    (hlen : xs.length = vars.length) {j : Int} (hj : j ∈ t.integers) :
    ∃ (p : Nat) (x : α), Vec.at? t.position j = some p ∧ (chosen vars xs)[p]? = some x ∧
      Vec.at? xs j = some x := by
  have hvalues := pick_integers (R := R) horder hlen
  rw [integerIndices, ← h.integers, Vec.pick_eq_ok] at hvalues
  obtain ⟨p, hp⟩ := List.mem_iff_getElem?.mp hj
  obtain ⟨x, hx, hat⟩ := Vec.forall₂_getElem? hvalues hp
  exact ⟨p, x, h.at?_position (h.distinct horder) hp, hx, hat⟩

/-- The values of a candidate take the places of the integer variables. -/
theorem place_eq (h : t.Lists vars) (horder : InOrder vars) {α : Type} {point values : List α}
    (hlen : point.length = vars.length) (hvalues : values.length = t.numIntegers) :
    (Vec.place point t.integers values : Except (Fault R) (List α)) =
      .ok (updated vars (values.map some) point) := by
  rw [Vec.place_of_length hvalues, h.zip_integers]
  exact placeAll_integers horder _ hlen

end Table.Lists

end OrderedTables

end MipPump
