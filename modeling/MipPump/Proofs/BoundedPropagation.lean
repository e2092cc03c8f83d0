import MipPump.Proofs.CoherentProblems
import MipPump.Proofs.QueueWork

/-!
# Propagation in proper boxes

A box is proper for a list of variables if its bounds are in order and inside those of the variables.
Whatever rows are propagated in a proper box, it stays proper, or the propagation stops because a
domain is empty; nothing else can happen.  This needs no point that satisfies the rows.

* `Box.Proper vars b`: the box `b` is proper for `vars`.
* `tries_lowerUpper`, `tries_raiseLower`: a new bound that crosses the opposite one is moved onto it.
* `tries_propagate`: the propagation of a row, by induction on its terms.
* `exists_build`, `works_of_build`: rows in shape have a propagator, and it works in proper boxes.
-/

namespace MipPump

open ExtRat

section Meaning

/-- The fault that propagation stops with: a domain is empty. -/
def Fault.Emptied {R : Type} (e : Fault R) : Prop := ∃ j lb ub, e = .emptiedDomain j lb ub

/-- The bounds are in order and inside those of the variables. -/
structure Box.Proper (vars : List (Variable ExtRat)) (b : Box ExtRat) : Prop where
  within : b.Within vars
  ordered : b.Ordered

end Meaning

section Boxes

variable {vars : List (Variable ExtRat)} {b : Box ExtRat} {k : Nat} {v : Variable ExtRat}
  {l u : ExtRat}

/-- The bounds of the variables themselves are proper. -/
theorem Box.proper_own (h : ∀ v ∈ vars, v.lb ≤ v.ub) :
    Box.Proper vars ⟨vars.map (·.lb), vars.map (·.ub)⟩ where
  within :=
    ⟨List.forall₂_map_right_iff.mpr (List.forall₂_same.mpr fun v hv =>
      ExtRat.le_refl (ne_nan_of_le (h v hv)).1),
     List.forall₂_map_right_iff.mpr (List.forall₂_same.mpr fun v hv =>
      ExtRat.le_refl (ne_nan_of_le (h v hv)).2)⟩
  ordered := List.forall₂_map_left_iff.mpr (List.forall₂_map_right_iff.mpr
    (List.forall₂_same.mpr fun v hv =>
      (not_lt_iff (ne_nan_of_le (h v hv)).2 (ne_nan_of_le (h v hv)).1).mpr (h v hv)))

/-- The bounds of a variable can be read, and are in order inside its own. -/
theorem Box.Proper.bounds (h : b.Proper vars) (hshort : vars.length ≤ Power.two 63)
    (hv : vars[k]? = some v) :
    ∃ l u, b.bounds k = .ok (l, u) ∧ b.lb[k]? = some l ∧ b.ub[k]? = some u ∧
      v.lb ≤ l ∧ l ≤ u ∧ u ≤ v.ub := by
  obtain ⟨l, hl, hlower⟩ := Vec.forall₂_getElem? h.within.lower hv
  obtain ⟨u, hu, hupper⟩ := Vec.forall₂_getElem? h.within.upper hv
  obtain ⟨u', hu', horder⟩ := Vec.forall₂_getElem? h.ordered hl
  obtain rfl := Option.some.inj (hu.symm.trans hu')
  have hk : Vec.InRange vars.length (k : Int) :=
    ⟨k, rfl, (List.getElem?_eq_some_iff.mp hv).1⟩
  have hbounds : b.bounds k = .ok (l, u) := Box.bounds_eq_ok.mpr
    ⟨requireIndex_of_inRange hk hshort, Vec.at?_of_getElem? hl, Vec.at?_of_getElem? hu⟩
  exact ⟨l, u, hbounds, hl, hu, hlower,
    (not_lt_iff (ne_nan_of_le hupper).1 (ne_nan_of_le hlower).2).mp horder, hupper⟩

/-- Bounds in order inside those of the variable can be set. -/
theorem Box.Proper.set (h : b.Proper vars) (hshort : vars.length ≤ Power.two 63)
    (hv : vars[k]? = some v) (hl : v.lb ≤ l) (hlu : l ≤ u) (hu : u ≤ v.ub) :
    ∃ b', b.set k l u = .ok b' ∧ b'.Proper vars := by
  have hlt : k < vars.length := (List.getElem?_eq_some_iff.mp hv).1
  have hlb : k < b.lb.length := h.within.lower.length_eq ▸ hlt
  have hub : k < b.ub.length := h.within.upper.length_eq ▸ hlt
  have horder : ¬ u < l := (not_lt_iff (ne_nan_of_le hlu).2 (ne_nan_of_le hlu).1).mpr hlu
  refine ⟨⟨b.lb.set k l, b.ub.set k u⟩, Box.set_eq_ok.mpr
    ⟨requireIndex_of_inRange ⟨k, rfl, hlt⟩ hshort, ?_, ?_⟩, ⟨?_, ?_⟩, ?_⟩
  · exact Vec.setAt?_eq_some.mpr ⟨k, Vec.position?_natCast hlb, rfl⟩
  · exact Vec.setAt?_eq_some.mpr ⟨k, Vec.position?_natCast hub, rfl⟩
  · exact Vec.forall₂_set_right h.within.lower hv hl
  · exact Vec.forall₂_set_right h.within.upper hv hu
  · exact Vec.forall₂_set horder k h.ordered

theorem Box.Proper.setUpper (h : b.Proper vars) (hv : vars[k]? = some v) (hl : b.lb[k]? = some l)
    (hlu : l ≤ u) (hu : u ≤ v.ub) : Box.Proper vars { b with ub := b.ub.set k u } where
  within := ⟨h.within.lower, Vec.forall₂_set_right h.within.upper hv hu⟩
  ordered := Vec.forall₂_set_right h.ordered hl
    ((not_lt_iff (ne_nan_of_le hlu).2 (ne_nan_of_le hlu).1).mpr hlu)

theorem Box.Proper.setLower (h : b.Proper vars) (hv : vars[k]? = some v) (hu : b.ub[k]? = some u)
    (hl : v.lb ≤ l) (hlu : l ≤ u) : Box.Proper vars { b with lb := b.lb.set k l } where
  within := ⟨Vec.forall₂_set_right h.within.lower hv hl, h.within.upper⟩
  ordered := Vec.forall₂_set_left h.ordered hu
    ((not_lt_iff (ne_nan_of_le hlu).2 (ne_nan_of_le hlu).1).mpr hlu)

end Boxes

namespace Propagation

variable {vars : List (Variable ExtRat)} {limits : Limits ExtRat}

/-- The limits of a propagation of `n` variables, with tolerances that are not negative. -/
structure Limits.Ready (n : Nat) (limits : Limits ExtRat) : Prop where
  integral : limits.integral.length = n
  tol : ∃ e : ℚ, limits.tol = fin e ∧ 0 ≤ e
  epsilon : ∃ e : ℚ, limits.epsilon = fin e ∧ 0 ≤ e

section Tightenings

variable {k : Nat} {isIntegral : Bool} {bound : ExtRat}

theorem Limits.Ready.margin {n : Nat} (h : limits.Ready n) (isIntegral : Bool) :
    ∃ m : ℚ, limits.margin isIntegral = fin m ∧ 0 ≤ m := by
  obtain ⟨e, he, hpos⟩ := h.tol
  obtain ⟨d, hd, -⟩ := h.epsilon
  unfold Limits.margin
  rw [he, hd]
  cases isIntegral with
  | true => exact ⟨max e 0, by simp, le_max_of_le_left hpos⟩
  | false => exact ⟨max e d, by simp, le_max_of_le_left hpos⟩

theorem le_of_lt_sub {x u : ExtRat} {m : ℚ} (hm : 0 ≤ m) (h : x < u - fin m) : x ≤ u := by
  cases u with
  | fin u' =>
      cases x with
      | fin x' =>
          rw [fin_sub, fin_lt_fin] at h
          exact (fin_le_fin _ _).mpr (by linarith)
      | negInf => exact negInf_le_iff.mpr (fin_ne_nan _)
      | posInf => exact absurd h not_posInf_lt
      | nan => exact absurd h not_nan_lt
  | posInf =>
      refine le_posInf_iff.mpr ?_
      rintro rfl
      exact not_nan_lt h
  | negInf => exact absurd h (not_lt_negInf_sub _ _)
  | nan => exact absurd h not_lt_nan

theorem le_of_add_lt {x l : ExtRat} {m : ℚ} (hm : 0 ≤ m) (h : l + fin m < x) : l ≤ x := by
  cases l with
  | fin l' =>
      cases x with
      | fin x' =>
          rw [fin_add, fin_lt_fin] at h
          exact (fin_le_fin _ _).mpr (by linarith)
      | posInf => exact le_posInf_iff.mpr (fin_ne_nan _)
      | negInf => exact absurd h not_lt_negInf
      | nan => exact absurd h not_lt_nan
  | negInf =>
      refine negInf_le_iff.mpr ?_
      rintro rfl
      exact not_lt_nan h
  | posInf => exact absurd h (not_posInf_add_lt _ _)
  | nan => exact absurd h not_nan_lt

/-- An upper bound that is lowered stays above the lower bound, or the domain is empty. -/
theorem tries_lowerUpper (hshort : vars.length ≤ Power.two 63)
    (hlimits : limits.Ready vars.length) (hk : k < vars.length) :
    Act.Tries Fault.Emptied (·.Proper vars) (lowerUpper limits k isIntegral bound)
      fun _ b => b.Proper vars := by
  intro b hb
  have hv : vars[k]? = some vars[k] := List.getElem?_eq_getElem hk
  obtain ⟨l, u, hbounds, hl, -, -, hlu, hupper⟩ := hb.bounds hshort hv
  obtain ⟨m, hm, hnonneg⟩ := hlimits.margin isIntegral
  unfold lowerUpper
  rw [hbounds, hm]
  dsimp only
  generalize (if isIntegral then Arith.floor (bound + limits.tol) else bound) = bound'
  by_cases htight : bound' < u - fin m
  · rw [if_pos htight]
    split
    · exact .inr ⟨_, b, rfl, k, l, bound', rfl⟩
    · refine .inl ⟨_, _, rfl, hb.setUpper hv hl ?_ ?_⟩
      all_goals
        unfold Arith.larger
        split
      · exact ExtRat.le_refl (ne_nan_of_le hlu).1
      · rename_i hlow
        have hbelow := le_of_lt_sub hnonneg htight
        exact (not_lt_iff (ne_nan_of_le hbelow).1 (ne_nan_of_le hlu).1).mp hlow
      · exact ExtRat.le_trans hlu hupper
      · exact ExtRat.le_trans (le_of_lt_sub hnonneg htight) hupper
  · rw [if_neg htight]
    exact .inl ⟨_, b, rfl, hb⟩

/-- A lower bound that is raised stays below the upper bound, or the domain is empty. -/
theorem tries_raiseLower (hshort : vars.length ≤ Power.two 63)
    (hlimits : limits.Ready vars.length) (hk : k < vars.length) :
    Act.Tries Fault.Emptied (·.Proper vars) (raiseLower limits k isIntegral bound)
      fun _ b => b.Proper vars := by
  intro b hb
  have hv : vars[k]? = some vars[k] := List.getElem?_eq_getElem hk
  obtain ⟨l, u, hbounds, -, hu, hlower, hlu, -⟩ := hb.bounds hshort hv
  obtain ⟨m, hm, hnonneg⟩ := hlimits.margin isIntegral
  unfold raiseLower
  rw [hbounds, hm]
  dsimp only
  generalize (if isIntegral then Arith.ceil (bound - limits.tol) else bound) = bound'
  by_cases htight : l + fin m < bound'
  · rw [if_pos htight]
    split
    · exact .inr ⟨_, b, rfl, k, bound', u, rfl⟩
    · refine .inl ⟨_, _, rfl, hb.setLower hv hu ?_ ?_⟩
      all_goals
        unfold Arith.smaller
        split
      · exact ExtRat.le_trans hlower hlu
      · exact ExtRat.le_trans hlower (le_of_add_lt hnonneg htight)
      · exact ExtRat.le_refl (ne_nan_of_le hlu).2
      · rename_i hhigh
        have habove := le_of_add_lt hnonneg htight
        exact (not_lt_iff (ne_nan_of_le hlu).2 (ne_nan_of_le habove).2).mp hhigh
  · rw [if_neg htight]
    exact .inl ⟨_, b, rfl, hb⟩

end Tightenings

section Rows

variable {row : UpperRow ExtRat} {a : Activity ExtRat}

theorem tries_tightenTerm (hshort : vars.length ≤ Power.two 63)
    (hlimits : limits.Ready vars.length) {k : Nat} (hk : k < vars.length) (coef c : ExtRat) :
    Act.Tries Fault.Emptied (·.Proper vars) (row.tightenTerm limits a k coef c)
      fun _ b => b.Proper vars := by
  have hk' : k < limits.integral.length := by rw [hlimits.integral]; exact hk
  have hget : (Vec.get limits.integral (k : Int) : Except (Fault ExtRat) Bool) =
      .ok limits.integral[k] :=
    Vec.get_eq_ok.mpr (Vec.at?_of_getElem? (List.getElem?_eq_getElem hk'))
  unfold UpperRow.tightenTerm
  split
  · refine Act.tries_of_ok_bind hget ?_
    dsimp only
    split
    · exact tries_lowerUpper hshort hlimits hk
    · exact tries_raiseLower hshort hlimits hk
  · exact Act.tries_pure fun b hb => hb

/-- The terms of a row one after the other, by induction on the terms. -/
theorem tries_tightenTerms (hshort : vars.length ≤ Power.two 63)
    (hlimits : limits.Ready vars.length) {terms : List ((Nat × ExtRat) × ExtRat)}
    (hterms : ∀ term ∈ terms, term.1.1 < vars.length) :
    Act.Tries Fault.Emptied (·.Proper vars) (row.tightenTerms limits a terms)
      fun ks b => b.Proper vars ∧ ∀ k ∈ ks, k < vars.length := by
  induction terms with
  | nil => exact Act.tries_pure fun b hb => ⟨hb, fun k hk => by cases hk⟩
  | cons term rest ih =>
      obtain ⟨⟨k, coef⟩, c⟩ := term
      have hk : k < vars.length := hterms _ (List.mem_cons_self ..)
      unfold UpperRow.tightenTerms
      refine Act.tries_bind (tries_tightenTerm hshort hlimits hk coef c) fun tightened =>
        Act.tries_bind (ih fun term hterm => hterms term (List.mem_cons_of_mem _ hterm))
          fun others => Act.tries_pure ?_
      rintro b ⟨hb, hothers⟩
      refine ⟨hb, ?_⟩
      split
      · intro j hj
        rcases List.mem_cons.mp hj with rfl | hj
        · exact hk
        · exact hothers j hj
      · exact hothers

theorem exists_activity (hshort : vars.length ≤ Power.two 63)
    (hrow : ∀ term ∈ row.terms, term.1 < vars.length) {b : Box ExtRat} (hb : b.Proper vars) :
    ∃ a, row.activity b = .ok a := by
  unfold UpperRow.activity
  refine Act.exists_exceptBind (Vec.exists_mapM fun term hterm => ?_) fun _ _ => ⟨_, rfl⟩
  obtain ⟨k, coef⟩ := term
  obtain ⟨l, u, hbounds, -⟩ := hb.bounds hshort (List.getElem?_eq_getElem (hrow _ hterm))
  exact Act.exists_exceptBind ⟨_, hbounds⟩ fun _ _ => ⟨_, rfl⟩

/-- **A row keeps boxes proper**, or finds a domain empty. -/
theorem tries_propagate (hshort : vars.length ≤ Power.two 63)
    (hlimits : limits.Ready vars.length) (hrow : ∀ term ∈ row.terms, term.1 < vars.length) :
    Act.Tries Fault.Emptied (·.Proper vars) (row.propagate limits)
      fun ks b => b.Proper vars ∧ ∀ k ∈ ks, k < vars.length := by
  unfold UpperRow.propagate
  refine Act.tries_get_bind fun b hb => ?_
  obtain ⟨a, ha⟩ := exists_activity hshort hrow hb
  refine Act.tries_of_ok_bind ha ?_
  have hcheck : row.checkActivity limits b a = .ok () ∨
      ∃ e, row.checkActivity limits b a = .error e ∧ e.Emptied := by
    unfold UpperRow.checkActivity
    split
    · split
      · rename_i k coef rest hterms
        have hk : k < vars.length := hrow (k, coef) (by rw [hterms]; exact List.mem_cons_self ..)
        obtain ⟨l, u, hbounds, -⟩ := hb.bounds hshort (List.getElem?_eq_getElem hk)
        rw [Act.exceptBind_of_ok hbounds]
        exact .inr ⟨_, rfl, k, l, u, rfl⟩
      · exact .inl rfl
    · exact .inl rfl
  rcases hcheck with hcheck | ⟨e, hcheck, hempty⟩
  · refine Act.tries_of_ok_bind hcheck ?_
    split
    · rintro s rfl
      exact .inl ⟨[], s, rfl, hb, fun k hk => by cases hk⟩
    · refine (tries_tightenTerms hshort hlimits fun term hterm => ?_).mono ?_ fun _ _ h => h
      · exact hrow _ (List.of_mem_zip hterm).1
      · rintro _ rfl
        exact hb
  · rintro s -
    exact .inr ⟨e, s, by rw [hcheck]; rfl, hempty⟩

end Rows

section Building

variable {rows : Rows ExtRat} {start : Box ExtRat} {kinds : List Kind} {tol epsilon : ExtRat}
  {maxRounds : Int} {n : Nat}

theorem lt_of_mem_nonzeroTerms {row : List ExtRat} {term : Nat × ExtRat}
    (h : term ∈ nonzeroTerms row) : term.1 < row.length := by
  obtain ⟨entry, hentry, rfl⟩ := List.mem_map.mp h
  have hlt := List.snd_lt_of_mem_zipIdx (List.mem_filter.mp hentry).1
  omega

/-- The upper rows of a row have its columns. -/
theorem exists_upperRows {terms : List (Nat × ExtRat)} (hterms : ∀ term ∈ terms, term.1 < n)
    (sense : Sense) {rhs : Except (Fault ExtRat) ExtRat} {b : ExtRat} (hrhs : rhs = .ok b) :
    ∃ upper, upperRows terms sense rhs = .ok upper ∧
      ∀ row ∈ upper, ∀ term ∈ row.terms, term.1 < n := by
  have hnegated {f : Nat × ExtRat → Nat × ExtRat} (hf : ∀ term, (f term).1 = term.1) :
      ∀ term ∈ terms.map f, term.1 < n := by
    intro term hterm
    obtain ⟨term', hterm', rfl⟩ := List.mem_map.mp hterm
    rw [hf]
    exact hterms term' hterm'
  subst hrhs
  cases sense with
  | atMost => exact ⟨_, rfl, fun row hrow => by rw [List.mem_singleton.mp hrow]; exact hterms⟩
  | atLeast =>
      refine ⟨_, rfl, fun row hrow => ?_⟩
      rw [List.mem_singleton.mp hrow]
      exact hnegated fun _ => rfl
  | equal =>
      refine ⟨_, rfl, fun row hrow => ?_⟩
      rcases List.mem_cons.mp hrow with rfl | hrow
      · exact hterms
      · rw [List.mem_singleton.mp hrow]
        exact hnegated fun _ => rfl
  | other code => exact ⟨[], rfl, fun row hrow => by cases hrow⟩

/-- Rows in shape can be collected, from any number on. -/
theorem exists_collectRows (hrows : rows.Shaped n) {i : Nat} {rest : List (List ExtRat)}
    (hrest : rows.coefficients.drop i = rest) :
    ∃ upper, collectRows rows i rest = .ok upper ∧
      ∀ row ∈ upper, ∀ term ∈ row.terms, term.1 < n := by
  induction rest generalizing i with
  | nil => exact ⟨[], rfl, by simp⟩
  | cons row rest ih =>
      have hi : i < rows.coefficients.length := by
        by_contra hge
        rw [List.drop_eq_nil_of_le (by omega)] at hrest
        cases hrest
      have hmem : row ∈ rows.coefficients :=
        List.mem_of_mem_drop (by rw [hrest]; exact List.mem_cons_self ..)
      have hterms : ∀ term ∈ nonzeroTerms row, term.1 < n := fun term hterm =>
        hrows.width row hmem ▸ lt_of_mem_nonzeroTerms hterm
      have hdrop : rows.coefficients.drop (i + 1) = rest := by
        rw [← List.drop_drop, hrest]
        rfl
      obtain ⟨others, hothers, hrange⟩ := ih hdrop
      have htail {first : List (UpperRow ExtRat)}
          (hfirst : ∀ row ∈ first, ∀ term ∈ row.terms, term.1 < n) :
          ∃ upper, (collectRows rows (i + 1) rest >>= fun others => pure (first ++ others)) =
            .ok upper ∧ ∀ row ∈ upper, ∀ term ∈ row.terms, term.1 < n := by
        rw [Act.exceptBind_of_ok hothers]
        refine ⟨_, rfl, fun r hr => ?_⟩
        rcases List.mem_append.mp hr with hr | hr
        · exact hfirst r hr
        · exact hrange r hr
      have hs : i < rows.senses.length := by rw [hrows.senses]; exact hi
      have hb : i < rows.rhs.length := by rw [hrows.rhs]; exact hi
      have hsense : (Vec.get rows.senses (i : Int) : Except (Fault ExtRat) Sense) =
          .ok rows.senses[i] :=
        Vec.get_eq_ok.mpr (Vec.at?_of_getElem? (List.getElem?_eq_getElem hs))
      have hrhs : (Vec.get rows.rhs (i : Int) : Except (Fault ExtRat) ExtRat) = .ok rows.rhs[i] :=
        Vec.get_eq_ok.mpr (Vec.at?_of_getElem? (List.getElem?_eq_getElem hb))
      unfold collectRows
      dsimp only
      split
      · exact htail fun r hr => by cases hr
      · obtain ⟨first, hfirst, hfirstRange⟩ := exists_upperRows hterms rows.senses[i] hrhs
        rw [Act.exceptBind_of_ok hsense, Act.exceptBind_of_ok hfirst]
        exact htail hfirstRange

theorem isRectangular_of_width {coefficients : List (List ExtRat)}
    (h : ∀ row ∈ coefficients, row.length = n) : isRectangular coefficients = true := by
  unfold isRectangular
  split
  · rfl
  · rename_i row rest
    refine List.all_eq_true.mpr fun other hother => ?_
    rw [h other (List.mem_cons_of_mem _ hother), h row (List.mem_cons_self ..)]
    exact beq_self_eq_true n

/-- Rows in shape have a propagator. -/
theorem exists_build (hrows : rows.Shaped n) (hstart : start.lb.length = n) (kinds : List Kind)
    (tol epsilon : ExtRat) (maxRounds : Int) :
    ∃ p, Propagator.build rows start kinds tol epsilon maxRounds = .ok p := by
  obtain ⟨upper, hupper, hrange⟩ := exists_collectRows hrows List.drop_zero
  unfold Propagator.build
  rw [isRectangular_of_width hrows.width]
  dsimp only
  rw [if_neg (by simp), Act.exceptBind_of_ok hupper]
  split
  · rename_i hany
    obtain ⟨row, hrow, hany⟩ := List.any_eq_true.mp hany
    obtain ⟨term, hterm, hle⟩ := List.any_eq_true.mp hany
    have hlt := hrange row hrow term hterm
    have hge := of_decide_eq_true hle
    omega
  · exact ⟨_, rfl⟩

/-- The propagator of rows works in proper boxes. -/
theorem works_of_build {p : Propagator ExtRat}
    (h : Propagator.build rows start kinds tol epsilon maxRounds = .ok p)
    (hshort : vars.length ≤ Power.two 63) (hstart : start.lb.length = vars.length)
    (hkinds : kinds.length = vars.length) (htol : ∃ e : ℚ, tol = fin e ∧ 0 ≤ e)
    (hepsilon : ∃ e : ℚ, epsilon = fin e ∧ 0 ≤ e) :
    p.Works Fault.Emptied (·.Proper vars) vars.length := by
  obtain ⟨-, hlimits, hrowsOf, hnumbers, hrange⟩ := build_eq_ok h
  have hready : p.limits.Ready vars.length := by
    rw [hlimits]
    exact ⟨by rw [List.length_map, hkinds], htol, hepsilon⟩
  refine ⟨fun row hrow => ?_, hrowsOf.trans hstart, hnumbers⟩
  exact tries_propagate hshort hready fun term hterm => hstart ▸ hrange row hrow term hterm

end Building

end Propagation
end MipPump
