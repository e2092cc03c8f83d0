import MipPump.Proofs.BoundedPropagation
import MipPump.Proofs.Candidates
import MipPump.Proofs.Rankings
import MipPump.Proofs.VariableFixing

/-!
# Rounding with propagation in proper boxes

In proper boxes rounding with propagation rounds each integer variable to a value that it may take,
or finds a domain empty.  The bounds that boxes are proper for may be wider than those a value is
found in: bounds in force are rounded inwards before a value is looked for.

* `Nested eps wide narrow`: bounds inside those of `wide`, rounded inwards, are inside those of
  `narrow`.
* `nearestValue_inside`, `takes_of_integralDomain`: so a value found between them is one that the
  narrow variable may take.
* `exists_integer`: what is behind the index of an integer variable.
* `settable_of_inRange`, `settable_of_proper`: bounds that are never refused.
* `roundable_of_nested`: what is left for an integer variable is inside its narrow bounds.
* `tries_propagatedPoint_of_nested`: the rounding of a finite point.
* `tries_propagatedPoint_of_proper`: the same with integral bounds, which are as narrow as wide.
-/

namespace MipPump

open ExtRat

/-- A box of `n` variables. -/
def Box.Sized {R : Type} (n : Nat) (b : Box R) : Prop := b.lb.length = n ∧ b.ub.length = n

namespace Rounding

open Propagation

variable {vars : List (Variable ExtRat)} {t : Table ExtRat} {x : List ℚ} {eps : ℚ}

section Domains

variable {a l u : ExtRat}

/-- An integral bound stays one if the bounds in force are rounded inwards. -/
theorem le_ceil_of_le (h : Whole a ∨ Arith.isInf a = true) (hle : a ≤ l) (hsmall : eps < 1 / 2) :
    a ≤ Arith.ceil (l - fin eps) := by
  cases l with
  | fin q =>
      rw [fin_sub, ceil_fin]
      rcases h with ⟨n, rfl⟩ | hinf
      · rw [fin_le_fin] at hle ⊢
        have hlt : n - 1 < (q - eps).ceil := Rat.lt_ceil_iff.mpr (by push_cast; linarith)
        exact_mod_cast Int.sub_one_lt_iff.mp hlt
      · cases a with
        | negInf => exact negInf_le_iff.mpr (fin_ne_nan _)
        | posInf => exact absurd hle (not_posInf_le_fin q)
        | fin _ => cases hinf
        | nan => exact absurd hle not_nan_le
  | nan => exact absurd hle not_le_nan
  | negInf => exact hle
  | posInf => exact hle

theorem floor_le_of_le (h : Whole a ∨ Arith.isInf a = true) (hle : u ≤ a) (hsmall : eps < 1 / 2) :
    Arith.floor (u + fin eps) ≤ a := by
  cases u with
  | fin q =>
      rw [fin_add, floor_fin]
      rcases h with ⟨n, rfl⟩ | hinf
      · rw [fin_le_fin] at hle ⊢
        have hlt : (q + eps).floor < n + 1 := Rat.floor_lt_iff.mpr (by push_cast; linarith)
        exact_mod_cast Int.lt_add_one_iff.mp hlt
      · cases a with
        | posInf => exact le_posInf_iff.mpr (fin_ne_nan _)
        | negInf => exact absurd hle (not_fin_le_negInf q)
        | fin _ => cases hinf
        | nan => exact absurd hle not_le_nan
  | nan => exact absurd hle not_nan_le
  | negInf => exact hle
  | posInf => exact hle

/-- Bounds inside those of the wide variable, rounded inwards, are inside those of the narrow
one. -/
structure Nested (eps : ℚ) (wide narrow : Variable ExtRat) : Prop where
  lower : wide.lb ≤ narrow.lb
  upper : narrow.ub ≤ wide.ub
  ceil : ∀ l, wide.lb ≤ l → narrow.lb ≤ Arith.ceil (l - fin eps)
  floor : ∀ u, u ≤ wide.ub → Arith.floor (u + fin eps) ≤ narrow.ub

theorem ne_nan_of_integral (h : Whole a ∨ Arith.isInf a = true) : a ≠ nan := by
  rintro rfl
  rcases h with ⟨n, hn⟩ | hinf
  · cases hn
  · cases hinf

/-- Integral bounds are as narrow as wide. -/
theorem nested_of_integral {v : Variable ExtRat} (h : v.IntegralBounds) (hsmall : eps < 1 / 2) :
    Nested eps v v where
  lower := ExtRat.le_refl (ne_nan_of_integral h.1)
  upper := ExtRat.le_refl (ne_nan_of_integral h.2)
  ceil := fun _ hl => le_ceil_of_le h.1 hl hsmall
  floor := fun _ hu => floor_le_of_le h.2 hu hsmall

/-- A value is rounded inside the integral bounds. -/
theorem nearestValue_inside {y : ExtRat}
    (h : (integralDomain (fin eps) (l, u)).1 ≤ (integralDomain (fin eps) (l, u)).2)
    (tieBreak : TieBreak) (hy : y ≠ nan) :
    let value := nearestValue Arith.clampKeep tieBreak (fin eps)
      (integralDomain (fin eps) (l, u)).1 (integralDomain (fin eps) (l, u)).2 y
    NoFraction value ∧ (integralDomain (fin eps) (l, u)).1 ≤ value ∧
      value ≤ (integralDomain (fin eps) (l, u)).2 :=
  nearestValue_between (fun _ hz => clampKeep_between h hz)
    (fun _ hz => noFraction_clampKeep (noFraction_ceil _) (noFraction_floor _) hz) tieBreak
    (fin eps) hy

/-- A value between the integral bounds that are left is one that the narrow variable may take. -/
theorem takes_of_integralDomain {wide narrow : Variable ExtRat} (hnested : Nested eps wide narrow)
    (hlower : wide.lb ≤ l) (hupper : u ≤ wide.ub) (tieBreak : TieBreak) {y : ExtRat} (hy : y ≠ nan)
    (hopen : ¬ (integralDomain (fin eps) (l, u)).2 < (integralDomain (fin eps) (l, u)).1) :
    narrow.Takes (nearestValue Arith.clampKeep tieBreak (fin eps)
      (integralDomain (fin eps) (l, u)).1 (integralDomain (fin eps) (l, u)).2 y) := by
  have hlo : narrow.lb ≤ (integralDomain (fin eps) (l, u)).1 := hnested.ceil l hlower
  have hhi : (integralDomain (fin eps) (l, u)).2 ≤ narrow.ub := hnested.floor u hupper
  have hle := (not_lt_iff (ne_nan_of_le hhi).1 (ne_nan_of_le hlo).2).mp hopen
  obtain ⟨hwhole, hfrom, hto⟩ := nearestValue_inside hle tieBreak hy
  exact ⟨hwhole, ExtRat.le_trans hlo hfrom, ExtRat.le_trans hto hhi⟩

end Domains

section Variables

/-- A variable addresses itself. -/
theorem at?_index {R : Type} {vars : List (Variable R)} (horder : InOrder vars) {v : Variable R}
    (hv : v ∈ vars) : Vec.at? vars v.index = some v := by
  obtain ⟨i, hi, rfl⟩ := List.getElem_of_mem hv
  exact at?_of_mem_zip horder (List.mem_iff_getElem.mpr ⟨i, by simpa using hi, by simp⟩)

/-- Behind the index of an integer variable are the variable, its value at a point and its place. -/
theorem exists_integer (h : t.Lists vars) (horder : InOrder vars) (hx : x.length = vars.length)
    {j : Int} (hj : j ∈ t.integers) :
    ∃ (k : Nat) (v : Variable ExtRat) (q : ℚ) (place : Nat), j = k ∧ vars[k]? = some v ∧ v ∈ vars ∧
      v.kind.isIntegral = true ∧ x[k]? = some q ∧ Vec.at? t.position k = some place := by
  obtain ⟨v, hmem, hint, rfl⟩ : ∃ v ∈ vars, v.kind.isIntegral = true ∧ v.index = j := by
    rw [h.integers] at hj
    obtain ⟨v, hv, rfl⟩ := List.mem_map.mp hj
    exact ⟨v, (List.mem_filter.mp hv).1, (List.mem_filter.mp hv).2, rfl⟩
  obtain ⟨k, hk, -⟩ := h.inRange_integers horder _ hj
  obtain ⟨place, q, hplace, -, hq⟩ := h.exists_place horder hx hj
  have hself := at?_index horder hmem
  rw [hk, Vec.at?_natCast] at hself hq
  exact ⟨k, v, q, place, hk, hself, hmem, hint, hq, hk ▸ hplace⟩

/-- Bounds in order can be set in boxes of `n` variables. -/
theorem settable_of_inRange {R : Type} [Arith R] {n : Nat} (hshort : n ≤ Power.two 63) {i : Int}
    (hi : Vec.InRange n i) {l u : R} (hlu : ¬ u < l) : Settable (Box.Sized n) i l u where
  ordered := hlu
  boxes := by
    rintro b ⟨hlb, hub⟩
    have hindex : requireIndex (R := R) i = .ok () := requireIndex_of_inRange hi hshort
    obtain ⟨l', hl⟩ := hi.exists_at? hlb
    obtain ⟨u', hu⟩ := hi.exists_at? hub
    obtain ⟨lower, hlower, hlowerlen⟩ := hi.exists_setAt? hlb l
    obtain ⟨upper, hupper, hupperlen⟩ := hi.exists_setAt? hub u
    exact ⟨⟨(l', u'), Box.bounds_eq_ok.mpr ⟨hindex, hl, hu⟩⟩, ⟨lower, upper⟩,
      Box.set_eq_ok.mpr ⟨hindex, hlower, hupper⟩, hlowerlen, hupperlen⟩

/-- Bounds inside those of a variable can be set in proper boxes. -/
theorem settable_of_proper (hshort : vars.length ≤ Power.two 63) {k : Nat}
    {v : Variable ExtRat} (hv : vars[k]? = some v) {l u : ExtRat} (hl : v.lb ≤ l) (hlu : l ≤ u)
    (hu : u ≤ v.ub) : Settable (·.Proper vars) k l u where
  ordered := (not_lt_iff (ne_nan_of_le hlu).2 (ne_nan_of_le hlu).1).mpr hlu
  boxes := fun _ hb =>
    have ⟨l', u', hbounds, _⟩ := hb.bounds hshort hv
    ⟨⟨(l', u'), hbounds⟩, hb.set hshort hv hl hlu hu⟩

variable {wide narrow : Variable ExtRat → Variable ExtRat}

/-- The value is one that the narrowed variable `j` may take. -/
def TakenBy (vars : List (Variable ExtRat)) (narrow : Variable ExtRat → Variable ExtRat) (j : Int)
    (value : ExtRat) : Prop :=
  ∃ v, Vec.at? vars j = some v ∧ (narrow v).Takes value

/-- An integer variable can be rounded in proper boxes, unless its domain is empty. -/
theorem roundable_of_nested (h : t.Lists vars) (horder : InOrder vars)
    (hnested : ∀ v ∈ vars, v.kind.isIntegral = true → Nested eps (wide v) (narrow v))
    (hx : x.length = vars.length) (tieBreak : TieBreak)
    {p : Propagator ExtRat} (hrowsOf : p.rowsOf.length = vars.length) {j : Int}
    (hj : j ∈ t.integers) :
    Roundable Fault.Emptied (·.Proper (vars.map wide)) (·.Proper (vars.map wide)) p tieBreak
      (fin eps) t (x.map fin) (TakenBy vars narrow) j := by
  obtain ⟨k, v, q, place, rfl, hvars, hmem, hint, hxk, hplace⟩ := exists_integer h horder hx hj
  have hself : Vec.at? vars k = some v := Vec.at?_of_getElem? hvars
  have hv : (vars.map wide)[k]? = some (wide v) := by
    rw [List.getElem?_map, hvars]
    rfl
  have hshort : (vars.map wide).length ≤ Power.two 63 := by
    rw [List.length_map]
    exact h.short horder
  have hnest := hnested v hmem hint
  have hinside {value : ExtRat} (hvalue : TakenBy vars narrow k value) :
      (wide v).lb ≤ value ∧ value ≤ value ∧ value ≤ (wide v).ub := by
    obtain ⟨w, hw, htakes⟩ := hvalue
    obtain rfl := Option.some.inj (hself.symm.trans hw)
    exact ⟨ExtRat.le_trans hnest.lower htakes.lower, ExtRat.le_refl (ne_nan_of_le htakes.lower).2,
      ExtRat.le_trans htakes.upper hnest.upper⟩
  have hlt : k < p.rowsOf.length := by
    rw [hrowsOf]
    exact (List.getElem?_eq_some_iff.mp hvars).1
  refine ⟨⟨_, List.getElem_mem hlt, Vec.at?_of_getElem? (List.getElem?_eq_getElem hlt)⟩,
    ⟨place, hplace⟩, ⟨fin q, Vec.at?_map (Vec.at?_of_getElem? hxk) fin, fun b hb => ?_⟩,
    fun value hvalue b hb => ?_, fun value hvalue => ?_⟩
  · obtain ⟨l, u, hread, -, -, hlower, -, hupper⟩ := hb.bounds hshort hv
    refine ⟨l, u, hread, fun _ => ⟨_, _, _, rfl⟩, fun hopen => ⟨v, hself, ?_⟩⟩
    exact takes_of_integralDomain hnest hlower hupper tieBreak (fin_ne_nan q) hopen
  · obtain ⟨l, u, hread, -⟩ := hb.bounds hshort hv
    obtain ⟨hl, hself, hu⟩ := hinside hvalue
    obtain ⟨b', hset, hb'⟩ := hb.set hshort hv hl hself hu
    exact ⟨l, u, b', hread, fun _ => ⟨_, _, _, rfl⟩, hset, hb'⟩
  · obtain ⟨hl, hself, hu⟩ := hinside hvalue
    exact settable_of_proper hshort hv hl hself hu

end Variables

section Points

variable {wide narrow : Variable ExtRat → Variable ExtRat} {k : Ranker ExtRat}
  {ws : Workspace ExtRat}

/-- Rounding with propagation in a box that is proper for the wide bounds finds values in the narrow
ones for a finite point, or a domain empty. -/
theorem tries_propagatedPoint_of_nested (h : t.Lists vars) (horder : InOrder vars)
    (hnested : ∀ v ∈ vars, v.kind.isIntegral = true → Nested eps (wide v) (narrow v))
    (hx : x.length = vars.length) (tieBreak : TieBreak)
    (hrank : ∃ order q, k.rank t (x.map fin) none ws.progress = .ok order q ∧
      order.Perm t.integers)
    (hbox : ws.domain.box.Proper (vars.map wide))
    (hworks : ws.propagator.Works Fault.Emptied (·.Proper (vars.map wide)) (vars.map wide).length) :
    (∃ candidate ws', propagatedPoint tieBreak (fin eps) t k (x.map fin) ws = .ok candidate ws' ∧
      List.Forall₂ (fun v => (narrow v).Takes) (vars.filter (·.kind.isIntegral)) candidate) ∨
      ∃ e ws', propagatedPoint tieBreak (fin eps) t k (x.map fin) ws = .error e ws' ∧
        e.Emptied := by
  have hlen : (vars.map wide).length = vars.length := List.length_map ..
  have hshort : (vars.map wide).length ≤ Power.two 63 := by
    rw [hlen]
    exact h.short horder
  have hread : ((List.range t.numVars).mapM fun j : Nat => ws.domain.bounds j) =
      .ok (ws.domain.box.lb.zip ws.domain.box.ub) := by
    rw [h.numVars_eq, ← hlen]
    exact Box.mapM_bounds hbox.within.lower.length_eq.symm hbox.within.upper.length_eq.symm
      fun i hi => requireIndex_of_inRange ⟨i, rfl, hi⟩ hshort
  rcases tries_propagatedPoint (C := fun i l u => ∃ w, (vars.map wide)[i]? = some w ∧ w.lb ≤ l ∧
      l ≤ u ∧ u ≤ w.ub) h horder hread hbox.ordered hbox hbox hrank hworks
    (fun b hb i hi => by
      have hw := List.getElem?_eq_getElem hi
      obtain ⟨l, u, hread, -, -, hbetween⟩ := hb.bounds hshort hw
      exact ⟨l, u, hread, (vars.map wide)[i], hw, hbetween⟩)
    (fun i l u ⟨w, hw, hl, hlu, hu⟩ => settable_of_proper hshort hw hl hlu hu)
    (fun j hj => roundable_of_nested h horder hnested hx tieBreak (hworks.rowsOf.trans hlen) hj)
    with ⟨candidate, ws', hok, hvalues⟩ | hfault
  · refine .inl ⟨candidate, ws', hok, ?_⟩
    rw [h.integers, List.forall₂_map_left_iff] at hvalues
    have hself : ∀ v ∈ vars.filter (·.kind.isIntegral), Vec.at? vars v.index = some v :=
      fun v hv => at?_index horder (List.mem_filter.mp hv).1
    refine ((List.forall₂_and_left _ _).mpr ⟨hself, hvalues⟩).imp fun v value hvalue => ?_
    obtain ⟨hat, w, hw, htakes⟩ := hvalue
    rwa [Option.some.inj (hat.symm.trans hw)]
  · exact .inr hfault

/-- **Rounding with propagation in a proper box** makes a candidate of a finite point, or finds a
domain empty. -/
theorem tries_propagatedPoint_of_proper (h : t.Lists vars) (horder : InOrder vars)
    (hfew : (vars.length : Int) < Progress.countLimit)
    (hbounds : ∀ v ∈ vars, v.kind.isIntegral = true → v.IntegralBounds)
    (hx : x.length = vars.length) (hsmall : eps < 1 / 2) (tieBreak : TieBreak)
    (hlocks : k.policy = .locks → ∃ ps, k.lockPressure = some ps ∧ ps.length = t.numIntegers)
    (hbox : ws.domain.box.Proper vars)
    (hworks : ws.propagator.Works Fault.Emptied (·.Proper vars) vars.length) :
    (∃ candidate ws', propagatedPoint tieBreak (fin eps) t k (x.map fin) ws = .ok candidate ws' ∧
      List.Forall₂ Variable.Takes (vars.filter (·.kind.isIntegral)) candidate) ∨
      ∃ e ws', propagatedPoint tieBreak (fin eps) t k (x.map fin) ws = .error e ws' ∧
        e.Emptied := by
  have hlen : (x.map fin).length = vars.length := by rw [List.length_map, hx]
  have hfits : (t.numIntegers : Int) < Progress.countLimit := by
    have hle := h.numIntegers_le
    omega
  have hid : vars.map id = vars := List.map_id vars
  have hnested : ∀ v ∈ vars, v.kind.isIntegral = true → Nested eps (id v) (id v) :=
    fun v hv hint => nested_of_integral (hbounds v hv hint) hsmall
  exact tries_propagatedPoint_of_nested h horder hnested hx tieBreak
    (Ranker.exists_rank h hlen (by simp) hlocks (fun _ => Ranker.factorsFit hfits) (by simp))
    (hid.symm ▸ hbox) (hid.symm ▸ hworks)

end Points

end Rounding

end MipPump
