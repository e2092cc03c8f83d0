import MipPump.Proofs.Rankings
import MipPump.Proofs.SoundPropagation
import MipPump.Proofs.VariableFixing
import MipPump.Proofs.WholePoints

/-!
# Rounding with propagation at a whole point

At a feasible point with integers for the integer variables, rounding with propagation fixes every
variable to its value at the point, in whatever order it takes them.  No domain becomes empty,
because propagation stays around the point.

* `roundable_of_whole`: a variable with an integer for its value is rounded to it.
* `propagatedPoint_of_settled`: the rounding of the point.
-/

namespace MipPump

open ExtRat

namespace Rounding

open Propagation

variable {x : List ℚ} {t : Table ExtRat}

section Variables

/-- Bounds around an entry of a point can be set in the boxes around the point. -/
theorem settable_of_between (hshort : x.length ≤ Power.two 63) {i : Int} {q : ℚ}
    (hq : Vec.at? x i = some q) {l u : ExtRat} (hl : l ≤ fin q) (hu : fin q ≤ u) :
    Settable (·.Contains x) i l u where
  ordered := not_lt_of_between hl hu
  boxes := fun _ hb =>
    have ⟨l', u', hbounds, _⟩ := hb.bounds hshort hq
    ⟨⟨(l', u'), hbounds⟩, hb.set hshort hq hl hu⟩

/-- The domain that is left around an integer is not empty, and the integer is its own rounding. -/
theorem nearestValue_integralDomain {eps : ℚ} (hpos : 0 < eps) (heps : eps < 1 / 2)
    (tieBreak : TieBreak) {l u : ExtRat} {n : ℤ} (hl : l ≤ fin n) (hu : fin n ≤ u) :
    ¬ (integralDomain (fin eps) (l, u)).2 < (integralDomain (fin eps) (l, u)).1 ∧
      nearestValue Arith.clampKeep tieBreak (fin eps) (integralDomain (fin eps) (l, u)).1
        (integralDomain (fin eps) (l, u)).2 (fin n) = fin n := by
  have hlo : Arith.ceil (l - fin eps) ≤ fin n :=
    (rounded_bound_le hpos hl fun _ => ⟨n, rfl⟩ : (if true then _ else l) ≤ _)
  have hhi : fin n ≤ Arith.floor (u + fin eps) :=
    (le_rounded_bound hpos hu fun _ => ⟨n, rfl⟩ : _ ≤ if true then _ else u)
  constructor
  · exact not_lt_of_between hlo hhi
  · exact nearestValue_of_whole (clampKeep_of_between hlo hhi) heps tieBreak

/-- The value is that of the variable `j` at the point. -/
def ValueAt (x : List ℚ) (j : Int) (value : ExtRat) : Prop :=
  ∃ q, Vec.at? x j = some q ∧ value = fin q

/-- A variable with an integer for its value is rounded to it, and no fault is to be expected. -/
theorem roundable_of_whole (hshort : x.length ≤ Power.two 63) {eps : ℚ} (hpos : 0 < eps)
    (heps : eps < 1 / 2) (tieBreak : TieBreak) {p : Propagator ExtRat} {m : Nat}
    (hp : p.Around x m) {j : Int} {n : ℤ} (hj : Vec.at? x j = some (n : ℚ)) {place : Int}
    (hplace : Vec.at? t.position j = some place) :
    Roundable (fun _ => False) (·.Contains x) (·.Contains x) p tieBreak (fin eps) t (x.map fin)
      (ValueAt x) j where
  rows := by
    obtain ⟨k, hk, hx⟩ := Vec.at?_eq_some.mp hj
    obtain ⟨hlt, -⟩ := List.getElem?_eq_some_iff.mp hx
    rw [← hp.rowsOf] at hk hlt
    exact ⟨p.rowsOf[k], List.getElem_mem hlt,
      Vec.at?_eq_some.mpr ⟨k, hk, List.getElem?_eq_getElem hlt⟩⟩
  place := ⟨place, hplace⟩
  value := by
    refine ⟨fin n, Vec.at?_map hj fin, fun b hb => ?_⟩
    obtain ⟨l, u, hbounds, hl, hu⟩ := hb.bounds hshort hj
    obtain ⟨hopen, hvalue⟩ := nearestValue_integralDomain hpos heps tieBreak hl hu
    exact ⟨l, u, hbounds, hopen, fun _ => ⟨n, hj, hvalue⟩⟩
  fix := by
    rintro _ ⟨q, hq, rfl⟩ b hb
    obtain ⟨e, he, hpos⟩ := hp.limits.tol
    have hself : fin q ≤ fin q := (fin_le_fin q q).mpr (le_refl q)
    obtain ⟨l, u, hbounds, hl, hu⟩ := hb.bounds hshort hq
    obtain ⟨box, hset, hbox⟩ := hb.set hshort hq hself hself
    refine ⟨l, u, box, hbounds, ?_, hset, hbox⟩
    rw [he]
    rintro (hlow | hhigh)
    · exact not_lt_sub_of_between hpos hl hself hlow
    · exact not_add_lt_of_between hpos hu hself hhigh
  settable := by
    rintro _ ⟨q, hq, rfl⟩
    have hself : fin q ≤ fin q := (fin_le_fin q q).mpr (le_refl q)
    exact settable_of_between hshort hq hself hself

end Variables

section Points

variable {vars : List (Variable ExtRat)}

/-- Rounding with propagation leaves a whole point alone. -/
theorem propagatedPoint_of_settled (h : t.Lists vars) (horder : InOrder vars)
    (hx : x.length = vars.length)
    (hsettled : ∀ c ∈ cellsOf vars x, c.Settled) {eps : ℚ} (hpos : 0 < eps)
    (heps : eps < 1 / 2) (tieBreak : TieBreak) {k : Ranker ExtRat}
    (hlocks : k.policy = .locks → ∃ ps, k.lockPressure = some ps ∧ ps.length = t.numIntegers)
    (hfits : k.policy = .random → (t.numIntegers : Int) < Progress.countLimit)
    {ws : Workspace ExtRat} (hbox : ws.domain.box.Contains x)
    (haround : ∀ box : Box ExtRat, box.Contains x →
      ∃ m, Propagator.Around x m { ws.propagator with box }) :
    ∃ ws', propagatedPoint tieBreak (fin eps) t k (x.map fin) ws =
      .ok ((chosen vars x).map fin) ws' := by
  have hshort : x.length ≤ Power.two 63 := hx ▸ h.short horder
  have hlen : (x.map fin).length = vars.length := by rw [List.length_map, hx]
  have hbounds : ((List.range t.numVars).mapM fun j : Nat => ws.domain.bounds j) =
      .ok (ws.domain.box.lb.zip ws.domain.box.ub) := by
    rw [h.numVars_eq, ← hx]
    exact hbox.mapM_bounds hshort
  obtain ⟨m, hm⟩ := haround ws.domain.box hbox
  have hworks := (hm.works hshort).of_sameRows (q := ws.propagator) ⟨_, rfl⟩
  have hround : ∀ j ∈ t.integers, Roundable (fun _ => False) (·.Contains x) (·.Contains x)
      ws.propagator tieBreak (fin eps) t (x.map fin) (ValueAt x) j := by
    intro j hj
    obtain ⟨place, q, hplace, hchosen, hq⟩ := h.exists_place horder hx hj
    have hmem := List.mem_of_getElem? hchosen
    rw [← map_snd_cellsOf hx] at hmem
    obtain ⟨c, hc, rfl⟩ := List.mem_map.mp hmem
    obtain ⟨n, hn⟩ := (hsettled c hc).whole
    obtain ⟨hrows, hplaces, hvalue, hfix, hsettable⟩ :=
      roundable_of_whole hshort hpos heps tieBreak hm (hn ▸ hq) hplace
    exact ⟨hrows, hplaces, hvalue, hfix, hsettable⟩
  rcases tries_propagatedPoint h horder hbounds hbox.ordered hbox hbox
    (Ranker.exists_rank h hlen (by simp) hlocks
      (fun hrandom => Ranker.factorsFit (hfits hrandom)) (by simp))
    hworks (fun b hb k hk => hb.read hshort hk)
    (fun k l u ⟨q, hq, hl, hu⟩ => settable_of_between hshort (Vec.at?_of_getElem? hq) hl hu)
    hround with ⟨candidate, ws', hok, hvalues⟩ | ⟨_, _, _, hfault⟩
  · have hpick : t.integerValues (x.map fin) = .ok candidate := by
      refine Vec.pick_eq_ok.mpr (hvalues.imp fun j value hvalue => ?_)
      obtain ⟨q, hq, rfl⟩ := hvalue
      exact Vec.at?_map hq fin
    rw [integerValues_map_fin h horder hx] at hpick
    cases hpick
    exact ⟨ws', hok⟩
  · exact hfault.elim

end Points

end Rounding

end MipPump
