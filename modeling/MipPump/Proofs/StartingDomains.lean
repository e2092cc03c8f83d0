import MipPump.Proofs.DecidedRows
import MipPump.Proofs.RoundedSolutions
import MipPump.Proofs.RowlessRounding

/-!
# Candidates of rounding with propagation

Two tolerances make integral bounds of the bounds of a variable: that of the table is `10⁻⁹`, that
of rounding with propagation is the one of the settings.  Whatever the rows are, a value is rounded
into the bounds that the tolerance of rounding gives.  A candidate is checked against those of the
table.  So every candidate passes the check where the former are inside the latter, and only there.

* `starting eps v`: the variable with the integral bounds that rounding begins with.
* `widened eps v`: the variable with bounds that propagation never leaves.
* `takes_of_propagatedPoint`: the values of a candidate are inside the starting bounds.
* `Sheltered eps v`: the starting bounds are inside those of the table.
* `exists_rounding`: a rounding without rows, of any point.
* `exists_failing_of_not_sheltered`: otherwise some point is rounded to a candidate that fails.
* `candidates_pass_iff`: the result.
-/

namespace MipPump

open ExtRat

namespace Rounding

open Propagation

variable {vars : List (Variable ExtRat)} {t : Table ExtRat} {x : List ℚ} {eps : ℚ}
  {v : Variable ExtRat}

section Numbers

variable {a b : ExtRat} {d e : ℚ}

/-- What is monotone on finite numbers and leaves the others alone is monotone. -/
theorem mapFin_mono {f g : ℚ → ℚ} (hfg : ∀ p q, p ≤ q → f p ≤ g q) (h : a ≤ b) :
    mapFin f a ≤ mapFin g b := by
  cases a with
  | fin p =>
      cases b with
      | fin q => exact (fin_le_fin _ _).mpr (hfg p q ((fin_le_fin p q).mp h))
      | posInf => exact le_posInf_iff.mpr nofun
      | _ => exact h
  | negInf =>
      cases b with
      | fin q => exact negInf_le_iff.mpr nofun
      | _ => exact h
  | posInf =>
      cases b with
      | fin q => exact absurd h (not_posInf_le_fin q)
      | _ => exact h
  | nan => exact absurd h not_nan_le

/-- A smaller lower bound with a greater tolerance is rounded to a smaller integer. -/
theorem ceil_sub_mono (h : a ≤ b) (hde : d ≤ e) :
    Arith.ceil (a - fin e) ≤ Arith.ceil (b - fin d) := by
  have hmap (y : ExtRat) (e : ℚ) :
      Arith.ceil (y - fin e) = mapFin (fun q => ((q - e).ceil : ℚ)) y := by
    cases y with
    | fin q => rw [fin_sub, ceil_fin]; rfl
    | _ => rfl
  rw [hmap, hmap]
  refine mapFin_mono (fun p q hpq => ?_) h
  have hle : (p - e : ℚ) ≤ (q - d).ceil := le_trans (by linarith) Rat.le_ceil
  exact_mod_cast Rat.ceil_le_iff.mpr hle

/-- A greater upper bound with a greater tolerance is rounded to a greater integer. -/
theorem floor_add_mono (h : a ≤ b) (hde : d ≤ e) :
    Arith.floor (a + fin d) ≤ Arith.floor (b + fin e) := by
  have hmap (y : ExtRat) (e : ℚ) :
      Arith.floor (y + fin e) = mapFin (fun q => ((q + e).floor : ℚ)) y := by
    cases y with
    | fin q => rw [fin_add, floor_fin]; rfl
    | _ => rfl
  rw [hmap, hmap]
  refine mapFin_mono (fun p q hpq => ?_) h
  have hle : ((p + d).floor : ℚ) ≤ q + e := le_trans (Rat.floor_le _) (by linarith)
  exact_mod_cast Rat.le_floor_iff.mpr hle

theorem smaller_le_both (ha : a ≠ nan) (hb : b ≠ nan) :
    Arith.smaller a b ≤ a ∧ Arith.smaller a b ≤ b := by
  unfold Arith.smaller
  split
  · exact ⟨ExtRat.le_of_lt ‹_›, ExtRat.le_refl hb⟩
  · exact ⟨ExtRat.le_refl ha, (not_lt_iff hb ha).mp ‹_›⟩

theorem both_le_larger (ha : a ≠ nan) (hb : b ≠ nan) :
    a ≤ Arith.larger a b ∧ b ≤ Arith.larger a b := by
  unfold Arith.larger
  split
  · exact ⟨ExtRat.le_of_lt ‹_›, ExtRat.le_refl hb⟩
  · exact ⟨ExtRat.le_refl ha, (not_lt_iff ha hb).mp ‹_›⟩

end Numbers

section Variables

/-- The variable with the integral bounds that rounding begins with. -/
def starting (eps : ℚ) (v : Variable ExtRat) : Variable ExtRat :=
  { v with
    lb := (integralDomain (fin eps) (v.lb, v.ub)).1
    ub := (integralDomain (fin eps) (v.lb, v.ub)).2 }

/-- The variable with bounds around its own and around those that rounding begins with. -/
def widened (eps : ℚ) (v : Variable ExtRat) : Variable ExtRat :=
  { v with
    lb := Arith.smaller v.lb (starting eps v).lb
    ub := Arith.larger v.ub (starting eps v).ub }

theorem starting_ne_nan (h : v.lb ≤ v.ub) :
    (starting eps v).lb ≠ nan ∧ (starting eps v).ub ≠ nan :=
  ⟨(ne_nan_of_le (ceil_sub_mono (ExtRat.le_refl (ne_nan_of_le h).1) le_rfl)).1,
    (ne_nan_of_le (floor_add_mono (ExtRat.le_refl (ne_nan_of_le h).2) le_rfl)).1⟩

/-- Widened bounds, rounded inwards, are those that rounding begins with. -/
theorem nested_widened (h : v.lb ≤ v.ub) (hsmall : eps < 1 / 2) :
    Nested eps (widened eps v) (starting eps v) := by
  obtain ⟨hlb, hub⟩ := ne_nan_of_le h
  obtain ⟨hlo, hhi⟩ : (starting eps v).lb ≠ nan ∧ (starting eps v).ub ≠ nan := starting_ne_nan h
  refine ⟨(smaller_le_both hlb hlo).2, (both_le_larger hub hhi).2, fun l hl => ?_, fun u hu => ?_⟩
  · dsimp only [widened] at hl
    unfold Arith.smaller at hl
    split at hl
    · exact le_ceil_of_le (integral_of_noFraction (noFraction_ceil _) hlo) hl hsmall
    · exact ceil_sub_mono hl le_rfl
  · dsimp only [widened] at hu
    unfold Arith.larger at hu
    split at hu
    · exact floor_le_of_le (integral_of_noFraction (noFraction_floor _) hhi) hu hsmall
    · exact floor_add_mono hu le_rfl

/-- Boxes that are proper for the variables are proper for the widened ones. -/
theorem proper_widened (h : ∀ v ∈ vars, v.lb ≤ v.ub) {b : Box ExtRat} (hb : b.Proper vars) :
    b.Proper (vars.map (widened eps)) where
  within := by
    have hlower := (List.forall₂_and_left _ _).mpr ⟨h, hb.within.lower⟩
    have hupper := (List.forall₂_and_left _ _).mpr ⟨h, hb.within.upper⟩
    refine ⟨List.forall₂_map_left_iff.mpr (hlower.imp fun v l hv => ?_),
      List.forall₂_map_left_iff.mpr (hupper.imp fun v u hv => ?_)⟩
    · exact ExtRat.le_trans
        (smaller_le_both (ne_nan_of_le hv.1).1 (starting_ne_nan hv.1).1).1 hv.2
    · exact ExtRat.le_trans hv.2
        (both_le_larger (ne_nan_of_le hv.1).2 (starting_ne_nan hv.1).2).1
  ordered := hb.ordered

end Variables

section Candidates

variable {rows : Rows ExtRat} {start : Box ExtRat} {maxRounds : Int} {p : Propagator ExtRat}
  {tieBreak : TieBreak} {k : Ranker ExtRat} {ws ws' : Workspace ExtRat} {candidate : List ExtRat}

/-- **The values of a candidate are inside the bounds that rounding begins with**, whatever the
rows, the order of the variables and the bounds in force are. -/
theorem takes_of_propagatedPoint (h : t.Lists vars) (horder : InOrder vars) (hpos : 0 < eps)
    (hsmall : eps < 1 / 2) (hordered : ∀ v ∈ vars, v.lb ≤ v.ub) (hx : x.length = vars.length)
    (hstart : start.lb.length = vars.length)
    (hbuild : Propagator.build rows start t.kinds (fin eps) defaultEpsilon maxRounds = .ok p)
    (hp : p.SameRows ws.propagator) (hbox : ws.domain.box.Proper vars)
    (hround : propagatedPoint tieBreak (fin eps) t k (x.map fin) ws = .ok candidate ws') :
    List.Forall₂ (fun v => (starting eps v).Takes) (vars.filter (·.kind.isIntegral)) candidate := by
  obtain ⟨bounds, order, progress, s, -, hranked, -⟩ := ranked_of_propagatedPoint hround
  have hthousandth : (defaultEpsilon : ExtRat) = fin (1 / 1000) := by decide +kernel
  have hlen : (vars.map (widened eps)).length = vars.length := List.length_map ..
  have hworks : p.Works Fault.Emptied (·.Proper (vars.map (widened eps)))
      (vars.map (widened eps)).length :=
    works_of_build hbuild (by rw [hlen]; exact h.short horder) (by rw [hlen, hstart])
      (by rw [h.kinds, List.length_map, hlen]) ⟨eps, rfl, hpos.le⟩
      ⟨_, hthousandth, by norm_num⟩
  rcases tries_propagatedPoint_of_nested h horder
    (fun v hv _ => nested_widened (hordered v hv) hsmall) hx tieBreak
    ⟨order, progress, hranked, Ranker.perm_of_rank hranked⟩ (proper_widened hordered hbox)
    (hworks.of_sameRows hp) with ⟨candidate', ws'', hok, htakes⟩ | ⟨e, ws'', herror, -⟩
  · rw [hround] at hok
    cases hok
    exact htakes
  · rw [hround] at herror
    cases herror

/-- The bounds that rounding begins with are inside those of the table. -/
structure Sheltered (eps : ℚ) (v : Variable ExtRat) : Prop where
  lower : Table.integralLower v.lb ≤ (starting eps v).lb
  upper : (starting eps v).ub ≤ Table.integralUpper v.ub

/-- Then its values pass the check. -/
theorem check_of_sheltered (h : t.Lists vars) (horder : InOrder vars)
    (hsheltered : ∀ v ∈ vars, v.kind.isIntegral = true → Sheltered eps v)
    (htakes : List.Forall₂ (fun v => (starting eps v).Takes) (vars.filter (·.kind.isIntegral))
      candidate) : t.check candidate = .ok () := by
  have hmem : ∀ v ∈ vars.filter (·.kind.isIntegral), Sheltered eps v := fun v hv =>
    hsheltered v (List.mem_filter.mp hv).1 (List.mem_filter.mp hv).2
  refine (check_iff_forall₂ h horder).mpr
    (((List.forall₂_and_left _ _).mpr ⟨hmem, htakes⟩).imp fun v y hv => ?_)
  obtain ⟨hshelter, htake⟩ := hv
  exact ⟨beq_rint_of_noFraction htake.whole (ne_nan_of_le htake.lower).2,
    ExtRat.le_trans hshelter.lower htake.lower, ExtRat.le_trans htake.upper hshelter.upper⟩

end Candidates

section Misses

variable {tieBreak : TieBreak} {n : ℤ}

theorem integralLower_def (l : ExtRat) :
    Table.integralLower l = Arith.ceil (l - fin (1 / 10 ^ 9)) := by
  unfold Table.integralLower
  rw [tenth_nine]

theorem integralUpper_def (u : ExtRat) :
    Table.integralUpper u = Arith.floor (u + fin (1 / 10 ^ 9)) := by
  unfold Table.integralUpper
  rw [tenth_nine]

/-- With the tolerance of the table or a smaller one every variable is sheltered. -/
theorem sheltered_of_le (hle : eps ≤ 1 / 10 ^ 9) (hv : v.lb ≤ v.ub) : Sheltered eps v where
  lower := by
    rw [integralLower_def]
    exact ceil_sub_mono (ExtRat.le_refl (ne_nan_of_le hv).1) hle
  upper := by
    rw [integralUpper_def]
    exact floor_add_mono (ExtRat.le_refl (ne_nan_of_le hv).2) hle

/-- With a greater one there is room to round in wherever the table leaves room. -/
theorem hasRoom_of_le (hle : 1 / 10 ^ 9 ≤ eps) (hv : v.lb ≤ v.ub)
    (hroom : Table.integralLower v.lb ≤ Table.integralUpper v.ub) : HasRoom eps v := by
  rw [integralLower_def, integralUpper_def] at hroom
  exact ExtRat.le_trans (ceil_sub_mono (ExtRat.le_refl (ne_nan_of_le hv).1) hle)
    (ExtRat.le_trans hroom (floor_add_mono (ExtRat.le_refl (ne_nan_of_le hv).2) hle))

/-- An integer inside the bounds that rounding begins with is its own rounding. -/
theorem ownValue_of_between (hlo : (starting eps v).lb ≤ fin n) (hhi : fin n ≤ (starting eps v).ub)
    (hsmall : eps < 1 / 2) : ownValue tieBreak eps v n = fin n :=
  nearestValue_of_whole (clampKeep_of_between hlo hhi) hsmall tieBreak

/-- Only a finite bound is rounded in two ways. -/
theorem exists_lb_eq (hne : (starting eps v).lb ≠ nan)
    (h : ¬ Table.integralLower v.lb ≤ (starting eps v).lb) :
    ∃ n : ℤ, (starting eps v).lb = fin n := by
  rw [integralLower_def] at h
  dsimp only [starting, integralDomain] at h hne ⊢
  cases hlb : v.lb with
  | fin q => exact ⟨(q - eps).ceil, by rw [fin_sub, ceil_fin]⟩
  | nan => exact absurd (by rw [hlb]; rfl) hne
  | _ => exact absurd (by rw [hlb]; exact ExtRat.le_refl nofun) h

theorem exists_ub_eq (hne : (starting eps v).ub ≠ nan)
    (h : ¬ (starting eps v).ub ≤ Table.integralUpper v.ub) :
    ∃ n : ℤ, (starting eps v).ub = fin n := by
  rw [integralUpper_def] at h
  dsimp only [starting, integralDomain] at h hne ⊢
  cases hub : v.ub with
  | fin q => exact ⟨(q + eps).floor, by rw [fin_add, floor_fin]⟩
  | nan => exact absurd (by rw [hub]; rfl) hne
  | _ => exact absurd (by rw [hub]; exact ExtRat.le_refl nofun) h

/-- A variable that is not sheltered is rounded from some integer to a value outside of the bounds
of the table. -/
theorem exists_ownValue_outside (hroom : HasRoom eps v) (hsmall : eps < 1 / 2)
    (hv : ¬ Sheltered eps v) (tieBreak : TieBreak) :
    ∃ n : ℤ, ¬ (Table.integralLower v.lb ≤ ownValue tieBreak eps v n ∧
      ownValue tieBreak eps v n ≤ Table.integralUpper v.ub) := by
  have hle : (starting eps v).lb ≤ (starting eps v).ub := hroom
  obtain ⟨hlo, hhi⟩ := ne_nan_of_le hle
  by_cases hlower : Table.integralLower v.lb ≤ (starting eps v).lb
  · have hupper : ¬ (starting eps v).ub ≤ Table.integralUpper v.ub := fun h => hv ⟨hlower, h⟩
    obtain ⟨n, hn⟩ := exists_ub_eq hhi hupper
    rw [hn] at hle hhi hupper
    refine ⟨n, fun hboth => hupper ?_⟩
    rw [ownValue_of_between hle (hn.symm ▸ ExtRat.le_refl hhi) hsmall] at hboth
    exact hboth.2
  · obtain ⟨n, hn⟩ := exists_lb_eq hlo hlower
    rw [hn] at hle hlo hlower
    refine ⟨n, fun hboth => hlower ?_⟩
    rw [ownValue_of_between (hn.symm ▸ ExtRat.le_refl hlo) hle hsmall] at hboth
    exact hboth.1

/-- A candidate with such a value fails the check. -/
theorem check_ne_ok_of_outside (h : t.Lists vars) (horder : InOrder vars) {candidate : List ExtRat}
    (hown : List.Forall₂ (OwnValueAt tieBreak eps vars (List.replicate vars.length (n : ℚ)))
      t.integers candidate)
    (hmem : v ∈ vars) (hint : v.kind.isIntegral = true)
    (hn : ¬ (Table.integralLower v.lb ≤ ownValue tieBreak eps v n ∧
      ownValue tieBreak eps v n ≤ Table.integralUpper v.ub)) : t.check candidate ≠ .ok () := by
  intro hcheck
  rw [h.integers, List.forall₂_map_left_iff] at hown
  have hbetween := (check_iff_forall₂ h horder).mp hcheck
  have hfilter : v ∈ vars.filter (·.kind.isIntegral) := List.mem_filter.mpr ⟨hmem, hint⟩
  obtain ⟨i, hi, hvi⟩ := List.getElem_of_mem hfilter
  have hi' : i < candidate.length := hown.length_eq ▸ hi
  obtain ⟨w, q, hw, hq, hvalue⟩ := hown.get hi hi'
  have hchecked := (hbetween.get hi hi').2
  simp only [List.get_eq_getElem, hvi] at hw hvalue hchecked
  obtain rfl := Option.some.inj ((at?_index horder hmem).symm.trans hw)
  obtain rfl : q = n := List.eq_of_mem_replicate (Vec.mem_of_at? hq)
  rw [hvalue] at hchecked
  exact hn hchecked

/-- Without rows every point is rounded in the bounds of the variables. -/
theorem exists_rounding (h : t.Lists vars) (horder : InOrder vars)
    (hordered : ∀ v ∈ vars, v.lb ≤ v.ub)
    (hroom : ∀ v ∈ vars, v.kind.isIntegral = true → HasRoom eps v)
    (hx : x.length = vars.length) (tieBreak : TieBreak) (progress : Progress ExtRat) :
    ∃ (rows : Rows ExtRat) (p : Propagator ExtRat) (k : Ranker ExtRat) (candidate : List ExtRat)
      (ws' : Workspace ExtRat),
      Propagator.build rows ⟨t.lb, t.ub⟩ t.kinds (fin eps) defaultEpsilon defaultRounds = .ok p ∧
      propagatedPoint tieBreak (fin eps) t k (x.map fin) ⟨{ box := ⟨t.lb, t.ub⟩ }, progress, p⟩ =
        .ok candidate ws' ∧
      List.Forall₂ (OwnValueAt tieBreak eps vars x) t.integers candidate := by
  let start : Box ExtRat := ⟨t.lb, t.ub⟩
  have hstart : start.lb.length = vars.length := by
    dsimp only [start]
    rw [h.lb, List.length_map]
  have hshaped : Rows.Shaped vars.length ({ coefficients := [], senses := [], rhs := [] } :
      Rows ExtRat) := ⟨by simp, rfl, rfl⟩
  obtain ⟨p, hp⟩ := exists_build hshaped hstart t.kinds (fin eps) defaultEpsilon defaultRounds
  let k : Ranker ExtRat :=
    { policy := .displacement, visitPenalty := 0, eps := fin eps, lockPressure := none }
  have hlocks : k.policy = .locks →
      ∃ ps, k.lockPressure = some ps ∧ ps.length = t.numIntegers := nofun
  have hfits : k.policy = .random → (t.numIntegers : Int) < Progress.countLimit := nofun
  have hrank : ∃ order q, k.rank t (x.map fin) none progress = .ok order q ∧
      order.Perm t.integers :=
    Ranker.exists_rank h (by rw [List.length_map, hx]) (by simp) hlocks
      (fun hrandom => Ranker.factorsFit (hfits hrandom)) (by simp)
  let ws : Workspace ExtRat := ⟨{ box := start }, progress, p⟩
  have hrowless : ws.propagator.Rowless vars.length eps := hstart ▸ rowless_of_build hp (by simp)
  have hbox : ws.domain.box = ⟨vars.map (·.lb), vars.map (·.ub)⟩ := by
    dsimp only [ws, start]
    rw [h.lb, h.ub]
  obtain ⟨candidate, ws', hround, hown⟩ := exists_propagatedPoint_of_rowless h horder hx hordered
    hroom tieBreak hrank hrowless hbox
  exact ⟨_, p, k, candidate, ws', hp, hround, hown⟩

/-- **If some variable is not sheltered, some point is rounded to a candidate that fails the
check**, without any rows. -/
theorem exists_failing_of_not_sheltered (h : t.Lists vars) (horder : InOrder vars)
    (hsmall : eps < 1 / 2) (hordered : ∀ v ∈ vars, v.lb ≤ v.ub)
    (hroom : ∀ v ∈ vars, v.kind.isIntegral = true →
      Table.integralLower v.lb ≤ Table.integralUpper v.ub)
    (hmem : v ∈ vars) (hint : v.kind.isIntegral = true) (hv : ¬ Sheltered eps v)
    (tieBreak : TieBreak) (progress : Progress ExtRat) :
    ∃ (rows : Rows ExtRat) (p : Propagator ExtRat) (k : Ranker ExtRat) (x : List ℚ)
      (candidate : List ExtRat) (ws' : Workspace ExtRat),
      Propagator.build rows ⟨t.lb, t.ub⟩ t.kinds (fin eps) defaultEpsilon defaultRounds = .ok p ∧
      x.length = vars.length ∧
      propagatedPoint tieBreak (fin eps) t k (x.map fin) ⟨{ box := ⟨t.lb, t.ub⟩ }, progress, p⟩ =
        .ok candidate ws' ∧ t.check candidate ≠ .ok () := by
  have hgreater : 1 / 10 ^ 9 ≤ eps := by
    by_contra hless
    exact hv (sheltered_of_le (not_le.mp hless).le (hordered v hmem))
  have hrooms : ∀ w ∈ vars, w.kind.isIntegral = true → HasRoom eps w := fun w hw hwint =>
    hasRoom_of_le hgreater (hordered w hw) (hroom w hw hwint)
  obtain ⟨n, hn⟩ := exists_ownValue_outside (hrooms v hmem hint) hsmall hv tieBreak
  have hx : (List.replicate vars.length (n : ℚ)).length = vars.length := List.length_replicate
  obtain ⟨rows, p, k, candidate, ws', hbuild, hround, hown⟩ :=
    exists_rounding h horder hordered hrooms hx tieBreak progress
  exact ⟨rows, p, k, _, candidate, ws', hbuild, hx, hround,
    check_ne_ok_of_outside h horder hown hmem hint hn⟩

/-- **Every candidate of rounding with propagation passes the check exactly if every integer
variable is sheltered.**  The rows, the rankers, the points and the bounds in force are all there
are. -/
theorem candidates_pass_iff (ht : Table.ofVariables vars = .ok t) (horder : InOrder vars)
    (hpos : 0 < eps) (hsmall : eps < 1 / 2) (hordered : ∀ v ∈ vars, v.lb ≤ v.ub)
    (hroom : ∀ v ∈ vars, v.kind.isIntegral = true →
      Table.integralLower v.lb ≤ Table.integralUpper v.ub)
    (tieBreak : TieBreak) (progress : Progress ExtRat) :
    (∀ (rows : Rows ExtRat) (p q : Propagator ExtRat) (k : Ranker ExtRat) (x : List ℚ)
      (d : Domain ExtRat) (candidate : List ExtRat) (ws' : Workspace ExtRat),
      Propagator.build rows ⟨t.lb, t.ub⟩ t.kinds (fin eps) defaultEpsilon defaultRounds = .ok p →
      p.SameRows q → x.length = vars.length → d.box.Proper vars →
      propagatedPoint tieBreak (fin eps) t k (x.map fin) ⟨d, progress, q⟩ = .ok candidate ws' →
      t.check candidate = .ok ()) ↔
    ∀ v ∈ vars, v.kind.isIntegral = true → Sheltered eps v := by
  have h := Table.lists_of_ofVariables ht
  constructor
  · intro hpass v hmem hint
    by_contra hv
    obtain ⟨rows, p, k, x, candidate, ws', hbuild, hx, hround, hfails⟩ :=
      exists_failing_of_not_sheltered h horder hsmall hordered hroom hmem hint hv tieBreak
        progress
    refine hfails (hpass rows p p k x { box := ⟨t.lb, t.ub⟩ } candidate ws' hbuild
      (Propagator.SameRows.refl p) hx ?_ hround)
    rw [h.lb, h.ub]
    exact Box.proper_own hordered
  · intro hsheltered rows p q k x d candidate ws' hbuild hq hx hbox hround
    refine check_of_sheltered h horder hsheltered (takes_of_propagatedPoint h horder hpos hsmall
      hordered hx ?_ hbuild hq hbox hround)
    rw [h.lb, List.length_map]

/-- Integer variables between `1/2` and `5/2`, and between `0` and `3`, with the row `a + b ≤ 4`. -/
def halfBounds : List (Variable ExtRat) × Rows ExtRat :=
  ( [ { index := 0, lb := .fin (1 / 2), ub := .fin (5 / 2), kind := .integer, cost := .fin 0 }
    , { index := 1, lb := .fin 0, ub := .fin 3, kind := .integer, cost := .fin 0 } ]
  , { coefficients := [[.fin 1, .fin 1]], senses := [.atMost], rhs := [.fin 4] } )

/-- With bounds that are no integers but away from them every candidate passes, such as that of the
point `(1/2, 14/5)`. -/
theorem candidates_pass_iff_halfBounds :
    ∃ t p progress k ws' candidate, Table.ofVariables halfBounds.1 = .ok t ∧
      InOrder halfBounds.1 ∧ (∀ v ∈ halfBounds.1, v.lb ≤ v.ub) ∧
      (∀ v ∈ halfBounds.1, v.kind.isIntegral = true →
        Table.integralLower v.lb ≤ Table.integralUpper v.ub) ∧
      (∀ v ∈ halfBounds.1, v.kind.isIntegral = true → Sheltered (1 / 1000000) v) ∧
      Propagator.build halfBounds.2 ⟨t.lb, t.ub⟩ t.kinds (fin (1 / 1000000)) defaultEpsilon
        defaultRounds = .ok p ∧
      propagatedPoint .range (fin (1 / 1000000)) t k ([1 / 2, 14 / 5].map fin)
        ⟨{ box := ⟨t.lb, t.ub⟩ }, progress, p⟩ = .ok candidate ws' ∧
      t.check candidate = .ok () := by
  obtain ⟨candidate, hcandidate⟩ : ∃ candidate,
      roundingOf halfBounds.1 halfBounds.2 (1 / 1000000) [1 / 2, 14 / 5] = .ok candidate :=
    Act.exists_ok_of_isOk (by decide +kernel)
  obtain ⟨t, p, progress, k, ws', ht, hbuild, hround⟩ := roundingOf_eq_ok hcandidate
  have hordered : ∀ v ∈ halfBounds.1, v.lb ≤ v.ub := by decide +kernel
  have hroom : ∀ v ∈ halfBounds.1, v.kind.isIntegral = true →
      Table.integralLower v.lb ≤ Table.integralUpper v.ub := by decide +kernel
  have hsheltered : ∀ v ∈ halfBounds.1, v.kind.isIntegral = true → Sheltered (1 / 1000000) v := by
    have hboth : ∀ v ∈ halfBounds.1, Table.integralLower v.lb ≤ (starting (1 / 1000000) v).lb ∧
        (starting (1 / 1000000) v).ub ≤ Table.integralUpper v.ub := by decide +kernel
    exact fun v hv _ => ⟨(hboth v hv).1, (hboth v hv).2⟩
  have hlists := Table.lists_of_ofVariables ht
  have hproper : Box.Proper halfBounds.1 ⟨t.lb, t.ub⟩ := by
    rw [hlists.lb, hlists.ub]
    exact Box.proper_own hordered
  exact ⟨t, p, progress, k, ws', candidate, ht, rfl, hordered, hroom, hsheltered, hbuild, hround,
    (candidates_pass_iff ht rfl (by norm_num) (by norm_num) hordered hroom .range progress).mpr
      hsheltered _ p p k _ _ candidate ws' hbuild (Propagator.SameRows.refl p) rfl hproper hround⟩

/-- One integer variable between `1/2000000` and `1`. -/
def narrowMiss : List (Variable ExtRat) × Rows ExtRat :=
  ( [ { index := 0, lb := .fin (1 / 2000000), ub := .fin 1, kind := .integer, cost := .fin 0 } ]
  , { coefficients := [], senses := [], rhs := [] } )

/-- The variable is rounded to zero, where only one is inside its integral bounds. -/
theorem propagatedPoint_narrowMiss :
    ∃ t p progress k ws', Table.ofVariables narrowMiss.1 = .ok t ∧ InOrder narrowMiss.1 ∧
      (∀ v ∈ narrowMiss.1, v.lb ≤ v.ub) ∧
      (∀ v ∈ narrowMiss.1, v.kind.isIntegral = true →
        Table.integralLower v.lb ≤ Table.integralUpper v.ub) ∧
      Propagator.build narrowMiss.2 ⟨t.lb, t.ub⟩ t.kinds (fin (1 / 1000000)) defaultEpsilon
        defaultRounds = .ok p ∧
      propagatedPoint .range (fin (1 / 1000000)) t k ([1 / 5].map fin)
        ⟨{ box := ⟨t.lb, t.ub⟩ }, progress, p⟩ = .ok [fin 0] ws' ∧
      t.check [fin 0] = .error (.badCandidate .outsideBounds) := by
  have hsome : (roundingOf narrowMiss.1 narrowMiss.2 (1 / 1000000) [1 / 5]).toOption =
      some [fin 0] := by decide +kernel
  obtain ⟨candidate, hcandidate⟩ : ∃ candidate,
      roundingOf narrowMiss.1 narrowMiss.2 (1 / 1000000) [1 / 5] = .ok candidate :=
    Act.exists_ok_of_isOk (by decide +kernel)
  obtain rfl : candidate = [fin 0] := by
    rw [hcandidate] at hsome
    exact Option.some.inj hsome
  obtain ⟨t, p, progress, k, ws', ht, hbuild, hround⟩ := roundingOf_eq_ok hcandidate
  have hdefect : ((Table.ofVariables narrowMiss.1).map fun t => t.defect? [fin 0]).toOption =
      some (some .outsideBounds) := by decide +kernel
  rw [ht] at hdefect
  have hcheck : t.check [fin 0] = .error (.badCandidate .outsideBounds) := by
    have hdefect' : t.defect? [fin 0] = some .outsideBounds := Option.some.inj hdefect
    unfold Table.check
    rw [hdefect']
  exact ⟨t, p, progress, k, ws', ht, rfl, by decide +kernel, by decide +kernel, hbuild, hround,
    hcheck⟩

end Misses

end Rounding

end MipPump
