import MipPump.Proofs.ValidPerturbations

/-!
# Perturbations that change the candidate

A perturbation moves the variables that rank highest, and a variable moves exactly if its integral
bounds leave room.  The ranking does not look at the bounds, so that it may put fixed variables
first.

* `Table.HasRoom t j`: the integral bounds of the variable differ.
* `Flips.changes_iff`: flipped variables change the candidate exactly if one of them has room.
* `perturb_changes_iff`: the same of the variables that a perturbation flips.  In particular it
  changes the candidate if fewer variables are fixed than are flipped.
* `perturb_keeps_fixedFirst`: a perturbation that flips a fixed variable only, next to one with
  room.
-/

namespace MipPump

open ExtRat

/-- The integral bounds of an integer variable leave room. -/
def Table.HasRoom (t : Table ExtRat) (j : Int) : Prop :=
  ∃ (k : ℕ) (lb ub : ExtRat), t.integers[k]? = some j ∧ t.intLb[k]? = some lb ∧
    t.intUb[k]? = some ub ∧ lb < ub

theorem Table.Lists.hasRoom_iff {vars : List (Variable ExtRat)} {t : Table ExtRat}
    (h : t.Lists vars) (horder : InOrder vars) {i : ℕ} {j : Int} (hj : t.integers[i]? = some j)
    {lb ub : ExtRat} (hlb : t.intLb[i]? = some lb) (hub : t.intUb[i]? = some ub) :
    t.HasRoom j ↔ lb < ub := by
  constructor
  · rintro ⟨i', lb', ub', hj', hlb', hub', hlt⟩
    obtain ⟨hi, -⟩ := List.getElem?_eq_some_iff.mp hj
    obtain rfl := (List.getElem?_inj hi (h.nodup_integers horder)).mp (hj.trans hj'.symm)
    obtain rfl := Option.some.inj (hlb.symm.trans hlb')
    obtain rfl := Option.some.inj (hub.symm.trans hub')
    exact hlt
  · exact fun hlt => ⟨i, lb, ub, hj, hlb, hub, hlt⟩

namespace Perturber

variable {s : Settings ExtRat} {vars : List (Variable ExtRat)} {t : Table ExtRat}
  {k : Ranker ExtRat} {x c : List ℚ} {p : Progress ExtRat} {share : ℚ}

section Flips

variable {selected : List Int} {m : Perturbed ExtRat}

/-- The place of a variable is written exactly if the variable is selected. -/
theorem Flips.mem_positions_iff (h : t.Lists vars) (horder : InOrder vars)
    (hflips : Flips s vars t x c selected m) {i : ℕ} {j : Int} (hj : t.integers[i]? = some j) :
    (i : Int) ∈ m.positions ↔ j ∈ selected := by
  constructor
  · intro hi
    obtain ⟨j', hj', i', hi', hindex⟩ := Vec.exists_of_mem_left hflips.placed.flip hi
    obtain rfl := Int.ofNat.inj hi'
    obtain rfl := Option.some.inj (hj.symm.trans hindex)
    exact hj'
  · intro hselected
    obtain ⟨_, hmem, i', rfl, hindex⟩ := Vec.exists_of_mem_left hflips.placed hselected
    obtain ⟨hlt, -⟩ := List.getElem?_eq_some_iff.mp hj
    obtain rfl := (List.getElem?_inj hlt (h.nodup_integers horder)).mp (hj.trans hindex.symm)
    exact hmem

/-- The entry of a variable changes exactly if the variable is flipped and has room. -/
theorem Flips.entry_changes_iff (h : t.Lists vars) (horder : InOrder vars)
    (hx : x.length = vars.length) (hc : c.length = t.numIntegers)
    (hflips : Flips s vars t x c selected m) {i : ℕ} {j : Int} (hj : t.integers[i]? = some j) :
    m.candidate[i]? ≠ (c.map fin)[i]? ↔ j ∈ selected ∧ t.HasRoom j := by
  obtain ⟨d, hd, hentries⟩ := hflips.entries
  have hdlen : d.length = t.numIntegers := by
    rw [← (check_iff.mp hflips.checked).1, hd, List.length_map]
  have hi : i < t.numIntegers := (List.getElem?_eq_some_iff.mp hj).1
  obtain ⟨lb, ub, q, current, hlb, hub, hq, hcurrent⟩ := exists_at_place h hx hc hi
  obtain ⟨moved, hmoved⟩ : ∃ moved, d[i]? = some moved :=
    ⟨d.get ⟨i, hdlen ▸ hi⟩, List.getElem?_eq_getElem _⟩
  have hentry := hentries i lb ub q current moved hlb hub hq hcurrent hmoved
  rw [hd, List.getElem?_map, List.getElem?_map, hmoved, hcurrent, h.hasRoom_iff horder hj hlb hub,
    ← hflips.mem_positions_iff h horder hj]
  have hsame : (some moved).map fin ≠ (some current).map fin ↔ moved ≠ current :=
    not_congr ⟨fun heq => ExtRat.fin.inj (Option.some.inj heq), fun heq => by rw [heq]⟩
  rw [hsame]
  split at hentry
  case isTrue hmem => exact hentry.moves.trans (and_iff_right hmem).symm
  case isFalse hnot => exact iff_of_false (fun hne => hne hentry) fun hboth => hnot hboth.1

/-- Flipped variables change the candidate exactly if one of them has room. -/
theorem Flips.changes_iff (h : t.Lists vars) (horder : InOrder vars) (hx : x.length = vars.length)
    (hc : t.check (c.map fin) = .ok ()) (hflips : Flips s vars t x c selected m) :
    m.candidate ≠ c.map fin ↔ ∃ j ∈ selected, t.HasRoom j := by
  have hlen : c.length = t.numIntegers := by rw [← (check_iff.mp hc).1, List.length_map]
  constructor
  · intro hne
    obtain ⟨i, hi⟩ : ∃ i, m.candidate[i]? ≠ (c.map fin)[i]? := by
      by_contra hall
      exact hne (List.ext_getElem? fun i => not_not.mp fun hi => hall ⟨i, hi⟩)
    have hlt : i < t.integers.length := by
      by_contra hge
      have hmlen := (check_iff.mp hflips.checked).1
      have hclen := (check_iff.mp hc).1
      rw [Table.numIntegers] at hmlen hclen
      exact hi (by rw [List.getElem?_eq_none (by omega), List.getElem?_eq_none (by omega)])
    have hj := List.getElem?_eq_getElem hlt
    obtain ⟨hmem, hroom⟩ := (hflips.entry_changes_iff h horder hx hlen hj).mp hi
    exact ⟨_, hmem, hroom⟩
  · rintro ⟨j, hmem, hroom⟩ heq
    obtain ⟨i, -, -, hj, -⟩ := id hroom
    exact (hflips.entry_changes_iff h horder hx hlen hj).mpr ⟨hmem, hroom⟩ (by rw [heq])

end Flips

section Perturbations

/-- A perturbation changes the candidate exactly if one of the variables that it flips has room; it
does so if fewer integer variables are fixed than are flipped. -/
theorem perturb_changes_iff (ht : Table.ofVariables vars = .ok t) (horder : InOrder vars)
    (hfew : (vars.length : Int) < Progress.countLimit)
    (hshare : s.perturbationFraction = fin share) (hle : share ≤ 1)
    (hstep : 1 ≤ s.perturbationStep) {policy : RankingPolicy} {rows : Option (Rows ExtRat)}
    {visitPenalty eps : ExtRat} (hk : Ranker.make policy t rows visitPenalty eps = .ok k)
    (hx : x.length = vars.length) (hc : t.check (c.map fin) = .ok ())
    (hp : p.Tracks t.numIntegers) :
    ∃ count p' order r m q, perturb s t k (x.map fin) (c.map fin) p = .ok m q ∧
      CountsFlips s t.numIntegers (max 1 (share * t.numIntegers).ceil) count ∧ p.Drawn p' ∧
      k.rank t (x.map fin) (some (c.map fin)) p' = .ok order r ∧ order.Perm t.integers ∧
      (m.candidate ≠ c.map fin ↔ ∃ j ∈ order.take count.toNat, t.HasRoom j) ∧
      ∀ fixed : List Int, (∀ j ∈ t.integers, ¬ t.HasRoom j → j ∈ fixed) →
        (fixed.length : Int) < count → m.candidate ≠ c.map fin := by
  have h := Table.lists_of_ofVariables ht
  obtain ⟨hpolicy, hlocks⟩ := Ranker.make_eq_ok hk
  rw [← hpolicy] at hlocks
  have hfits : (t.numIntegers : Int) < Progress.countLimit :=
    (Nat.cast_le.mpr h.numIntegers_le).trans_lt hfew
  obtain ⟨m, q, hperturb, count, p', hdrawn, -, hcounts, order, r, hrank, -, -, hperm, hflips⟩ :=
    exists_perturb h horder hfew hshare (drawsFit_of_le_one s hle hfits) hstep hlocks hx hc hp
  have hiff := hflips.changes_iff h horder hx hc
  refine ⟨count, p', order, r, m, q, hperturb, hcounts, hdrawn, hrank, hperm, hiff,
    fun fixed hfixed hless => hiff.mpr ?_⟩
  by_contra hnone
  have hsubset : order.take count.toNat ⊆ fixed := fun j hj =>
    hfixed j (hperm.mem_iff.mp (List.mem_of_mem_take hj)) fun hroom => hnone ⟨j, hj, hroom⟩
  have hle := (List.subperm_of_subset hflips.distinct hsubset).length_le
  have hlen : order.length = t.numIntegers := hperm.length_eq
  have hcount : count ≤ t.numIntegers := hcounts.le
  rw [List.length_take] at hle
  omega

/-- A fixed integer variable before a binary one. -/
def fixedFirst : List (Variable ExtRat) :=
  [ { index := 0, lb := .fin 0, ub := .fin 0, kind := .integer, cost := .fin 0 }
  , { index := 1, lb := .fin 0, ub := .fin 1, kind := .integer, cost := .fin 0 } ]

/-- The candidate `(0, 0)` passes the check, and the second variable has room. -/
theorem hasRoom_fixedFirst (h : t.Lists fixedFirst) :
    t.check ([0, 0].map fin) = .ok () ∧ t.HasRoom 1 := by
  have horder : InOrder fixedFirst := rfl
  constructor
  · exact (check_iff_forall₂ h horder).mpr
      (.cons (by decide +kernel) (.cons (by decide +kernel) .nil))
  · exact ⟨1, fin 0, fin 1, by rw [h.integers]; rfl, by rw [h.intLb_eq horder]; decide +kernel,
      by rw [h.intUb_eq horder]; decide +kernel, by decide +kernel⟩

/-- A perturbation of both variables changes the candidate `(0, 0)`. -/
theorem perturb_changes_iff_fixedFirst :
    ∃ (s : Settings ExtRat) (t : Table ExtRat) (k : Ranker ExtRat) (p : Progress ExtRat),
      Table.ofVariables fixedFirst = .ok t ∧ InOrder fixedFirst ∧
      (fixedFirst.length : Int) < Progress.countLimit ∧ s.perturbationFraction = fin 1 ∧
      1 ≤ s.perturbationStep ∧ Ranker.make .displacement t none (fin 0) (fin 0) = .ok k ∧
      t.check ([0, 0].map fin) = .ok () ∧ p.Tracks t.numIntegers ∧
      ∃ m q, perturb s t k ([0, 0].map fin) ([0, 0].map fin) p = .ok m q ∧
        m.candidate ≠ [0, 0].map fin := by
  obtain ⟨t, ht⟩ : ∃ t, Table.ofVariables fixedFirst = .ok t :=
    Act.exists_ok_of_isOk (by decide +kernel)
  have h := Table.lists_of_ofVariables ht
  have horder : InOrder fixedFirst := rfl
  have hfew : (fixedFirst.length : Int) < Progress.countLimit := by decide
  have hnum : t.numIntegers = 2 := h.numIntegers_eq
  obtain ⟨k, hk⟩ : ∃ k, Ranker.make .displacement t none (fin 0) (fin 0) = .ok k := ⟨_, rfl⟩
  let s : Settings ExtRat := { perturbationFraction := fin 1 }
  obtain ⟨hc, hroom⟩ := hasRoom_fixedFirst h
  obtain ⟨p, hp⟩ : ∃ p, Progress.start s t.numIntegers = .ok p := ⟨_, rfl⟩
  obtain ⟨count, p', order, r, m, q, hperturb, hcounts, -, -, -, -, hless⟩ :=
    perturb_changes_iff (s := s) ht horder hfew rfl le_rfl le_rfl hk (x := [0, 0]) rfl hc
      (Progress.Tracks.of_start hp)
  refine ⟨s, t, k, p, ht, horder, hfew, rfl, le_rfl, hk, hc, Progress.Tracks.of_start hp, m, q,
    hperturb, hless [0] (fun j hj hfixed => ?_) ?_⟩
  · rw [h.integers] at hj
    rcases List.mem_cons.mp hj with rfl | hj
    · exact List.mem_singleton_self _
    · obtain rfl := List.mem_singleton.mp hj
      exact absurd hroom hfixed
  · rw [hcounts.usual rfl, hnum]
    decide +kernel

/-- The first perturbation of a run. -/
def firstPerturbation (s : Settings ExtRat) (vars : List (Variable ExtRat))
    (point candidate : List ExtRat) : Except (Fault ExtRat) (Perturbed ExtRat) := do
  let t ← Table.ofVariables vars
  let k ← Ranker.make s.ranking t none s.visitPenalty s.toleranceEpsilon
  let p ← Progress.start s t.numIntegers
  ((perturb s t k point candidate).split p).1

theorem firstPerturbation_eq_ok {point candidate : List ExtRat} {m : Perturbed ExtRat}
    (h : firstPerturbation s vars point candidate = .ok m) :
    ∃ t k p q, Table.ofVariables vars = .ok t ∧
      Ranker.make s.ranking t none s.visitPenalty s.toleranceEpsilon = .ok k ∧
      Progress.start s t.numIntegers = .ok p ∧ perturb s t k point candidate p = .ok m q := by
  unfold firstPerturbation at h
  obtain ⟨t, ht, h⟩ := Act.exceptBind_eq_ok.mp h
  obtain ⟨k, hk, h⟩ := Act.exceptBind_eq_ok.mp h
  obtain ⟨p, hp, h⟩ := Act.exceptBind_eq_ok.mp h
  obtain ⟨q, hperturb⟩ := Act.exists_of_split h
  exact ⟨t, k, p, q, ht, hk, hp, hperturb⟩

/-- With the usual options the perturbation flips the fixed variable only, although the other one
has room. -/
theorem perturb_keeps_fixedFirst :
    ∃ t k p m q, Table.ofVariables fixedFirst = .ok t ∧ InOrder fixedFirst ∧
      ({} : Settings ExtRat).requested.toSettings = .ok {} ∧
      Box.Contains ⟨t.lb, t.ub⟩ [0, 0] ∧ t.check ([0, 0].map fin) = .ok () ∧ t.HasRoom 1 ∧
      Ranker.make .displacement t none (Arith.tenth 1) (Arith.tenth 6) = .ok k ∧
      Progress.start {} t.numIntegers = .ok p ∧
      perturb {} t k ([0, 0].map fin) ([0, 0].map fin) p = .ok m q ∧
      m.positions = [0] ∧ m.candidate = [0, 0].map fin := by
  have hvalue : (firstPerturbation {} fixedFirst ([0, 0].map fin) ([0, 0].map fin)).toOption.map
      (fun m => (m.positions, m.candidate)) = some ([0], [fin 0, fin 0]) := by decide +kernel
  obtain ⟨m, hm⟩ : ∃ m, firstPerturbation {} fixedFirst ([0, 0].map fin) ([0, 0].map fin) = .ok m :=
    Act.exists_ok_of_isOk (by decide +kernel)
  rw [hm] at hvalue
  obtain ⟨hpositions, hcandidate⟩ := Prod.ext_iff.mp (Option.some.inj hvalue)
  obtain ⟨t, k, p, q, ht, hk, hp, hperturb⟩ := firstPerturbation_eq_ok hm
  have h := Table.lists_of_ofVariables ht
  have horder : InOrder fixedFirst := rfl
  have hsettings : ({} : Settings ExtRat).requested.toSettings = .ok {} :=
    Settings.toSettings_requested (by decide +kernel)
  obtain ⟨hc, hroom⟩ := hasRoom_fixedFirst h
  have hpoint : Box.Contains ⟨t.lb, t.ub⟩ [0, 0] := by
    rw [h.lb, h.ub]
    exact ⟨.cons (by decide +kernel) (.cons (by decide +kernel) .nil),
      .cons (by decide +kernel) (.cons (by decide +kernel) .nil)⟩
  exact ⟨t, k, p, m, q, ht, horder, hsettings, hpoint, hc, hroom, hk, hp, hperturb, hpositions,
    hcandidate⟩

end Perturbations

end Perturber

end MipPump
