import MipPump.Proofs.CheckedTargets
import MipPump.Proofs.NearestIntegers
import MipPump.Proofs.Perturbations

/-!
# Entries that a perturbation moves

A perturbation moves an entry by a step towards the value of the point and clamps it into its
integral bounds; a move that the bounds undo goes the other way.

* `Shift step x lb ub current moved`: what a move does to one entry.  The entry changes exactly if
  the bounds leave room, and it goes towards `x` if there is room on that side.
* `clip_above`, `clip_below`: a clamped move makes way exactly if the bound on its side is farther.
* `exists_shift`: every move is such a shift.
* `Flips s vars t x old selected m`: the candidate of `m` is the candidate `old` with the entries of
  the selected variables shifted.
* `exists_flip`: to flip distinct integer variables comes to such a candidate and is counted once.
-/

namespace MipPump

open ExtRat Rounding

namespace Perturber

/-- A move of an entry by at most a step inside its bounds. -/
structure Shift (step : Int) (x : ℚ) (lb ub : ExtRat) (current moved : ℚ) : Prop where
  whole : ∃ n : ℤ, moved = n
  inside : lb ≤ fin moved ∧ fin moved ≤ ub
  moves : moved ≠ current ↔ lb < ub
  near : |moved - current| ≤ step
  up : current < x → fin current < ub → current < moved
  down : x < current → lb < fin current → moved < current

section Values

variable {lb ub : ExtRat} {current y x : ℚ} {step : Int}

/-- A move up makes way exactly if the upper bound is farther. -/
theorem clip_above (hlo : lb ≤ fin current) (hhi : fin current ≤ ub) (h : current < y) :
    current ≤ clip lb ub y ∧ clip lb ub y ≤ y ∧ (current < clip lb ub y ↔ fin current < ub) := by
  have hraised : raised lb y = y := by
    cases lb with
    | fin a => exact max_eq_right (((fin_le_fin _ _).mp hlo).trans h.le)
    | _ => rfl
  unfold clip
  rw [hraised]
  cases ub with
  | fin b =>
      rw [fin_le_fin] at hhi
      rw [fin_lt_fin]
      exact ⟨le_min hhi h.le, min_le_right b y, fun hlt => hlt.trans_le (min_le_left b y),
        fun hlt => lt_min hlt h⟩
  | posInf => exact ⟨h.le, le_rfl, fun _ => fin_lt_posInf current, fun _ => h⟩
  | nan => exact absurd hhi not_le_nan
  | negInf => exact absurd hhi (not_fin_le_negInf current)

/-- A move down makes way exactly if the lower bound is farther. -/
theorem clip_below (hlo : lb ≤ fin current) (hhi : fin current ≤ ub) (h : y < current) :
    clip lb ub y ≤ current ∧ y ≤ clip lb ub y ∧ (clip lb ub y < current ↔ lb < fin current) := by
  have hraised : raised lb y ≤ current ∧ y ≤ raised lb y ∧
      (raised lb y < current ↔ lb < fin current) := by
    cases lb with
    | fin a =>
        rw [fin_le_fin] at hlo
        rw [fin_lt_fin]
        exact ⟨max_le hlo h.le, le_max_right a y, fun hlt => (le_max_left a y).trans_lt hlt,
          fun hlt => max_lt hlt h⟩
    | negInf => exact ⟨h.le, le_rfl, fun _ => negInf_lt_fin current, fun _ => h⟩
    | nan => exact absurd hlo not_nan_le
    | posInf => exact absurd hlo (not_posInf_le_fin current)
  have hlowered : lowered ub (raised lb y) = raised lb y := by
    cases ub with
    | fin b => exact min_eq_right (hraised.1.trans ((fin_le_fin _ _).mp hhi))
    | _ => rfl
  unfold clip
  rwa [hlowered]

theorem exists_clip_intCast (h : IntegralBox lb ub) (n : ℤ) : ∃ m : ℤ, clip lb ub n = m := by
  have hraised : ∃ m : ℤ, raised lb n = m := by
    rcases h.lower_cases with ⟨a, rfl⟩ | rfl
    · exact ⟨max a n, (Int.cast_max).symm⟩
    · exact ⟨n, rfl⟩
  obtain ⟨m, hm⟩ := hraised
  unfold clip
  rw [hm]
  rcases h.upper_cases with ⟨b, rfl⟩ | rfl
  · exact ⟨min b m, (Int.cast_min).symm⟩
  · exact ⟨m, rfl⟩

/-- There is room between the bounds exactly if there is room on one side of an entry. -/
theorem lt_iff_room (hlo : lb ≤ fin current) (hhi : fin current ≤ ub) :
    lb < ub ↔ lb < fin current ∨ fin current < ub := by
  cases lb <;> cases ub <;> simp_all
  constructor
  · intro h
    by_contra hno
    linarith [not_lt.mp (not_or.mp hno).1, not_lt.mp (not_or.mp hno).2]
  · rintro (h | h)
    · exact h.trans_le hhi
    · exact hlo.trans_lt h

/-- A move goes towards the value of the point. -/
theorem moveDirection_cases (x current : ℚ) (lb ub : ExtRat) :
    (moveDirection (fin x) (fin current) lb ub = fin 1 ∧ current ≤ x) ∨
      (moveDirection (fin x) (fin current) lb ub = fin (-1) ∧ x ≤ current) := by
  unfold moveDirection
  dsimp only
  rw [fin_sub, sign_fin, signRat]
  rcases lt_trichotomy current x with h | rfl | h
  · rw [if_pos (sub_pos.mpr h)]
    exact .inl ⟨rfl, h.le⟩
  · have hsame : ((fin 0 : ExtRat) == 0) = true := by simp
    rw [sub_self, if_neg (lt_irrefl 0), if_neg (lt_irrefl 0), if_pos hsame]
    split_ifs
    · exact .inl ⟨rfl, le_rfl⟩
    · exact .inr ⟨rfl, le_rfl⟩
  · rw [if_neg (not_lt.mpr (sub_nonpos.mpr h.le)), if_pos (sub_neg.mpr h)]
    exact .inr ⟨rfl, h.le⟩

/-- A moved value is the clamped target, or the clamped target of the other direction. -/
theorem moveValue_eq {x current d : ℚ} (h : IntegralBox lb ub)
    (hd : moveDirection (fin x) (fin current) lb ub = fin d) :
    moveValue (fin step) (fin x) (fin current) lb ub =
      fin (if clip lb ub (current + d * step) = current then clip lb ub (current - d * step)
        else clip lb ub (current + d * step)) := by
  unfold moveValue
  simp only [hd, fin_mul, fin_add, fin_sub, clampBound_eq_clip h, fin_beq_fin, decide_eq_true_eq,
    ← apply_ite fin]

/-- A move up is a shift if it goes towards the point or there is no room below, and if it makes way
or there is no room below. -/
theorem shift_up {n : ℤ} (hbox : IntegralBox lb ub) (hlo : lb ≤ fin n) (hhi : fin n ≤ ub)
    (hstep : 1 ≤ step) (htoward : n ≤ x ∨ ¬ lb < fin n) (hroom : fin n < ub ∨ ¬ lb < fin n) :
    Shift step x lb ub n (clip lb ub (n + step)) := by
  have hpos : (0 : ℚ) < step := by exact_mod_cast hstep
  obtain ⟨hge, hle, hiff⟩ := clip_above hlo hhi (lt_add_of_pos_right (n : ℚ) hpos)
  have hmoves : clip lb ub (n + step) ≠ n ↔ fin n < ub := by
    rw [← hiff]
    exact ⟨fun hne => lt_of_le_of_ne hge hne.symm, ne_of_gt⟩
  refine ⟨?_, clip_between hbox _, ?_, ?_, fun _ h => hiff.mpr h, fun hx h => ?_⟩
  · exact_mod_cast exists_clip_intCast hbox (n + step)
  · rw [hmoves, lt_iff_room hlo hhi]
    exact ⟨.inr, fun h => hroom.elim id fun hno => h.resolve_left hno⟩
  · rw [abs_of_nonneg (sub_nonneg.mpr hge)]
    linarith
  · exact absurd h (htoward.resolve_left (not_le.mpr hx))

/-- A move down is a shift under the opposite conditions. -/
theorem shift_down {n : ℤ} (hbox : IntegralBox lb ub) (hlo : lb ≤ fin n) (hhi : fin n ≤ ub)
    (hstep : 1 ≤ step) (htoward : x ≤ n ∨ ¬ fin n < ub) (hroom : lb < fin n ∨ ¬ fin n < ub) :
    Shift step x lb ub n (clip lb ub (n - step)) := by
  have hpos : (0 : ℚ) < step := by exact_mod_cast hstep
  obtain ⟨hle, hge, hiff⟩ := clip_below hlo hhi (sub_lt_self (n : ℚ) hpos)
  have hmoves : clip lb ub (n - step) ≠ n ↔ lb < fin n := by
    rw [← hiff]
    exact ⟨fun hne => lt_of_le_of_ne hle hne, ne_of_lt⟩
  refine ⟨?_, clip_between hbox _, ?_, ?_, fun hx h => ?_, fun _ h => hiff.mpr h⟩
  · exact_mod_cast exists_clip_intCast hbox (n - step)
  · rw [hmoves, lt_iff_room hlo hhi]
    exact ⟨.inl, fun h => hroom.elim id fun hno => h.resolve_right hno⟩
  · rw [abs_of_nonpos (sub_nonpos.mpr hle)]
    linarith
  · exact absurd h (htoward.resolve_left (not_le.mpr hx))

/-- Every move of an integer inside its bounds is a shift. -/
theorem exists_shift {n : ℤ} (hbox : IntegralBox lb ub) (hlo : lb ≤ fin n) (hhi : fin n ≤ ub)
    (hstep : 1 ≤ step) (x : ℚ) :
    ∃ moved, moveValue (fin step) (fin x) (fin n) lb ub = fin moved ∧
      Shift step x lb ub n moved := by
  have hpos : (0 : ℚ) < step := by exact_mod_cast hstep
  obtain ⟨hge, -, hup⟩ := clip_above hlo hhi (lt_add_of_pos_right (n : ℚ) hpos)
  obtain ⟨hle, -, hdown⟩ := clip_below hlo hhi (sub_lt_self (n : ℚ) hpos)
  rcases moveDirection_cases x n lb ub with ⟨hd, hx⟩ | ⟨hd, hx⟩
  · refine ⟨_, moveValue_eq hbox hd, ?_⟩
    rw [one_mul]
    split
    case isTrue hstuck =>
      have hno : ¬ fin n < ub := fun h => (hup.mpr h).ne' hstuck
      exact shift_down hbox hlo hhi hstep (.inr hno) (.inr hno)
    case isFalse hmoved =>
      exact shift_up hbox hlo hhi hstep (.inl hx)
        (.inl (hup.mp (lt_of_le_of_ne hge fun h => hmoved h.symm)))
  · refine ⟨_, moveValue_eq hbox hd, ?_⟩
    rw [neg_one_mul, ← sub_eq_add_neg, sub_neg_eq_add]
    split
    case isTrue hstuck =>
      have hno : ¬ lb < fin n := fun h => (hdown.mpr h).ne hstuck
      exact shift_up hbox hlo hhi hstep (.inr hno) (.inr hno)
    case isFalse hmoved =>
      exact shift_down hbox hlo hhi hstep (.inl hx)
        (.inl (hdown.mp (lt_of_le_of_ne hle hmoved)))

end Values

section Candidates

variable {s : Settings ExtRat} {vars : List (Variable ExtRat)} {t : Table ExtRat} {x old : List ℚ}
  {selected : List Int} {m : Perturbed ExtRat}

/-- The perturbed candidate is the candidate `old` with the entries of the selected variables
shifted towards the values of the point `x`. -/
structure Flips (s : Settings ExtRat) (vars : List (Variable ExtRat)) (t : Table ExtRat)
    (x old : List ℚ) (selected : List Int) (m : Perturbed ExtRat) : Prop where
  distinct : selected.Nodup
  placed : List.Forall₂ (fun j (i : Int) => ∃ k : ℕ, i = k ∧ t.integers[k]? = some j)
    selected m.positions
  checked : t.check m.candidate = .ok ()
  entries : ∃ d : List ℚ, m.candidate = d.map fin ∧
    ∀ (k : ℕ) (lb ub : ExtRat) (q current moved : ℚ), t.intLb[k]? = some lb →
      t.intUb[k]? = some ub → (chosen vars x)[k]? = some q → old[k]? = some current →
      d[k]? = some moved →
      if (k : Int) ∈ m.positions then Shift s.perturbationStep q lb ub current moved
      else moved = current

/-- The place of an integer variable holds its index and its value. -/
theorem exists_place_value (h : t.Lists vars) (horder : InOrder vars) (hx : x.length = vars.length)
    {j : Int} (hj : j ∈ t.integers) :
    ∃ (k : ℕ) (q : ℚ), Vec.at? t.position j = some (k : Int) ∧ t.integers[k]? = some j ∧
      (chosen vars x)[k]? = some q ∧ Vec.at? x j = some q := by
  obtain ⟨k, q, hk, hq, hat⟩ := h.exists_place horder hx hj
  obtain ⟨i, hi⟩ := List.mem_iff_getElem?.mp hj
  have hip := h.at?_position (h.distinct horder) hi
  obtain rfl : k = i := Int.ofNat.inj (Option.some.inj (hk.symm.trans hip))
  exact ⟨k, q, hk, hi, hq, hat⟩

theorem nodup_of_forall₂ {α β : Type} {r : α → β → Prop} {xs : List α} {ys : List β}
    (h : List.Forall₂ r xs ys) (hr : ∀ x x' y, r x y → r x' y → x = x') (hxs : xs.Nodup) :
    ys.Nodup := by
  induction h with
  | nil => exact List.nodup_nil
  | @cons x y xs ys hxy hall ih =>
      obtain ⟨hx, hrest⟩ := List.nodup_cons.mp hxs
      refine List.nodup_cons.mpr ⟨fun hy => hx ?_, ih hrest⟩
      obtain ⟨x', hx', hxy'⟩ := Vec.exists_of_mem_left hall.flip hy
      exact hr x x' y hxy hxy' ▸ hx'

theorem integralBox_of_between {lb ub : ExtRat} {n : ℤ} (hlb : NoFraction lb) (hub : NoFraction ub)
    (hlo : lb ≤ fin n) (hhi : fin n ≤ ub) : IntegralBox lb ub :=
  ⟨integral_of_noFraction hlb (ne_nan_of_le hlo).1, integral_of_noFraction hub (ne_nan_of_le hhi).2,
    n, hlo, hhi⟩

/-- The writes of a flip go to the places of the selected variables, and each moves the value that
stands there towards the value of its variable. -/
theorem MovedBy.exists_writes (h : t.Lists vars) (horder : InOrder vars)
    (hx : x.length = vars.length) (hselected : ∀ j ∈ selected, j ∈ t.integers)
    (hmoved : MovedBy s t (x.map fin) (old.map fin) selected m) :
    ∃ writes, (Vec.placeAll (old.map fin) writes : Except (Fault ExtRat) _) = .ok m.candidate ∧
      writes.map (·.1) = m.positions ∧ ∀ w ∈ writes, ∃ k : ℕ, w.1 = k ∧
        ∀ (q current : ℚ) (lb ub : ExtRat), (chosen vars x)[k]? = some q → old[k]? = some current →
          t.intLb[k]? = some lb → t.intUb[k]? = some ub →
          w.2 = moveValue (fin s.perturbationStep) (fin q) (fin current) lb ub := by
  obtain ⟨step, writes, hnumber, hplace, hfst, hwrites⟩ := hmoved.write
  obtain rfl : fin s.perturbationStep = step := Except.ok.inj hnumber
  refine ⟨writes, hplace, hfst, fun w hw => ?_⟩
  obtain ⟨j, hj, x', current', l, u, hpos, hx', hc', hl, hu, hvalue⟩ := hwrites w hw
  obtain ⟨k, value, hplaced, -, hchosen, hat⟩ := exists_place_value h horder hx (hselected j hj)
  have hwk : w.1 = k := Option.some.inj (hpos.symm.trans hplaced)
  rw [hwk, Vec.at?_natCast] at hc' hl hu
  refine ⟨k, hwk, fun q current lb ub hq hcurrent hlb hub => ?_⟩
  obtain rfl : value = q := Option.some.inj (hchosen.symm.trans hq)
  obtain rfl : fin value = x' := Option.some.inj ((Vec.at?_map hat fin).symm.trans hx')
  obtain rfl : fin current = current' := by
    rw [List.getElem?_map, hcurrent] at hc'
    exact Option.some.inj hc'
  obtain rfl := Option.some.inj (hlb.symm.trans hl)
  obtain rfl := Option.some.inj (hub.symm.trans hu)
  exact hvalue

/-- Every place has its bounds, its value in the point and its entry in the candidate. -/
theorem exists_at_place (h : t.Lists vars) (hx : x.length = vars.length)
    (hc : old.length = t.numIntegers) {k : ℕ} (hk : k < t.numIntegers) :
    ∃ lb ub q current, t.intLb[k]? = some lb ∧ t.intUb[k]? = some ub ∧
      (chosen vars x)[k]? = some q ∧ old[k]? = some current := by
  have hread {α : Type} {ys : List α} (hys : ys.length = t.numIntegers) : ∃ y, ys[k]? = some y :=
    ⟨ys.get ⟨k, hys ▸ hk⟩, List.getElem?_eq_getElem _⟩
  obtain ⟨lb, hlb⟩ := hread h.length_intLb
  obtain ⟨ub, hub⟩ := hread h.length_intUb
  obtain ⟨q, hq⟩ := hread ((length_chosen hx).trans h.numIntegers_eq.symm)
  obtain ⟨current, hcurrent⟩ := hread hc
  exact ⟨lb, ub, q, current, hlb, hub, hq, hcurrent⟩

/-- An entry of a flipped candidate is shifted if it was written, and kept otherwise. -/
theorem MovedBy.entry (h : t.Lists vars) (horder : InOrder vars) (hx : x.length = vars.length)
    (hstep : 1 ≤ s.perturbationStep) (hc : t.check (old.map fin) = .ok ())
    (hselected : ∀ j ∈ selected, j ∈ t.integers) (hpositions : m.positions.Nodup)
    (hmoved : MovedBy s t (x.map fin) (old.map fin) selected m) {k : ℕ} {y : ExtRat}
    (hy : m.candidate[k]? = some y) {q current : ℚ} (hq : (chosen vars x)[k]? = some q)
    (hcurrent : old[k]? = some current) {lb ub : ExtRat} (hlb : t.intLb[k]? = some lb)
    (hub : t.intUb[k]? = some ub) :
    ∃ moved, y = fin moved ∧
      if (k : Int) ∈ m.positions then Shift s.perturbationStep q lb ub current moved
      else moved = current := by
  obtain ⟨writes, hplace, hfst, hwrites⟩ := hmoved.exists_writes h horder hx hselected
  obtain ⟨-, hwhole, hlower, hupper⟩ := check_iff.mp hc
  have hentry : (old.map fin)[k]? = some (fin current) := by
    rw [List.getElem?_map, hcurrent]
    rfl
  split
  case isTrue hk =>
    rw [← hfst] at hk
    obtain ⟨w, hw, hwk⟩ := List.mem_map.mp hk
    obtain ⟨k', hwk', hvalue⟩ := hwrites w hw
    obtain rfl : k = k' := Int.ofNat.inj (hwk.symm.trans hwk')
    have hread : Vec.at? m.candidate w.1 = some w.2 := by
      refine Vec.at?_placeAll hplace (hfst ▸ hpositions) (fun w' hw' => ?_) hw
      obtain ⟨place, hplace', -⟩ := hwrites w' hw'
      exact hplace' ▸ Int.natCast_nonneg place
    rw [hwk, Vec.at?_natCast, hy] at hread
    obtain ⟨n, hn⟩ := whole_of_beq_rint (hwhole _ (List.mem_of_getElem? hentry)) rfl
    obtain rfl := ExtRat.fin.inj hn
    have hlo := hlower _ _ (List.mem_of_getElem? (List.getElem?_zip_eq_some.mpr ⟨hentry, hlb⟩))
    have hhi := hupper _ _ (List.mem_of_getElem? (List.getElem?_zip_eq_some.mpr ⟨hentry, hub⟩))
    obtain ⟨moved, hmove, hshift⟩ := exists_shift
      (integralBox_of_between (integers_noFraction.intLb h (List.mem_of_getElem? hlb))
        (integers_noFraction.intUb h (List.mem_of_getElem? hub)) hlo hhi) hlo hhi hstep q
    have hread' : y = fin moved := by
      rw [Option.some.inj hread, hvalue q n lb ub hq hcurrent hlb hub, hmove]
    exact ⟨moved, hread', hshift⟩
  case isFalse hk =>
    refine ⟨current, ?_, rfl⟩
    rcases Vec.getElem?_placeAll hplace hy with ⟨hold, -⟩ | ⟨w, hw, hwk, -⟩
    · exact Option.some.inj (hold.symm.trans hentry)
    · obtain ⟨k', hwk', -⟩ := hwrites w hw
      rw [hwk'] at hwk
      obtain rfl := Vec.eq_of_position?_natCast hwk
      exact absurd (hfst ▸ hwk' ▸ List.mem_map_of_mem hw) hk

/-- The written positions are the places of the selected variables. -/
theorem MovedBy.placed (h : t.Lists vars) (horder : InOrder vars) (hx : x.length = vars.length)
    (hselected : ∀ j ∈ selected, j ∈ t.integers)
    (hmoved : MovedBy s t (x.map fin) (old.map fin) selected m) :
    List.Forall₂ (fun j (i : Int) => ∃ k : ℕ, i = k ∧ t.integers[k]? = some j) selected
      m.positions := by
  obtain ⟨_, _, _, _, _, _, hpositions, -⟩ := hmoved
  refine ((List.forall₂_and_left _ _).mpr ⟨hselected, Vec.pick_eq_ok.mp hpositions⟩).imp ?_
  rintro j i ⟨hj, hi⟩
  obtain ⟨k, -, hk, hindex, -⟩ := exists_place_value h horder hx hj
  exact ⟨k, Option.some.inj (hi.symm.trans hk), hindex⟩

theorem nodup_of_placed {positions : List Int}
    (h : List.Forall₂ (fun j (i : Int) => ∃ k : ℕ, i = k ∧ t.integers[k]? = some j) selected
      positions) (hdistinct : selected.Nodup) : positions.Nodup := by
  refine nodup_of_forall₂ h ?_ hdistinct
  rintro j j' i ⟨k, rfl, hj⟩ ⟨k', hk', hj'⟩
  obtain rfl := Int.ofNat.inj hk'
  exact Option.some.inj (hj.symm.trans hj')

/-- Entries that are moved for distinct variables are shifted, and the others are kept. -/
theorem MovedBy.flips (h : t.Lists vars) (horder : InOrder vars) (hx : x.length = vars.length)
    (hstep : 1 ≤ s.perturbationStep) (hc : t.check (old.map fin) = .ok ())
    (hdistinct : selected.Nodup) (hselected : ∀ j ∈ selected, j ∈ t.integers)
    (hmoved : MovedBy s t (x.map fin) (old.map fin) selected m) :
    Flips s vars t x old selected m := by
  have hplaced := hmoved.placed h horder hx hselected
  have hpositions := nodup_of_placed hplaced hdistinct
  have hlen : old.length = t.numIntegers := by
    rw [← (check_iff.mp hc).1, List.length_map]
  have hmlen : m.candidate.length = old.length := by
    rw [Moved.length_eq ⟨selected, hmoved⟩, List.length_map]
  obtain ⟨d, hd⟩ : ∃ d : List ℚ, m.candidate = d.map fin := by
    refine exists_map_fin fun y hy => ?_
    obtain ⟨k, hk⟩ := List.mem_iff_getElem?.mp hy
    have hlt : k < t.numIntegers := by
      rw [← hlen, ← hmlen]
      exact (List.getElem?_eq_some_iff.mp hk).1
    obtain ⟨lb, ub, q, current, hlb, hub, hq, hcurrent⟩ := exists_at_place h hx hlen hlt
    obtain ⟨moved, hmove, -⟩ :=
      hmoved.entry h horder hx hstep hc hselected hpositions hk hq hcurrent hlb hub
    exact ⟨moved, hmove⟩
  refine ⟨hdistinct, hplaced,
    Moved.check integerOrder ⟨selected, hmoved⟩ h (fun y hy => ?_) hc, d, hd, ?_⟩
  · obtain ⟨q, -, rfl⟩ := List.mem_map.mp hy
    exact isFinite_iff.mpr ⟨q, rfl⟩
  · intro k lb ub q current moved hlb hub hq hcurrent hk
    have hentry : m.candidate[k]? = some (fin moved) := by
      rw [hd, List.getElem?_map, hk]
      rfl
    obtain ⟨moved', hmove, hshift⟩ :=
      hmoved.entry h horder hx hstep hc hselected hpositions hentry hq hcurrent hlb hub
    rwa [ExtRat.fin.inj hmove]

/-- To flip distinct integer variables comes to a flipped candidate and is counted once. -/
theorem exists_flip (h : t.Lists vars) (horder : InOrder vars)
    (hfew : (vars.length : Int) < Progress.countLimit) (hx : x.length = vars.length)
    (hstep : 1 ≤ s.perturbationStep) (hc : t.check (old.map fin) = .ok ())
    (hdistinct : selected.Nodup) (hselected : ∀ j ∈ selected, j ∈ t.integers)
    {p : Progress ExtRat} (hp : p.Tracks t.numIntegers) :
    ∃ m, flip s t (x.map fin) (old.map fin) selected p = .ok m (p.noteFlips m.positions) ∧
      Flips s vars t x old selected m := by
  have hpoint : (x.map fin).length = vars.length := by rw [List.length_map, hx]
  obtain ⟨m, q, hflip, -⟩ :=
    runs_flip h horder hfew hpoint (check_iff.mp hc).1 hselected p hp
  obtain ⟨rfl, hmoved⟩ := flip_eq_ok hflip
  exact ⟨m, hflip, hmoved.flips h horder hx hstep hc hdistinct hselected⟩

end Candidates

end Perturber

end MipPump
