import MipPump.Proofs.DrawnNumbers
import MipPump.Proofs.NearestIntegers

/-!
# Rounding by draws

A value is clipped into its box and rounded to one of the two integers around it: to the nearer one
if it is nearly an integer, and otherwise up if the draw for it is below its fraction.

* `drawnUp`, `drawnClip`: the direction and the integer that a clipped value is rounded to.
* `RoundsByDraw`: what is asked of the rounding of one value, `RoundsByDraws` of all of them.
* `drawnClip_mono`: two values rounded by one draw keep their order.
* `roundsByDraw_randomizedValue`, `randomizedValue_mono`: the same of the program, in a box or
  between bounds that are one infinity.
* `drawnPoint_mono`: two points that are rounded by the same draws keep their order.

**Result.**  `randomized_rounding_keeps_order`: the draws depend on the generator alone, and with
them the rounding is bounded and keeps the order of points.
-/

namespace MipPump
namespace Rounding

open ExtRat

/-- Whether a value inside the box goes up at the draw `u`. -/
def drawnUp (eps u w : ℚ) : Bool :=
  if 1 - eps ≤ Int.fract w then true
  else if Int.fract w ≤ eps then false
  else decide (u < Int.fract w)

/-- The integer that a value inside the box is rounded to at the draw `u`. -/
def drawnClip (eps u w : ℚ) : ℤ := if drawnUp eps u w then ⌊w⌋ + 1 else ⌊w⌋

/-- The integer `r` is a rounding of the clipped value `w` at the draw `u`. -/
structure DrawnTo (eps : ℚ) (lo hi : ExtRat) (w u : ℚ) (r : ℤ) : Prop where
  inside : lo ≤ fin r ∧ fin r ≤ hi
  adjacent : r = ⌊w⌋ ∨ r = ⌊w⌋ + 1
  near_floor : Int.fract w ≤ eps → r = ⌊w⌋
  near_next : 1 - eps ≤ Int.fract w → r = ⌊w⌋ + 1
  by_chance : eps < Int.fract w → Int.fract w < 1 - eps → (r = ⌊w⌋ + 1 ↔ u < Int.fract w)

/-- A value is rounded to an integer of its box, or to the infinity that both bounds are. -/
def RoundsByDraw (eps : ℚ) (lo hi : ExtRat) (q u : ℚ) (y : ExtRat) : Prop :=
  (∃ r : ℤ, y = fin r ∧ IntegralBox lo hi ∧ DrawnTo eps lo hi (clip lo hi q) u r) ∨
    lo = hi ∧ Arith.isInf lo = true ∧ y = lo

/-- A candidate has the values of the integer variables, each rounded by its own draw. -/
structure RoundsByDraws (eps : ℚ) (t : Table ExtRat) (values us : List ℚ)
    (candidate : List ExtRat) : Prop where
  length : candidate.length = t.numIntegers
  entry : ∀ (i : ℕ) (lo hi : ExtRat) (q u : ℚ) (y : ExtRat), t.intLb[i]? = some lo →
    t.intUb[i]? = some hi → values[i]? = some q → us[i]? = some u → candidate[i]? = some y →
    RoundsByDraw eps lo hi q u y

section Integers

variable {eps u w w' : ℚ} {lo hi : ExtRat}

theorem drawnUp_iff :
    drawnUp eps u w = true ↔
      1 - eps ≤ Int.fract w ∨ eps < Int.fract w ∧ u < Int.fract w := by
  unfold drawnUp
  split_ifs with habove hbelow
  · exact iff_of_true rfl (.inl habove)
  · exact iff_of_false not_false fun h => h.elim habove fun h => not_le.mpr h.1 hbelow
  · rw [decide_eq_true_iff]
    exact ⟨fun h => .inr ⟨not_le.mp hbelow, h⟩, fun h => (h.resolve_left habove).2⟩

/-- Between two integers a greater value goes up whenever a smaller one does: each of the conditions
asks the fraction to be large. -/
theorem drawnUp_mono (hfloor : ⌊w⌋ = ⌊w'⌋) (h : w ≤ w')
    (hup : drawnUp eps u w = true) : drawnUp eps u w' = true := by
  have hfract := fract_le_fract hfloor h
  rw [drawnUp_iff] at hup ⊢
  exact hup.imp (fun h => h.trans hfract) fun h => ⟨h.1.trans_le hfract, h.2.trans_le hfract⟩

theorem drawnClip_mono (h : w ≤ w') : drawnClip eps u w ≤ drawnClip eps u w' :=
  floorOrNext_mono (fun _ _ hfloor hle => drawnUp_mono hfloor hle) h

/-- An integer is its own rounding, whatever is drawn. -/
theorem drawnClip_intCast (heps : 0 < eps) (hhalf : eps < 1 / 2) (n : ℤ) :
    drawnClip eps u n = n := by
  have hdown : ¬ drawnUp eps u (n : ℚ) = true := by
    rw [drawnUp_iff, Int.fract_intCast]
    rintro (h | ⟨h, -⟩)
    · linarith
    · exact absurd h heps.not_gt
  unfold drawnClip
  rw [if_neg hdown, Int.floor_intCast]

/-- What is asked of a rounding by a draw holds of the rounding of a value in the box. -/
theorem drawnTo_drawnClip (h : IntegralBox lo hi) (heps : 0 < eps) (hhalf : eps < 1 / 2)
    (hlo : lo ≤ fin w) (hhi : fin w ≤ hi) : DrawnTo eps lo hi w u (drawnClip eps u w) where
  inside := between_of_mono (fun _ _ => drawnClip_mono) (drawnClip_intCast heps hhalf) h hlo hhi
  adjacent := by
    unfold drawnClip
    split
    · exact .inr rfl
    · exact .inl rfl
  near_floor hle := by
    have hdown : ¬ drawnUp eps u w = true := by
      rw [drawnUp_iff]
      rintro (h | ⟨h, -⟩)
      · linarith
      · exact not_le.mpr h hle
    rw [drawnClip, if_neg hdown]
  near_next hle := by rw [drawnClip, if_pos (drawnUp_iff.mpr (.inl hle))]
  by_chance hbelow habove := by
    have hup : drawnUp eps u w = true ↔ u < Int.fract w := by
      rw [drawnUp_iff]
      exact ⟨fun h => (h.resolve_left (not_le.mpr habove)).2, fun h => .inr ⟨hbelow, h⟩⟩
    rw [← hup]
    unfold drawnClip
    split
    · exact iff_of_true rfl ‹_›
    · exact iff_of_false (by omega) ‹_›

end Integers

section Values

variable {eps u q q' : ℚ} {lo hi : ExtRat}

/-- The comparisons of the program are those of the fraction with the tolerance and the draw. -/
theorem randomizedValue_eq (h : IntegralBox lo hi) (heps : 0 < eps) (hhalf : eps < 1 / 2)
    (u q : ℚ) : randomizedValue (fin eps) lo hi (fin q) (fin u) =
      fin (drawnClip eps u (clip lo hi q)) := by
  obtain ⟨hlo, hhi⟩ := clip_between h q
  obtain ⟨hlow, hhigh⟩ := (drawnTo_drawnClip (u := u) h heps hhalf hlo hhi).inside
  have hfloor : ((clip lo hi q).floor : ℤ) = ⌊clip lo hi q⌋ := rfl
  have hup : (if 1 - fin eps ≤ fin (clip lo hi q) - Arith.floor (fin (clip lo hi q)) then true
      else if fin (clip lo hi q) - Arith.floor (fin (clip lo hi q)) ≤ fin eps then false
      else decide (fin u < fin (clip lo hi q) - Arith.floor (fin (clip lo hi q)))) =
        drawnUp eps u (clip lo hi q) := by
    simp only [floor_fin, hfloor, fin_sub, one_eq, fin_le_fin, fin_lt_fin, Int.self_sub_floor]
    rfl
  have hrounded : (if drawnUp eps u (clip lo hi q) = true then Arith.floor (fin (clip lo hi q)) + 1
      else Arith.floor (fin (clip lo hi q))) = fin (drawnClip eps u (clip lo hi q)) := by
    simp only [floor_fin, hfloor, one_eq, fin_add]
    unfold drawnClip
    split
    · push_cast
      rfl
    · rfl
  unfold randomizedValue
  dsimp only
  -- the second clamp finds the rounded value in the box
  rw [clampBound_eq_clip h, hup, hrounded, clampBound_eq_clip h, clip_of_between hlow hhigh]

/-- A value is rounded to the infinity that both bounds are. -/
theorem randomizedValue_single (h : Arith.isInf lo = true) (eps u q : ℚ) :
    randomizedValue (fin eps) lo lo (fin q) (fin u) = lo := by
  cases lo with
  | fin a => cases h
  | nan => cases h
  | negInf => rfl
  | posInf => rfl

/-- The program rounds a finite value by its draw as is asked. -/
theorem roundsByDraw_randomizedValue (h : IntegralBounds lo hi) (heps : 0 < eps)
    (hhalf : eps < 1 / 2) (u q : ℚ) :
    RoundsByDraw eps lo hi q u (randomizedValue (fin eps) lo hi (fin q) (fin u)) := by
  rcases integralBox_or_single h.lower h.upper h.ordered with hbox | ⟨rfl, hinf⟩
  · obtain ⟨hlo, hhi⟩ := clip_between hbox q
    exact .inl ⟨_, randomizedValue_eq hbox heps hhalf u q, hbox,
      drawnTo_drawnClip hbox heps hhalf hlo hhi⟩
  · exact .inr ⟨rfl, hinf, randomizedValue_single hinf eps u q⟩

/-- Values that are rounded by one draw keep their order. -/
theorem randomizedValue_mono (h : IntegralBounds lo hi) (heps : 0 < eps) (hhalf : eps < 1 / 2)
    (u : ℚ) (hle : q ≤ q') :
    randomizedValue (fin eps) lo hi (fin q) (fin u) ≤
      randomizedValue (fin eps) lo hi (fin q') (fin u) := by
  rcases integralBox_or_single h.lower h.upper h.ordered with hbox | ⟨rfl, hinf⟩
  · rw [randomizedValue_eq hbox heps hhalf, randomizedValue_eq hbox heps hhalf, fin_le_fin]
    exact_mod_cast drawnClip_mono (clip_mono hle)
  · rw [randomizedValue_single hinf, randomizedValue_single hinf]
    exact ExtRat.le_refl (ne_nan_of_le h.ordered).1

end Values

section Points

variable {eps : ℚ} {vars : List (Variable ExtRat)} {t : Table ExtRat} {values values' us : List ℚ}

/-- The values of the integer variables, rounded by draws into their boxes. -/
def drawnPoint (eps : ℚ) (boxes : List (ExtRat × ExtRat)) (us values : List ℚ) : List ExtRat :=
  List.zipWith (fun b (x : ℚ × ℚ) => randomizedValue (fin eps) b.1 b.2 (fin x.1) (fin x.2)) boxes
    (values.zip us)

/-- Values in order stay in order if they are rounded by the same draws. -/
theorem drawnPoint_mono {boxes : List (ExtRat × ExtRat)}
    (hboxes : ∀ b ∈ boxes, IntegralBounds b.1 b.2) (heps : 0 < eps) (hhalf : eps < 1 / 2)
    (h : List.Forall₂ (· ≤ ·) values values') :
    List.Forall₂ (· ≤ ·) (drawnPoint eps boxes us values) (drawnPoint eps boxes us values') := by
  unfold drawnPoint
  induction h generalizing boxes us with
  | nil => simp
  | cons hle _ ih =>
      cases boxes with
      | nil => exact .nil
      | cons b boxes =>
          cases us with
          | nil => exact .nil
          | cons u us =>
              obtain ⟨hb, hboxes⟩ := List.forall_mem_cons.mp hboxes
              exact .cons (randomizedValue_mono hb heps hhalf u hle) (ih hboxes)

/-- The integral bounds of a table are integers or infinite. -/
theorem integralBounds_zip (h : t.Lists vars)
    (hordered : List.Forall₂ (· ≤ ·) t.intLb t.intUb) :
    ∀ b ∈ t.intLb.zip t.intUb, IntegralBounds b.1 b.2 := by
  rintro ⟨lo, hi⟩ hb
  have hle : lo ≤ hi := (List.forall₂_iff_zip.mp hordered).2 hb
  obtain ⟨hlo, hhi⟩ := List.of_mem_zip hb
  exact ⟨integral_of_noFraction (integers_noFraction.intLb h hlo) (ne_nan_of_le hle).1,
    integral_of_noFraction (integers_noFraction.intUb h hhi) (ne_nan_of_le hle).2, hle⟩

/-- The rounding of a table's values is as asked, entry by entry. -/
theorem roundsByDraws_drawnPoint (h : t.Lists vars)
    (hordered : List.Forall₂ (· ≤ ·) t.intLb t.intUb) (heps : 0 < eps) (hhalf : eps < 1 / 2)
    (hvalues : values.length = t.numIntegers) (hus : us.length = t.numIntegers) :
    RoundsByDraws eps t values us (drawnPoint eps (t.intLb.zip t.intUb) us values) where
  length := by
    rw [drawnPoint, List.length_zipWith, List.length_zip, List.length_zip, h.length_intLb,
      h.length_intUb, hvalues, hus, min_self, min_self]
  entry i lo hi q u y hlo hhi hq hu hy := by
    have hbox : (t.intLb.zip t.intUb)[i]? = some (lo, hi) :=
      List.getElem?_zip_eq_some.mpr ⟨hlo, hhi⟩
    have hvalue : (values.zip us)[i]? = some (q, u) := List.getElem?_zip_eq_some.mpr ⟨hq, hu⟩
    rw [drawnPoint, List.getElem?_zipWith, hbox, hvalue] at hy
    rw [← Option.some.inj hy]
    exact roundsByDraw_randomizedValue (integralBounds_zip h hordered _ (List.mem_of_getElem? hbox))
      heps hhalf u q

/-- The values of points in order are in order. -/
theorem forall₂_values_le {x x' : List ℚ}
    (hle : ∀ j ∈ t.integers, ∀ q q', Vec.at? x j = some q → Vec.at? x' j = some q' → q ≤ q')
    (hvalues : List.Forall₂ (fun j q => Vec.at? x j = some q) t.integers values)
    (hvalues' : List.Forall₂ (fun j q => Vec.at? x' j = some q) t.integers values') :
    List.Forall₂ (· ≤ ·) values values' :=
  Vec.forall₂_combine (fun j q q' hq hq' => hle j hq.1 q q' hq.2 hq')
    ((List.forall₂_and_left _ _).mpr ⟨fun _ hj => hj, hvalues⟩) hvalues'

/-- One number is drawn for each integer variable, whatever the point is. -/
theorem randomizedPoint_eq {x : List ℚ} {p q : Progress ExtRat}
    (hvalues : t.integerValues (x.map fin) = .ok (values.map fin))
    (hlen : values.length = t.numIntegers)
    (hdraw : Progress.drawUnits t.numIntegers p = .ok (us.map fin) q) :
    randomizedPoint (fin eps) t (x.map fin) p =
      .ok (drawnPoint eps (t.intLb.zip t.intUb) us values) q := by
  unfold randomizedPoint
  rw [Act.ofExcept_bind hvalues, List.length_map, hlen, Act.bind_of_ok hdraw, Act.pure_apply,
    List.zip_map, List.zipWith_map_right]
  rfl

end Points

/-- **Rounding by draws keeps the order of points.**  From every progress there are draws `us` from
`[0, 1)`, one for each integer variable, by which every finite point is rounded: `RoundsByDraws`
says what they come to, and the progress afterwards is the same for all points.  Points whose values
of the integer variables are in order have roundings in order. -/
theorem randomized_rounding_keeps_order {eps : ℚ} (heps : 0 < eps) (hhalf : eps < 1 / 2)
    {vars : List (Variable ExtRat)} {t : Table ExtRat} (ht : Table.ofVariables vars = .ok t)
    (hfits : (t.numIntegers : Int) < Progress.countLimit)
    (hordered : List.Forall₂ (· ≤ ·) t.intLb t.intUb) (p : Progress ExtRat) :
    ∃ (us : List ℚ) (q : Progress ExtRat) (round : List ℚ → List ExtRat),
      Progress.drawUnits t.numIntegers p = .ok (us.map fin) q ∧ us.length = t.numIntegers ∧
      (∀ u ∈ us, 0 ≤ u ∧ u < 1) ∧ p.Drawn q ∧
      (∀ x : List ℚ, x.length = vars.length →
        randomizedPoint (fin eps) t (x.map fin) p = .ok (round x) q ∧
        ∃ values, t.integerValues (x.map fin) = .ok (values.map fin) ∧
          RoundsByDraws eps t values us (round x)) ∧
      ∀ x x' : List ℚ, x.length = vars.length → x'.length = vars.length →
        (∀ j ∈ t.integers, ∀ a b, Vec.at? x j = some a → Vec.at? x' j = some b → a ≤ b) →
        List.Forall₂ (· ≤ ·) (round x) (round x') := by
  have h := Table.lists_of_ofVariables ht
  obtain ⟨us, q, hdraw, hus, hrange, hdrawn⟩ := Progress.exists_drawUnits hfits p
  choose! values hvalues hlen hat using
    fun (x : List ℚ) (hx : x.length = vars.length) => h.exists_values hx
  refine ⟨us, q, fun x => drawnPoint eps (t.intLb.zip t.intUb) us (values x), hdraw, hus, hrange,
    hdrawn, fun x hx => ?_, fun x x' hx hx' hle => ?_⟩
  · exact ⟨randomizedPoint_eq (hvalues x hx) (hlen x hx) hdraw, values x, hvalues x hx,
      roundsByDraws_drawnPoint h hordered heps hhalf (hlen x hx) hus⟩
  · exact drawnPoint_mono (integralBounds_zip h hordered) heps hhalf
      (forall₂_values_le hle (hat x hx) (hat x' hx'))

/-- The values `6/5` and `9/5` are rounded by one draw, whatever it is, and the order is kept. -/
theorem randomized_rounding_keeps_order_roomy :
    (0 : ℚ) < 1 / 1000000 ∧ (1 / 1000000 : ℚ) < 1 / 2 ∧
    ∃ (t : Table ExtRat) (p : Progress ExtRat), Table.ofVariables roomy = .ok t ∧
      (t.numIntegers : Int) < Progress.countLimit ∧ List.Forall₂ (· ≤ ·) t.intLb t.intUb ∧
      ∃ q y y', randomizedPoint (fin (1 / 1000000)) t ([6 / 5, 7, 3].map fin) p = .ok y q ∧
        randomizedPoint (fin (1 / 1000000)) t ([9 / 5, -7, 5].map fin) p = .ok y' q ∧
        List.Forall₂ (· ≤ ·) y y' := by
  obtain ⟨t, ht⟩ : ∃ t, Table.ofVariables roomy = .ok t :=
    Act.exists_ok_of_isOk (by decide +kernel)
  have h := Table.lists_of_ofVariables ht
  have horder : InOrder roomy := rfl
  have hfits : (t.numIntegers : Int) < Progress.countLimit := by
    rw [h.numIntegers_eq]
    decide
  have hordered : List.Forall₂ (· ≤ ·) t.intLb t.intUb := by
    rw [h.intLb_eq horder, h.intUb_eq horder]
    exact .cons (by decide +kernel) (.cons (by decide +kernel) .nil)
  obtain ⟨p, -⟩ : ∃ p, Progress.start ({} : Settings ExtRat) t.numIntegers = .ok p := ⟨_, rfl⟩
  obtain ⟨us, q, round, -, -, -, -, hround, hmono⟩ := randomized_rounding_keeps_order
    (by norm_num : (0 : ℚ) < 1 / 1000000) (by norm_num) ht hfits hordered p
  refine ⟨by norm_num, by norm_num, t, p, ht, hfits, hordered, q, _, _, (hround _ rfl).1,
    (hround _ rfl).1, hmono _ _ rfl rfl fun j hj a b ha hb => ?_⟩
  rw [h.integers] at hj
  rcases List.mem_pair.mp hj with rfl | rfl
  · cases ha
    cases hb
    norm_num
  · cases ha
    cases hb
    norm_num

end Rounding
end MipPump
