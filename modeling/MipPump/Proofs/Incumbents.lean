import MipPump.Incumbent
import MipPump.Outcome
import MipPump.Proofs.Actions
import MipPump.Proofs.ExactNumbers
import Mathlib.Data.List.Induction

/-!
# The least of several costs

The store takes the points that are offered to it one after the other, and `bestOf` looks through the
endings of runs.  Both end with the first of the least costs, in the order in which they look.

* `FirstLeast costs best`: the position and the value of the first least cost, where there may be
  places without a cost.
* `Store.takeBids`: a sequence of offers, each answered.
* `Store.Reflects bids s`: the store holds the first of the best offers, and its history lists the
  costs of the offers that were better than all before them.
* `firstLeast_bestOf`: `bestOf` finds the first of the best successes.
-/

namespace MipPump

open ExtRat

section FirstLeast

/-- The first least cost and its position, or nothing if there is no cost at all. -/
def FirstLeast (costs : List (Option ExtRat)) : Option (Nat × ExtRat) → Prop
  | none => ∀ c ∈ costs, c = none
  | some (i, least) => costs[i]? = some (some least) ∧
      (∀ j c, j < i → costs[j]? = some (some c) → least < c) ∧
      ∀ c, some c ∈ costs → least ≤ c

variable {costs : List (Option ExtRat)} {best : Option (Nat × ExtRat)} {i : Nat}
  {c least : ExtRat}

theorem firstLeast_nil : FirstLeast [] none := by
  intro c hc
  cases hc

/-- A place without a cost plays no part. -/
theorem FirstLeast.push_none (h : FirstLeast costs best) : FirstLeast (costs ++ [none]) best := by
  cases best with
  | none =>
      intro c hc
      rcases List.mem_append.mp hc with hc | hc
      · exact h c hc
      · exact List.mem_singleton.mp hc
  | some best =>
      obtain ⟨i, least⟩ := best
      obtain ⟨hi, hfirst, hleast⟩ := h
      obtain ⟨hlt, -⟩ := List.getElem?_eq_some_iff.mp hi
      refine ⟨?_, fun j c hj hc => ?_, fun c hc => ?_⟩
      · rw [List.getElem?_append_left hlt]
        exact hi
      · rw [List.getElem?_append_left (hj.trans hlt)] at hc
        exact hfirst j c hj hc
      · rcases List.mem_append.mp hc with hc | hc
        · exact hleast c hc
        · cases List.mem_singleton.mp hc

/-- The first cost is the least so far. -/
theorem FirstLeast.push_first (h : FirstLeast costs none) (hc : c ≠ nan) :
    FirstLeast (costs ++ [some c]) (some (costs.length, c)) := by
  refine ⟨?_, fun j c' hj hc' => ?_, fun c' hc' => ?_⟩
  · rw [List.getElem?_append_right le_rfl, Nat.sub_self]
    rfl
  · rw [List.getElem?_append_left hj] at hc'
    cases h _ (List.mem_of_getElem? hc')
  · rcases List.mem_append.mp hc' with hc' | hc'
    · cases h _ hc'
    · cases List.mem_singleton.mp hc'
      exact ExtRat.le_refl hc

/-- A better cost becomes the first least one. -/
theorem FirstLeast.push_better (h : FirstLeast costs (some (i, least))) (hc : c < least) :
    FirstLeast (costs ++ [some c]) (some (costs.length, c)) := by
  obtain ⟨-, -, hleast⟩ := h
  refine ⟨?_, fun j c' hj hc' => ?_, fun c' hc' => ?_⟩
  · rw [List.getElem?_append_right le_rfl, Nat.sub_self]
    rfl
  · rw [List.getElem?_append_left hj] at hc'
    exact lt_of_lt_of_le hc (hleast c' (List.mem_of_getElem? hc'))
  · rcases List.mem_append.mp hc' with hc' | hc'
    · exact le_of_lt (lt_of_lt_of_le hc (hleast c' hc'))
    · cases List.mem_singleton.mp hc'
      exact ExtRat.le_refl (ne_nan_of_le (le_of_lt hc)).1

/-- A cost that is not better changes nothing. -/
theorem FirstLeast.push_worse (h : FirstLeast costs (some (i, least))) (hc : ¬ c < least)
    (hnan : c ≠ nan) : FirstLeast (costs ++ [some c]) (some (i, least)) := by
  obtain ⟨hi, hfirst, hleast⟩ := h
  obtain ⟨hlt, -⟩ := List.getElem?_eq_some_iff.mp hi
  have hle : least ≤ c :=
    (not_lt_iff hnan (ne_nan_of_le (hleast least (List.mem_of_getElem? hi))).1).mp hc
  refine ⟨?_, fun j c' hj hc' => ?_, fun c' hc' => ?_⟩
  · rw [List.getElem?_append_left hlt]
    exact hi
  · rw [List.getElem?_append_left (hj.trans hlt)] at hc'
    exact hfirst j c' hj hc'
  · rcases List.mem_append.mp hc' with hc' | hc'
    · exact hleast c' hc'
    · cases List.mem_singleton.mp hc'
      exact hle

end FirstLeast

section Endings

/-- One more ending. -/
theorem FirstLeast.betterOf {endings : List (Ending ExtRat)} {best : Option (Nat × ExtRat)}
    (h : FirstLeast (endings.map Ending.objective?) best) (e : Ending ExtRat)
    (he : e.objective? ≠ some nan) :
    FirstLeast ((endings ++ [e]).map Ending.objective?) (betterOf best (endings.length, e)) := by
  rw [List.map_append, List.map_singleton]
  have hlength : endings.length = (endings.map Ending.objective?).length :=
    (List.length_map _).symm
  unfold MipPump.betterOf
  cases hobjective : e.objective? with
  | none => exact h.push_none
  | some c =>
      have hc : c ≠ nan := by
        rintro rfl
        exact he hobjective
      cases best with
      | none =>
          dsimp only
          rw [hlength]
          exact h.push_first hc
      | some best =>
          obtain ⟨i, least⟩ := best
          dsimp only
          split
          · rename_i hbetter
            rw [hlength]
            exact h.push_better hbetter
          · rename_i hworse
            exact h.push_worse hworse hc

/-- `bestOf` finds the first of the best successes. -/
theorem firstLeast_bestOf (endings : List (Ending ExtRat))
    (h : ∀ e ∈ endings, e.objective? ≠ some nan) :
    ∃ best, bestOf endings = best.map (·.1) ∧
      FirstLeast (endings.map Ending.objective?) best := by
  refine ⟨_, rfl, ?_⟩
  induction endings using List.reverseRecOn with
  | nil => exact firstLeast_nil
  | append_singleton endings e ih =>
      have hrest := ih fun e' he' => h e' (List.mem_append_left _ he')
      have hsnoc : ((endings ++ [e]).zipIdx.map fun (e, i) => (i, e)) =
          (endings.zipIdx.map fun (e, i) => (i, e)) ++ [(endings.length, e)] := by
        simp [List.zipIdx_append]
      rw [hsnoc, List.foldl_append]
      exact hrest.betterOf e (h e (List.mem_append_right _ (List.mem_singleton_self e)))

end Endings

section Offers

/-- A point that is offered at a cost, which may be an integer of any size. -/
structure Bid where
  point : List ExtRat
  cost : Amount ExtRat
  source : String

/-- The cost of an offer as a number; integers of any size are numbers here. -/
def Bid.value (b : Bid) : ExtRat :=
  match b.cost with
  | .integer n => fin n
  | .number x => x

/-- What the store holds after the offer was accepted. -/
def Bid.incumbent (b : Bid) : Incumbent ExtRat :=
  { point := b.point, cost := b.value, source := b.source }

/-- Offers points one after the other; each offer is answered. -/
def Store.takeBids (s : Store ExtRat) :
    List Bid → Except (Fault ExtRat) (List Bool × Store ExtRat)
  | [] => .ok ([], s)
  | b :: bids => do
      let (accepted, s) ← s.offerAmount b.point b.cost b.source
      let (answers, s) ← s.takeBids bids
      pure (accepted :: answers, s)

/-- Whether an offer is better than all before it. -/
def isRecord (before : List Bid) (b : Bid) : Bool := before.all fun a => decide (b.value < a.value)

/-- Offers that are better than all before them, the earliest first. -/
def records (bids : List Bid) : List Bid :=
  (bids.zipIdx.filter fun (b, k) => isRecord (bids.take k) b).map (·.1)

/-- The store holds the first of the best offers, and its history lists the costs of the offers that
were better than all before them. -/
structure Store.Reflects (bids : List Bid) (s : Store ExtRat) : Prop where
  best : ∃ best, FirstLeast (bids.map fun b => some b.value) best ∧
    s.best = best.bind fun (i, _) => bids[i]?.map Bid.incumbent
  history : s.history = (records bids).map Bid.value

variable {bids : List Bid} {s : Store ExtRat}

theorem Amount.integerBelow_eq (n : Int) (y : ExtRat) :
    Amount.integerBelow n y = decide (fin n < y) := by
  have hcast : mkRat n 1 = (n : ℚ) := Rat.mkRat_one n
  cases y with
  | fin q =>
      show decide (mkRat n 1 < q) = _
      rw [hcast]
      exact decide_eq_decide.mpr (fin_lt_fin _ _).symm
  | nan => rfl
  | negInf => rfl
  | posInf => rfl

/-- In exact arithmetic an amount is offered as the number that it is. -/
theorem Store.offerAmount_eq (s : Store ExtRat) (b : Bid) :
    s.offerAmount b.point b.cost b.source = .ok (s.offer b.incumbent) := by
  obtain ⟨point, cost, source⟩ := b
  cases cost with
  | number x => exact s.offerAmount_number ⟨point, x, source⟩
  | integer n =>
      have hbeaten : s.isBeatenBy (.integer n) = s.improves (fin n) := by
        unfold Store.isBeatenBy Store.improves
        cases s.best with
        | none => rfl
        | some best => exact Amount.integerBelow_eq n best.cost
      unfold Store.offerAmount Store.offer
      rw [hbeaten]
      show _ = Except.ok (if s.improves (fin n) then _ else _)
      split <;> rfl

theorem reflects_nil : Store.Reflects [] {} where
  best := ⟨none, firstLeast_nil, rfl⟩
  history := rfl

theorem records_push (bids : List Bid) (b : Bid) :
    records (bids ++ [b]) = records bids ++ if isRecord bids b then [b] else [] := by
  have hold : (bids.zipIdx.filter fun (a, k) => isRecord ((bids ++ [b]).take k) a) =
      bids.zipIdx.filter fun (a, k) => isRecord (bids.take k) a := by
    refine List.filter_congr fun e he => ?_
    obtain ⟨a, k⟩ := e
    have hk := (List.getElem?_eq_some_iff.mp (List.mem_zipIdx_iff_getElem?.mp he)).1
    dsimp only at hk ⊢
    rw [List.take_append_of_le_length hk.le]
  unfold records
  rw [List.zipIdx_append, List.filter_append, List.map_append, hold, Nat.zero_add,
    List.zipIdx_cons, List.zipIdx_nil]
  congr 1
  have hall : (bids ++ [b]).take bids.length = bids := List.take_left
  cases hb : isRecord bids b with
  | true =>
      rw [List.filter_cons_of_pos (by dsimp only; rw [hall, hb])]
      rfl
  | false =>
      rw [List.filter_cons_of_neg (by dsimp only; rw [hall, hb]; exact Bool.false_ne_true)]
      rfl

theorem mem_of_mem_records {b : Bid} (h : b ∈ records bids) : b ∈ bids := by
  obtain ⟨⟨a, k⟩, he, rfl⟩ := List.mem_map.mp h
  exact List.mem_of_getElem? (List.mem_zipIdx_iff_getElem?.mp (List.mem_of_mem_filter he))

/-- Each record is better than the one before. -/
theorem pairwise_records (bids : List Bid) :
    ((records bids).map Bid.value).Pairwise fun a b => b < a := by
  induction bids using List.reverseRecOn with
  | nil => exact .nil
  | append_singleton bids b ih =>
      rw [records_push]
      split
      · rename_i hrecord
        rw [List.map_append, List.pairwise_append]
        refine ⟨ih, List.pairwise_singleton _ _, fun x hx y hy => ?_⟩
        obtain ⟨a, ha, rfl⟩ := List.mem_map.mp hx
        cases List.mem_singleton.mp hy
        exact of_decide_eq_true (List.all_eq_true.mp hrecord a (mem_of_mem_records ha))
      · rwa [List.append_nil]

/-- The store improves by an offer that is better than all before it. -/
theorem Store.Reflects.improves_eq (h : s.Reflects bids) (b : Bid) :
    s.improves b.value = isRecord bids b := by
  obtain ⟨best, hleast, hbest⟩ := h.best
  unfold Store.improves isRecord
  rw [hbest]
  cases best with
  | none =>
      cases bids with
      | nil => rfl
      | cons a bids => cases hleast (some a.value) (List.mem_cons_self ..)
  | some best =>
      obtain ⟨i, least⟩ := best
      obtain ⟨hi, -, hall⟩ := hleast
      rw [List.getElem?_map, Option.map_eq_some_iff] at hi
      obtain ⟨a, ha, hvalue⟩ := hi
      cases hvalue
      dsimp only [Option.bind_some]
      rw [ha, Option.map_some, Bool.eq_iff_iff, decide_eq_true_iff, List.all_eq_true]
      constructor
      · intro hlt a' ha'
        exact decide_eq_true (lt_of_lt_of_le hlt (hall _ (List.mem_map_of_mem ha')))
      · intro hrecord
        exact of_decide_eq_true (hrecord a (List.mem_of_getElem? ha))

/-- After one more offer. -/
theorem Store.Reflects.offer (h : s.Reflects bids) (b : Bid) (hb : b.value ≠ nan) :
    (s.offer b.incumbent).1 = isRecord bids b ∧ (s.offer b.incumbent).2.Reflects (bids ++ [b]) := by
  have himproves : s.improves b.incumbent.cost = isRecord bids b := h.improves_eq b
  have hlength : bids.length = (bids.map fun b => some b.value).length := (List.length_map _).symm
  obtain ⟨best, hleast, hbest⟩ := h.best
  cases hrecord : isRecord bids b with
  | true =>
      rw [Store.offer_of_improves (himproves.trans hrecord)]
      refine ⟨rfl, ⟨some (bids.length, b.value), ?_, ?_⟩, ?_⟩
      · rw [List.map_append, List.map_singleton, hlength]
        cases best with
        | none => exact hleast.push_first hb
        | some best =>
            obtain ⟨i, least⟩ := best
            refine hleast.push_better ?_
            obtain ⟨hi, -⟩ := hleast
            have hmem := List.mem_of_getElem? hi
            obtain ⟨a, ha, hvalue⟩ := List.mem_map.mp hmem
            cases hvalue
            exact of_decide_eq_true (List.all_eq_true.mp hrecord a ha)
      · dsimp only [Option.bind_some]
        rw [List.getElem?_append_right le_rfl, Nat.sub_self]
        rfl
      · rw [records_push, hrecord, if_pos rfl, List.map_append, h.history]
        rfl
  | false =>
      have hworse := himproves.trans hrecord
      rw [Store.offer_of_not_improves hworse]
      refine ⟨rfl, ?_, ?_⟩
      · cases best with
        | none =>
            unfold Store.improves at hworse
            rw [hbest] at hworse
            cases hworse
        | some best =>
            obtain ⟨i, least⟩ := best
            have hi := hleast.1
            have hlt : i < bids.length := by
              rw [hlength]
              exact (List.getElem?_eq_some_iff.mp hi).1
            refine ⟨some (i, least), ?_, ?_⟩
            · rw [List.map_append, List.map_singleton]
              refine hleast.push_worse (fun hbetter => ?_) hb
              have hall : isRecord bids b = true := List.all_eq_true.mpr fun a ha =>
                decide_eq_true (lt_of_lt_of_le hbetter (hleast.2.2 _ (List.mem_map_of_mem ha)))
              rw [hrecord] at hall
              cases hall
            · rw [hbest]
              dsimp only [Option.bind_some]
              rw [List.getElem?_append_left hlt]
      · rw [records_push, hrecord, if_neg Bool.false_ne_true, List.append_nil]
        exact h.history

/-- Offers to a store that reflects earlier ones. -/
theorem Store.Reflects.takeBids (h : s.Reflects bids) {more : List Bid}
    (hmore : ∀ b ∈ more, b.value ≠ nan) :
    ∃ s', s.takeBids more =
        .ok (more.zipIdx.map fun (b, k) => isRecord (bids ++ more.take k) b, s') ∧
      s'.Reflects (bids ++ more) := by
  induction more generalizing bids s with
  | nil => exact ⟨s, rfl, by rw [List.append_nil]; exact h⟩
  | cons b more ih =>
      obtain ⟨haccepted, hnext⟩ := h.offer b (hmore b (List.mem_cons_self ..))
      obtain ⟨s', htake, hs'⟩ := ih hnext fun a ha => hmore a (List.mem_cons_of_mem _ ha)
      rw [List.append_assoc] at hs'
      refine ⟨s', ?_, hs'⟩
      unfold Store.takeBids
      rw [Act.exceptBind_of_ok (Store.offerAmount_eq s b)]
      dsimp only
      rw [Act.exceptBind_of_ok htake, haccepted, List.zipIdx_cons, List.map_cons, List.zipIdx_succ,
        List.map_map, List.take_zero, List.append_nil]
      refine congrArg (fun answers => Except.ok (isRecord bids b :: answers, s')) ?_
      refine List.map_congr_left fun e _ => ?_
      obtain ⟨a, k⟩ := e
      show isRecord (bids ++ [b] ++ more.take k) a = isRecord (bids ++ (b :: more).take (k + 1)) a
      rw [List.append_assoc]
      rfl

/-- A store that reflects no offer is empty. -/
theorem Store.Reflects.of_nil (h : s.Reflects []) : s.best = none ∧ s.bestCost = posInf := by
  obtain ⟨best, -, hbest⟩ := h.best
  have hnone : s.best = none := by
    rw [hbest]
    cases best <;> rfl
  refine ⟨hnone, ?_⟩
  unfold Store.bestCost
  rw [hnone]
  rfl

/-- The store holds the first of the best offers. -/
theorem Store.Reflects.exists_best (h : s.Reflects bids) (hne : bids ≠ []) :
    ∃ (i : Nat) (b : Bid), bids[i]? = some b ∧ s.best = some b.incumbent ∧ s.bestCost = b.value ∧
      (∀ (j : Nat) a, j < i → bids[j]? = some a → b.value < a.value) ∧
      ∀ a ∈ bids, b.value ≤ a.value := by
  obtain ⟨best, hleast, hbest⟩ := h.best
  cases best with
  | none =>
      obtain ⟨b, hb⟩ := List.exists_mem_of_ne_nil bids hne
      cases hleast (some b.value) (List.mem_map_of_mem hb)
  | some best =>
      obtain ⟨i, least⟩ := best
      obtain ⟨hi, hfirst, hall⟩ := hleast
      rw [List.getElem?_map, Option.map_eq_some_iff] at hi
      obtain ⟨b, hb, hvalue⟩ := hi
      cases hvalue
      have hincumbent : s.best = some b.incumbent := by
        rw [hbest]
        dsimp only [Option.bind_some]
        rw [hb, Option.map_some]
      refine ⟨i, b, hb, hincumbent, ?_, fun j a hj ha => ?_, fun a ha => ?_⟩
      · unfold Store.bestCost
        rw [hincumbent]
        rfl
      · exact hfirst j a.value hj (by rw [List.getElem?_map, ha, Option.map_some])
      · exact hall a.value (List.mem_map_of_mem ha)

end Offers

end MipPump
