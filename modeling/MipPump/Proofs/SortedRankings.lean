import Mathlib.Data.List.Sort
import MipPump.Proofs.NumberOrders
import MipPump.Proofs.Rankings

/-!
# Rankings are sorted

A ranking sorts the integer variables by their scores.  This holds in every arithmetic whose numbers
are ordered.

* `Ranker.Precedes`: a greater score first, a score that is no number last, equal scores by index.
* `NumberOrder.sortKey`: the key by which scored variables are sorted.
* `NumberOrder.mayPrecede_iff`: the test of the program compares these keys.
* `NumberOrder.pairwise_order`: so that the program's insertion sort sorts by them.
* `Ranker.SortsByScore`, `NumberOrder.sortsByScore`: every ranking that can be computed is sorted.
* `sublist_of_pairwise`: in a sorted list an entry comes before those that may not precede it.
-/

namespace MipPump

section Meaning

variable {R : Type} [Arith R]

/-- The score `x` is greater than the score `y`, or only `y` is no number. -/
def Ranker.Outranks (x y : R) : Prop := y < x ∨ Arith.isNaN y = true ∧ Arith.isNaN x = false

/-- The first scored variable may stand before the second: its score is greater, or it is not
smaller and its index is not greater. -/
def Ranker.Precedes (a b : R × Int) : Prop :=
  Outranks a.1 b.1 ∨ ¬ Outranks b.1 a.1 ∧ a.2 ≤ b.2

/-- A ranking comes to an order of the integer variables that is sorted by their scores. -/
def Ranker.SortsByScore (k : Ranker R) (t : Table R) (point : List R) (candidate : Option (List R))
    (p : Progress R) : Prop :=
  ∃ (scored : List R) (ranked : List (R × Int)) (q : Progress R),
    k.scores t point candidate p = .ok scored q ∧ scored.length = t.numIntegers ∧
    k.rank t point candidate p = .ok (ranked.map (·.2)) q ∧ ranked.Perm (scored.zip t.integers) ∧
    (ranked.map (·.2)).Perm t.integers ∧ ranked.Pairwise Precedes

end Meaning

section Orders

variable {R Key : Type} [Arith R] [LinearOrder Key] (o : NumberOrder R Key)

namespace NumberOrder

/-- The key of a score: greater scores come first, and last what is no number. -/
def scoreKey (x : R) : WithTop Keyᵒᵈ :=
  if Arith.isNaN x then ⊤ else ↑(OrderDual.toDual (o.key x))

/-- The key of a scored variable. -/
def sortKey (a : R × Int) : WithTop Keyᵒᵈ ×ₗ Int := toLex (o.scoreKey a.1, a.2)

theorem scoreKey_lt_iff (x y : R) : o.scoreKey x < o.scoreKey y ↔ Ranker.Outranks x y := by
  unfold scoreKey Ranker.Outranks
  rw [o.lt_iff]
  cases Arith.isNaN x <;> cases Arith.isNaN y <;> simp

theorem precedes_iff (a b : R × Int) : Ranker.Precedes a b ↔ o.sortKey a ≤ o.sortKey b := by
  unfold Ranker.Precedes sortKey
  rw [Prod.Lex.toLex_le_toLex, ← o.scoreKey_lt_iff, ← o.scoreKey_lt_iff, not_lt]
  constructor
  · exact fun h => h.elim .inl fun ⟨hle, hindex⟩ =>
      (lt_or_eq_of_le hle).imp id fun heq => ⟨heq, hindex⟩
  · exact fun h => h.imp id fun ⟨heq, hindex⟩ => ⟨heq.le, hindex⟩

include o

/-- The program compares the scores with a minus in front. -/
theorem mayPrecede_iff (a b : R × Int) : Ranker.mayPrecede a b = true ↔ Ranker.Precedes a b := by
  have hbefore (x y : R) : (decide (-x < -y) || Arith.isNaN y && !Arith.isNaN x) = true ↔
      Ranker.Outranks x y := by
    unfold Ranker.Outranks
    simp [o.neg_lt_neg_iff]
  unfold Ranker.mayPrecede Ranker.Precedes
  rw [← hbefore, ← hbefore]
  dsimp only
  split_ifs with hab hba
  · simp [hab]
  · simp [hab, hba]
  · simp [hab, hba]

/-- The program inserts one scored variable after the other where its key belongs. -/
theorem order_eq_insertionSort (scored : List (R × Int)) :
    Ranker.order scored = scored.insertionSort fun a b => o.sortKey a ≤ o.sortKey b := by
  have hinsert (a : R × Int) (xs : List (R × Int)) : Ranker.insert a xs =
      xs.orderedInsert (fun a b => o.sortKey a ≤ o.sortKey b) a := by
    induction xs with
    | nil => rfl
    | cons b xs ih =>
        unfold Ranker.insert
        rw [List.orderedInsert_cons, ih]
        exact if_congr ((o.mayPrecede_iff a b).trans (o.precedes_iff a b)) rfl rfl
  induction scored with
  | nil => rfl
  | cons a scored ih =>
      rw [List.insertionSort_cons, ← ih, ← hinsert]
      rfl

theorem pairwise_order (scored : List (R × Int)) :
    (Ranker.order scored).Pairwise Ranker.Precedes := by
  let r (a b : R × Int) : Prop := o.sortKey a ≤ o.sortKey b
  have : Std.Total r := ⟨fun a b => le_total (o.sortKey a) (o.sortKey b)⟩
  have : IsTrans (R × Int) r := ⟨fun _ _ _ => le_trans⟩
  rw [o.order_eq_insertionSort]
  exact (List.pairwise_insertionSort r scored).imp fun {a b} h => (o.precedes_iff a b).mpr h

variable {vars : List (Variable R)} {t : Table R} {k : Ranker R} {point : List R}
  {candidate : Option (List R)} {p : Progress R}

/-- **Rankings are sorted** in an arithmetic with ordered numbers. -/
theorem sortsByScore (h : t.Lists vars) (hpoint : point.length = vars.length)
    (hcandidate : ∀ c ∈ candidate, c.length = t.numIntegers)
    (hlocks : k.policy = .locks → ∃ ps, k.lockPressure = some ps ∧ ps.length = t.numIntegers)
    (hfits : k.policy = .random → Ranker.FactorsFit R t.numIntegers)
    (hp : candidate.isSome = true → p.Tracks t.numIntegers) :
    k.SortsByScore t point candidate p := by
  obtain ⟨scored, q, hscores, hlen⟩ := k.exists_scores h hpoint hcandidate hlocks hfits hp
  have hrank := Ranker.rank_of_scores hscores hlen
  exact ⟨scored, _, q, hscores, hlen, hrank, Ranker.order_perm _, Ranker.perm_of_rank hrank,
    o.pairwise_order _⟩

end NumberOrder

end Orders

section Places

variable {α : Type} {r : α → α → Prop}

/-- In a sorted list an entry comes before those that may not stand before it. -/
theorem sublist_of_pairwise {xs : List α} (h : xs.Pairwise r) {a b : α} (ha : a ∈ xs) (hb : b ∈ xs)
    (hba : ¬ r b a) (hne : a ≠ b) : [a, b].Sublist xs := by
  induction h with
  | nil => cases ha
  | @cons x xs hx _ ih =>
      rcases List.mem_cons.mp ha with rfl | harest
      · have hbrest := (List.mem_cons.mp hb).resolve_left hne.symm
        exact (List.singleton_sublist.mpr hbrest).cons_cons a
      · rcases List.mem_cons.mp hb with rfl | hb
        · exact absurd (hx a harest) hba
        · exact (ih harest hb).cons x

end Places

end MipPump
