import MipPump.Proofs.Draws
import MipPump.Proofs.ExactNumbers

/-!
# Ranges of random draws

Whatever its state, the generator draws numbers of the range that it is asked for.

* `Generator.natBelow_lt`: the product of a word with `n` is cut off above the word, so that a draw
  is below `n`, be it the first or one that is repeated.
* `Generator.integer_eq_ok`: an integer that is drawn lies in its range.
* `Generator.unit_eq`, `Generator.uniform_eq`: in exact arithmetic a draw is a finite number of its
  interval.
* `Progress.drawInteger_eq_ok`, `Progress.exists_drawUnits`, `Progress.drawUniform_eq_ok`: the same of
  the draws of a run.
-/

namespace MipPump

open ExtRat

namespace Random.Generator

section Integers

/-- A draw from words below `2 ^ bits` stays below the bound. -/
theorem below_lt {draw : Generator → Nat × Generator} {bits n : Nat} (hn : 0 < n)
    (hdraw : ∀ g, (draw g).1 < Power.two bits) (least fuel : Nat) (g : Generator) :
    (below draw bits n least fuel g).1 < n := by
  induction fuel generalizing g with
  | zero => exact hn
  | succ fuel ih =>
      unfold below
      dsimp only
      split
      · exact ih _
      · exact Nat.div_lt_of_lt_mul (Nat.mul_lt_mul_of_pos_right (hdraw g) hn)

theorem natBelow_lt {n : Nat} (hn : 0 < n) (g : Generator) : (natBelow n g).1 < n := by
  unfold natBelow
  split_ifs
  · exact hn
  · exact below_lt hn (fun g => UInt32.toNat_lt _) _ _ g
  · exact below_lt hn (fun g => UInt64.toNat_lt _) _ _ g

theorem integer_eq_ok {R : Type} {low high x : Int} {g g' : Generator}
    (h : (integer low high g : Except (Fault R) _) = .ok (x, g')) : low ≤ x ∧ x < high := by
  unfold integer at h
  dsimp only at h
  split at h
  · cases h
  · rename_i hrange
    simp only [Bool.or_eq_true, decide_eq_true_eq, not_or, not_le] at hrange
    cases h
    have hlt := natBelow_lt (n := (high - low).toNat) (by omega) g
    omega

end Integers

section Numbers

/-- A number with 53 random bits lies in `[0, 1)`. -/
theorem unit_eq (g : Generator) :
    ∃ u : ℚ, (unit g : ExtRat × Generator).1 = fin u ∧ 0 ≤ u ∧ u < 1 := by
  have hpos : (0 : ℚ) < Power.two 53 := by norm_num [Power.two]
  have hlt : (g.next64.1 >>> 11).toNat < Power.two 53 := by
    have hshift : (g.next64.1 >>> 11).toNat = g.next64.1.toNat / 2 ^ 11 := by
      rw [UInt64.toNat_shiftRight, Nat.shiftRight_eq_div_pow]
      rfl
    rw [hshift]
    exact Nat.div_lt_of_lt_mul (UInt64.toNat_lt _)
  have hq : ((g.next64.1 >>> 11).toNat : ℚ) < Power.two 53 := by exact_mod_cast hlt
  refine ⟨(g.next64.1 >>> 11).toNat / Power.two 53, ?_, by positivity, (div_lt_one hpos).mpr hq⟩
  unfold unit
  dsimp only
  rw [ofInt_eq, ofInt_eq, fin_div _ _ (by exact_mod_cast hpos.ne'), Int.cast_natCast,
    Int.cast_natCast]

/-- A draw from an interval lies in the interval. -/
theorem uniform_eq {a b : ℚ} (h : a < b) (g : Generator) :
    ∃ x : ℚ, (uniform (fin a) (fin b) g).1 = fin x ∧ a ≤ x ∧ x < b := by
  obtain ⟨u, hu, hnonneg, hlt⟩ := unit_eq g
  refine ⟨a + (b - a) * u, ?_, ?_, ?_⟩
  · unfold uniform
    dsimp only
    rw [hu, fin_sub, fin_mul, fin_add]
  · nlinarith
  · nlinarith

/-- Repeated draws of finite numbers are finite numbers. -/
theorem exists_many {draw : Generator → ExtRat × Generator} {I : ℚ → Prop}
    (hdraw : ∀ g, ∃ x, (draw g).1 = fin x ∧ I x) (n : Nat) (g : Generator) :
    ∃ xs : List ℚ, (many draw n g).1 = xs.map fin ∧ ∀ x ∈ xs, I x := by
  induction n generalizing g with
  | zero => exact ⟨[], rfl, nofun⟩
  | succ n ih =>
      obtain ⟨x, hx, hI⟩ := hdraw g
      obtain ⟨xs, hxs, hall⟩ := ih (draw g).2
      refine ⟨x :: xs, ?_, List.forall_mem_cons.mpr ⟨hI, hall⟩⟩
      unfold many
      dsimp only
      rw [hx, hxs, List.map_cons]

end Numbers

end Random.Generator

namespace Progress

section Draws

variable {p : Progress ExtRat}

theorem drawInteger_eq_ok {low high x : Int} {q : Progress ExtRat}
    (h : drawInteger low high p = .ok x q) : low ≤ x ∧ x < high := by
  unfold drawInteger at h
  cases hdraw : (p.generator.integer low high : Except (Fault ExtRat) _) with
  | error e =>
      rw [hdraw] at h
      cases h
  | ok y =>
      rw [hdraw] at h
      cases h
      exact Random.Generator.integer_eq_ok hdraw

theorem drawMany_eq_ok {f : Random.Generator → ExtRat × Random.Generator} {n : Int}
    {xs : List ExtRat} {q : Progress ExtRat} (h : drawMany f n p = .ok xs q) :
    xs = (Random.Generator.many f n.toNat p.generator).1 := by
  unfold drawMany at h
  split at h
  · cases h
  · cases h
    rfl

/-- Numbers of `[0, 1)` can be drawn if they fit the memory. -/
theorem exists_drawUnits {n : Nat} (hfits : (n : Int) < countLimit) (p : Progress ExtRat) :
    ∃ (us : List ℚ) (q : Progress ExtRat), drawUnits n p = .ok (us.map fin) q ∧ us.length = n ∧
      (∀ u ∈ us, 0 ≤ u ∧ u < 1) ∧ p.Drawn q := by
  obtain ⟨draws, q, hdraw, hlen⟩ := drawMany_of_fits p Random.Generator.unit hfits
  obtain ⟨us, hus, hrange⟩ :=
    Random.Generator.exists_many Random.Generator.unit_eq n p.generator
  obtain rfl : draws = us.map fin := (drawMany_eq_ok hdraw).trans hus
  exact ⟨us, q, hdraw, by rwa [List.length_map] at hlen, hrange,
    (keeps_drawMany p _ n).of_ok (Drawn.refl p) hdraw⟩

/-- Numbers that are drawn from an interval are finite numbers of the interval. -/
theorem drawUniform_eq_ok {a b : ℚ} (hab : a < b) {n : Int} {xs : List ExtRat}
    {q : Progress ExtRat} (h : drawUniform (fin a) (fin b) n p = .ok xs q) :
    ∃ qs : List ℚ, xs = qs.map fin ∧ ∀ x ∈ qs, a ≤ x ∧ x < b := by
  unfold drawUniform at h
  split_ifs at h
  · cases h
  · cases h
  · obtain ⟨qs, hqs, hall⟩ :=
      Random.Generator.exists_many (Random.Generator.uniform_eq hab) n.toNat p.generator
    exact ⟨qs, (drawMany_eq_ok h).trans hqs, hall⟩

end Draws

end Progress

end MipPump
