import Mathlib.Tactic.SplitIfs
import MipPump.Proofs.Actions
import MipPump.Propagation.Row

/-!
# What the propagation of a row can do

Each part of the propagation of a row answers in a few ways.  Later proofs go by these and do not
open the parts again.

* `lowerUpper_eq_ok`, `raiseLower_eq_ok`: a bound is moved, or the box is left.
* `keeps_lowerUpper`, `keeps_raiseLower`: what moving a bound keeps, also where a domain is empty.
* `tightenTerm_eq_ok`: a term moves the bound of its side, if it can be bounded at all.
* `tightenTerms_cons_eq_ok`: the first term and those after it.
* `propagate_eq_ok`: the row is left alone, or its terms are tightened.
-/

namespace MipPump
namespace Propagation

variable {R : Type} [Arith R] {limits : Limits R} {row : UpperRow R} {a : Activity R}
  {b b' b'' : Box R} {k : Nat} {tightened : Bool}

section Bounds

/-- An upper bound as it counts: an integer variable rounds it down. -/
def Limits.roundedDown (limits : Limits R) (isIntegral : Bool) (bound : R) : R :=
  if isIntegral then Arith.floor (bound + limits.tol) else bound

/-- A lower bound as it counts: an integer variable rounds it up. -/
def Limits.roundedUp (limits : Limits R) (isIntegral : Bool) (bound : R) : R :=
  if isIntegral then Arith.ceil (bound - limits.tol) else bound

variable {isIntegral : Bool} {bound : R}

/-- Lowering an upper bound answers in two ways: it moves the bound, or it leaves the box. -/
theorem lowerUpper_eq_ok :
    lowerUpper limits k isIntegral bound b = .ok tightened b' ↔
      ∃ l u, b.bounds k = .ok (l, u) ∧
        (tightened = true ∧
            limits.roundedDown isIntegral bound < u - limits.margin isIntegral ∧
            ¬ limits.roundedDown isIntegral bound < l - limits.tol ∧
            b' = { b with
              ub := b.ub.set k (Arith.larger (limits.roundedDown isIntegral bound) l) } ∨
          tightened = false ∧
            ¬ limits.roundedDown isIntegral bound < u - limits.margin isIntegral ∧ b' = b) := by
  unfold lowerUpper
  cases hbounds : b.bounds k with
  | error e =>
      constructor
      · intro h
        cases h
      · rintro ⟨l, u, hread, -⟩
        cases hread
  | ok bounds =>
      obtain ⟨l, u⟩ := bounds
      have hdown : (if isIntegral then Arith.floor (bound + limits.tol) else bound) =
        limits.roundedDown isIntegral bound := rfl
      dsimp only
      rw [hdown]
      constructor
      · intro h
        split_ifs at h with himproves hcrosses
        · cases h
          exact ⟨l, u, rfl, .inl ⟨rfl, himproves, hcrosses, rfl⟩⟩
        · cases h
          exact ⟨l, u, rfl, .inr ⟨rfl, himproves, rfl⟩⟩
      · rintro ⟨_, _, hread, ⟨rfl, himproves, hcrosses, rfl⟩ | ⟨rfl, himproves, rfl⟩⟩
        · cases hread
          rw [if_pos himproves, if_neg hcrosses]
        · cases hread
          rw [if_neg himproves]

/-- Raising a lower bound answers in two ways, too. -/
theorem raiseLower_eq_ok :
    raiseLower limits k isIntegral bound b = .ok tightened b' ↔
      ∃ l u, b.bounds k = .ok (l, u) ∧
        (tightened = true ∧
            l + limits.margin isIntegral < limits.roundedUp isIntegral bound ∧
            ¬ u + limits.tol < limits.roundedUp isIntegral bound ∧
            b' = { b with
              lb := b.lb.set k (Arith.smaller (limits.roundedUp isIntegral bound) u) } ∨
          tightened = false ∧
            ¬ l + limits.margin isIntegral < limits.roundedUp isIntegral bound ∧ b' = b) := by
  unfold raiseLower
  cases hbounds : b.bounds k with
  | error e =>
      constructor
      · intro h
        cases h
      · rintro ⟨l, u, hread, -⟩
        cases hread
  | ok bounds =>
      obtain ⟨l, u⟩ := bounds
      have hup : (if isIntegral then Arith.ceil (bound - limits.tol) else bound) =
        limits.roundedUp isIntegral bound := rfl
      dsimp only
      rw [hup]
      constructor
      · intro h
        split_ifs at h with himproves hcrosses
        · cases h
          exact ⟨l, u, rfl, .inl ⟨rfl, himproves, hcrosses, rfl⟩⟩
        · cases h
          exact ⟨l, u, rfl, .inr ⟨rfl, himproves, rfl⟩⟩
      · rintro ⟨_, _, hread, ⟨rfl, himproves, hcrosses, rfl⟩ | ⟨rfl, himproves, rfl⟩⟩
        · cases hread
          rw [if_pos himproves, if_neg hcrosses]
        · cases hread
          rw [if_neg himproves]

/-- What a box keeps when the upper bound of the variable is moved, it keeps when lowering the bound
is tried: otherwise the box is left, also where the domain is found empty. -/
theorem keeps_lowerUpper {I : Box R → Prop}
    (h : ∀ b l u, I b → b.bounds k = .ok (l, u) →
      limits.roundedDown isIntegral bound < u - limits.margin isIntegral →
      ¬ limits.roundedDown isIntegral bound < l - limits.tol →
      I { b with ub := b.ub.set k (Arith.larger (limits.roundedDown isIntegral bound) l) }) :
    Act.Keeps I (lowerUpper limits k isIntegral bound) := by
  intro b hb
  unfold Act.after Act.split lowerUpper
  cases hbounds : b.bounds k with
  | error e => exact hb
  | ok bounds =>
      have hdown : (if isIntegral then Arith.floor (bound + limits.tol) else bound) =
        limits.roundedDown isIntegral bound := rfl
      dsimp only
      rw [hdown]
      split_ifs with himproves hcrosses
      · exact hb
      · exact h b _ _ hb hbounds himproves hcrosses
      · exact hb

theorem keeps_raiseLower {I : Box R → Prop}
    (h : ∀ b l u, I b → b.bounds k = .ok (l, u) →
      l + limits.margin isIntegral < limits.roundedUp isIntegral bound →
      ¬ u + limits.tol < limits.roundedUp isIntegral bound →
      I { b with lb := b.lb.set k (Arith.smaller (limits.roundedUp isIntegral bound) u) }) :
    Act.Keeps I (raiseLower limits k isIntegral bound) := by
  intro b hb
  unfold Act.after Act.split raiseLower
  cases hbounds : b.bounds k with
  | error e => exact hb
  | ok bounds =>
      have hup : (if isIntegral then Arith.ceil (bound - limits.tol) else bound) =
        limits.roundedUp isIntegral bound := rfl
      dsimp only
      rw [hup]
      split_ifs with himproves hcrosses
      · exact hb
      · exact h b _ _ hb hbounds himproves hcrosses
      · exact hb

end Bounds

section Terms

variable {coef c : R} {terms : List ((Nat × R) × R)} {ks : List Nat}

/-- What one term does: nothing if it cannot be bounded, else it moves the bound of its side. -/
theorem tightenTerm_eq_ok :
    row.tightenTerm limits a k coef c b = .ok tightened b' ↔
      a.bounds c = false ∧ tightened = false ∧ b' = b ∨
        a.bounds c = true ∧ ∃ isIntegral,
          (Vec.get limits.integral k : Except (Fault R) Bool) = .ok isIntegral ∧
            (if 0 < coef then lowerUpper limits k isIntegral (row.impliedBound a coef c) b
              else raiseLower limits k isIntegral (row.impliedBound a coef c) b) =
                .ok tightened b' := by
  unfold UpperRow.tightenTerm
  by_cases hbounds : a.bounds c = true
  · rw [if_pos hbounds]
    constructor
    · intro h
      obtain ⟨isIntegral, _, hread, h⟩ := Act.bind_eq_ok.mp h
      obtain ⟨hkind, rfl⟩ := Act.ofExcept_eq_ok.mp hread
      refine .inr ⟨hbounds, isIntegral, hkind, ?_⟩
      split_ifs at h ⊢ <;> exact h
    · rintro (⟨hnot, -⟩ | ⟨-, isIntegral, hkind, h⟩)
      · rw [hbounds] at hnot
        cases hnot
      · rw [Act.ofExcept_bind hkind]
        split_ifs at h ⊢ <;> exact h
  · rw [if_neg hbounds]
    constructor
    · intro h
      cases h
      exact .inl ⟨Bool.eq_false_iff.mpr hbounds, rfl, rfl⟩
    · rintro (⟨-, rfl, rfl⟩ | ⟨hyes, -⟩)
      · rfl
      · exact absurd hyes hbounds

theorem tightenTerms_cons_eq_ok :
    row.tightenTerms limits a (((k, coef), c) :: terms) b = .ok ks b'' ↔
      ∃ tightened b' others, row.tightenTerm limits a k coef c b = .ok tightened b' ∧
        row.tightenTerms limits a terms b' = .ok others b'' ∧
        ks = (if tightened then k :: others else others) := by
  rw [UpperRow.tightenTerms]
  constructor
  · intro h
    obtain ⟨tightened, b', hfirst, h⟩ := Act.bind_eq_ok.mp h
    obtain ⟨others, b₂, hrest, h⟩ := Act.bind_eq_ok.mp h
    cases h
    exact ⟨tightened, b', others, hfirst, hrest, rfl⟩
  · rintro ⟨tightened, b', others, hfirst, hrest, rfl⟩
    rw [Act.bind_of_ok hfirst, Act.bind_of_ok hrest]
    rfl

/-- A row that cannot be judged is left alone; the terms of another one are tightened. -/
theorem propagate_eq_ok :
    row.propagate limits b = .ok ks b' ↔
      ∃ a, row.activity b = .ok a ∧ row.checkActivity limits b a = .ok () ∧
        (1 < a.infinite ∧ ks = [] ∧ b' = b ∨ ¬ 1 < a.infinite ∧
          row.tightenTerms limits a (row.terms.zip a.contributions) b = .ok ks b') := by
  unfold UpperRow.propagate
  rw [Act.bind_of_ok (Act.get_apply b)]
  constructor
  · intro h
    obtain ⟨a, _, hread, h⟩ := Act.bind_eq_ok.mp h
    obtain ⟨ha, rfl⟩ := Act.ofExcept_eq_ok.mp hread
    obtain ⟨_, _, hcheck, h⟩ := Act.bind_eq_ok.mp h
    obtain ⟨hholds, rfl⟩ := Act.ofExcept_eq_ok.mp hcheck
    refine ⟨a, ha, hholds, ?_⟩
    split_ifs at h with hinfinite
    · cases h
      exact .inl ⟨hinfinite, rfl, rfl⟩
    · exact .inr ⟨hinfinite, h⟩
  · rintro ⟨a, ha, hholds, hrun⟩
    rw [Act.ofExcept_bind ha, Act.ofExcept_bind hholds]
    rcases hrun with ⟨hinfinite, rfl, rfl⟩ | ⟨hfinite, hrun⟩
    · rw [if_pos hinfinite]
      rfl
    · rw [if_neg hfinite]
      exact hrun

end Terms

end Propagation
end MipPump
