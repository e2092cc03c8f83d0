import MipPump.Proofs.Feasibility
import MipPump.Proofs.TraceShape

/-!
# Targets without fractions

A run aims at candidates.  Those that a rounding made are checked to be integral, and a perturbation
moves their entries by whole steps or to integral bounds.  In exact arithmetic no target has a
fractional entry therefore.

* `Arith.Integers`: a kind of numbers that rounding makes and that the operations of a move do not
  leave.  `Perturber.Moved.integers`: the entries of a perturbed candidate are of such a kind.
* `NoFraction`: the numbers that are no fractions are such a kind in exact arithmetic.
* `Aimed`: what is known of the target of a stage, in every world that is reached.
-/

namespace MipPump

section Moves

variable {R : Type} [Arith R] {Kind : R → Prop}

/-- A kind of numbers that rounding to integers makes, and that is closed under the operations of a
move. -/
structure Arith.Integers (Kind : R → Prop) : Prop where
  ofInt : ∀ n : ℤ, Kind (Arith.ofInt n)
  floor : ∀ x, Kind (Arith.floor x)
  ceil : ∀ x, Kind (Arith.ceil x)
  sign : ∀ x : R, Kind (Arith.sign x)
  neg : ∀ {x}, Kind x → Kind (-x)
  add : ∀ {x y}, Kind x → Kind y → Kind (x + y)
  sub : ∀ {x y}, Kind x → Kind y → Kind (x - y)
  mul : ∀ {x y}, Kind x → Kind y → Kind (x * y)

theorem kind_clampBound {lo hi x : R} (hlo : Kind lo) (hhi : Kind hi) (hx : Kind x) :
    Kind (Arith.clampBound lo hi x) := by
  unfold Arith.clampBound
  dsimp only
  split_ifs
  all_goals first | exact hhi | exact hx | exact hlo

namespace Arith.Integers

variable (o : Arith.Integers Kind)
include o

theorem moveValue {step x current lb ub : R} (hstep : Kind step) (hcurrent : Kind current)
    (hlb : Kind lb) (hub : Kind ub) : Kind (moveValue step x current lb ub) := by
  have hdirection : Kind (moveDirection x current lb ub) := by
    unfold moveDirection
    dsimp only
    split_ifs
    · exact o.ofInt 1
    · exact o.neg (o.ofInt 1)
    · exact o.sign _
  unfold MipPump.moveValue
  dsimp only
  split_ifs
  · exact kind_clampBound hlb hub (o.sub hcurrent (o.mul hdirection hstep))
  · exact kind_clampBound hlb hub (o.add hcurrent (o.mul hdirection hstep))

theorem nearestNumber {n : Int} {x : R}
    (h : (nearestNumber n : Except (Fault R) R) = .ok x) : Kind x := by
  unfold MipPump.nearestNumber Amount.nearest? at h
  dsimp only at h
  split_ifs at h
  cases h
  exact o.ofInt n

variable {s : Settings R} {t : Table R} {vars : List (Variable R)} {point candidate : List R}

theorem intLb (h : t.Lists vars) {x : R} (hx : x ∈ t.intLb) : Kind x := by
  obtain ⟨lower, -, hlower⟩ := h.intLb
  rw [hlower] at hx
  obtain ⟨l, -, rfl⟩ := List.mem_map.mp hx
  exact o.ceil _

theorem intUb (h : t.Lists vars) {x : R} (hx : x ∈ t.intUb) : Kind x := by
  obtain ⟨upper, -, hupper⟩ := h.intUb
  rw [hupper] at hx
  obtain ⟨u, -, rfl⟩ := List.mem_map.mp hx
  exact o.floor _

end Arith.Integers

/-- A perturbation of such a candidate leaves the kind. -/
theorem Perturber.Moved.integers {s : Settings R} {t : Table R} {vars : List (Variable R)}
    {point candidate : List R} {m : Perturbed R} (o : Arith.Integers Kind) (h : t.Lists vars)
    (hmoved : Perturber.Moved s t point candidate m) (hcandidate : ∀ x ∈ candidate, Kind x) :
    ∀ x ∈ m.candidate, Kind x := by
  obtain ⟨step, writes, hstep, hplace, hwrites⟩ := hmoved.write
  intro x hx
  rcases Vec.mem_of_placeAll hplace hx with hx | ⟨w, hw, rfl⟩
  · exact hcandidate x hx
  · obtain ⟨x, -, current, lb, ub, hcurrent, hlb, hub, hvalue⟩ := hwrites w hw
    rw [hvalue]
    exact o.moveValue (o.nearestNumber hstep) (hcandidate current (Vec.mem_of_at? hcurrent))
      (o.intLb h (Vec.mem_of_at? hlb)) (o.intUb h (Vec.mem_of_at? hub))

end Moves

namespace ExtRat

section Fractions

/-- The number is no fraction: it is an integer, an infinity or no number. -/
def NoFraction (x : ExtRat) : Prop := ∀ q : ℚ, x = fin q → ∃ n : ℤ, q = n

variable {x y : ExtRat}

theorem noFraction_intCast (n : ℤ) : NoFraction (fin n) := by
  rintro q ⟨⟩
  exact ⟨n, rfl⟩

theorem NoFraction.add (hx : NoFraction x) (hy : NoFraction y) : NoFraction (x + y) := by
  intro q hq
  cases x with
  | fin a =>
      cases y with
      | fin b =>
          obtain ⟨m, rfl⟩ := hx a rfl
          obtain ⟨n, rfl⟩ := hy b rfl
          cases hq
          exact ⟨m + n, by push_cast; rfl⟩
      | _ => cases hq
  | _ => cases y <;> cases hq

theorem NoFraction.neg (hx : NoFraction x) : NoFraction (-x) := by
  intro q hq
  cases x with
  | fin a =>
      obtain ⟨m, rfl⟩ := hx a rfl
      cases hq
      exact ⟨-m, by push_cast; rfl⟩
  | _ => cases hq

theorem NoFraction.sub (hx : NoFraction x) (hy : NoFraction y) : NoFraction (x - y) :=
  hx.add hy.neg

theorem noFraction_infinityWithSign (q : ℚ) : NoFraction (infinityWithSign q) := by
  intro r hr
  unfold infinityWithSign at hr
  split_ifs at hr

theorem NoFraction.mul (hx : NoFraction x) (hy : NoFraction y) : NoFraction (x * y) := by
  cases x with
  | fin a =>
      cases y with
      | fin b =>
          obtain ⟨m, rfl⟩ := hx a rfl
          obtain ⟨n, rfl⟩ := hy b rfl
          rintro q ⟨⟩
          exact ⟨m * n, by push_cast; rfl⟩
      | nan => rintro q ⟨⟩
      | _ => exact noFraction_infinityWithSign _
  | nan => rintro q ⟨⟩
  | _ =>
      cases y with
      | fin b => exact noFraction_infinityWithSign _
      | _ => rintro q ⟨⟩

theorem noFraction_sign (x : ExtRat) : NoFraction (Arith.sign x) := by
  unfold Arith.sign
  split_ifs with hpos hneg hzero
  · exact noFraction_intCast 1
  · exact noFraction_intCast (-1)
  · exact noFraction_intCast 0
  · cases x with
    | fin q =>
        rw [zero_eq, fin_lt_fin] at hpos hneg
        rw [zero_eq, fin_beq_fin, decide_eq_true_iff] at hzero
        exact absurd (le_antisymm (not_lt.mp hpos) (not_lt.mp hneg)) hzero
    | _ => rintro q ⟨⟩

/-- A rounding down is no fraction, and so is a rounding up. -/
theorem noFraction_floor (x : ExtRat) : NoFraction (Arith.floor x) := by
  cases x with
  | fin q => exact noFraction_intCast q.floor
  | _ => rintro q ⟨⟩

theorem noFraction_ceil (x : ExtRat) : NoFraction (Arith.ceil x) := by
  cases x with
  | fin q => exact noFraction_intCast q.ceil
  | _ => rintro q ⟨⟩

theorem noFraction_of_beq_rint (h : (x == Arith.rint x) = true) : NoFraction x := by
  rintro q rfl
  obtain ⟨n, hn⟩ := whole_of_beq_rint h rfl
  exact ⟨n, ExtRat.fin.inj hn⟩

/-- What is no fraction is closed under the operations of a move. -/
theorem integers_noFraction : Arith.Integers NoFraction where
  ofInt := noFraction_intCast
  floor := noFraction_floor
  ceil := noFraction_ceil
  sign := noFraction_sign
  neg := .neg
  add := .add
  sub := .sub
  mul := .mul

end Fractions

end ExtRat

open ExtRat

section Aims

variable {σ : Type} {setup : Setup ExtRat σ} {env : Surroundings ExtRat σ}
  {stage stage' : Stage ExtRat} {a a' : Ledger ExtRat} {vars : List (Variable ExtRat)}

/-- The target of a stage has no fractions, and the roundings before it could draw. -/
def Aimed (setup : Setup ExtRat σ) : Stage ExtRat → Ledger ExtRat → Prop
  | .top target, _ | .projecting target, _ => setup.DrawsFit ∧ ∀ x ∈ target, NoFraction x
  | _, _ => True

theorem Setup.Measured.aimed {reply : Reply ExtRat σ} {point candidate : List ExtRat}
    {d : Distance ExtRat} (h : setup.Measured reply point candidate d) :
    setup.DrawsFit ∧ ∀ x ∈ candidate, NoFraction x :=
  ⟨h.fits, fun x hx => noFraction_of_beq_rint ((check_iff.mp h.checked).2.1 x hx)⟩

theorem aimed_of_transition (hlists : setup.table.Lists vars) (h : Aimed setup stage a)
    (ht : Transition setup env stage a stage' a') : Aimed setup stage' a' := by
  cases ht with
  | rootRounded measured => exact measured.aimed
  | accepted aim measured => exact measured.aimed
  | perturbed aim measured hb patient move =>
      obtain ⟨hfits, hcandidate⟩ := measured.aimed
      exact ⟨hfits, (Perturber.perturb_eq_ok move).2.integers integers_noFraction hlists hcandidate⟩
  | restarted aim measured hb impatient left move =>
      obtain ⟨hfits, hcandidate⟩ := measured.aimed
      exact ⟨hfits, (Perturber.restart_eq_ok move).2.integers integers_noFraction hlists hcandidate⟩
  | resumed => exact h
  | _ => trivial

/-- The targets of all worlds that are reached have no fractions. -/
theorem World.Reachable.aimed {start w : World ExtRat σ} (hlists : setup.table.Lists vars)
    (hstart : start.run.stage = .opening) (h : World.Reachable setup start w) :
    Aimed setup w.run.stage w.ledger := by
  refine World.Reachable.induct (I := Aimed setup) ?_ ?_ ?_ ?_ h
  · rw [hstart]
    trivial
  · intro stage a store ha
    cases stage <;> exact ha
  · intro e a
    trivial
  · intro env stage a stage' a' ha ht
    exact aimed_of_transition hlists ha ht

end Aims

end MipPump
