import MipPump.Perturbation
import MipPump.Proofs.Draws

/-!
# Effects of perturbations

A perturbation of a run draws random numbers, moves some entries of the candidate and counts itself.

* `MovedBy s t point candidate indices m`: the candidate of `m` comes from `candidate` by moving the
  entries of some variables, each by a step towards the point and inside the integral bounds;
  `MovedBy.write` is one of the moves.  `Moved` leaves the variables open.
* `perturb_eq_ok` and `restart_eq_ok`: besides the generator, a perturbation changes the progress by
  the note of the moved positions only.
-/

namespace MipPump
namespace Perturber

variable {R : Type} [Arith R]

/-- The candidate of `m` is a candidate with the entries of the variables of given indices moved by
a step. -/
def MovedBy (s : Settings R) (t : Table R) (point candidate : List R) (indices : List Int)
    (m : Perturbed R) : Prop :=
  ∃ (values current lb ub moved : List R) (step : R),
    (Vec.pick t.position indices : Except (Fault R) (List Int)) = .ok m.positions ∧
    (Vec.pick point indices : Except (Fault R) (List R)) = .ok values ∧
    (Vec.pick candidate m.positions : Except (Fault R) (List R)) = .ok current ∧
    (Vec.pick t.intLb m.positions : Except (Fault R) (List R)) = .ok lb ∧
    (Vec.pick t.intUb m.positions : Except (Fault R) (List R)) = .ok ub ∧
    nearestNumber s.perturbationStep = .ok step ∧
    moveAway step values current lb ub = .ok moved ∧
    (Vec.placeAll candidate (m.positions.zip moved) : Except (Fault R) (List R)) =
      .ok m.candidate

/-- The candidate of `m` is a candidate with some entries moved by a step. -/
def Moved (s : Settings R) (t : Table R) (point candidate : List R) (m : Perturbed R) : Prop :=
  ∃ indices, MovedBy s t point candidate indices m

section Draws

variable (p : Progress R)

omit [Arith R] in
theorem keeps_drawInteger (low high : Int) : Act.Keeps p.Drawn (Progress.drawInteger low high) := by
  rintro _ ⟨g, rfl⟩
  unfold Act.after Act.split Progress.drawInteger
  cases h : (Random.Generator.integer low high g : Except (Fault R) _) with
  | ok x => exact ⟨x.2, rfl⟩
  | error e => exact ⟨g, rfl⟩

theorem keeps_flipCount (s : Settings R) (t : Table R) : Act.Keeps p.Drawn (flipCount s t) := by
  unfold flipCount
  refine Act.keeps_bind (Act.keeps_ofExcept _) fun count => ?_
  exact Act.keeps_ite (Act.keeps_bind (keeps_drawInteger p _ _) fun _ => Act.keeps_pure _)
    (Act.keeps_bind (Act.keeps_pure _) fun _ => Act.keeps_pure _)

theorem keeps_displaced (t : Table R) (point candidate : List R) :
    Act.Keeps p.Drawn (displaced t point candidate) := by
  unfold displaced
  refine Act.keeps_bind (Act.keeps_ofExcept _) fun values => ?_
  refine Act.keeps_bind (Act.keeps_ofExcept _) fun gaps => ?_
  exact Act.keeps_bind (Progress.keeps_drawUniform p _ _ _) fun draws => Act.keeps_ofExcept _

end Draws

section Effects

variable {s : Settings R} {t : Table R} {ranker : Ranker R} {point candidate : List R}
  {m : Perturbed R} {p q : Progress R}

theorem flip_eq_ok {indices : List Int} (h : flip s t point candidate indices p = .ok m q) :
    q = p.noteFlips m.positions ∧ MovedBy s t point candidate indices m := by
  unfold flip at h
  obtain ⟨positions, p₁, h₁, h⟩ := Act.bind_eq_ok.mp h
  obtain ⟨hpositions, rfl⟩ := Act.ofExcept_eq_ok.mp h₁
  obtain ⟨values, p₂, h₂, h⟩ := Act.bind_eq_ok.mp h
  obtain ⟨hvalues, rfl⟩ := Act.ofExcept_eq_ok.mp h₂
  obtain ⟨current, p₃, h₃, h⟩ := Act.bind_eq_ok.mp h
  obtain ⟨hcurrent, rfl⟩ := Act.ofExcept_eq_ok.mp h₃
  obtain ⟨lb, p₄, h₄, h⟩ := Act.bind_eq_ok.mp h
  obtain ⟨hlb, rfl⟩ := Act.ofExcept_eq_ok.mp h₄
  obtain ⟨ub, p₅, h₅, h⟩ := Act.bind_eq_ok.mp h
  obtain ⟨hub, rfl⟩ := Act.ofExcept_eq_ok.mp h₅
  obtain ⟨step, p₆, h₆, h⟩ := Act.bind_eq_ok.mp h
  obtain ⟨hstep, rfl⟩ := Act.ofExcept_eq_ok.mp h₆
  obtain ⟨moved, p₇, h₇, h⟩ := Act.bind_eq_ok.mp h
  obtain ⟨hmoved, rfl⟩ := Act.ofExcept_eq_ok.mp h₇
  obtain ⟨perturbed, p₈, h₈, h⟩ := Act.bind_eq_ok.mp h
  obtain ⟨hplace, rfl⟩ := Act.ofExcept_eq_ok.mp h₈
  obtain ⟨_, p₉, hrecord, h⟩ := Act.bind_eq_ok.mp h
  cases h
  unfold Progress.recordFlips at hrecord
  obtain ⟨_, p₁₀, hword, hnote⟩ := Act.bind_eq_ok.mp hrecord
  obtain ⟨-, rfl⟩ := Act.ofExcept_eq_ok.mp hword
  cases hnote
  exact ⟨rfl, values, current, lb, ub, moved, step, hpositions, hvalues, hcurrent, hlb, hub, hstep,
    hmoved, hplace⟩

/-- Besides the generator, a perturbation changes the progress by its note only. -/
theorem perturb_eq_ok (h : perturb s t ranker point candidate p = .ok m q) :
    (∃ g, q = ({ p with generator := g }).noteFlips m.positions) ∧
      Moved s t point candidate m := by
  unfold perturb at h
  obtain ⟨count, p₁, hcount, h⟩ := Act.bind_eq_ok.mp h
  have hp₁ : p.Drawn p₁ := (keeps_flipCount p s t).of_ok (Progress.Drawn.refl p) hcount
  obtain ⟨order, p₂, horder, h⟩ := Act.bind_eq_ok.mp h
  obtain ⟨g, rfl⟩ : p.Drawn p₂ := (ranker.keeps_rank p t point _).of_ok hp₁ horder
  obtain ⟨rfl, hmoved⟩ := flip_eq_ok h
  exact ⟨⟨g, rfl⟩, _, hmoved⟩

theorem restartTop_eq_ok (h : restartTop s t ranker point candidate p = .ok m q) :
    (∃ g, q = ({ p with generator := g }).noteFlips m.positions) ∧
      Moved s t point candidate m := by
  unfold restartTop at h
  obtain ⟨count, p₁, hcount, h⟩ := Act.bind_eq_ok.mp h
  obtain ⟨-, rfl⟩ := Act.ofExcept_eq_ok.mp hcount
  obtain ⟨order, p₂, horder, h⟩ := Act.bind_eq_ok.mp h
  obtain ⟨g, rfl⟩ : p.Drawn p₂ :=
    (ranker.keeps_rank p t point _).of_ok (Progress.Drawn.refl p) horder
  obtain ⟨rfl, hmoved⟩ := flip_eq_ok h
  exact ⟨⟨g, rfl⟩, _, hmoved⟩

/-- The perturbation of a restart changes the progress in the same way. -/
theorem restart_eq_ok (h : restart s t ranker point candidate p = .ok m q) :
    (∃ g, q = ({ p with generator := g }).noteFlips m.positions) ∧
      Moved s t point candidate m := by
  unfold restart at h
  split at h
  · obtain ⟨chosen, p₁, hchosen, h⟩ := Act.bind_eq_ok.mp h
    obtain ⟨g, rfl⟩ : p.Drawn p₁ :=
      (keeps_displaced p t point candidate).of_ok (Progress.Drawn.refl p) hchosen
    split at h
    · obtain ⟨⟨g', rfl⟩, hmoved⟩ := restartTop_eq_ok h
      exact ⟨⟨g', rfl⟩, hmoved⟩
    · obtain ⟨rfl, hmoved⟩ := flip_eq_ok h
      exact ⟨⟨g, rfl⟩, _, hmoved⟩
  · exact restartTop_eq_ok h

/-- Each move takes the entry of a variable a step towards its value in the point, inside its
bounds. -/
theorem MovedBy.write {indices : List Int} (h : MovedBy s t point candidate indices m) :
    ∃ step writes, (nearestNumber s.perturbationStep : Except (Fault R) R) = .ok step ∧
      (Vec.placeAll candidate writes : Except (Fault R) (List R)) = .ok m.candidate ∧
      writes.map (·.1) = m.positions ∧
      ∀ w ∈ writes, ∃ j ∈ indices, ∃ x current lb ub, Vec.at? t.position j = some w.1 ∧
        Vec.at? point j = some x ∧ Vec.at? candidate w.1 = some current ∧
        Vec.at? t.intLb w.1 = some lb ∧ Vec.at? t.intUb w.1 = some ub ∧
        w.2 = moveValue step x current lb ub := by
  obtain ⟨values, current, lb, ub, moved, step, hpositions, hvalues, hcurrent, hlb, hub, hstep,
    hmove, hplace⟩ := h
  have hlen : values.length = current.length := by
    rw [Vec.length_of_pick hvalues, Vec.length_of_pick hcurrent, Vec.length_of_pick hpositions]
  have hbounds : lb.length = ub.length := by
    rw [Vec.length_of_pick hlb, Vec.length_of_pick hub]
  have hsides : (List.zipWith Prod.mk values current).length =
      (List.zipWith Prod.mk lb ub).length := by
    rw [List.length_zipWith, List.length_zipWith, hlen, hbounds, Vec.length_of_pick hcurrent,
      Vec.length_of_pick hub]
  unfold moveAway at hmove
  rw [Act.exceptBind_of_ok (Vec.map2_of_length _ hlen),
    Act.exceptBind_of_ok (Vec.map2_of_length _ hbounds), Vec.map2_of_length _ hsides] at hmove
  obtain rfl := Except.ok.inj hmove
  refine ⟨step, _, hstep, hplace, List.map_fst_zip (Nat.le_of_eq ?_), fun w hw => ?_⟩
  · rw [List.length_zipWith, ← hsides, Nat.min_self, List.length_zipWith, hlen, Nat.min_self,
      Vec.length_of_pick hcurrent]
  · obtain ⟨i, hi⟩ := List.mem_iff_getElem?.mp hw
    obtain ⟨hp, hy⟩ := List.getElem?_zip_eq_some.mp hi
    obtain ⟨j, hj, hplace⟩ := Vec.forall₂_getElem? (Vec.pick_eq_ok.mp hpositions).flip hp
    obtain ⟨x, hx, hxj⟩ := Vec.forall₂_getElem? (Vec.pick_eq_ok.mp hvalues) hj
    obtain ⟨c, hc, hcp⟩ := Vec.forall₂_getElem? (Vec.pick_eq_ok.mp hcurrent) hp
    obtain ⟨l, hl, hlp⟩ := Vec.forall₂_getElem? (Vec.pick_eq_ok.mp hlb) hp
    obtain ⟨u, hu, hup⟩ := Vec.forall₂_getElem? (Vec.pick_eq_ok.mp hub) hp
    refine ⟨j, List.mem_of_getElem? hj, x, c, l, u, hplace, hxj, hcp, hlp, hup, ?_⟩
    simpa [List.getElem?_zipWith, hx, hc, hl, hu] using hy.symm

/-- The same without the variables whose entries move. -/
theorem Moved.write (h : Moved s t point candidate m) :
    ∃ step writes, (nearestNumber s.perturbationStep : Except (Fault R) R) = .ok step ∧
      (Vec.placeAll candidate writes : Except (Fault R) (List R)) = .ok m.candidate ∧
      ∀ w ∈ writes, ∃ x ∈ point, ∃ current lb ub, Vec.at? candidate w.1 = some current ∧
        Vec.at? t.intLb w.1 = some lb ∧ Vec.at? t.intUb w.1 = some ub ∧
        w.2 = moveValue step x current lb ub := by
  obtain ⟨indices, hmoved⟩ := h
  obtain ⟨step, writes, hstep, hplace, -, hwrites⟩ := hmoved.write
  refine ⟨step, writes, hstep, hplace, fun w hw => ?_⟩
  obtain ⟨j, -, x, current, lb, ub, -, hx, hmove⟩ := hwrites w hw
  exact ⟨x, Vec.mem_of_at? hx, current, lb, ub, hmove⟩

theorem Moved.length_eq (h : Moved s t point candidate m) :
    m.candidate.length = candidate.length := by
  obtain ⟨_, _, -, hplace, -⟩ := h.write
  exact Vec.length_of_placeAll hplace

end Effects

end Perturber
end MipPump
