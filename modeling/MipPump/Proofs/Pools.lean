import MipPump.Pool
import MipPump.Proofs.Launches

/-!
# Moves of a pool

A step of a pool is a move of one slot.  `Pool.Move` lists the moves, one constructor for each, with
everything that was checked on the way.

* `step_move`: every step is a move.
* `Pool.follow_induct`, `follow_frame`: what every move keeps, a schedule keeps.
* `outcomes_eq_ok`: a pool has outcomes when every slot has finished with one.
-/

namespace MipPump

section Slots

variable {R σ : Type} [Arith R]

/-- What all slots have and the new slot has as well. -/
theorem forall_mem_set {slots : List (Slot R σ)} {i : Nat} {old new : Slot R σ}
    {P : Slot R σ → Prop} (hall : ∀ slot ∈ slots, P slot) (h : slots[i]? = some old)
    (hnew : P old → P new) : ∀ slot ∈ slots.set i new, P slot := fun slot hslot =>
  (List.mem_or_eq_of_mem_set hslot).elim (hall slot) fun heq =>
    heq ▸ hnew (hall old (List.mem_of_getElem? h))

/-- Replacing a slot that has no property brings that of the new slot. -/
theorem exists_mem_set {slots : List (Slot R σ)} {i : Nat} {old new : Slot R σ}
    {P : Slot R σ → Prop} (h : slots[i]? = some old) (hold : P old → P new) :
    (∃ slot ∈ slots.set i new, P slot) ↔ P new ∨ ∃ slot ∈ slots, P slot := by
  obtain ⟨hi, rfl⟩ := List.getElem?_eq_some_iff.mp h
  obtain ⟨before, after, heq, -, hset⟩ : ∃ before after, slots = before ++ slots[i] :: after ∧
      before.length = i ∧ slots.set i new = before ++ new :: after := List.exists_of_set hi
  rw [hset]
  generalize slots[i] = old at heq hold
  subst heq
  simp only [List.mem_append, List.mem_cons, or_and_right, exists_or, exists_eq_left]
  constructor
  · rintro (h | h | h)
    · exact .inr (.inl h)
    · exact .inl h
    · exact .inr (.inr (.inr h))
  · rintro (h | h | h | h)
    · exact .inr (.inl h)
    · exact .inl h
    · exact .inr (.inl (hold h))
    · exact .inr (.inr h)

/-- Replacing a slot by one of the same value. -/
theorem exists_mem_set_of_iff {slots : List (Slot R σ)} {i : Nat} {old new : Slot R σ}
    {P : Slot R σ → Prop} (h : slots[i]? = some old) (hsame : P new ↔ P old) :
    (∃ slot ∈ slots.set i new, P slot) ↔ ∃ slot ∈ slots, P slot := by
  rw [exists_mem_set h hsame.mpr]
  refine or_iff_right_of_imp fun hnew => ?_
  exact ⟨old, List.mem_of_getElem? h, hsame.mp hnew⟩

end Slots

namespace Pool

variable {R σ : Type} [Arith R]

/-- All that a step of a slot can do to a pool. -/
inductive Move (now : R) (i : Nat) (p : Pool R σ) : Pool R σ → Prop
  | stays : Move now i p p
  | starts {task : PumpTask R σ} {domain : Domain R} {oracle : σ}
      (h : p.slots[i]? = some (.waiting task domain oracle)) (free : p.mayStart i = true) :
      Move now i p { p with slots := p.slots.set i (Slot.start now task domain oracle) }
  | steps {setup : Setup R σ} {run : Run R σ} {w : World R σ}
      (h : p.slots[i]? = some (.active setup run)) (going : ∀ result, run.stage ≠ .ended result)
      (hw : w = World.step setup now { shared := p.shared, run }) :
      Move now i p { p with shared := w.shared, slots := p.slots.set i (.active setup w.run) }
  | ends {setup : Setup R σ} {run : Run R σ} {result : Except (Fault R) (Outcome R)}
      (h : p.slots[i]? = some (.active setup run)) (ended : run.stage = .ended result) :
      Move now i p
        { p with
          shared := if p.cancelOnSuccess && succeeded result then p.shared.cancel else p.shared
          slots := p.slots.set i (.finished result run.oracle run.lines) }

theorem step_move (now : R) (i : Nat) (p : Pool R σ) : Move now i p (p.step now i) := by
  unfold step
  split
  · exact .stays
  · exact .stays
  · rename_i task domain oracle h
    split
    · exact .starts h ‹_›
    · exact .stays
  · rename_i setup run h
    cases hstage : run.stage with
    | ended result => exact .ends h hstage
    | _ => exact .steps h (fun result => by rw [hstage]; nofun) rfl

/-- What every move keeps, a schedule keeps. -/
theorem follow_induct {I : Pool R σ → Prop}
    (hmove : ∀ p now i p', I p → Move now i p p' → I p') :
    ∀ {p : Pool R σ} (schedule : List (Nat × R)), I p → I (p.follow schedule)
  | _, [], h => h
  | p, (i, now) :: schedule, h => follow_induct hmove schedule (hmove _ _ _ _ h (step_move now i p))

theorem step_of_waiting {p : Pool R σ} {i : Nat} {task : PumpTask R σ} {domain : Domain R}
    {oracle : σ} (h : p.slots[i]? = some (.waiting task domain oracle)) (free : p.mayStart i = true)
    (now : R) :
    p.step now i = { p with slots := p.slots.set i (Slot.start now task domain oracle) } := by
  unfold step
  rw [h]
  exact if_pos free

theorem slots_step_of_going {p : Pool R σ} {i : Nat} {setup : Setup R σ} {run : Run R σ}
    (h : p.slots[i]? = some (.active setup run)) (going : ∀ result, run.stage ≠ .ended result)
    (now : R) :
    (p.step now i).slots =
      p.slots.set i (.active setup (World.step setup now { shared := p.shared, run }).run) := by
  unfold step
  rw [h]
  dsimp only
  split
  · exact absurd ‹_› (going _)
  · rfl

theorem slots_step_of_ended {p : Pool R σ} {i : Nat} {setup : Setup R σ} {run : Run R σ}
    {result : Except (Fault R) (Outcome R)} (h : p.slots[i]? = some (.active setup run))
    (ended : run.stage = .ended result) (now : R) :
    (p.step now i).slots = p.slots.set i (.finished result run.oracle run.lines) := by
  unfold step
  rw [h]
  dsimp only
  rw [ended]

/-- If nothing is under way, the first slot that waits may start. -/
theorem exists_mayStart {p : Pool R σ} (hworkers : 1 ≤ p.workers)
    (hidle : ∀ slot ∈ p.slots, slot.isActive = false)
    (hwaits : ∃ slot ∈ p.slots, slot.isWaiting = true) :
    ∃ i task domain oracle, p.slots[i]? = some (.waiting task domain oracle) ∧
      p.mayStart i = true := by
  have hi := List.findIdx_lt_length_of_exists hwaits
  have hwaiting := List.findIdx_getElem (w := hi)
  have hslot := List.getElem?_eq_getElem hi
  have hfirst : (p.slots.take (p.slots.findIdx Slot.isWaiting)).any Slot.isWaiting = false := by
    refine List.any_eq_false.mpr fun slot hslot => ?_
    obtain ⟨j, hj, rfl⟩ := List.getElem_of_mem hslot
    rw [List.getElem_take]
    rw [List.length_take] at hj
    exact Bool.eq_false_iff.mp (List.not_of_lt_findIdx (by omega))
  have hnone : p.slots.filter Slot.isActive = [] :=
    List.filter_eq_nil_iff.mpr fun slot hslot => Bool.eq_false_iff.mp (hidle slot hslot)
  have hfree : p.mayStart (p.slots.findIdx Slot.isWaiting) = true := by
    unfold mayStart
    rw [hfirst, hnone]
    exact decide_eq_true hworkers
  generalize p.slots[p.slots.findIdx Slot.isWaiting] = slot at hwaiting hslot
  cases slot with
  | waiting task domain oracle => exact ⟨_, task, domain, oracle, hslot, hfree⟩
  | active setup run => cases hwaiting
  | finished result oracle lines => cases hwaiting

/-- A schedule changes neither the number of workers nor what a success does. -/
theorem follow_frame (p : Pool R σ) (schedule : List (Nat × R)) :
    (p.follow schedule).workers = p.workers ∧
      (p.follow schedule).cancelOnSuccess = p.cancelOnSuccess := by
  refine follow_induct (I := fun p' => p'.workers = p.workers ∧
    p'.cancelOnSuccess = p.cancelOnSuccess) (fun p₁ now i p₂ h hmove => ?_) schedule ⟨rfl, rfl⟩
  cases hmove <;> exact h

theorem follow_append (p : Pool R σ) (schedule more : List (Nat × R)) :
    p.follow (schedule ++ more) = (p.follow schedule).follow more :=
  List.foldl_append

/-- A pool has outcomes when every slot has finished with one. -/
theorem outcomes_eq_ok {p : Pool R σ} {os : List (Outcome R)} :
    p.outcomes = .ok os ↔
      List.Forall₂ (fun slot o => Slot.result? slot = some (.ok o)) p.slots os := by
  unfold outcomes
  rw [Vec.mapM_eq_ok]
  have hslot (slot : Slot R σ) (o : Outcome R) :
      slot.result?.getD (.error .stepsExhausted) = .ok o ↔ slot.result? = some (.ok o) := by
    cases slot.result? with
    | none => exact iff_of_false nofun nofun
    | some result => exact (Option.some_inj).symm
  simp only [hslot]

end Pool

end MipPump
