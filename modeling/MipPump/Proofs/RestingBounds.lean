import MipPump.Number.ExtRat
import MipPump.Proofs.Lockstep
import MipPump.Proofs.Scopes

/-!
# Bounds at rest

Two users change bounds during a run: rounding with propagation, which may stop in the middle when a
domain becomes empty, and the solve with fixed integer variables.  Both work in scopes, so that
between two steps the bounds are those that the run found.  The propagator of a run changes its own
box only; its rows stay those of the problem.

* `AtRest b p`: the workspaces whose domain has the box `b` and whose propagator differs from `p` in
  its box only.
* `AtRest.keeps_act`: every stage keeps the workspace at rest, whether it answers or stops with a fault.
* `box_run_eq`: a run leaves the box as it found it.
-/

namespace MipPump

namespace Propagation

variable {R : Type}

/-- The second propagator differs from the first in its box only. -/
def Propagator.SameRows (p q : Propagator R) : Prop := ∃ box, q = { p with box }

theorem Propagator.SameRows.refl (p : Propagator R) : p.SameRows p := ⟨p.box, rfl⟩

theorem Propagator.SameRows.withBox {p q : Propagator R} (h : p.SameRows q)
    (box : Box R) : p.SameRows { q with box } := by
  obtain ⟨_, rfl⟩ := h
  exact ⟨box, rfl⟩

variable [Arith R] (p : Propagator R)

theorem keeps_visit (r : Int) : Act.Keeps p.SameRows (Propagator.visit r) := by
  unfold Propagator.visit Propagator.onBox
  refine Act.keeps_bind Act.keeps_get fun q => Act.keeps_bind (Act.keeps_ofExcept _) fun row => ?_
  exact Act.keeps_zoom_of_put _ fun q box hq => hq.withBox box

theorem keeps_drain (fuel : Nat) (changes : Changes R) (q : Queue) :
    Act.Keeps p.SameRows (Propagator.drain fuel changes q) := by
  induction fuel generalizing changes q with
  | zero => exact Act.keeps_pure _
  | succ fuel ih =>
      unfold Propagator.drain
      split
      · exact Act.keeps_pure _
      · refine Act.keeps_bind (keeps_visit p _) fun tightened => ?_
        refine Act.keeps_bind Act.keeps_get fun q => ?_
        exact Act.keeps_bind (Act.keeps_ofExcept _) fun work => ih _ _

theorem keeps_propagate (rows : List Int) :
    Act.Keeps p.SameRows (Propagator.propagate rows) := by
  unfold Propagator.propagate
  exact Act.keeps_bind Act.keeps_get fun q => keeps_drain p _ _ _

/-- Fixing a variable keeps the rows of a propagator. -/
theorem keeps_fix (i : Int) (value : R) : Act.Keeps p.SameRows (Propagator.fix i value) := by
  unfold Propagator.fix
  refine Act.keeps_get_bind fun q hq => Act.keeps_bind (Act.keeps_ofExcept _) fun bounds => ?_
  refine Act.keeps_ite (Act.keeps_bind (Act.keeps_throw _) fun _ => ?_) ?_
  all_goals
    refine Act.keeps_bind (Act.keeps_ofExcept _) fun box => ?_
    refine Act.keeps_bind (Act.keeps_set (hq.withBox box)) fun _ => ?_
    exact Act.keeps_bind (Act.keeps_ofExcept _) fun rows => keeps_propagate p _

end Propagation

namespace Rounding

open Propagation

variable {R : Type} [Arith R] (b : Box R) (p : Propagator R)

section Variables

variable {A : Scoped R → Prop}

omit [Arith R] in
theorem keeps_first {α : Type} {act : Act R (Scoped R) α} (h : Act.Keeps A act) :
    Act.Keeps (fun s : Scoped R × Fixing R => A s.1 ∧ p.SameRows s.2.propagator)
      (Act.first act) :=
  Act.keeps_zoom h (fun _ hs => hs.1) fun _ _ hs ht => ⟨ht, hs.2⟩

omit [Arith R] in
theorem keeps_onPropagator {α : Type} {act : Act R (Propagator R) α}
    (h : Act.Keeps p.SameRows act) :
    Act.Keeps (fun s : Scoped R × Fixing R => A s.1 ∧ p.SameRows s.2.propagator)
      (Act.second (Fixing.onPropagator act)) := by
  refine Act.keeps_zoom (J := fun f : Fixing R => p.SameRows f.propagator) ?_ (fun _ hs => hs.2)
    fun _ _ hs ht => ⟨hs.1, ht⟩
  exact Act.keeps_zoom h (fun _ hf => hf) fun _ _ _ hq => hq

variable (hA : ∀ i l u, Act.Keeps A (Scoped.tighten i l u))
include hA

theorem keeps_followChanges (changes : Changes R) : Act.Keeps A (followChanges changes) := by
  induction changes with
  | nil => exact Act.keeps_pure _
  | cons c rest ih =>
      unfold followChanges
      exact Act.keeps_bind (hA _ _ _) fun _ => ih

/-- What every change of the bounds keeps of the scope, rounding a variable keeps, and the rows of
the propagator with it. -/
theorem keeps_fixVariable (tieBreak : TieBreak) (eps : R) (t : Table R) (point : List R)
    (j : Int) :
    Act.Keeps (fun s : Scoped R × Fixing R => A s.1 ∧ p.SameRows s.2.propagator)
      (fixVariable tieBreak eps t point j) := by
  unfold fixVariable
  refine Act.keeps_bind Act.keeps_get fun s => Act.keeps_bind (Act.keeps_ofExcept _) fun bounds => ?_
  refine Act.keeps_ite (Act.keeps_bind (Act.keeps_throw _) fun _ => ?_) ?_
  all_goals
    refine Act.keeps_bind (Act.keeps_ofExcept _) fun x => ?_
    refine Act.keeps_bind (keeps_onPropagator p (Propagation.keeps_fix p _ _)) fun changes => ?_
    refine Act.keeps_bind (keeps_first p (hA _ _ _)) fun _ => ?_
    refine Act.keeps_bind (keeps_first p (keeps_followChanges hA _)) fun _ => ?_
    refine Act.keeps_bind (Act.keeps_ofExcept _) fun place => ?_
    refine Act.keeps_zoom (J := fun f : Fixing R => p.SameRows f.propagator) ?_ (fun _ hs => hs.2)
      fun _ _ hs ht => ⟨hs.1, ht⟩
    exact Act.keeps_modify fun _ hf => hf

theorem keeps_fixAll_of_scope (tieBreak : TieBreak) (eps : R) (t : Table R) (point : List R)
    (order : List Int) :
    Act.Keeps (fun s : Scoped R × Fixing R => A s.1 ∧ p.SameRows s.2.propagator)
      (fixAll tieBreak eps t point order) := by
  induction order with
  | nil => exact Act.keeps_pure _
  | cons j rest ih =>
      unfold fixAll
      exact Act.keeps_bind (keeps_fixVariable p hA tieBreak eps t point j) fun _ => ih

end Variables

/-- Between two variables: the scope can still be undone, and the rows are those of `p`. -/
def Fixes (s : Scoped R × Fixing R) : Prop :=
  Scoped.Undoable b s.1 ∧ p.SameRows s.2.propagator

theorem keeps_fixAll (tieBreak : TieBreak) (eps : R) (t : Table R) (point : List R)
    (order : List Int) : Act.Keeps (Fixes b p) (fixAll tieBreak eps t point order) :=
  keeps_fixAll_of_scope p (Scoped.keeps_tighten b) tieBreak eps t point order

/-- Rounding with propagation keeps the rows of the propagator, whatever the bounds are. -/
theorem keeps_sameRows_propagatedPoint (tieBreak : TieBreak) (eps : R) (t : Table R)
    (ranker : Ranker R) (point : List R) :
    Act.Keeps (fun ws => p.SameRows ws.propagator)
      (propagatedPoint tieBreak eps t ranker point) := by
  unfold propagatedPoint
  refine Act.keeps_get_bind fun ws hws => Act.keeps_bind (Act.keeps_ofExcept _) fun bounds => ?_
  refine Act.keeps_bind (Act.keeps_set (hws.withBox _)) fun _ => ?_
  refine Act.keeps_bind (Act.keeps_zoom_of_put _ fun _ _ hs => hs) fun order => ?_
  refine Act.keeps_bind ?_ fun writes => Act.keeps_ofExcept _
  have hscope : Act.Keeps (fun s : Domain R × Fixing R => p.SameRows s.2.propagator)
      (fixInScope tieBreak eps t point order) := by
    rintro ⟨d, f⟩ hf
    unfold fixInScope
    rw [Scoped.after_within_snd]
    exact (Act.keeps_bind (keeps_fixAll_of_scope p (A := fun _ => True)
      (fun _ _ _ => Act.keeps_trivial _) tieBreak eps t point order) fun _ =>
        Act.keeps_bind Act.keeps_get fun _ => Act.keeps_pure _) _ ⟨trivial, hf⟩ |>.2
  exact Act.keeps_zoom hscope (fun _ hs => hs) fun _ _ _ ht => ht

/-- The workspaces with the box `b` in force and with the rows of `p`. -/
def AtRest (ws : Workspace R) : Prop := ws.domain.box = b ∧ p.SameRows ws.propagator

variable {b}

/-- Rounding with propagation leaves the workspace at rest, also if a domain becomes empty. -/
theorem keeps_propagatedPoint (hb : b.Ordered) (tieBreak : TieBreak) (eps : R) (t : Table R)
    (ranker : Ranker R) (point : List R) :
    Act.Keeps (AtRest b p) (propagatedPoint tieBreak eps t ranker point) := by
  unfold propagatedPoint
  refine Act.keeps_get_bind fun ws hws => Act.keeps_bind (Act.keeps_ofExcept _) fun bounds => ?_
  refine Act.keeps_bind (Act.keeps_set ⟨hws.1, hws.2.withBox _⟩) fun _ => ?_
  refine Act.keeps_bind (Act.keeps_zoom_of_put _ fun _ _ hs => hs) fun order => ?_
  refine Act.keeps_bind ?_ fun writes => Act.keeps_ofExcept _
  have hscope : Act.Keeps (fun s : Domain R × Fixing R => s.1.box = b ∧ p.SameRows s.2.propagator)
      (fixInScope tieBreak eps t point order) :=
    Scoped.keeps_within hb (J := fun f : Fixing R => p.SameRows f.propagator)
      (Act.keeps_bind (keeps_fixAll b p tieBreak eps t point order) fun _ =>
        Act.keeps_bind Act.keeps_get fun _ => Act.keeps_pure _)
  exact Act.keeps_zoom hscope (fun _ hs => hs) fun _ _ _ ht => ht

end Rounding

namespace World

open Rounding

variable {R σ : Type} {b : Box R} (p : Propagation.Propagator R)

/-- The worlds whose workspace is at rest. -/
def AtRest (b : Box R) (w : World R σ) : Prop := Rounding.AtRest b p w.run.workspace

section Parts

theorem keeps_onWorkspace {α : Type} {act : Act R (Workspace R) α}
    (h : Act.Keeps (Rounding.AtRest b p) act) :
    Act.Keeps (AtRest (σ := σ) p b) (onWorkspace act) :=
  Act.keeps_zoom h (fun _ hw => hw) fun _ _ _ ht => ht

theorem keeps_onProgress {α : Type} (act : Act R (Progress R) α) :
    Act.Keeps (AtRest (σ := σ) p b) (onProgress act) :=
  keeps_onWorkspace p (Act.keeps_zoom_of_put act fun _ _ hw => hw)

theorem keeps_print (line : Line R) : Act.Keeps (AtRest (σ := σ) p b) (print line) :=
  Act.keeps_modify fun _ hw => hw

theorem keeps_orReason {τ α : Type} {I : τ → Prop} {act : Act R τ α} (h : Act.Keeps I act) :
    Act.Keeps I (orReason act) := by
  intro s hs
  unfold orReason
  cases ha : act s with
  | ok x t =>
      have ht : I t := h.of_ok hs ha
      simpa only [Act.after, Act.split, ha] using ht
  | error e t =>
      have ht : I t := h.of_error hs ha
      cases hr : reasonOf e <;> simpa only [Act.after, Act.split, ha, hr] using ht

variable [Arith R]

theorem keeps_record (setup : Setup R σ) (now : R) (phase : Phase) (d : Distance R)
    (point : List R) : Act.Keeps (AtRest p b) (record setup now phase d point) := by
  unfold record
  refine Act.keeps_get_bind fun _ _ => ?_
  refine Act.keeps_bind (Act.keeps_ofExcept _) fun fractional => ?_
  refine Act.keeps_bind (Act.keeps_modify fun _ hw => hw) fun _ => ?_
  exact Act.keeps_ite (keeps_print p _) (Act.keeps_pure _)

theorem keeps_ask (setup : Setup R σ) (box : Box R) (goal : Goal R) :
    Act.Keeps (AtRest p b) (ask setup box goal) := by
  intro w hw
  cases h : (setup.oracle w.run.oracle box goal).answer with
  | ok x =>
      simp only [Act.after, Act.split, ask, h]
      exact hw
  | error e =>
      simp only [Act.after, Act.split, ask, h]
      exact hw

theorem keeps_solve (setup : Setup R σ) (goal : Goal R) :
    Act.Keeps (AtRest p b) (solve setup goal) :=
  Act.keeps_bind Act.keeps_get fun _ => keeps_orReason (keeps_ask p setup _ goal)

end Parts

section Users

variable [Arith R]

theorem keeps_fixIntegers (b : Box R) (candidate : List R) (integers : List (Int × Nat)) :
    Act.Keeps (Scoped.Undoable b) (fixIntegers candidate integers) := by
  induction integers with
  | nil => exact Act.keeps_pure _
  | cons jp rest ih =>
      unfold fixIntegers
      refine Act.keeps_bind (Act.keeps_ofExcept _) fun value => ?_
      exact Act.keeps_bind (Scoped.keeps_fix b _ _) fun _ => ih

/-- The solve with fixed integer variables leaves the workspace at rest. -/
theorem keeps_solveFixed (hb : b.Ordered) (setup : Setup R σ) (candidate : List R) :
    Act.Keeps (AtRest p b) (solveFixed setup candidate) := by
  unfold solveFixed
  refine Act.keeps_bind ?_ fun solved => ?_
  · refine Act.keeps_zoom (Scoped.keeps_within hb (J := AtRest p b) ?_)
      (fun w hw => ⟨hw.1, hw⟩) fun w s _ hs => ⟨hs.1, hs.2.2⟩
    refine Act.keeps_bind (Act.keeps_zoom (keeps_fixIntegers b candidate _) (fun _ hs => hs.1)
      fun _ _ hs ht => ⟨ht, hs.2⟩) fun _ => ?_
    refine Act.keeps_bind Act.keeps_get fun s => keeps_orReason ?_
    exact Act.keeps_zoom (keeps_ask p setup _ _) (fun _ hs => hs.2) fun _ _ hs ht => ⟨hs.1, ht⟩
  · cases solved with
    | ok point => exact Act.keeps_map (Act.keeps_ofExcept _)
    | error reason => exact Act.keeps_pure _

theorem keeps_roundByPolicy (hb : b.Ordered) (setup : Setup R σ) (point : List R) :
    Act.Keeps (Rounding.AtRest b p) (roundByPolicy setup point) := by
  unfold roundByPolicy
  dsimp only
  split
  · exact Act.keeps_ofExcept _
  · exact Act.keeps_zoom_of_put _ fun _ _ hw => hw
  · exact keeps_propagatedPoint p hb _ _ _ _ _

/-- Falling back to the nearest integers changes nothing. -/
theorem roundOrNearest_after (setup : Setup R σ) (point : List R) (ws : Workspace R) :
    (roundOrNearest setup point).after ws = (roundByPolicy setup point).after ws := by
  unfold Act.after Act.split roundOrNearest
  cases h : roundByPolicy setup point ws with
  | ok candidate t => simp only
  | error e t =>
      cases e with
      | emptiedDomain j lb ub =>
          cases hn : nearestPoint setup.settings.tieBreak setup.settings.toleranceEpsilon
              setup.table point <;> simp only [hn]
      | _ => simp only

theorem keeps_round (hb : b.Ordered) (setup : Setup R σ) (point : List R) :
    Act.Keeps (AtRest p b) (World.round setup point) := by
  unfold World.round
  have hround : Act.Keeps (Rounding.AtRest b p) (roundOrNearest setup point) := by
    intro ws hws
    rw [roundOrNearest_after]
    exact keeps_roundByPolicy p hb setup point ws hws
  refine Act.keeps_bind (keeps_onWorkspace p hround) fun c => ?_
  exact Act.keeps_bind (Act.keeps_ofExcept _) fun _ => Act.keeps_pure _

end Users

section Stages

variable [Arith R]

/-- Every stage keeps the workspace at rest, whether it answers or stops with a fault. -/
theorem AtRest.keeps_act (hb : b.Ordered) (setup : Setup R σ) (now : R) (stage : Stage R) :
    Act.Keeps (AtRest p b) (act setup now stage) :=
  World.keeps_act
    (pace_of_keeps (keeps_onProgress p) (keeps_print p) (keeps_record p setup now))
    (asks_of_keeps (keeps_solve p setup) (keeps_solveFixed p hb setup) (keeps_round p hb setup)
      fun _ hw => hw) stage

/-- A step keeps the workspace at rest. -/
theorem AtRest.step (hb : b.Ordered) {p : Propagation.Propagator R} {w : World R σ}
    (h : AtRest p b w) (setup : Setup R σ) (now : R) : AtRest p b (w.step setup now) := by
  rw [step_eq_moveTo]
  exact keeps_act p hb setup now w.run.stage w h

theorem AtRest.advance (hb : b.Ordered) {p : Propagation.Propagator R} (setup : Setup R σ)
    (clock : Nat → R) (fuel : Nat) {w : World R σ} (h : AtRest p b w) :
    AtRest p b (World.advance setup clock fuel w) := by
  induction fuel generalizing w with
  | zero => exact h
  | succ fuel ih =>
      unfold World.advance
      split
      · exact h
      · exact ih (h.step hb setup _)

end Stages

end World

namespace PumpTask

variable {R σ : Type} [Arith R]

/-- **A run leaves the bounds as it found them**, however it ends: with a success, with a failure,
or with a fault of the oracle or of its own. -/
theorem box_run_eq (task : PumpTask R σ) (clock : Nat → R) (shared : Shared R) (domain : Domain R)
    (oracle : σ) (hbox : domain.box.Ordered) :
    (task.run clock shared domain oracle).domain.box = domain.box := by
  unfold run
  dsimp only
  split
  · rfl
  · split
    · rfl
    · rename_i setup propagator _
      exact (World.AtRest.advance (p := propagator) hbox setup clock _
        ⟨rfl, Propagation.Propagator.SameRows.refl _⟩).1

/-- A problem whose solver gives up as soon as the binary variable is fixed: the row
`x + y ≥ 2` fails at the point `(1, 0)` that it answers before. -/
def interrupted : PumpTask ExtRat Unit where
  name := "interrupted"
  settings := { rounding := .propagation }
  problem :=
    { vars :=
        [ { index := 0, lb := .fin 0, ub := .fin 1, kind := .binary, cost := .fin 0 }
        , { index := 1, lb := .fin 0, ub := .fin 1, kind := .continuous, cost := .fin 0 } ]
      rows := { coefficients := [[.fin 1, .fin 1]], senses := [.atLeast], rhs := [.fin 2] }
      offset := .fin 0 }
  oracle := fun _ box _ =>
    { answer :=
        if box.lb.head? = some (.fin 0) then .ok [.fin 1, .fin 0] else .error (.solverStopped 12)
      next := () }

/-- Both users change the bounds, the second is interrupted, and the bounds are as before. -/
theorem box_run_eq_interrupted :
    let domain : Domain ExtRat := ⟨⟨[.fin 0, .fin 0], [.fin 1, .fin 1]⟩, []⟩
    let report := interrupted.run (fun _ => .fin 0) ⟨{}, none⟩ domain ()
    domain.box.Ordered ∧ report.result.isOk = false ∧ report.domain.changes.length = 6 ∧
      report.domain.box = domain.box := by
  intro domain report
  have hordered : domain.box.Ordered :=
    .cons (by decide +kernel) (.cons (by decide +kernel) .nil)
  exact ⟨hordered, by decide +kernel, by decide +kernel, box_run_eq _ _ _ _ _ hordered⟩

end PumpTask
end MipPump
