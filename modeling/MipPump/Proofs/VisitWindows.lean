import MipPump.Proofs.CycleWindows
import MipPump.Proofs.Tallies

/-!
# The window of visits

A run notes the positions that each perturbation moves, and forgets them when a new epoch begins.
What it counts as visits is a window of the moves that it has noted.

* `ProgressEdit`: all that happens to the progress of a run, one constructor for each change.
* `Progress.flips_performAll`: the notes are the last ones since the last reset, as many as there
  is place for.
* `Progress.Windowed`: the counts and the counter that a sequence of changes leaves.
* `Progress.Unmoved.windowed`: every sequence of changes leaves them.
-/

namespace MipPump

section Edits

variable {R : Type}

/-- A change of the progress of a run. -/
inductive ProgressEdit (R : Type) where
  /-- Draws were made. -/
  | draw (generator : Random.Generator)
  | countIteration
  | countRestart
  | countStall
  | measure (value eps : R)
  | advanceAlpha
  | remember (candidate : List R)
  /-- A new epoch begins. -/
  | reset
  /-- A perturbation notes the positions that it has moved. -/
  | note (positions : List Int)

namespace ProgressEdit

/-- The positions that a change notes. -/
def noted? : ProgressEdit R → Option (List Int)
  | .note positions => some positions
  | _ => none

/-- All notes, in order. -/
def notes (edits : List (ProgressEdit R)) : List (List Int) := edits.filterMap noted?

/-- The notes since the last reset. -/
def notesSinceReset (edits : List (ProgressEdit R)) : List (List Int) :=
  edits.foldl
    (fun notes edit =>
      match edit with
      | .reset => []
      | .note positions => notes ++ [positions]
      | _ => notes) []

/-- The last notes since the last reset, at most `size` of them. -/
def window (size : Nat) (edits : List (ProgressEdit R)) : List (List Int) :=
  (notes edits).rtake (min size (notesSinceReset edits).length)

@[simp] theorem notes_append (edits more : List (ProgressEdit R)) :
    notes (edits ++ more) = notes edits ++ notes more := List.filterMap_append

theorem notes_concat (edits : List (ProgressEdit R)) (edit : ProgressEdit R) :
    notes (edits ++ [edit]) =
      match edit with
      | .note positions => notes edits ++ [positions]
      | _ => notes edits := by
  cases edit <;> simp [notes, noted?]

@[simp] theorem notesSinceReset_nil : notesSinceReset ([] : List (ProgressEdit R)) = [] := rfl

theorem notesSinceReset_concat (edits : List (ProgressEdit R)) (edit : ProgressEdit R) :
    notesSinceReset (edits ++ [edit]) =
      match edit with
      | .reset => []
      | .note positions => notesSinceReset edits ++ [positions]
      | _ => notesSinceReset edits := by
  simp [notesSinceReset]

/-- The notes since the last reset are the last notes. -/
theorem notesSinceReset_suffix (edits : List (ProgressEdit R)) :
    notesSinceReset edits <:+ notes edits := by
  induction edits using List.reverseRecOn with
  | nil => exact List.suffix_rfl
  | append_singleton edits edit ih =>
      rw [notesSinceReset_concat, notes_concat]
      cases edit with
      | reset => exact List.nil_suffix
      | note positions =>
          obtain ⟨older, hnotes⟩ := ih
          exact ⟨older, by rw [← List.append_assoc, hnotes]⟩
      | _ => exact ih

theorem window_eq (size : Nat) (edits : List (ProgressEdit R)) :
    window size edits = (notesSinceReset edits).rtake size := by
  have hsuffix := notesSinceReset_suffix edits
  have hlen := hsuffix.length_le
  unfold window
  conv_rhs => rw [List.suffix_iff_eq_drop.mp hsuffix]
  simp only [List.rtake, List.length_drop, List.drop_drop]
  congr 1
  omega

theorem mem_notes_of_mem_window {size : Nat} {edits : List (ProgressEdit R)} {positions : List Int}
    (h : positions ∈ window size edits) : positions ∈ notes edits := List.mem_of_mem_drop h

theorem length_window_le (size : Nat) (edits : List (ProgressEdit R)) :
    (window size edits).length ≤ size := by
  simp only [window, List.rtake, List.length_drop]
  omega

end ProgressEdit

end Edits

section Hits

variable {n : Nat}

/-- Different positions hit an entry at most once. -/
theorem hits_le_one {positions : List Int} (hrange : ∀ i ∈ positions, Vec.InRange n i)
    (hnodup : positions.Nodup) (k : Nat) : hits n k positions ≤ 1 := by
  rw [hits_eq_count hrange]
  exact List.nodup_iff_count_le_one.mp hnodup k

/-- Notes of different positions hit an entry at most as often as there are notes. -/
theorem hits_flatten_le {notes : List (List Int)}
    (h : ∀ positions ∈ notes, (∀ i ∈ positions, Vec.InRange n i) ∧ positions.Nodup) (k : Nat) :
    hits n k notes.flatten ≤ notes.length := by
  induction notes with
  | nil => exact Nat.le_refl 0
  | cons positions notes ih =>
      obtain ⟨hfirst, hrest⟩ := List.forall_mem_cons.mp h
      have hone := hits_le_one hfirst.1 hfirst.2 k
      have hnotes := ih hrest
      simp only [hits, List.flatten_cons, List.countP_append, List.length_cons] at hone hnotes ⊢
      omega

end Hits

namespace Progress

open ProgressEdit

variable {R : Type} [Arith R] {s : Settings R} {n size : Nat} {p : Progress R}

/-- Makes a change. -/
def perform (s : Settings R) (p : Progress R) : ProgressEdit R → Progress R
  | .draw generator => { p with generator }
  | .countIteration => { p with iteration := p.iteration + 1 }
  | .countRestart => { p with restarts := p.restarts + 1 }
  | .countStall => World.countStall p
  | .measure value eps => (p.recordDistance value eps).2
  | .advanceAlpha => p.advanceAlpha s
  | .remember candidate => p.remember candidate
  | .reset => p.reset s
  | .note positions => p.noteFlips positions

/-- Makes changes in order. -/
def performAll (s : Settings R) (p : Progress R) (edits : List (ProgressEdit R)) : Progress R :=
  edits.foldl (perform s) p

@[simp] theorem performAll_nil : performAll s p [] = p := rfl

@[simp] theorem performAll_append (edits more : List (ProgressEdit R)) :
    performAll s p (edits ++ more) = performAll s (performAll s p edits) more := List.foldl_append

theorem performAll_singleton (edit : ProgressEdit R) :
    performAll s p [edit] = perform s p edit := rfl

@[simp] theorem flips_recordDistance (value eps : R) :
    (p.recordDistance value eps).2.epoch.flips = p.epoch.flips := by
  simp only [recordDistance, Epoch.measure]
  split <;> rfl

/-- A change of the remembered notes: a reset forgets them all and a note is added. -/
theorem flips_perform (edit : ProgressEdit R) :
    (perform s p edit).epoch.flips =
      match edit with
      | .reset => p.epoch.flips.clear
      | .note positions => p.epoch.flips.push positions
      | _ => p.epoch.flips := by
  cases edit with
  | measure value eps => exact flips_recordDistance value eps
  | _ => rfl

/-- Only notes are counted as perturbations. -/
theorem perturbations_perform (edit : ProgressEdit R) :
    (perform s p edit).perturbations = p.perturbations + (notes [edit]).length := by
  cases edit <;> simp [perform, notes, noted?, World.countStall, recordDistance, advanceAlpha,
    remember, reset, noteFlips]

theorem numIntegers_perform (edit : ProgressEdit R) :
    (perform s p edit).numIntegers = p.numIntegers := by
  cases edit <;> rfl

/-- The remembered notes are the last ones since the last reset. -/
theorem flips_performAll (h : p.epoch.flips = ⟨size, []⟩) (edits : List (ProgressEdit R)) :
    (performAll s p edits).epoch.flips = ⟨size, window size edits⟩ := by
  rw [window_eq]
  induction edits using List.reverseRecOn with
  | nil => simpa using h
  | append_singleton edits edit ih =>
      rw [performAll_append, performAll_singleton, flips_perform, ih, notesSinceReset_concat]
      cases edit with
      | note positions => exact Recent.push_rtake size _ positions
      | reset => simp [Recent.clear]
      | _ => rfl

theorem perturbations_performAll (edits : List (ProgressEdit R)) :
    (performAll s p edits).perturbations = p.perturbations + (notes edits).length := by
  induction edits using List.reverseRecOn with
  | nil => simp [notes]
  | append_singleton edits edit ih =>
      rw [performAll_append, performAll_singleton, perturbations_perform, ih, notes_append,
        List.length_append]
      omega

theorem numIntegers_performAll (edits : List (ProgressEdit R)) :
    (performAll s p edits).numIntegers = p.numIntegers := by
  induction edits using List.reverseRecOn with
  | nil => rfl
  | append_singleton edits edit ih =>
      rw [performAll_append, performAll_singleton, numIntegers_perform, ih]

/-- Visits and perturbations after a sequence of changes: the visits of each of `n` positions are
those of the last notes since the last reset, at most `size` of them, and all notes are counted. -/
structure Windowed (n size : Nat) (edits : List (ProgressEdit R)) (p : Progress R) : Prop where
  visits : p.visitCounts = .ok (counted R n fun k => hits n k (window size edits).flatten)
  perturbations : p.perturbations = (notes edits).length

/-- A progress without notes. -/
structure Unmoved (n size : Nat) (p : Progress R) : Prop where
  count : p.numIntegers = n
  flips : p.epoch.flips = ⟨size, []⟩
  perturbations : p.perturbations = 0

/-- A new progress has no notes. -/
theorem unmoved_of_start (h : start s n = .ok p) : p.Unmoved n s.cycleHistorySize.toNat := by
  unfold start at h
  dsimp only at h
  split at h
  · cases h
  · obtain ⟨history, hhistory, h⟩ := Act.exceptBind_eq_ok.mp h
    unfold History.ofCapacity at hhistory
    obtain ⟨_, -, hhistory⟩ := Act.exceptBind_eq_ok.mp hhistory
    split at hhistory
    · cases hhistory
    · cases hhistory
      cases h
      exact ⟨rfl, rfl, rfl⟩

/-- Changes whose notes address entries can be counted. -/
theorem Unmoved.windowed (h : p.Unmoved n size) {edits : List (ProgressEdit R)}
    (hnotes : ∀ positions ∈ notes edits, ∀ i ∈ positions, ∃ j, Vec.position? n i = some j) :
    (performAll s p edits).Windowed n size edits := by
  have hflips := flips_performAll (s := s) h.flips edits
  refine ⟨?_, by rw [perturbations_performAll, h.perturbations, Int.zero_add]⟩
  rw [visitCounts_eq_counted ((numIntegers_performAll edits).trans h.count), hflips]
  rw [hflips]
  exact fun positions hpositions => hnotes positions (mem_notes_of_mem_window hpositions)

end Progress

end MipPump
