import MipPump.Proofs.LinearPrograms
import Mathlib.Data.List.Nodup

/-!
# Auxiliary columns

Auxiliary columns are made for the targets of a solve and stay for ever.  What they ask for in a
solve does not depend on what earlier solves left.

* `RelaxationState.Sound`: every auxiliary column has an index of its own, stands beside the
  variable of that index, and has a finite value.  Every solve keeps this, also one that is refused
  on the way (`keeps_aim`).
* `RelaxationState.AimedAt`: the auxiliary columns of the targets have their values and weights, and
  all others cost nothing.  A solve for finite numbers comes to this (`runs_aim`).
-/

namespace MipPump

open ExtRat

section Meaning

/-- A goal for `n` variables in finite numbers, with at most one target for every index. -/
structure Goal.Sane (goal : Goal ExtRat) (n : Nat) : Prop where
  objective : ∃ c : List ℚ, goal.objective = c.map fin ∧ c.length = n
  targets : ∀ t ∈ goal.targets, ∃ (p : Nat) (v w : ℚ),
    Vec.position? n t.index = some p ∧ t.value = fin v ∧ t.weight = fin w ∧ 0 ≤ w
  distinct : (goal.targets.map (·.index)).Nodup

/-- Auxiliary columns with an index each and finite values. -/
structure RelaxationState.Sound (n : Nat) (s : RelaxationState ExtRat) : Prop where
  placed : ∀ a ∈ s.auxiliaries, Vec.position? n a.index = some a.column ∧ ∃ v, a.value = fin v
  distinct : (s.auxiliaries.map (·.index)).Nodup

/-- The costs are those of an objective, and those of the auxiliary columns are the weights of the
targets. -/
structure RelaxationState.AimedAt (objective : List ExtRat) (targets : List (Target ExtRat))
    (s : RelaxationState ExtRat) : Prop where
  cost : s.cost = objective
  used : ∀ t ∈ targets, ∃ a ∈ s.auxiliaries,
    a.index = t.index ∧ a.value = t.value ∧ a.cost = t.weight
  unused : ∀ a ∈ s.auxiliaries, (∀ t ∈ targets, t.index ≠ a.index) → a.cost = 0

end Meaning

namespace RelaxationState

variable {n : Nat} {s : RelaxationState ExtRat}

section Columns

/-- A change of one auxiliary column that leaves its index and its place alone. -/
theorem Sound.onAuxiliary (h : s.Sound n) {i : Int} {f : Auxiliary ExtRat → Auxiliary ExtRat}
    (hindex : ∀ a, (f a).index = a.index) (hcolumn : ∀ a, (f a).column = a.column)
    (hvalue : ∀ a, (∃ v, a.value = fin v) → ∃ v, (f a).value = fin v) :
    (RelaxationState.onAuxiliary i f s).Sound n := by
  unfold RelaxationState.onAuxiliary
  refine ⟨?_, ?_⟩
  · intro a ha
    obtain ⟨b, hb, rfl⟩ := List.mem_map.mp ha
    obtain ⟨hplaced, hfin⟩ := h.placed b hb
    split
    · rw [hindex, hcolumn]
      exact ⟨hplaced, hvalue b hfin⟩
    · exact ⟨hplaced, hfin⟩
  · have hindices : (s.auxiliaries.map fun a => if a.index == i then f a else a).map (·.index) =
        s.auxiliaries.map (·.index) := by
      rw [List.map_map]
      refine List.map_congr_left fun a _ => ?_
      dsimp only [Function.comp]
      split
      · exact hindex a
      · rfl
    show ((s.auxiliaries.map fun a => if a.index == i then f a else a).map (·.index)).Nodup
    rw [hindices]
    exact h.distinct

/-- Costs play no part. -/
theorem Sound.relax (h : s.Sound n) (cost : List ExtRat) :
    ({ s with cost }.relax).Sound n := by
  refine ⟨?_, ?_⟩
  · intro a ha
    obtain ⟨b, hb, rfl⟩ := List.mem_map.mp ha
    exact h.placed b hb
  · unfold RelaxationState.relax
    dsimp only
    rw [List.map_map]
    exact h.distinct

/-- An auxiliary column for an index without one. -/
theorem Sound.push (h : s.Sound n) {made : Auxiliary ExtRat}
    (hplaced : Vec.position? n made.index = some made.column) (hvalue : ∃ v, made.value = fin v)
    (hnew : ∀ a ∈ s.auxiliaries, a.index ≠ made.index) :
    ({ s with auxiliaries := s.auxiliaries ++ [made] } : RelaxationState ExtRat).Sound n := by
  refine ⟨?_, ?_⟩
  · intro a ha
    rcases List.mem_append.mp ha with ha | ha
    · exact h.placed a ha
    · rw [List.mem_singleton.mp ha]
      exact ⟨hplaced, hvalue⟩
  · show ((s.auxiliaries ++ [made]).map (·.index)).Nodup
    rw [List.map_append, List.map_singleton, List.nodup_append]
    refine ⟨h.distinct, List.nodup_singleton _, ?_⟩
    rintro i hi j hj rfl
    obtain ⟨a, ha, rfl⟩ := List.mem_map.mp hi
    exact hnew a ha (List.mem_singleton.mp hj)

/-- An auxiliary column at no cost changes nothing. -/
theorem AimedAt.push {objective : List ExtRat} {targets : List (Target ExtRat)}
    (h : s.AimedAt objective targets) {made : Auxiliary ExtRat} (hcost : made.cost = 0) :
    ({ s with auxiliaries := s.auxiliaries ++ [made] } : RelaxationState ExtRat).AimedAt
      objective targets := by
  refine ⟨h.cost, fun t ht => ?_, fun a ha hidle => ?_⟩
  · obtain ⟨a, ha, heq⟩ := h.used t ht
    exact ⟨a, List.mem_append_left _ ha, heq⟩
  · rcases List.mem_append.mp ha with ha | ha
    · exact h.unused a ha hidle
    · rw [List.mem_singleton.mp ha, hcost]

/-- The auxiliary column of one more target. -/
theorem AimedAt.pulled {objective : List ExtRat} {done : List (Target ExtRat)}
    {t : Target ExtRat} (h : s.AimedAt objective done) (hnew : ∀ t' ∈ done, t'.index ≠ t.index)
    (hmem : ∃ a ∈ s.auxiliaries, a.index = t.index) :
    (RelaxationState.onAuxiliary t.index
      (fun a => { a with cost := t.weight, value := t.value }) s).AimedAt objective
        (done ++ [t]) := by
  unfold RelaxationState.onAuxiliary
  refine ⟨h.cost, fun t' ht' => ?_, fun a ha hidle => ?_⟩
  · rcases List.mem_append.mp ht' with ht' | ht'
    · obtain ⟨a, ha, heq⟩ := h.used t' ht'
      refine ⟨a, List.mem_map.mpr ⟨a, ha, if_neg ?_⟩, heq⟩
      rw [beq_iff_eq, heq.1]
      exact hnew t' ht'
    · rw [List.mem_singleton.mp ht']
      obtain ⟨a, ha, hindex⟩ := hmem
      exact ⟨_, List.mem_map.mpr ⟨a, ha, if_pos (beq_iff_eq.mpr hindex)⟩, hindex, rfl, rfl⟩
  · obtain ⟨b, hb, rfl⟩ := List.mem_map.mp ha
    by_cases hindex : (b.index == t.index) = true
    · rw [if_pos hindex] at hidle
      exact absurd (beq_iff_eq.mp hindex).symm
        (hidle t (List.mem_append_right _ (List.mem_singleton_self t)))
    · rw [if_neg hindex] at hidle ⊢
      exact h.unused b hb fun t' ht' => hidle t' (List.mem_append_left _ ht')

/-- Two changes of one auxiliary column are one. -/
theorem onAuxiliary_onAuxiliary (i : Int) {f : Auxiliary ExtRat → Auxiliary ExtRat}
    (hindex : ∀ a, (f a).index = a.index) (g : Auxiliary ExtRat → Auxiliary ExtRat)
    (s : RelaxationState ExtRat) :
    RelaxationState.onAuxiliary i g (RelaxationState.onAuxiliary i f s) =
      RelaxationState.onAuxiliary i (fun a => g (f a)) s := by
  unfold RelaxationState.onAuxiliary
  rw [List.map_map]
  have hcombined : ((fun a => if a.index == i then g a else a) ∘
      fun a => if a.index == i then f a else a) =
      fun a => if a.index == i then g (f a) else a := by
    funext a
    by_cases ha : (a.index == i) = true
    · simp only [Function.comp, ha, if_true, hindex]
    · simp only [Function.comp, ha, if_false, Bool.false_eq_true]
  rw [hcombined]

end Columns

section Pulls

/-- A number that is neither infinite nor refused is finite. -/
theorem exists_fin_of_not_isInf {x : ExtRat} (hinf : Arith.isInf x = false)
    (hnan : ¬ Arith.isNaN x = true) : ∃ q, x = fin q := by
  cases x with
  | fin q => exact ⟨q, rfl⟩
  | nan => exact absurd rfl hnan
  | negInf => cases hinf
  | posInf => cases hinf

/-- An auxiliary column is made at no cost, or nothing changes. -/
theorem addAuxiliary_apply (n : Nat) (i : Int) (value : ExtRat) (s : RelaxationState ExtRat) :
    addAuxiliary n i value s =
      match Vec.position? n i with
      | none => .error .noSuchEntry s
      | some column =>
          if Arith.isNaN value then .error .solverRefused s
          else .ok () { s with auxiliaries := s.auxiliaries ++ [⟨i, column, value, 0⟩] } := by
  unfold addAuxiliary
  cases Vec.position? n i with
  | none => rfl
  | some column =>
      dsimp only
      split <;> rfl

theorem any_index_eq_true {auxiliaries : List (Auxiliary ExtRat)} {i : Int} :
    (auxiliaries.any (·.index == i)) = true ↔ ∃ a ∈ auxiliaries, a.index = i := by
  rw [List.any_eq_true]
  simp only [beq_iff_eq]

/-- What follows the check of a number may use that it is one. -/
theorem keeps_requireValue_bind {I : RelaxationState ExtRat → Prop} {x : ExtRat}
    {f : Unit → Act ExtRat (RelaxationState ExtRat) Unit}
    (h : ¬ Arith.isNaN x = true → Act.Keeps I (f ())) :
    Act.Keeps I (Act.ofExcept (requireValue x) >>= f) := by
  unfold requireValue
  by_cases hnan : Arith.isNaN x = true
  · rw [if_pos hnan]
    exact fun s hs => hs
  · rw [if_neg hnan]
    exact h hnan

theorem keeps_pull (t : Target ExtRat) (ht : Arith.isInf t.value = false) :
    Act.Keeps (Sound n) (pull n t) := by
  have hrest : Act.Keeps (Sound n) (do
      Act.ofExcept (requireValue t.weight)
      modify (RelaxationState.onAuxiliary t.index fun a => { a with cost := t.weight })
      Act.ofExcept (requireValue t.value)
      modify (RelaxationState.onAuxiliary t.index fun a => { a with value := t.value })) := by
    refine Act.keeps_bind (Act.keeps_ofExcept _) fun _ => ?_
    refine Act.keeps_bind (Act.keeps_modify fun s hs => ?_) fun _ => ?_
    · exact hs.onAuxiliary (fun _ => rfl) (fun _ => rfl) (fun _ h => h)
    · refine keeps_requireValue_bind fun hnan => Act.keeps_modify fun s hs => ?_
      exact hs.onAuxiliary (fun _ => rfl) (fun _ => rfl)
        fun _ _ => exists_fin_of_not_isInf ht hnan
  intro s hs
  unfold pull
  rw [Act.after_bind_of_ok (Act.get_apply s)]
  dsimp only
  split
  · rename_i hnew
    have hmade := addAuxiliary_apply n t.index t.value s
    split at hmade
    · rw [Act.after_of_error (Act.bind_of_error hmade)]
      exact hs
    · rename_i column hcolumn
      split at hmade
      · rw [Act.after_of_error (Act.bind_of_error hmade)]
        exact hs
      rename_i hnan
      rw [Act.after_bind_of_ok hmade]
      refine hrest _ (hs.push hcolumn (exists_fin_of_not_isInf ht hnan) fun a ha hindex => ?_)
      rw [any_index_eq_true.mpr ⟨a, ha, hindex⟩] at hnew
      cases hnew
  · exact hrest s hs

/-- Whatever a solve is asked for, it leaves sound auxiliary columns. -/
theorem keeps_aim (goal : Goal ExtRat) (h : ∀ t ∈ goal.targets, Arith.isInf t.value = false) :
    Act.Keeps (Sound n) (aim n goal) := by
  have hrest : Act.Keeps (Sound n) (do
      goal.objective.forM fun c => Act.ofExcept (requireValue c)
      modify fun s => ({ s with cost := goal.objective }).relax
      goal.targets.forM (pull n)) := by
    refine Act.keeps_bind (Act.keeps_forM fun c _ => Act.keeps_ofExcept _) fun _ => ?_
    refine Act.keeps_bind (Act.keeps_modify fun s hs => ?_) fun _ =>
      Act.keeps_forM fun t ht => keeps_pull t (h t ht)
    exact hs.relax goal.objective
  unfold aim
  exact Act.keeps_ite (Act.keeps_bind (Act.keeps_throw _) fun _ => hrest) hrest

/-- The auxiliary column of a target takes its weight and its value. -/
theorem runs_pull {objective : List ExtRat} {done : List (Target ExtRat)} {t : Target ExtRat}
    {p : Nat} {v w : ℚ} (hp : Vec.position? n t.index = some p) (hv : t.value = fin v)
    (hw : t.weight = fin w) (hnew : ∀ t' ∈ done, t'.index ≠ t.index) :
    Act.Runs (fun s => s.Sound n ∧ s.AimedAt objective done) (pull n t)
      fun _ s => s.Sound n ∧ s.AimedAt objective (done ++ [t]) := by
  have haimed (s : RelaxationState ExtRat) (hs : s.Sound n) (haim : s.AimedAt objective done)
      (hmem : ∃ a ∈ s.auxiliaries, a.index = t.index) :
      ∃ a s', (do
        Act.ofExcept (requireValue t.weight)
        modify (RelaxationState.onAuxiliary t.index fun a => { a with cost := t.weight })
        Act.ofExcept (requireValue t.value)
        modify (RelaxationState.onAuxiliary t.index fun a => { a with value := t.value }) :
          Act ExtRat (RelaxationState ExtRat) Unit) s = .ok a s' ∧
        s'.Sound n ∧ s'.AimedAt objective (done ++ [t]) := by
    refine ⟨(), RelaxationState.onAuxiliary t.index
      (fun a => { a with cost := t.weight, value := t.value }) s, ?_, ?_, haim.pulled hnew hmem⟩
    · rw [Act.ofExcept_bind (by rw [hw]; rfl), Act.bind_of_ok (Act.modify_apply _ _),
        Act.ofExcept_bind (by rw [hv]; rfl), Act.modify_apply,
        onAuxiliary_onAuxiliary]
      intro a
      rfl
    · exact hs.onAuxiliary (fun _ => rfl) (fun _ => rfl) fun _ _ => ⟨v, hv⟩
  rintro s ⟨hs, haim⟩
  unfold pull
  rw [Act.bind_of_ok (Act.get_apply s)]
  dsimp only
  split
  · rename_i hnone
    have hmade := addAuxiliary_apply n t.index t.value s
    rw [hp] at hmade
    dsimp only at hmade
    rw [if_neg (by rw [hv]; exact Bool.false_ne_true)] at hmade
    rw [Act.bind_of_ok hmade]
    refine haimed _ (hs.push hp ⟨v, hv⟩ fun a ha hindex => ?_) (haim.push rfl)
      ⟨_, List.mem_append_right _ (List.mem_singleton_self _), rfl⟩
    rw [any_index_eq_true.mpr ⟨a, ha, hindex⟩] at hnone
    cases hnone
  · rename_i hsome
    refine haimed s hs haim (any_index_eq_true.mp ?_)
    simpa using hsome

/-- A solve for finite numbers aims the auxiliary columns of its targets, and takes the cost off all
others. -/
theorem runs_aim {goal : Goal ExtRat} (h : goal.Sane n) :
    Act.Runs (Sound n) (aim n goal)
      fun _ s => s.Sound n ∧ s.AimedAt goal.objective goal.targets := by
  obtain ⟨c, hc, hlen⟩ := h.objective
  have hcosts : Act.Runs (Sound n)
      (goal.objective.forM fun c => (Act.ofExcept (requireValue c) :
        Act ExtRat (RelaxationState ExtRat) Unit)) fun _ => Sound n := by
    refine Act.runs_forM (J := fun _ => Sound n) fun done x rest heq => ?_
    have hx : x ∈ goal.objective := by simp [heq]
    rw [hc] at hx
    obtain ⟨q, -, rfl⟩ := List.mem_map.mp hx
    exact Act.runs_ofExcept fun s hs => ⟨(), rfl, hs⟩
  have hrelax : Act.Runs (R := ExtRat) (Sound n)
      (modify fun s : RelaxationState ExtRat => ({ s with cost := goal.objective }).relax)
      fun _ (s : RelaxationState ExtRat) => s.Sound n ∧ s.AimedAt goal.objective [] := by
    refine Act.runs_modify fun s hs => ⟨hs.relax _, rfl, fun t ht => ?_, fun a ha _ => ?_⟩
    · cases ht
    obtain ⟨b, -, rfl⟩ := List.mem_map.mp ha
    rfl
  have hpulls : Act.Runs (fun s : RelaxationState ExtRat => s.Sound n ∧ s.AimedAt goal.objective [])
      (goal.targets.forM (pull n))
      fun _ (s : RelaxationState ExtRat) => s.Sound n ∧ s.AimedAt goal.objective goal.targets := by
    refine Act.runs_forM (J := fun done (s : RelaxationState ExtRat) =>
      s.Sound n ∧ s.AimedAt goal.objective done) fun done t rest heq => ?_
    obtain ⟨p, v, w, hp, hv, hw, -⟩ := h.targets t (by simp [heq])
    refine runs_pull hp hv hw fun t' ht' hindex => ?_
    have hdistinct := h.distinct
    rw [heq, List.map_append, List.map_cons, List.nodup_append] at hdistinct
    exact hdistinct.2.2 _ (List.mem_map_of_mem ht') _ (List.mem_cons_self ..) hindex
  unfold aim
  rw [if_neg (by rw [hc, List.length_map, hlen]; exact fun h => h rfl)]
  exact Act.runs_bind hcosts fun _ => Act.runs_bind hrelax fun _ => hpulls

end Pulls

end RelaxationState

end MipPump
