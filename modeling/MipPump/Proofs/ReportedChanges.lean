import MipPump.Proofs.FixedVariables

/-!
# Reported changes

A propagation answers with the variables it changed and their last bounds.  Whoever makes these
changes in the box it began with arrives at the box it left: no change is missing, and a variable
that was tightened by several rows is reported with the bounds it has at the end.

* `Box.SameOutside ks b b'`: the boxes differ at the variables in `ks` only.
* `RelatesBounds`: what holds of every change of a bound holds of a row.
* `sameOutside_of_propagate`: a row changes the variables it answers with.
* `Changes.ReportsBut pending start changes b`: the changes lead from `start` to `b`, except for the
  variables in `pending`, which are still to be noted.
* `reports_of_drain`, `reports_of_fix`: the reports of the work on a queue, and of a fixed variable.
* `keeps_ordered`, `ordered_of_fix`: propagation keeps bounds in order.  It takes of the arithmetic
  only that no number is below itself.
-/

namespace MipPump

section Boxes

variable {R : Type} {ks : List Nat} {b b' b'' : Box R}

/-- The boxes have the same bounds outside of the variables in `ks`. -/
structure Box.SameOutside (ks : List Nat) (b b' : Box R) : Prop where
  lower : b'.lb.length = b.lb.length
  upper : b'.ub.length = b.ub.length
  others : ∀ k ∉ ks, b'.lb[k]? = b.lb[k]? ∧ b'.ub[k]? = b.ub[k]?

theorem Box.SameOutside.refl (ks : List Nat) (b : Box R) : Box.SameOutside ks b b :=
  ⟨rfl, rfl, fun _ _ => ⟨rfl, rfl⟩⟩

theorem Box.SameOutside.append {ks' : List Nat} (h : Box.SameOutside ks b b')
    (h' : Box.SameOutside ks' b' b'') : Box.SameOutside (ks ++ ks') b b'' where
  lower := h'.lower.trans h.lower
  upper := h'.upper.trans h.upper
  others := fun k hk => by
    rw [List.mem_append, not_or] at hk
    obtain ⟨hl, hu⟩ := h.others k hk.1
    obtain ⟨hl', hu'⟩ := h'.others k hk.2
    exact ⟨hl'.trans hl, hu'.trans hu⟩

/-- Bounds are read from the entries of the variable. -/
theorem Box.bounds_congr {k : Nat} (hl : b'.lb[k]? = b.lb[k]?) (hu : b'.ub[k]? = b.ub[k]?) :
    b'.bounds k = b.bounds k := by
  unfold Box.bounds Vec.get
  rw [Vec.at?_natCast, Vec.at?_natCast, Vec.at?_natCast, Vec.at?_natCast, hl, hu]

theorem Box.SameOutside.bounds (h : Box.SameOutside ks b b') {k : Nat} (hk : k ∉ ks) :
    b'.bounds k = b.bounds k :=
  Box.bounds_congr (h.others k hk).1 (h.others k hk).2

theorem Box.sameOutside_set_lb (b : Box R) (k : Nat) (l : R) :
    Box.SameOutside [k] b { b with lb := b.lb.set k l } :=
  ⟨List.length_set .., rfl, fun _ hi =>
    ⟨List.getElem?_set_ne fun hk => hi (List.mem_singleton.mpr hk.symm), rfl⟩⟩

theorem Box.sameOutside_set_ub (b : Box R) (k : Nat) (u : R) :
    Box.SameOutside [k] b { b with ub := b.ub.set k u } :=
  ⟨rfl, List.length_set .., fun _ hi =>
    ⟨rfl, List.getElem?_set_ne fun hk => hi (List.mem_singleton.mpr hk.symm)⟩⟩

end Boxes

namespace Propagation

variable {R : Type}

section Rows

variable [Arith R] {limits : Limits R} {row : UpperRow R} {a : Activity R} {b b' : Box R}

section Sides

variable {k : Nat} {isIntegral tightened : Bool} {bound : R}

theorem sameOutside_of_lowerUpper
    (h : lowerUpper limits k isIntegral bound b = .ok tightened b') :
    Box.SameOutside (if tightened then [k] else []) b b' := by
  obtain ⟨l, u, -, ⟨rfl, -, -, rfl⟩ | ⟨rfl, -, rfl⟩⟩ := lowerUpper_eq_ok.mp h
  · exact Box.sameOutside_set_ub b k _
  · exact Box.SameOutside.refl _ _

theorem sameOutside_of_raiseLower
    (h : raiseLower limits k isIntegral bound b = .ok tightened b') :
    Box.SameOutside (if tightened then [k] else []) b b' := by
  obtain ⟨l, u, -, ⟨rfl, -, -, rfl⟩ | ⟨rfl, -, rfl⟩⟩ := raiseLower_eq_ok.mp h
  · exact Box.sameOutside_set_lb b k _
  · exact Box.SameOutside.refl _ _

end Sides

/-- A relation between the boxes before and after the variables in a list were tightened holds of a
row, if it holds of the two ways to move a bound, of nothing, and of one change after the other. -/
structure RelatesBounds (limits : Limits R) (T : List Nat → Box R → Box R → Prop) : Prop where
  refl : ∀ b, T [] b b
  append : ∀ {ks ks' b b' b''}, T ks b b' → T ks' b' b'' → T (ks ++ ks') b b''
  upper : ∀ {k isIntegral bound tightened b b'},
    lowerUpper limits k isIntegral bound b = .ok tightened b' →
      T (if tightened then [k] else []) b b'
  lower : ∀ {k isIntegral bound tightened b b'},
    raiseLower limits k isIntegral bound b = .ok tightened b' →
      T (if tightened then [k] else []) b b'

section Relations

variable {T : List Nat → Box R → Box R → Prop} (hT : RelatesBounds limits T)
include hT

theorem RelatesBounds.of_tightenTerm {k : Nat} {coef contribution : R} {tightened : Bool}
    (h : row.tightenTerm limits a k coef contribution b = .ok tightened b') :
    T (if tightened then [k] else []) b b' := by
  rcases tightenTerm_eq_ok.mp h with ⟨-, rfl, rfl⟩ | ⟨-, isIntegral, -, h⟩
  · exact hT.refl _
  · split_ifs at h
    · exact hT.upper h
    · exact hT.lower h

theorem RelatesBounds.of_tightenTerms {terms : List ((Nat × R) × R)} {ks : List Nat}
    (h : row.tightenTerms limits a terms b = .ok ks b') : T ks b b' := by
  induction terms generalizing b ks with
  | nil =>
      cases h
      exact hT.refl _
  | cons term rest ih =>
      obtain ⟨tightened, b₁, others, hfirst, hrest, rfl⟩ := tightenTerms_cons_eq_ok.mp h
      have hboth := hT.append (hT.of_tightenTerm hfirst) (ih hrest)
      cases tightened with
      | true => exact hboth
      | false => exact hboth

theorem RelatesBounds.of_propagate {ks : List Nat} (h : row.propagate limits b = .ok ks b') :
    T ks b b' := by
  obtain ⟨a, -, -, ⟨-, rfl, rfl⟩ | ⟨-, hrun⟩⟩ := propagate_eq_ok.mp h
  · exact hT.refl _
  · exact hT.of_tightenTerms hrun

end Relations

theorem relatesBounds_sameOutside : RelatesBounds limits Box.SameOutside where
  refl := Box.SameOutside.refl []
  append := Box.SameOutside.append
  upper := sameOutside_of_lowerUpper
  lower := sameOutside_of_raiseLower

/-- A row changes no variables but those it answers with. -/
theorem sameOutside_of_propagate {ks : List Nat} (h : row.propagate limits b = .ok ks b') :
    Box.SameOutside ks b b' := relatesBounds_sameOutside.of_propagate h

theorem sameOutside_of_visit {p p' : Propagator R} {r : Int} {ks : List Nat}
    (h : Propagator.visit r p = .ok ks p') : Box.SameOutside ks p.box p'.box := by
  unfold Propagator.visit Propagator.onBox at h
  rw [Act.bind_of_ok (Act.get_apply p)] at h
  obtain ⟨row, _, hread, h⟩ := Act.bind_eq_ok.mp h
  obtain ⟨-, rfl⟩ := Act.ofExcept_eq_ok.mp hread
  obtain ⟨box, hbox, rfl⟩ := Act.zoom_eq_ok.mp h
  exact sameOutside_of_propagate hbox

end Rows

section Reports

/-- The changes lead from the box `start` to the box `b`, except for the variables in `pending`. -/
structure Changes.ReportsBut (pending : List Nat) (start : Box R) (changes : Changes R)
    (b : Box R) :
    Prop where
  lower : b.lb.length = start.lb.length
  upper : b.ub.length = start.ub.length
  /-- Noted variables have the bounds that were noted. -/
  entries : ∀ c ∈ changes, c.1 ∈ pending ∨ b.bounds c.1 = .ok c.2
  /-- Other variables have the bounds that they had. -/
  others : ∀ k ∉ pending, (∀ c ∈ changes, c.1 ≠ k) →
    b.lb[k]? = start.lb[k]? ∧ b.ub[k]? = start.ub[k]?

/-- The changes lead from one box to the other. -/
def Changes.Reports (start : Box R) (changes : Changes R) (b : Box R) : Prop :=
  changes.ReportsBut [] start b

variable {start b b' : Box R} {changes : Changes R}

theorem Changes.reports_nil (b : Box R) : Changes.Reports b [] b :=
  ⟨rfl, rfl, fun _ hc => absurd hc List.not_mem_nil, fun _ _ _ => ⟨rfl, rfl⟩⟩

/-- An entry after a variable was noted is its entry or that of another variable. -/
theorem Changes.mem_note {k : Nat} {l u : R} {c : Nat × R × R} (h : c ∈ changes.note k l u) :
    c = (k, l, u) ∨ c ∈ changes ∧ c.1 ≠ k := by
  unfold Changes.note at h
  split at h
  · obtain ⟨c', hc', rfl⟩ := List.mem_map.mp h
    by_cases hk : c'.1 == k
    · rw [if_pos hk]
      exact .inl rfl
    · rw [if_neg hk]
      exact .inr ⟨hc', fun heq => hk (beq_iff_eq.mpr heq)⟩
  · rename_i hnew
    rcases List.mem_append.mp h with hold | hadded
    · exact .inr ⟨hold, fun heq => hnew (List.any_eq_true.mpr ⟨c, hold, beq_iff_eq.mpr heq⟩)⟩
    · exact .inl (List.mem_singleton.mp hadded)

/-- The variable and those that were noted before are noted. -/
theorem Changes.exists_mem_note {k : Nat} (l u : R) {j : Nat}
    (h : j = k ∨ ∃ c ∈ changes, c.1 = j) : ∃ c ∈ changes.note k l u, c.1 = j := by
  unfold Changes.note
  split
  · rename_i hany
    obtain ⟨c₀, hc₀, hk₀⟩ := List.any_eq_true.mp hany
    obtain ⟨c, hc, hj⟩ : ∃ c ∈ changes, c.1 = j := by
      rcases h with rfl | h
      · exact ⟨c₀, hc₀, beq_iff_eq.mp hk₀⟩
      · exact h
    refine ⟨_, List.mem_map_of_mem hc, ?_⟩
    by_cases hk : c.1 == k
    · rw [if_pos hk]
      exact (beq_iff_eq.mp hk).symm.trans hj
    · rw [if_neg hk]
      exact hj
  · rcases h with rfl | ⟨c, hc, hj⟩
    · exact ⟨(j, l, u), List.mem_append_right _ (List.mem_singleton_self _), rfl⟩
    · exact ⟨c, List.mem_append_left _ hc, hj⟩

/-- When further variables change they are still to be noted. -/
theorem Changes.Reports.change {ks : List Nat} (h : Changes.Reports start changes b)
    (hb : Box.SameOutside ks b b') : changes.ReportsBut ks start b' where
  lower := hb.lower.trans h.lower
  upper := hb.upper.trans h.upper
  entries := fun c hc => by
    by_cases hk : c.1 ∈ ks
    · exact .inl hk
    · rw [hb.bounds hk]
      exact .inr ((h.entries c hc).resolve_left List.not_mem_nil)
  others := fun k hk hnone => by
    obtain ⟨hl, hu⟩ := hb.others k hk
    obtain ⟨hl', hu'⟩ := h.others k List.not_mem_nil hnone
    exact ⟨hl.trans hl', hu.trans hu'⟩

/-- A variable that is noted with its bounds is no longer to be noted. -/
theorem Changes.ReportsBut.note {k : Nat} {rest : List Nat} {l u : R}
    (h : changes.ReportsBut (k :: rest) start b) (hk : b.bounds k = .ok (l, u)) :
    (changes.note k l u).ReportsBut rest start b where
  lower := h.lower
  upper := h.upper
  entries := fun c hc => by
    rcases Changes.mem_note hc with rfl | ⟨hold, hne⟩
    · exact .inr hk
    · rcases h.entries c hold with hpending | hread
      · exact .inl ((List.mem_cons.mp hpending).resolve_left hne)
      · exact .inr hread
  others := fun j hj hnone => by
    have hne : j ≠ k := fun heq => by
      have hnoted : ∃ c ∈ changes.note k l u, c.1 = j := Changes.exists_mem_note l u (.inl heq)
      obtain ⟨c, hc, hcj⟩ := hnoted
      exact hnone c hc hcj
    refine h.others j (fun hmem => (List.mem_cons.mp hmem).elim hne hj) fun c hc hcj => ?_
    obtain ⟨c', hc', hcj'⟩ := Changes.exists_mem_note l u (.inr ⟨c, hc, hcj⟩)
    exact hnone c' hc' hcj'

end Reports

section Queues

variable {p p' : Propagator R} {start : Box R} {changes changes' : Changes R}

theorem note_of_follow {r : Int} {work work' : Changes R × Queue} {k : Nat}
    (h : p.follow r work k = .ok work') :
    ∃ l u, p.box.bounds k = .ok (l, u) ∧ work'.1 = work.1.note k l u := by
  unfold Propagator.follow at h
  obtain ⟨⟨l, u⟩, hbounds, h⟩ := Act.exceptBind_eq_ok.mp h
  obtain ⟨rows, -, h⟩ := Act.exceptBind_eq_ok.mp h
  cases h
  exact ⟨l, u, hbounds, rfl⟩

/-- When all changed variables were followed, all are noted. -/
theorem reports_of_followAll {r : Int} {tightened : List Nat} {work work' : Changes R × Queue}
    (hwork : work.1.ReportsBut tightened start p.box)
    (h : tightened.foldlM (p.follow r) work = .ok work') :
    Changes.Reports start work'.1 p.box := by
  induction tightened generalizing work with
  | nil =>
      cases h
      exact hwork
  | cons k rest ih =>
      rw [List.foldlM_cons] at h
      obtain ⟨work₁, hfirst, h⟩ := Act.exceptBind_eq_ok.mp h
      obtain ⟨l, u, hbounds, hnote⟩ := note_of_follow hfirst
      exact ih (hnote ▸ hwork.note hbounds) h

variable [Arith R]

/-- The work on a queue reports what it changes, by induction on the visits that are left. -/
theorem reports_of_drain (fuel : Nat) {q : Queue} (hchanges : Changes.Reports start changes p.box)
    (h : Propagator.drain fuel changes q p = .ok changes' p') :
    Changes.Reports start changes' p'.box := by
  induction fuel generalizing changes q p with
  | zero =>
      cases h
      exact hchanges
  | succ fuel ih =>
      unfold Propagator.drain at h
      cases hpending : q.pending with
      | nil =>
          rw [hpending] at h
          cases h
          exact hchanges
      | cons r rest =>
          rw [hpending] at h
          obtain ⟨tightened, p₁, hvisit, h⟩ := Act.bind_eq_ok.mp h
          rw [Act.bind_of_ok (Act.get_apply p₁)] at h
          obtain ⟨work, _, hfollow, h⟩ := Act.bind_eq_ok.mp h
          obtain ⟨hfold, rfl⟩ := Act.ofExcept_eq_ok.mp hfollow
          exact ih (reports_of_followAll (hchanges.change (sameOutside_of_visit hvisit)) hfold) h

/-- **Propagation reports exactly what it has changed.** -/
theorem reports_of_propagate {rows : List Int}
    (h : Propagator.propagate rows p = .ok changes p') : Changes.Reports p.box changes p'.box := by
  unfold Propagator.propagate at h
  rw [Act.bind_of_ok (Act.get_apply p)] at h
  exact reports_of_drain _ (Changes.reports_nil p.box) h

/-- Fixing a variable reports what follows from it. -/
theorem reports_of_fix {i : Int} {value : R} (h : Propagator.fix i value p = .ok changes p') :
    ∃ box, p.box.set i value value = .ok box ∧ Changes.Reports box changes p'.box := by
  obtain ⟨box, ns, -, hset, -, hrun⟩ := fix_eq_ok h
  exact ⟨box, hset, reports_of_propagate hrun⟩

end Queues

section Orders

variable [Arith R] (hirrefl : ∀ x : R, ¬ x < x) {limits : Limits R}
include hirrefl

theorem not_larger_lt (x y : R) : ¬ Arith.larger x y < y := by
  unfold Arith.larger
  split
  · exact hirrefl y
  · assumption

theorem not_lt_smaller (x y : R) : ¬ y < Arith.smaller x y := by
  unfold Arith.smaller
  split
  · exact hirrefl y
  · assumption

theorem keeps_lowerUpper_ordered (k : Nat) (isIntegral : Bool) (bound : R) :
    Act.Keeps Box.Ordered (lowerUpper limits k isIntegral bound) := by
  refine keeps_lowerUpper fun b l u hb hbounds _ _ => ?_
  obtain ⟨-, hl, -⟩ := Box.bounds_eq_ok.mp hbounds
  rw [Vec.at?_natCast] at hl
  exact Vec.forall₂_set_right hb hl (not_larger_lt hirrefl _ _)

theorem keeps_raiseLower_ordered (k : Nat) (isIntegral : Bool) (bound : R) :
    Act.Keeps Box.Ordered (raiseLower limits k isIntegral bound) := by
  refine keeps_raiseLower fun b l u hb hbounds _ _ => ?_
  obtain ⟨-, -, hu⟩ := Box.bounds_eq_ok.mp hbounds
  rw [Vec.at?_natCast] at hu
  exact Vec.forall₂_set_left hb hu (not_lt_smaller hirrefl _ _)

/-- A row keeps bounds in order: what would cross the opposite bound is moved onto it. -/
theorem keeps_ordered (row : UpperRow R) : Act.Keeps Box.Ordered (row.propagate limits) := by
  unfold UpperRow.propagate
  refine Act.keeps_bind Act.keeps_get fun box => Act.keeps_bind (Act.keeps_ofExcept _) fun a => ?_
  refine Act.keeps_bind (Act.keeps_ofExcept _) fun _ => Act.keeps_ite (Act.keeps_pure _) ?_
  exact keeps_tightenTerms_of_bounds (keeps_lowerUpper_ordered hirrefl)
    (keeps_raiseLower_ordered hirrefl) _

/-- So does fixing a variable. -/
theorem ordered_of_fix {p p' : Propagator R} (hp : p.box.Ordered) {i : Int} {value : R}
    {changes : Changes R} (h : Propagator.fix i value p = .ok changes p') : p'.box.Ordered := by
  obtain ⟨box, ns, -, hset, -, hrun⟩ := fix_eq_ok h
  have hholds : p.Holds Box.Ordered { p with box } := ⟨⟨box, rfl⟩, hp.set (hirrefl value) hset⟩
  exact ((keeps_propagate_of_rows (fun row _ => keeps_ordered hirrefl row) _).of_ok hholds
    hrun).inside

end Orders

end Propagation
end MipPump
