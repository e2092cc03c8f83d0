import MipPump.Proofs.QueueWork
import MipPump.Proofs.Tables
import Mathlib.Data.List.Perm.Basic

/-!
# Rounding one variable after another

Rounding with propagation takes the integer variables in some order.  It reads the domain that is
left for a variable, rounds the value there, fixes the variable in the propagator and repeats all
changes in the bounds of the problem.  What is shown of one variable holds of all of them, and the
values that were written in the order of the ranking form a candidate.

* `Settable D i l u`: the bounds can be set in all boxes in `D`, without leaving `D`.
* `Roundable`: what has to be known of one variable; `tries_fixVariable` is its step.
* `tries_fixAll`: the variables of an order.
* `exists_placeAll_of_placed`: the values that were written in their places.
* `tries_propagatedPoint`: the rounding of a point.
-/

namespace MipPump
namespace Rounding

open Propagation

variable {R : Type} [Arith R]

section Bounds

variable {D : Box R → Prop} {C : Nat → R → R → Prop} {i : Int} {l u : R}

/-- Bounds in order that can be set in all boxes in `D` without leaving `D`. -/
structure Settable (D : Box R → Prop) (i : Int) (l u : R) : Prop where
  ordered : ¬ u < l
  boxes : ∀ b, D b → (∃ bounds, b.bounds i = .ok bounds) ∧ ∃ b', b.set i l u = .ok b' ∧ D b'

/-- Such bounds can be set inside a scope. -/
theorem runs_tighten (h : Settable D i l u) :
    Act.Runs (fun s : Scoped R => D s.domain.box) (Scoped.tighten i l u)
      fun _ s => D s.domain.box := by
  intro s hs
  obtain ⟨⟨bounds, hread⟩, box, hset, hbox⟩ := h.boxes _ hs
  obtain ⟨s', htighten, rfl, -⟩ := Scoped.exists_tighten hread h.ordered hset
  exact ⟨(), s', htighten, hbox⟩

theorem runs_followChanges (hC : ∀ k l u, C k l u → Settable D k l u) {changes : Changes R}
    (h : changes.All C) :
    Act.Runs (fun s : Scoped R => D s.domain.box) (followChanges changes)
      fun _ s => D s.domain.box := by
  induction changes with
  | nil => exact Act.runs_pure fun s hs => hs
  | cons c rest ih =>
      unfold followChanges
      exact Act.runs_bind (runs_tighten (hC _ _ _ (h c (List.mem_cons_self ..)))) fun _ =>
        ih fun c' hc' => h c' (List.mem_cons_of_mem _ hc')

end Bounds

section Variables

variable {F : Fault R → Prop} {I D : Box R → Prop} {C : Nat → R → R → Prop} {n : Nat}
  {p : Propagator R} {tieBreak : TieBreak} {eps : R} {t : Table R} {point : List R}
  {V : Int → R → Prop}

/-- Between two variables: the bounds of the problem are in `D`, those of the propagator in `I`. -/
structure Between (I D : Box R → Prop) (p : Propagator R) (s : Scoped R × Fixing R) : Prop where
  domain : D s.1.domain.box
  propagator : p.Holds I s.2.propagator

/-- What has to be known of the variable `j` for it to be rounded to a value in `V j`, unless its
domain is empty, which is one of the faults in `F`. -/
structure Roundable (F : Fault R → Prop) (I D : Box R → Prop) (p : Propagator R)
    (tieBreak : TieBreak) (eps : R) (t : Table R) (point : List R) (V : Int → R → Prop) (j : Int) :
    Prop where
  rows : ∃ ns ∈ p.rowsOf, Vec.at? p.rowsOf j = some ns
  place : ∃ place, Vec.at? t.position j = some place
  value : ∃ x, Vec.at? point j = some x ∧ ∀ b, I b → ∃ l u, b.bounds j = .ok (l, u) ∧
    let domain := integralDomain eps (l, u)
    (domain.2 < domain.1 → F (.emptiedDomain j domain.1 domain.2)) ∧
      (¬ domain.2 < domain.1 →
        V j (nearestValue Arith.clampKeep tieBreak eps domain.1 domain.2 x))
  fix : ∀ value, V j value → ∀ b, I b → ∃ l u b', b.bounds j = .ok (l, u) ∧
    (value < l - p.limits.tol ∨ u + p.limits.tol < value → F (.emptiedDomain j l u)) ∧
    b.set j value value = .ok b' ∧ I b'
  settable : ∀ value, V j value → Settable D j value value

/-- What is written for the variable `j`: a value in `V j`, at its place. -/
def PlacedIn (t : Table R) (V : Int → R → Prop) (j : Int) (w : Int × R) : Prop :=
  Vec.at? t.position j = some w.1 ∧ V j w.2

/-- A variable is rounded, and the value is written at its place. -/
theorem tries_fixVariable (hp : p.Works F I n)
    (hread : ∀ b, I b → ∀ k < n, ∃ l u, b.bounds k = .ok (l, u) ∧ C k l u)
    (hC : ∀ k l u, C k l u → Settable D k l u) {j : Int}
    (hj : Roundable F I D p tieBreak eps t point V j) (writes : List (Int × R)) :
    Act.Tries F (fun s => Between I D p s ∧ s.2.writes = writes)
      (fixVariable tieBreak eps t point j)
      fun _ s => Between I D p s ∧ ∃ w, PlacedIn t V j w ∧ s.2.writes = w :: writes := by
  obtain ⟨x, hx, hvalue⟩ := hj.value
  obtain ⟨place, hplace⟩ := hj.place
  unfold fixVariable
  refine Act.tries_get_bind fun s hs => ?_
  obtain ⟨scope, f⟩ := s
  obtain ⟨l, u, hbounds, hempty, hrounded⟩ := hvalue _ hs.1.propagator.inside
  refine Act.tries_of_ok_bind hbounds ?_
  dsimp only
  split
  · rename_i hcrossed
    exact fun s _ => .inr ⟨_, s, rfl, hempty hcrossed⟩
  rename_i hopen
  refine Act.tries_of_ok_bind (Vec.get_eq_ok.mpr hx) ?_
  have hV := hrounded hopen
  generalize nearestValue Arith.clampKeep tieBreak eps _ _ x = value at hV
  -- the propagator first, then the bounds of the problem
  refine Act.tries_bind (P := fun s => Between I D p s ∧ s.2.writes = writes)
    (Q := fun changes s => changes.All C ∧ Between I D p s ∧ s.2.writes = writes) ?_
    (fun changes => Act.tries_of_and fun hchanges => ?_) |>.mono (fun s h => h ▸ hs) fun _ _ h => h
  · refine Act.tries_zoom (J := fun f : Fixing R => p.Holds I f.propagator ∧ f.writes = writes)
      (T := fun changes f => changes.All C ∧ p.Holds I f.propagator ∧ f.writes = writes) ?_
      (fun s hs => ⟨hs.1.propagator, hs.2⟩)
      fun s changes f hs hf => ⟨hf.1, ⟨hs.1.domain, hf.2.1⟩, hf.2.2⟩
    exact Act.tries_zoom (tries_fix hp hread hj.rows value (hj.fix value hV)) (fun f hf => hf.1)
      fun f changes q hf hq => ⟨hq.1, hq.2, hf.2⟩
  · have hscope {act : Act R (Scoped R) Unit}
        (hact : Act.Runs (fun s : Scoped R => D s.domain.box) act fun _ s => D s.domain.box) :
        Act.Runs (fun s => Between I D p s ∧ s.2.writes = writes) (Act.first act)
          fun _ s => Between I D p s ∧ s.2.writes = writes :=
      Act.runs_zoom hact (fun s hs => hs.1.domain)
        fun s _ d hs hd => ⟨⟨hd, hs.1.propagator⟩, hs.2⟩
    refine (Act.runs_bind (hscope (runs_tighten (hj.settable value hV))) fun _ =>
      Act.runs_bind (hscope (runs_followChanges hC hchanges)) fun _ =>
        Act.runs_of_ok_bind (Vec.get_eq_ok.mpr hplace) ?_).tries
    rintro s ⟨hbetween, rfl⟩
    exact ⟨_, _, rfl, ⟨hbetween.domain, hbetween.propagator⟩, (place, value), ⟨hplace, hV⟩, rfl⟩

/-- All variables of an order are rounded, by induction on the order. -/
theorem tries_fixAll (hp : p.Works F I n)
    (hread : ∀ b, I b → ∀ k < n, ∃ l u, b.bounds k = .ok (l, u) ∧ C k l u)
    (hC : ∀ k l u, C k l u → Settable D k l u) {order : List Int}
    (horder : ∀ j ∈ order, Roundable F I D p tieBreak eps t point V j)
    (writes : List (Int × R)) :
    Act.Tries F (fun s => Between I D p s ∧ s.2.writes = writes)
      (fixAll tieBreak eps t point order)
      fun _ s => ∃ news, List.Forall₂ (PlacedIn t V) order news ∧
        s.2.writes = news.reverse ++ writes := by
  induction order generalizing writes with
  | nil => exact Act.tries_pure fun s hs => ⟨[], .nil, hs.2⟩
  | cons j rest ih =>
      unfold fixAll
      refine Act.tries_bind (tries_fixVariable hp hread hC (horder j (List.mem_cons_self ..)) writes)
        fun _ s hs => ?_
      obtain ⟨hbetween, w, hw, hwrites⟩ := hs
      rcases ih (fun k hk => horder k (List.mem_cons_of_mem _ hk)) (w :: writes) s
        ⟨hbetween, hwrites⟩ with ⟨_, s', hok, news, hnews, hall⟩ | hfault
      · refine .inl ⟨_, s', hok, w :: news, .cons hw hnews, ?_⟩
        rw [hall, List.reverse_cons, List.append_assoc, List.singleton_append]
      · exact .inr hfault

/-- The same in a scope of its own, which closes. -/
theorem tries_fixInScope (hp : p.Works F I n)
    (hread : ∀ b, I b → ∀ k < n, ∃ l u, b.bounds k = .ok (l, u) ∧ C k l u)
    (hC : ∀ k l u, C k l u → Settable D k l u) {order : List Int}
    (horder : ∀ j ∈ order, Roundable F I D p tieBreak eps t point V j) {start : Box R}
    (hordered : start.Ordered) (hstart : D start) :
    Act.Tries F
      (fun s => s.1.box = start ∧ p.Holds I s.2.propagator ∧ s.2.writes = [])
      (fixInScope tieBreak eps t point order)
      fun writes _ => List.Forall₂ (PlacedIn t V) order writes := by
  unfold fixInScope
  refine (Scoped.tries_within (P := fun f => p.Holds I f.propagator ∧ f.writes = [])
    (Q := fun writes _ => List.Forall₂ (PlacedIn t V) order writes) hordered
    (J := fun f : Fixing R => p.SameRows f.propagator) ?_ (fun _ hf => hf.1.same) ?_).mono
    (fun _ hs => hs) fun _ _ h => h.2
  · exact Act.keeps_bind (keeps_fixAll start p _ _ _ _ _) fun _ =>
      Act.keeps_bind Act.keeps_get fun _ => Act.keeps_pure _
  · refine Act.tries_bind ((tries_fixAll hp hread hC horder []).mono
      (fun _ hs => ⟨⟨hs.1 ▸ hstart, hs.2.1⟩, hs.2.2⟩) fun _ _ h => h) fun _ => ?_
    refine Act.tries_get_bind fun s hs => Act.tries_pure ?_
    obtain ⟨news, hnews, hall⟩ := hs
    rintro _ rfl
    rw [hall, List.append_nil, List.reverse_reverse]
    exact hnews

end Variables

section Points

variable {vars : List (Variable R)} {t : Table R} {V : Int → R → Prop}

/-- The values that were written for all integer variables, in whatever order, form a candidate.
Every entry is written once, so it does not matter what was there. -/
theorem exists_placeAll_of_placed (h : t.Lists vars) (hd : t.Distinct) {order : List Int}
    (hperm : order.Perm t.integers) {writes : List (Int × R)}
    (hwrites : List.Forall₂ (PlacedIn t V) order writes) :
    ∃ candidate, List.Forall₂ V t.integers candidate ∧
      (writes.map (·.1)).Perm ((List.range t.numIntegers).map fun k : Nat => (k : Int)) ∧
      ∀ blank : List R, blank.length = t.numIntegers →
        (Vec.placeAll blank writes : Except (Fault R) (List R)) = .ok candidate := by
  obtain ⟨sorted, hsorted, hsame⟩ := List.perm_comp_forall₂ hperm.symm hwrites
  have hlen : sorted.length = t.numIntegers := hsorted.length_eq.symm
  -- in index order the places are the numbers of the writes
  have hplace : ∀ (k : Nat) w, sorted[k]? = some w → w.1 = k := by
    intro k w hw
    obtain ⟨j, hj, hplaced, -⟩ := Vec.forall₂_getElem? hsorted.flip hw
    exact Option.some.inj (hplaced.symm.trans (h.at?_position hd hj))
  have hplaces : sorted.map (·.1) = (List.range t.numIntegers).map fun k : Nat => (k : Int) := by
    refine List.ext_getElem (by simp [hlen]) fun k hk _ => ?_
    rw [List.length_map] at hk
    simpa using hplace k _ (List.getElem?_eq_getElem hk)
  refine ⟨sorted.map (·.2), List.forall₂_map_right_iff.mpr (hsorted.imp fun _ _ hw => hw.2),
    hplaces ▸ (hsame.symm.map _), fun blank hblank => Vec.placeAll_of_agree ?_ (fun w hw => ?_)
      fun k hk => .inl ?_⟩
  · rw [hblank, List.length_map, hlen]
  · obtain ⟨k, hk⟩ := List.mem_iff_getElem?.mp (hsame.mem_iff.mpr hw)
    exact ⟨k, hplace k w hk, by rw [List.getElem?_map, hk]; rfl⟩
  · rw [List.length_map] at hk
    have hget : sorted[k]? = some sorted[k] := List.getElem?_eq_getElem hk
    exact ⟨sorted[k], hsame.mem_iff.mp (List.getElem_mem hk), hplace k _ hget⟩

variable {F : Fault R → Prop} {I D : Box R → Prop} {C : Nat → R → R → Prop} {n : Nat}
  {tieBreak : TieBreak} {eps : R} {ranker : Ranker R} {point : List R}

/-- A point is rounded in the current bounds and in the order of the ranking. -/
theorem propagatedPoint_eq {ws : Workspace R} {order : List Int} {q : Progress R}
    (hbounds : ((List.range t.numVars).mapM fun j : Nat => ws.domain.bounds j) =
      .ok (ws.domain.box.lb.zip ws.domain.box.ub))
    (hlen : ws.domain.box.lb.length = ws.domain.box.ub.length)
    (hrank : ranker.rank t point none ws.progress = .ok order q) :
    propagatedPoint tieBreak eps t ranker point ws =
      (Workspace.onFixing (fixInScope tieBreak eps t point order) >>= fun writes =>
        Act.ofExcept (Vec.placeAll (Vec.zeros t.numIntegers) writes))
        ⟨ws.domain, q, { ws.propagator with box := ws.domain.box }⟩ := by
  let w : Workspace R := { ws with propagator := { ws.propagator with box := ws.domain.box } }
  have hrank' : Workspace.onProgress (ranker.rank t point none) w =
      .ok order { w with progress := q } := Act.zoom_of_ok hrank
  unfold propagatedPoint
  rw [Act.bind_of_ok (Act.get_apply ws), Act.ofExcept_bind hbounds]
  dsimp only
  rw [List.map_fst_zip (Nat.le_of_eq hlen), List.map_snd_zip (Nat.le_of_eq hlen.symm)]
  rw [Act.bind_of_ok (Act.set_apply ws w), Act.bind_of_ok hrank']

/-- What was written for the variables of the ranking is the answer. -/
theorem propagatedPoint_of_writes {ws : Workspace R} {order : List Int} {q : Progress R}
    (hbounds : ((List.range t.numVars).mapM fun j : Nat => ws.domain.bounds j) =
      .ok (ws.domain.box.lb.zip ws.domain.box.ub))
    (hlen : ws.domain.box.lb.length = ws.domain.box.ub.length)
    (hrank : ranker.rank t point none ws.progress = .ok order q)
    {writes : List (Int × R)} {s : Domain R × Fixing R} {candidate : List R}
    (hfix : fixInScope tieBreak eps t point order
      (ws.domain, { propagator := { ws.propagator with box := ws.domain.box } }) = .ok writes s)
    (hplace : (Vec.placeAll (Vec.zeros t.numIntegers) writes : Except (Fault R) (List R)) =
      .ok candidate) :
    propagatedPoint tieBreak eps t ranker point ws =
      .ok candidate ⟨s.1, q, s.2.propagator⟩ := by
  have hwrites : Workspace.onFixing (fixInScope tieBreak eps t point order)
      ⟨ws.domain, q, { ws.propagator with box := ws.domain.box }⟩ =
        .ok writes ⟨s.1, q, s.2.propagator⟩ := Act.zoom_of_ok hfix
  rw [propagatedPoint_eq hbounds hlen hrank, Act.bind_of_ok hwrites]
  exact Act.ofExcept_eq_ok.mpr ⟨hplace, rfl⟩

/-- Rounding with propagation comes to a candidate with values in `V`, or stops with a fault. -/
theorem tries_propagatedPoint (h : t.Lists vars) (horder : InOrder vars) {ws : Workspace R}
    (hbounds : ((List.range t.numVars).mapM fun j : Nat => ws.domain.bounds j) =
      .ok (ws.domain.box.lb.zip ws.domain.box.ub))
    (hordered : ws.domain.box.Ordered) (hD : D ws.domain.box) (hI : I ws.domain.box)
    (hrank : ∃ order q, ranker.rank t point none ws.progress = .ok order q ∧
      order.Perm t.integers)
    (hp : ws.propagator.Works F I n)
    (hread : ∀ b, I b → ∀ k < n, ∃ l u, b.bounds k = .ok (l, u) ∧ C k l u)
    (hC : ∀ k l u, C k l u → Settable D k l u)
    (hround : ∀ j ∈ t.integers, Roundable F I D ws.propagator tieBreak eps t point V j) :
    (∃ candidate ws', propagatedPoint tieBreak eps t ranker point ws = .ok candidate ws' ∧
      List.Forall₂ V t.integers candidate) ∨
      ∃ e ws', propagatedPoint tieBreak eps t ranker point ws = .error e ws' ∧ F e := by
  obtain ⟨order, q, hrank, hperm⟩ := hrank
  have hlen : ws.domain.box.lb.length = ws.domain.box.ub.length := hordered.length_eq
  rcases tries_fixInScope hp hread hC (fun j hj => hround j (hperm.mem_iff.mp hj)) hordered hD
    (ws.domain, { propagator := { ws.propagator with box := ws.domain.box } })
    ⟨rfl, ⟨⟨_, rfl⟩, hI⟩, rfl⟩ with ⟨writes, s, hok, hplaced⟩ | ⟨e, s, herror, hfault⟩
  · obtain ⟨candidate, hvalues, -, hplace⟩ :=
      exists_placeAll_of_placed h (h.distinct horder) hperm hplaced
    exact .inl ⟨candidate, _, propagatedPoint_of_writes hbounds hlen hrank hok
      (hplace _ List.length_replicate), hvalues⟩
  · refine .inr ⟨e, ⟨s.1, q, s.2.propagator⟩, ?_, hfault⟩
    have hwrites : Workspace.onFixing (fixInScope tieBreak eps t point order)
        ⟨ws.domain, q, { ws.propagator with box := ws.domain.box }⟩ =
          .error e ⟨s.1, q, s.2.propagator⟩ := Act.zoom_of_error herror
    rw [propagatedPoint_eq hbounds hlen hrank]
    exact Act.bind_of_error hwrites

end Points

end Rounding
end MipPump
