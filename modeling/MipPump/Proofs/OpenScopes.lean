import MipPump.Proofs.Scopes
import Mathlib.Data.Fin.Tuple.Basic
import Mathlib.Data.List.OfFn

/-!
# Several open scopes

Scopes are opened and closed one inside the other, but a scope can be called while another one is
open inside it.  Closing them all brings back first what the innermost one remembers and last what
the outermost one does, so what matters is the memories in a row.  A scope that is called for a
variable for the first time remembers the bounds in force.  That they are brought back does no harm
if they are those that an earlier memory of the scope overwrites, or if no scope inside has changed
them.

* `Scopes R n`: a domain with `n` open scopes; `Scopes.merged` puts their memories in a row.
* `Scopes.through`: a call to one of them; `Scopes.inside`: an action in a new one.
* `Scopes.Admits`, `Scopes.Frees`: which calls leave all that can be undone as it is.
* `Scopes.undoable_tighten`, `Scopes.undoable_restore`, `Scopes.undoable_inside`: the calls, and the
  end of the innermost scope, keep what can be undone.
-/

namespace MipPump

open Scoped

/-- A domain with `n` open scopes. -/
structure Scopes (R : Type) (n : Nat) where
  domain : Domain R
  /-- What each scope remembers, the innermost one first. -/
  saved : Fin n → List (BoundChange R)

namespace Scopes

section Calls

variable {R : Type} {n : Nat}

/-- No scope is open. -/
def closed (d : Domain R) : Scopes R 0 := ⟨d, Fin.elim0⟩

/-- One of the scopes by itself. -/
def scope (s : Scopes R n) (k : Fin n) : Scoped R := ⟨s.domain, s.saved k⟩

/-- One of the scopes replaced, and the domain with it. -/
def put (s : Scopes R n) (k : Fin n) (t : Scoped R) : Scopes R n :=
  ⟨t.domain, Function.update s.saved k t.saved⟩

/-- A call to one of the scopes. -/
def through (k : Fin n) (act : Act R (Scoped R) Unit) : Act R (Scopes R n) Unit :=
  Act.zoom (·.scope k) (·.put k) act

/-- The scopes with an empty one inside. -/
def opened (s : Scopes R n) : Scopes R (n + 1) := ⟨s.domain, Fin.cons [] s.saved⟩

/-- The scopes without the innermost one, on another domain. -/
def around (s : Scopes R (n + 1)) (d : Domain R) : Scopes R n := ⟨d, Fin.tail s.saved⟩

/-- All memories in a row, as if they were those of one scope. -/
def merged (s : Scopes R n) : Scoped R := ⟨s.domain, (List.ofFn s.saved).flatten⟩

/-- The scope has been called for the variable at a place. -/
def Remembers (s : Scopes R n) (k : Fin n) (p : Nat) : Prop :=
  ∃ c ∈ s.saved k, Vec.position? s.domain.box.lb.length c.index = some p

/-- A scope may change the bounds of a variable that it has changed before, or that no scope inside
it has been called for. -/
def Admits (s : Scopes R n) (k : Fin n) (i : Int) : Prop :=
  ∀ p ∈ Vec.position? s.domain.box.lb.length i, s.Remembers k p ∨ ∀ j < k, ¬ s.Remembers j p

/-- A scope may be emptied if no scope inside it has been called for its variables. -/
def Frees (s : Scopes R n) (k : Fin n) : Prop :=
  ∀ c ∈ s.saved k, ∀ p ∈ Vec.position? s.domain.box.lb.length c.index, ∀ j < k, ¬ s.Remembers j p

instance (s : Scopes R n) (k : Fin n) (p : Nat) : Decidable (s.Remembers k p) :=
  inferInstanceAs (Decidable (∃ c ∈ s.saved k, _))

instance (s : Scopes R n) (k : Fin n) (i : Int) : Decidable (s.Admits k i) :=
  inferInstanceAs (Decidable (∀ p ∈ Vec.position? s.domain.box.lb.length i, _))

instance (s : Scopes R n) (k : Fin n) : Decidable (s.Frees k) :=
  inferInstanceAs (Decidable (∀ c ∈ s.saved k, _))

variable [Arith R]

/-- Runs an action in a new scope, from which those around it can be called. -/
def inside (body : Act R (Scopes R (n + 1)) Unit) : Act R (Scopes R n) Unit :=
  Act.zoom (fun s => (s.domain, s.saved)) (fun _ p => ⟨p.1, p.2⟩) <| Scoped.within <|
    Act.zoom (fun p => (⟨p.1.domain, Fin.cons p.1.saved p.2⟩ : Scopes R (n + 1)))
      (fun _ s => (s.scope 0, Fin.tail s.saved)) body

end Calls

section Memories

variable {R : Type} {n : Nat} {s : Scopes R n} {k : Fin n}

/-- The memories of one scope stand between those of the scopes inside it and those of the scopes
around it. -/
theorem exists_flatten_update {α : Type} (memories : Fin n → List α) (k : Fin n) :
    ∃ before after, (∀ x ∈ before, ∃ j < k, x ∈ memories j) ∧
      ∀ new, (List.ofFn (Function.update memories k new)).flatten =
        before ++ (new ++ after) := by
  refine ⟨((List.ofFn memories).take k).flatten, ((List.ofFn memories).drop (k + 1)).flatten, ?_, ?_⟩
  · intro x hx
    obtain ⟨memory, hmemory, hx⟩ := List.mem_flatten.mp hx
    obtain ⟨j, hj, rfl⟩ := List.mem_take_iff_getElem.mp hmemory
    rw [List.getElem_ofFn] at hx
    exact ⟨_, Fin.lt_def.mpr (lt_of_lt_of_le hj (Nat.min_le_left ..)), hx⟩
  · intro new
    have hset : List.ofFn (Function.update memories k new) = (List.ofFn memories).set k new := by
      refine List.ext_getElem (by simp) fun j hj _ => ?_
      rw [List.getElem_ofFn, List.getElem_set, List.getElem_ofFn, Function.update_apply]
      simp only [Fin.ext_iff, eq_comm]
    rw [hset, List.set_eq_take_append_cons_drop, if_pos (by simp), List.flatten_append,
      List.flatten_cons]

theorem put_scope (s : Scopes R n) (k : Fin n) : s.put k (s.scope k) = s := by
  cases s
  exact congrArg _ (Function.update_eq_self k _)

/-- No scope is inside the innermost one, so it may be called for every variable. -/
theorem admits_innermost (s : Scopes R (n + 1)) (i : Int) : s.Admits 0 i :=
  fun _ _ => .inr fun j hj => absurd hj (Fin.not_lt_zero j)

theorem frees_innermost (s : Scopes R (n + 1)) : s.Frees 0 :=
  fun _ _ _ _ j hj => absurd hj (Fin.not_lt_zero j)

/-- What one of the scopes remembers is among the memories in a row. -/
theorem mem_merged_put {t : Scoped R} {c : BoundChange R} (hc : c ∈ t.saved) :
    c ∈ (s.put k t).merged.saved := by
  obtain ⟨before, after, -, hflatten⟩ := exists_flatten_update s.saved k
  rw [merged, put, hflatten]
  exact List.mem_append_right _ (List.mem_append_left _ hc)

end Memories

section Undoing

variable {R : Type} [Arith R] {n : Nat} {start : Box R} {s : Scopes R n} {k : Fin n} {i : Int}

/-- To remember bounds keeps what can be undone, if the scope may be called for the variable. -/
theorem undoable_remember (h : Undoable start s.merged) (hadmits : s.Admits k i) {t : Scoped R}
    (ht : remember i (s.scope k) = .ok () t) :
    Undoable start (s.put k t).merged ∧ t.domain = s.domain := by
  unfold remember at ht
  split at ht
  · cases ht
    exact ⟨by rwa [put_scope], rfl⟩
  · split at ht
    · rename_i l u hbounds
      cases ht
      obtain ⟨before, after, hbefore, hflatten⟩ := exists_flatten_update s.saved k
      have hmerged : s.merged.saved = before ++ (s.saved k ++ after) := by
        rw [← hflatten, Function.update_eq_self]
        rfl
      have hnew : (s.put k ⟨s.domain, ⟨i, l, u⟩ :: s.saved k⟩).merged =
          ⟨s.domain, before ++ ⟨i, l, u⟩ :: (s.saved k ++ after)⟩ := by
        rw [merged, put, hflatten]
        rfl
      obtain ⟨⟨hmem, hlower, hupper⟩, hordered⟩ := h
      have hread : s.domain.box.bounds i = .ok (l, u) := hbounds
      obtain ⟨hi, hl, hu⟩ := Box.bounds_eq_ok.mp hread
      rw [hmerged] at hmem hlower hupper
      have hinsert (bound : BoundChange R → R) {xs : List R}
          (hlen : xs.length = s.domain.box.lb.length) (hx : Vec.at? xs i = some (bound ⟨i, l, u⟩)) :
          (Vec.placeAll xs ((before ++ ⟨i, l, u⟩ :: (s.saved k ++ after)).map
            fun c => (c.index, bound c)) : Except (Fault R) (List R)) =
          Vec.placeAll xs ((before ++ (s.saved k ++ after)).map fun c => (c.index, bound c)) := by
        rw [List.map_append, List.map_append, List.map_cons]
        refine Vec.placeAll_insert_of_at? hx fun p hp => ?_
        rw [hlen] at hp ⊢
        rcases hadmits p hp with ⟨c, hc, hplace⟩ | hnone
        · exact .inl ⟨_, List.mem_map_of_mem (List.mem_append_left _ hc), hplace⟩
        · refine .inr fun w hw hplace => ?_
          obtain ⟨c, hc, rfl⟩ := List.mem_map.mp hw
          obtain ⟨j, hj, hc⟩ := hbefore c hc
          exact hnone j hj ⟨c, hc, hplace⟩
      show Undoable start (s.put k ⟨s.domain, ⟨i, l, u⟩ :: s.saved k⟩).merged ∧ _
      rw [hnew]
      refine ⟨⟨⟨fun c hc => ?_, ?_, ?_⟩, hordered⟩, rfl⟩
      · rcases List.mem_append.mp hc with hc | hc
        · exact hmem c (List.mem_append_left _ hc)
        · rcases List.mem_cons.mp hc with rfl | hc
          · exact ⟨hordered.of_bounds hread, hi⟩
          · exact hmem c (List.mem_append_right _ hc)
      · exact (hinsert (·.lb) rfl hl).trans hlower
      · exact (hinsert (·.ub) hordered.length_eq.symm hu).trans hupper
    · cases ht

/-- A call that changes bounds keeps what can be undone, also if it is refused. -/
theorem undoable_tighten (h : Undoable start s.merged) (hadmits : s.Admits k i) (lb ub : R) :
    Undoable start ((through k (Scoped.tighten i lb ub)).after s).merged := by
  unfold through
  rw [Act.after_zoom]
  unfold Scoped.tighten
  cases hr : remember i (s.scope k) with
  | error e t =>
      rw [Act.after_of_error (Act.bind_of_error hr), remember_eq_error hr, put_scope]
      exact h
  | ok u t =>
      obtain ⟨ht, -⟩ := undoable_remember h hadmits hr
      have hbind := Act.bind_of_ok (f := fun _ => onDomain (Domain.tighten i lb ub)) hr
      cases hd : Domain.tighten i lb ub t.domain with
      | ok _ d =>
          rw [Act.after_of_ok (hbind.trans (Act.zoom_of_ok hd))]
          obtain ⟨c, hc, hci⟩ := mem_saved_of_remember hr
          exact ht.tighten ⟨c, mem_merged_put hc, hci⟩ hd
      | error e d =>
          rw [Act.after_of_error (hbind.trans (Act.zoom_of_error hd)), Domain.tighten_eq_error hd]
          exact ht

theorem keeps_bringBack (saved : List (BoundChange R)) :
    Act.Keeps (fun d : Domain R => d.box.Ordered) (bringBack saved) := by
  induction saved with
  | nil => exact Act.keeps_pure _
  | cons c rest ih =>
      refine Act.keeps_bind (fun d hd => ?_) fun _ => ih
      cases hrun : Domain.tighten c.index c.lb c.ub d with
      | ok u d' =>
          obtain ⟨hlu, box, hset, rfl⟩ := Domain.tighten_eq_ok.mp hrun
          rw [Act.after_of_ok hrun]
          exact hd.set hlu hset
      | error e d' =>
          rw [Act.after_of_error hrun, Domain.tighten_eq_error hrun]
          exact hd

/-- Bringing back the first of several memories answers, and the others lead on. -/
theorem exists_restore {saved rest : List (BoundChange R)} {d : Domain R}
    (h : Undoable start ⟨d, saved ++ rest⟩) :
    ∃ d', restore ⟨d, saved⟩ = .ok () ⟨d', []⟩ ∧ Undoable start ⟨d', rest⟩ := by
  obtain ⟨⟨hmem, hlower, hupper⟩, hordered⟩ := h
  rw [List.map_append] at hlower hupper
  obtain ⟨lower, hlb, hlower⟩ := Vec.exists_placeAll_of_append hlower
  obtain ⟨upper, hub, hupper⟩ := Vec.exists_placeAll_of_append hupper
  obtain ⟨changes, hback⟩ : ∃ changes, bringBack saved d = .ok () ⟨⟨lower, upper⟩, changes⟩ :=
    bringBack_of_placeAll (fun c hc => hmem c (List.mem_append_left _ hc)) hlb hub
  refine ⟨⟨⟨lower, upper⟩, changes⟩, by simp only [restore, hback], ⟨fun c hc => ?_, hlower, hupper⟩,
    (keeps_bringBack saved).of_ok hordered hback⟩
  exact hmem c (List.mem_append_right _ hc)

/-- A call that empties a scope keeps what can be undone, if the scope may be emptied. -/
theorem undoable_restore (h : Undoable start s.merged) (hfrees : s.Frees k) :
    Undoable start ((through k Scoped.restore).after s).merged := by
  obtain ⟨before, after, hbefore, hflatten⟩ := exists_flatten_update s.saved k
  have hmerged : s.merged.saved = before ++ (s.saved k ++ after) := by
    rw [← hflatten, Function.update_eq_self]
    rfl
  obtain ⟨⟨hmem, hlower, hupper⟩, hordered⟩ := h
  rw [hmerged] at hmem hlower hupper
  have hcomm (bound : BoundChange R → R) {xs ys : List R}
      (hlen : xs.length = s.domain.box.lb.length)
      (hall : (Vec.placeAll xs ((before ++ (s.saved k ++ after)).map
        fun c => (c.index, bound c)) : Except (Fault R) (List R)) = .ok ys) :
      (Vec.placeAll xs ((s.saved k ++ (before ++ after)).map
        fun c => (c.index, bound c)) : Except (Fault R) (List R)) = .ok ys := by
    have hplaces := Vec.exists_position?_of_placeAll hall
    simp only [List.map_append] at hall hplaces ⊢
    rwa [← Vec.placeAll_append_comm fun w hw => ?_]
    obtain ⟨p, hp⟩ := hplaces w (List.mem_append_right _ (List.mem_append_left _ hw))
    refine ⟨p, hp, fun w' hw' hp' => ?_⟩
    obtain ⟨c, hc, rfl⟩ := List.mem_map.mp hw
    obtain ⟨c', hc', rfl⟩ := List.mem_map.mp hw'
    obtain ⟨j, hj, hc'⟩ := hbefore c' hc'
    rw [hlen] at hp hp'
    exact hfrees c hc p hp j hj ⟨c', hc', hp'⟩
  have hmoved : Undoable start ⟨s.domain, s.saved k ++ (before ++ after)⟩ := by
    refine ⟨⟨fun c hc => hmem c ?_, hcomm (·.lb) rfl hlower,
      hcomm (·.ub) hordered.length_eq.symm hupper⟩, hordered⟩
    simp only [List.mem_append] at hc ⊢
    tauto
  obtain ⟨d', hrestore, hleft⟩ := exists_restore hmoved
  unfold through
  rw [Act.after_zoom, Act.after_of_ok (s := s.scope k) hrestore, merged, put, hflatten]
  exact hleft

/-- The end of the innermost scope answers and keeps what can be undone. -/
theorem exists_restore_innermost {s : Scopes R (n + 1)} (h : Undoable start s.merged) :
    ∃ d', restore (s.scope 0) = .ok () ⟨d', []⟩ ∧ Undoable start (s.around d').merged := by
  rw [merged, List.ofFn_succ, List.flatten_cons] at h
  exact exists_restore h

/-- If the end of the new scope answers, an action in it answers or fails as it does by itself. -/
theorem split_inside {body : Act R (Scopes R (n + 1)) Unit} {d' : Domain R}
    (h : restore ((body.after s.opened).scope 0) = .ok () ⟨d', []⟩) :
    (inside body).split s =
      ((body.split s.opened).1, (body.after s.opened).around d') := by
  have hclose := close_of_restore h
  unfold inside
  cases hrun : body s.opened with
  | ok u t =>
      rw [Act.after_of_ok hrun] at hclose ⊢
      have hbody : Act.zoom (fun p => (⟨p.1.domain, Fin.cons p.1.saved p.2⟩ : Scopes R (n + 1)))
          (fun _ s => (s.scope 0, Fin.tail s.saved)) body ({ domain := s.domain }, s.saved) =
            .ok u (t.scope 0, Fin.tail t.saved) := Act.zoom_of_ok hrun
      rw [Act.split_of_ok hrun]
      refine Act.split_of_ok (Act.zoom_of_ok (t := (d', Fin.tail t.saved)) ?_)
      simp only [within, hbody, hclose]
  | error e t =>
      rw [Act.after_of_error hrun] at hclose ⊢
      have hbody : Act.zoom (fun p => (⟨p.1.domain, Fin.cons p.1.saved p.2⟩ : Scopes R (n + 1)))
          (fun _ s => (s.scope 0, Fin.tail s.saved)) body ({ domain := s.domain }, s.saved) =
            .error e (t.scope 0, Fin.tail t.saved) := Act.zoom_of_error hrun
      rw [Act.split_of_error hrun]
      refine Act.split_of_error (Act.zoom_of_error (t := (d', Fin.tail t.saved)) ?_)
      simp only [within, hbody, hclose]

omit [Arith R] in
theorem opened_merged (s : Scopes R n) : s.opened.merged = s.merged := by
  rw [merged, merged, opened, List.ofFn_succ]
  rfl

omit [Arith R] in
theorem closed_merged (d : Domain R) : (closed d).merged = { domain := d } := rfl

/-- Where no scope is open nothing is left to bring back. -/
theorem box_of_none_open {s : Scopes R 0} (h : Undoable start s.merged) :
    s.domain.box = start := by
  cases start
  cases Except.ok.inj h.lower
  cases Except.ok.inj h.upper
  rfl

/-- A new scope keeps what can be undone if its body does. -/
theorem undoable_inside {body : Act R (Scopes R (n + 1)) Unit}
    (h : Undoable start (body.after s.opened).merged) :
    Undoable start ((inside body).after s).merged := by
  obtain ⟨d', hrestore, hleft⟩ := exists_restore_innermost h
  rw [Act.after, split_inside hrestore]
  exact hleft

end Undoing

end Scopes

end MipPump
