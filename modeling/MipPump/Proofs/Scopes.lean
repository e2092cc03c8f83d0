import MipPump.Domain.Scope
import MipPump.Proofs.Actions
import MipPump.Proofs.Vectors

/-!
# Scopes restore bounds

A scope remembers bounds before it changes them and brings them back when it is left.  The
difficulties are that one variable may be remembered twice, under an index and under its negative
form, and that bringing bounds back is itself a sequence of changes that might be refused.

* `Box.Ordered`: no lower bound is above its upper bound.  Only such bounds are ever set.
* `Restores start s`: bringing back what the scope of `s` remembers leads to the box `start`.  This is
  kept where the bounds that are remembered and set are in order (`Restores.exists_tighten`).
* `Undoable start s`: all bounds are in order besides.  Every change that goes through the scope keeps
  this (`keeps_tighten`, `keeps_fix`).
* `within_eq`: an action in a scope of its own answers or fails as it does by itself, and the box is
  afterwards what it was before.
* `tries_within`: so what is shown of the action by itself holds of it in the scope.
-/

namespace MipPump

section Boxes

variable {R : Type}

/-- Every index has a word, so only its place in the box matters. -/
theorem Box.bounds_eq_ok {b : Box R} {i : Int} {lb ub : R} :
    b.bounds i = .ok (lb, ub) ↔
      requireIndex (R := R) i = .ok () ∧ Vec.at? b.lb i = some lb ∧ Vec.at? b.ub i = some ub := by
  unfold Box.bounds
  constructor
  · intro h
    obtain ⟨_, hi, h⟩ := Act.exceptBind_eq_ok.mp h
    obtain ⟨l, hl, h⟩ := Act.exceptBind_eq_ok.mp h
    obtain ⟨u, hu, h⟩ := Act.exceptBind_eq_ok.mp h
    cases h
    exact ⟨hi, Vec.get_eq_ok.mp hl, Vec.get_eq_ok.mp hu⟩
  · rintro ⟨hi, hl, hu⟩
    rw [Act.exceptBind_of_ok hi, Act.exceptBind_of_ok (Vec.get_eq_ok.mpr hl),
      Act.exceptBind_of_ok (Vec.get_eq_ok.mpr hu)]
    rfl

/-- A box has bounds for each of its variables. -/
theorem Box.exists_bounds {b : Box R} {k : Nat} (hk : requireIndex (R := R) (k : Int) = .ok ())
    (hl : k < b.lb.length) (hu : k < b.ub.length) : ∃ l u, b.bounds k = .ok (l, u) :=
  ⟨b.lb[k], b.ub[k], Box.bounds_eq_ok.mpr ⟨hk, Vec.at?_of_getElem? (List.getElem?_eq_getElem hl),
    Vec.at?_of_getElem? (List.getElem?_eq_getElem hu)⟩⟩

theorem Box.bounds_eq_error {b : Box R} {i : Int} {e : Fault R} (h : b.bounds i = .error e) :
    e = .integerTooLarge ∨ e = .noSuchEntry := by
  unfold Box.bounds at h
  cases hi : requireIndex (R := R) i with
  | error e' =>
      rw [hi] at h
      cases h
      left
      unfold requireIndex at hi
      split at hi
      · cases hi
        rfl
      · cases hi
  | ok _ =>
      right
      rw [Act.exceptBind_of_ok hi] at h
      cases hl : (Vec.get b.lb i : Except (Fault R) R) with
      | error e' =>
          rw [hl] at h
          cases h
          exact Vec.get_eq_error hl
      | ok lb =>
          rw [Act.exceptBind_of_ok hl] at h
          cases hu : (Vec.get b.ub i : Except (Fault R) R) with
          | error e' =>
              rw [hu] at h
              cases h
              exact Vec.get_eq_error hu
          | ok ub =>
              rw [Act.exceptBind_of_ok hu] at h
              cases h

theorem Box.set_eq_ok {b b' : Box R} {i : Int} {lb ub : R} :
    b.set i lb ub = .ok b' ↔
      requireIndex (R := R) i = .ok () ∧ Vec.setAt? b.lb i lb = some b'.lb ∧
        Vec.setAt? b.ub i ub = some b'.ub := by
  unfold Box.set
  constructor
  · intro h
    obtain ⟨_, hi, h⟩ := Act.exceptBind_eq_ok.mp h
    obtain ⟨l, hl, h⟩ := Act.exceptBind_eq_ok.mp h
    obtain ⟨u, hu, h⟩ := Act.exceptBind_eq_ok.mp h
    cases h
    exact ⟨hi, Vec.set_eq_ok.mp hl, Vec.set_eq_ok.mp hu⟩
  · rintro ⟨hi, hl, hu⟩
    rw [Act.exceptBind_of_ok hi, Act.exceptBind_of_ok (Vec.set_eq_ok.mpr hl),
      Act.exceptBind_of_ok (Vec.set_eq_ok.mpr hu)]
    rfl

variable [Arith R]

/-- No lower bound is above its upper bound. -/
def Box.Ordered (b : Box R) : Prop := List.Forall₂ (fun lb ub => ¬ ub < lb) b.lb b.ub

theorem Box.Ordered.of_bounds {b : Box R} (h : b.Ordered) {i : Int} {lb ub : R}
    (hi : b.bounds i = .ok (lb, ub)) : ¬ ub < lb := by
  obtain ⟨-, hl, hu⟩ := Box.bounds_eq_ok.mp hi
  obtain ⟨p, hp, hl⟩ := Vec.at?_eq_some.mp hl
  obtain ⟨q, hq, hu⟩ := Vec.at?_eq_some.mp hu
  have hpq : p = q := by
    rw [h.length_eq] at hp
    exact Option.some.inj (hp.symm.trans hq)
  subst hpq
  obtain ⟨hpl, rfl⟩ := List.getElem?_eq_some_iff.mp hl
  obtain ⟨hpu, rfl⟩ := List.getElem?_eq_some_iff.mp hu
  exact (List.forall₂_iff_get.mp h).2 p hpl hpu

theorem Box.Ordered.set {b b' : Box R} (h : b.Ordered) {i : Int} {lb ub : R}
    (hlu : ¬ ub < lb) (hset : b.set i lb ub = .ok b') : b'.Ordered := by
  obtain ⟨-, hl, hu⟩ := Box.set_eq_ok.mp hset
  obtain ⟨p, hp, hl⟩ := Vec.setAt?_eq_some.mp hl
  obtain ⟨q, hq, hu⟩ := Vec.setAt?_eq_some.mp hu
  have hpq : p = q := by
    rw [h.length_eq] at hp
    exact Option.some.inj (hp.symm.trans hq)
  subst hpq
  unfold Box.Ordered
  rw [← hl, ← hu]
  exact Vec.forall₂_set hlu p h

end Boxes

namespace Domain

variable {R : Type} [Arith R]

/-- A change goes through if the new bounds are in order and the index has a place. -/
theorem tighten_eq_ok {d d' : Domain R} {i : Int} {lb ub : R} :
    tighten i lb ub d = .ok () d' ↔
      ¬ ub < lb ∧ ∃ box, d.box.set i lb ub = .ok box ∧ ⟨box, d.changes ++ [⟨i, lb, ub⟩]⟩ = d' := by
  unfold tighten
  constructor
  · intro h
    split at h
    · cases h
    · split at h
      · cases h
        exact ⟨‹_›, _, ‹_›, rfl⟩
      · cases h
  · rintro ⟨hlu, box, hset, rfl⟩
    rw [if_neg hlu, hset]

/-- A refused change leaves the domain as it is. -/
theorem tighten_eq_error {d d' : Domain R} {i : Int} {lb ub : R} {e : Fault R}
    (h : tighten i lb ub d = .error e d') : d' = d := by
  unfold tighten at h
  split at h
  · cases h
    rfl
  · split at h
    · cases h
    · cases h
      rfl

end Domain

namespace Scoped

variable {R : Type} [Arith R]

/-- Bringing back what a scope remembers leads to the box `start`. -/
structure Restores (start : Box R) (s : Scoped R) : Prop where
  /-- No remembered change will be refused. -/
  saved : ∀ c ∈ s.saved, ¬ c.ub < c.lb ∧ requireIndex (R := R) c.index = .ok ()
  lower : (Vec.placeAll s.domain.box.lb (s.saved.map fun c => (c.index, c.lb)) :
    Except (Fault R) (List R)) = .ok start.lb
  upper : (Vec.placeAll s.domain.box.ub (s.saved.map fun c => (c.index, c.ub)) :
    Except (Fault R) (List R)) = .ok start.ub

/-- The bounds are in order, and bringing back what a scope remembers leads to the box `start`. -/
structure Undoable (start : Box R) (s : Scoped R) : Prop extends Restores start s where
  ordered : s.domain.box.Ordered

/-- A scope that was just opened has nothing to bring back. -/
theorem Restores.opened (d : Domain R) : Restores d.box { domain := d } where
  saved := by
    intro c hc
    cases hc
  lower := rfl
  upper := rfl

/-- A scope that was just opened has nothing to undo. -/
theorem Undoable.opened {d : Domain R} (h : d.box.Ordered) :
    Undoable d.box { domain := d } where
  toRestores := Restores.opened d
  ordered := h

section Restoring

/-- Changes that are in order and have places are brought back one after the other. -/
theorem bringBack_of_placeAll {start : Box R} :
    ∀ {saved : List (BoundChange R)} {d : Domain R},
      (∀ c ∈ saved, ¬ c.ub < c.lb ∧ requireIndex (R := R) c.index = .ok ()) →
      (Vec.placeAll d.box.lb (saved.map fun c => (c.index, c.lb)) :
        Except (Fault R) (List R)) = .ok start.lb →
      (Vec.placeAll d.box.ub (saved.map fun c => (c.index, c.ub)) :
        Except (Fault R) (List R)) = .ok start.ub →
      ∃ changes, bringBack saved d = .ok () ⟨start, changes⟩ := by
  intro saved
  induction saved with
  | nil =>
      intro d _ hl hu
      refine ⟨d.changes, ?_⟩
      have hstart : d.box = start := by
        cases start
        cases hl
        cases hu
        rfl
      rw [← hstart]
      rfl
  | cons c rest ih =>
      intro d hsaved hl hu
      obtain ⟨hlu, hi⟩ := hsaved c (List.mem_cons_self ..)
      cases hsl : Vec.setAt? d.box.lb c.index c.lb with
      | none => simp [Vec.placeAll, hsl] at hl
      | some lb =>
          cases hsu : Vec.setAt? d.box.ub c.index c.ub with
          | none => simp [Vec.placeAll, hsu] at hu
          | some ub =>
              have hset : d.box.set c.index c.lb c.ub = .ok ⟨lb, ub⟩ :=
                Box.set_eq_ok.mpr ⟨hi, hsl, hsu⟩
              have htighten := Domain.tighten_eq_ok.mpr ⟨hlu, _, hset, rfl⟩
              rw [List.map_cons, Vec.placeAll_cons_of_set hsl] at hl
              rw [List.map_cons, Vec.placeAll_cons_of_set hsu] at hu
              obtain ⟨changes, hrest⟩ :=
                ih (d := ⟨⟨lb, ub⟩, d.changes ++ [⟨c.index, c.lb, c.ub⟩]⟩)
                  (fun c' hc' => hsaved c' (List.mem_cons_of_mem _ hc')) hl hu
              refine ⟨changes, ?_⟩
              rw [bringBack, Act.bind_of_ok htighten]
              exact hrest

/-- Emptying a scope brings the box back and never fails. -/
theorem Restores.restore {start : Box R} {s : Scoped R} (h : Restores start s) :
    ∃ changes, restore s = .ok () ⟨⟨start, changes⟩, []⟩ := by
  obtain ⟨changes, hback⟩ := bringBack_of_placeAll h.saved h.lower h.upper
  refine ⟨changes, ?_⟩
  simp only [Scoped.restore, hback]

theorem close_of_restore {s s' : Scoped R} (h : restore s = .ok () s') :
    s.close = (.ok (), s'.domain) := by
  simp only [close, h]

/-- Closing a scope brings the box back and never fails. -/
theorem Restores.close {start : Box R} {s : Scoped R} (h : Restores start s) :
    ∃ changes, s.close = (.ok (), ⟨start, changes⟩) := by
  obtain ⟨changes, hrestore⟩ := h.restore
  exact ⟨changes, close_of_restore hrestore⟩

end Restoring

section Changing

/-- To remember bounds in order keeps what a scope can undo: the newest memory is of the bounds in
force. -/
theorem Restores.remember {start : Box R} {s t : Scoped R} (h : Restores start s) {i : Int}
    (hordered : ∀ lb ub, s.domain.bounds i = .ok (lb, ub) → ¬ ub < lb)
    (ht : remember i s = .ok () t) : Restores start t ∧ t.domain = s.domain := by
  unfold Scoped.remember at ht
  split at ht
  · cases ht
    exact ⟨h, rfl⟩
  · split at ht
    · rename_i lb ub hb
      cases ht
      obtain ⟨hi, hl, hu⟩ := Box.bounds_eq_ok.mp hb
      refine ⟨⟨fun c hc => ?_, ?_, ?_⟩, rfl⟩
      · rcases List.mem_cons.mp hc with rfl | hc
        · exact ⟨hordered lb ub hb, hi⟩
        · exact h.saved c hc
      · rw [List.map_cons, Vec.placeAll_cons_of_set (Vec.setAt?_of_at? hl)]
        exact h.lower
      · rw [List.map_cons, Vec.placeAll_cons_of_set (Vec.setAt?_of_at? hu)]
        exact h.upper
    · cases ht

omit [Arith R] in
/-- A fault in remembering leaves the scope as it is. -/
theorem remember_eq_error {i : Int} {s t : Scoped R} {e : Fault R}
    (h : remember i s = .error e t) : t = s := by
  unfold remember at h
  split at h
  · cases h
  · split at h
    · cases h
    · cases h
      rfl

theorem keeps_remember (start : Box R) (i : Int) :
    Act.Keeps (Undoable start) (remember i) := by
  intro s hs
  cases hr : remember i s with
  | error e t =>
      rw [Act.after_of_error hr, remember_eq_error hr]
      exact hs
  | ok u t =>
      obtain ⟨ht, hdomain⟩ := hs.remember (fun _ _ hb => hs.ordered.of_bounds hb) hr
      rw [Act.after_of_ok hr]
      exact ⟨ht, hdomain ▸ hs.ordered⟩

omit [Arith R] in
/-- After remembering an index without a fault it is remembered. -/
theorem mem_saved_of_remember {i : Int} {s t : Scoped R} (h : remember i s = .ok () t) :
    ∃ c ∈ t.saved, c.index = i := by
  unfold remember at h
  split at h
  · rename_i hany
    cases h
    obtain ⟨c, hc, hci⟩ := List.any_eq_true.mp hany
    exact ⟨c, hc, by simpa using hci⟩
  · split at h
    · cases h
      exact ⟨_, List.mem_cons_self .., rfl⟩
    · cases h

/-- A change of a remembered index keeps what a scope can undo: some memory goes to its place. -/
theorem Restores.tighten {start : Box R} {s : Scoped R} (h : Restores start s) {i : Int}
    {lb ub : R} {d : Domain R} (hmem : ∃ c ∈ s.saved, c.index = i)
    (hd : Domain.tighten i lb ub s.domain = .ok () d) :
    Restores start { s with domain := d } := by
  obtain ⟨hlu, box, hset, rfl⟩ := Domain.tighten_eq_ok.mp hd
  obtain ⟨-, hl, hu⟩ := Box.set_eq_ok.mp hset
  obtain ⟨p, hp, hlb⟩ := Vec.setAt?_eq_some.mp hl
  obtain ⟨q, hq, hub⟩ := Vec.setAt?_eq_some.mp hu
  obtain ⟨c, hc, hci⟩ := hmem
  rw [← hci] at hp hq
  refine ⟨h.saved, ?_, ?_⟩
  · show Vec.placeAll box.lb _ = _
    rw [← hlb, Vec.placeAll_set_of_mem ⟨_, List.mem_map_of_mem hc, hp⟩]
    exact h.lower
  · show Vec.placeAll box.ub _ = _
    rw [← hub, Vec.placeAll_set_of_mem ⟨_, List.mem_map_of_mem hc, hq⟩]
    exact h.upper

theorem Undoable.tighten {start : Box R} {s : Scoped R} (h : Undoable start s) {i : Int}
    {lb ub : R} {d : Domain R} (hmem : ∃ c ∈ s.saved, c.index = i)
    (hd : Domain.tighten i lb ub s.domain = .ok () d) :
    Undoable start { s with domain := d } := by
  refine ⟨h.toRestores.tighten hmem hd, ?_⟩
  obtain ⟨hlu, box, hset, rfl⟩ := Domain.tighten_eq_ok.mp hd
  exact h.ordered.set hlu hset

/-- Bounds in order that have a place are set through a scope, whatever it remembers. -/
theorem exists_tighten {s : Scoped R} {i : Int} {lb ub : R} {bounds : R × R} {box : Box R}
    (hread : s.domain.bounds i = .ok bounds) (hlu : ¬ ub < lb)
    (hset : s.domain.box.set i lb ub = .ok box) :
    ∃ s', tighten i lb ub s = .ok () s' ∧ s'.domain.box = box ∧
      ∀ start, Restores start s → ¬ bounds.2 < bounds.1 → Restores start s' := by
  obtain ⟨saved, hremember⟩ : ∃ saved, remember i s = .ok () { s with saved } := by
    unfold remember
    by_cases hany : s.saved.any (·.index == i)
    · exact ⟨s.saved, by simp only [hany, if_true]⟩
    · exact ⟨⟨i, bounds.1, bounds.2⟩ :: s.saved,
        by simp only [hany, Bool.false_eq_true, if_false, hread]⟩
  have hchange : Domain.tighten i lb ub s.domain = .ok () ⟨box, s.domain.changes ++ [⟨i, lb, ub⟩]⟩ :=
    Domain.tighten_eq_ok.mpr ⟨hlu, box, hset, rfl⟩
  refine ⟨⟨⟨box, s.domain.changes ++ [⟨i, lb, ub⟩]⟩, saved⟩, ?_, rfl, fun start h hordered => ?_⟩
  · unfold tighten
    rw [Act.bind_of_ok hremember]
    exact Act.zoom_of_ok hchange
  · have hold : ∀ lb ub, s.domain.bounds i = .ok (lb, ub) → ¬ ub < lb := fun lb ub hb => by
      rw [hread] at hb
      cases hb
      exact hordered
    exact (h.remember hold hremember).1.tighten (mem_saved_of_remember hremember) hchange

/-- Every change through a scope can be undone, also one that is refused. -/
theorem keeps_tighten (start : Box R) (i : Int) (lb ub : R) :
    Act.Keeps (Undoable start) (tighten i lb ub) := by
  intro s hs
  unfold tighten
  cases hr : remember i s with
  | error e t =>
      rw [Act.after_of_error (Act.bind_of_error hr)]
      exact (keeps_remember start i).of_error hs hr
  | ok u t =>
      have ht : Undoable start t := (keeps_remember start i).of_ok hs hr
      have hbind := Act.bind_of_ok (f := fun _ => onDomain (Domain.tighten i lb ub)) hr
      cases hd : Domain.tighten i lb ub t.domain with
      | ok _ d =>
          rw [Act.after_of_ok (hbind.trans (Act.zoom_of_ok hd))]
          exact ht.tighten (mem_saved_of_remember hr) hd
      | error e d =>
          rw [Act.after_of_error (hbind.trans (Act.zoom_of_error hd)),
            Domain.tighten_eq_error hd]
          exact ht

theorem keeps_fix (start : Box R) (i : Int) (value : R) :
    Act.Keeps (Undoable start) (fix i value) := keeps_tighten start i value value

end Changing

section Closing

variable {τ α : Type}

/-- What an action answers in a scope of its own it answers by itself. -/
theorem within_eq_ok {d d' : Domain R} {t t' : τ} {body : Act R (Scoped R × τ) α} {a : α}
    (h : within body (d, t) = .ok a (d', t')) :
    ∃ s, body ({ domain := d }, t) = .ok a (s, t') := by
  unfold within at h
  dsimp only at h
  split at h
  · rename_i a₁ s t₁ hbody
    split at h
    · cases h
      exact ⟨s, hbody⟩
    · cases h
  · split at h <;> cases h

/-- **A scope restores the bounds.**  If what an action leaves can be undone, it answers or fails in
a scope of its own as it does by itself, and the box is what it was before. -/
theorem within_eq {d : Domain R} {t : τ} {body : Act R (Scoped R × τ) α}
    (h : Restores d.box (body.after ({ domain := d }, t)).1) :
    ∃ changes, within body (d, t) =
      match body ({ domain := d }, t) with
      | .ok a (_, t') => .ok a (⟨d.box, changes⟩, t')
      | .error e (_, t') => .error e (⟨d.box, changes⟩, t') := by
  obtain ⟨changes, hclose⟩ := h.close
  refine ⟨changes, ?_⟩
  cases hb : body ({ domain := d }, t) with
  | ok a p =>
      rw [Act.after_of_ok hb] at hclose
      simp only [within, hb, hclose]
  | error e p =>
      rw [Act.after_of_error hb] at hclose
      simp only [within, hb, hclose]

/-- Leaving a scope keeps an ordered box as it is, and with it what its action keeps of the
companion. -/
theorem keeps_within {b : Box R} (hb : b.Ordered) {J : τ → Prop}
    {body : Act R (Scoped R × τ) α}
    (hbody : Act.Keeps (fun p => Undoable b p.1 ∧ J p.2) body) :
    Act.Keeps (fun p : Domain R × τ => p.1.box = b ∧ J p.2) (within body) := by
  rintro ⟨d, t⟩ ⟨rfl, ht⟩
  obtain ⟨hs, ht'⟩ := hbody ({ domain := d }, t) ⟨Undoable.opened hb, ht⟩
  obtain ⟨changes, heq⟩ := within_eq hs.toRestores
  cases hrun : body ({ domain := d }, t) with
  | ok a p =>
      rw [hrun] at heq
      rw [Act.after_of_ok hrun] at ht'
      rw [Act.after_of_ok heq]
      exact ⟨rfl, ht'⟩
  | error e p =>
      rw [hrun] at heq
      rw [Act.after_of_error hrun] at ht'
      rw [Act.after_of_error heq]
      exact ⟨rfl, ht'⟩

/-- A scope leaves its companion alone, whether it can be closed or not. -/
theorem after_within_snd (d : Domain R) (t : τ) (body : Act R (Scoped R × τ) α) :
    ((within body).after (d, t)).2 = (body.after ({ domain := d }, t)).2 := by
  cases hrun : body ({ domain := d }, t) with
  | ok a p =>
      rcases hclose : p.1.close with ⟨answer, d'⟩
      cases answer <;> simp only [Act.after, Act.split, within, hrun, hclose]
  | error e p =>
      rcases hclose : p.1.close with ⟨answer, d'⟩
      cases answer <;> simp only [Act.after, Act.split, within, hrun, hclose]

/-- What an action attempts in an ordered box it attempts in a scope of its own, and the box is
afterwards what it was before. -/
theorem tries_within {b : Box R} (hb : b.Ordered) {J : τ → Prop} {F : Fault R → Prop}
    {P : τ → Prop} {Q : α → τ → Prop} {body : Act R (Scoped R × τ) α}
    (hkeeps : Act.Keeps (fun p => Undoable b p.1 ∧ J p.2) body) (hJ : ∀ t, P t → J t)
    (h : Act.Tries F (fun p => p.1.domain.box = b ∧ P p.2) body fun a p => Q a p.2) :
    Act.Tries F (fun p : Domain R × τ => p.1.box = b ∧ P p.2) (within body)
      fun a p => p.1.box = b ∧ Q a p.2 := by
  rintro ⟨d, t⟩ ⟨rfl, ht⟩
  obtain ⟨changes, heq⟩ :=
    within_eq (hkeeps ({ domain := d }, t) ⟨Undoable.opened hb, hJ t ht⟩).1.toRestores
  rcases h ({ domain := d }, t) ⟨rfl, ht⟩ with ⟨a, p, hok, hp⟩ | ⟨e, p, herror, hfault⟩
  · rw [hok] at heq
    exact .inl ⟨a, _, heq, rfl, hp⟩
  · rw [herror] at heq
    exact .inr ⟨e, _, heq, hfault⟩

end Closing

end Scoped
end MipPump
