import MipPump.Proofs.Actions
import MipPump.Vec
import Mathlib.Data.List.Forall2
import Mathlib.Data.List.Nodup

/-!
# Laws of vectors

Reading and writing at integer indices, as far as the theory of the pump needs it.

* `pick_eq_ok`: what is picked corresponds to the indices one by one.
* `placeAll_set_of_mem`: a write to an entry is lost if a later write goes to the same entry;
* `setAt?_of_at?`: to write what is there changes nothing.
* `Splits.pairedSum`: what holds of a sum only if it holds of its terms, holds of all terms of a sum
  in paired order.
-/

namespace MipPump
namespace Vec

section Indices

variable {R α : Type}

theorem setAt?_eq_some {xs ys : List α} {i : Int} {x : α} :
    setAt? xs i x = some ys ↔ ∃ p, position? xs.length i = some p ∧ xs.set p x = ys := by
  simp only [setAt?, Option.map_eq_some_iff]

theorem at?_eq_some {xs : List α} {i : Int} {x : α} :
    at? xs i = some x ↔ ∃ p, position? xs.length i = some p ∧ xs[p]? = some x := by
  simp only [at?, Option.bind_eq_some_iff]

/-- An index without an entry is one without a position. -/
theorem at?_eq_none {xs : List α} {i : Int} : at? xs i = none ↔ position? xs.length i = none := by
  unfold at?
  cases hp : position? xs.length i with
  | none => simp
  | some p => simp [List.getElem?_eq_getElem (position?_lt hp)]

theorem get_eq_ok {xs : List α} {i : Int} {x : α} :
    (get xs i : Except (Fault R) α) = .ok x ↔ at? xs i = some x := by
  unfold get
  cases at? xs i <;> simp

theorem set_eq_ok {xs ys : List α} {i : Int} {x : α} :
    (set xs i x : Except (Fault R) (List α)) = .ok ys ↔ setAt? xs i x = some ys := by
  unfold set
  cases setAt? xs i x <;> simp

/-- A computation on every entry of a list answers if it answers on each. -/
theorem mapM_eq_ok {ε β γ : Type} {f : β → Except ε γ} {xs : List β} {ys : List γ} :
    xs.mapM f = .ok ys ↔ List.Forall₂ (fun x y => f x = .ok y) xs ys := by
  induction xs generalizing ys with
  | nil =>
      rw [List.mapM_nil, List.forall₂_nil_left_iff]
      exact ⟨fun h => by cases h; rfl, fun h => by rw [h]; rfl⟩
  | cons x rest ih =>
      rw [List.mapM_cons, List.forall₂_cons_left_iff]
      constructor
      · intro h
        obtain ⟨y, hy, h⟩ := Act.exceptBind_eq_ok.mp h
        obtain ⟨zs, hzs, h⟩ := Act.exceptBind_eq_ok.mp h
        cases h
        exact ⟨y, zs, hy, ih.mp hzs, rfl⟩
      · rintro ⟨y, zs, hy, hzs, rfl⟩
        rw [Act.exceptBind_of_ok hy, Act.exceptBind_of_ok (ih.mpr hzs)]
        rfl

/-- A check of every entry of a list has passed on each. -/
theorem forM_eq_ok {ε : Type} {f : α → Except ε Unit} {xs : List α}
    (h : xs.forM f = .ok ()) : ∀ x ∈ xs, f x = .ok () := by
  induction xs with
  | nil =>
      intro x hx
      cases hx
  | cons y rest ih =>
      obtain ⟨_, hy, hrest⟩ :=
        Act.exceptBind_eq_ok.mp (show (f y >>= fun _ => rest.forM f) = _ from h)
      intro x hx
      rcases List.mem_cons.mp hx with rfl | hx
      · exact hy
      · exact ih hrest x hx

/-- A check that passes on every entry passes on the list. -/
theorem forM_of_ok {ε : Type} {f : α → Except ε Unit} {xs : List α}
    (h : ∀ x ∈ xs, f x = .ok ()) : xs.forM f = .ok () := by
  induction xs with
  | nil => rfl
  | cons x rest ih =>
      show (f x >>= fun _ => rest.forM f) = _
      rw [Act.exceptBind_of_ok (h x (List.mem_cons_self ..))]
      exact ih fun y hy => h y (List.mem_cons_of_mem _ hy)

/-- A loop keeps what every round keeps, or it stops with a fault of one of the rounds. -/
theorem foldlM_cases {ε β : Type} {f : β → α → Except ε β} {I : β → Prop} {F : ε → Prop}
    {xs : List α} (h : ∀ b, I b → ∀ x ∈ xs,
      (∃ b', f b x = .ok b' ∧ I b') ∨ ∃ e, f b x = .error e ∧ F e) {b : β} (hb : I b) :
    (∃ b', xs.foldlM f b = .ok b' ∧ I b') ∨ ∃ e, xs.foldlM f b = .error e ∧ F e := by
  induction xs generalizing b with
  | nil => exact .inl ⟨b, rfl, hb⟩
  | cons x rest ih =>
      rw [List.foldlM_cons]
      rcases h b hb x (List.mem_cons_self ..) with ⟨b', hx, hb'⟩ | ⟨e, he, hfault⟩
      · rw [Act.exceptBind_of_ok hx]
        exact ih (fun c hc y hy => h c hc y (List.mem_cons_of_mem _ hy)) hb'
      · exact .inr ⟨e, by rw [he]; rfl, hfault⟩

/-- A loop answers if every round does from what the rounds before it keep. -/
theorem exists_foldlM {ε β : Type} {f : β → α → Except ε β} {I : β → Prop} {xs : List α}
    (h : ∀ b, I b → ∀ x ∈ xs, ∃ b', f b x = .ok b' ∧ I b') {b : β} (hb : I b) :
    ∃ b', xs.foldlM f b = .ok b' ∧ I b' :=
  (foldlM_cases (F := fun _ => False) (fun b hb x hx => .inl (h b hb x hx)) hb).resolve_right
    fun ⟨_, _, hfault⟩ => hfault

/-- A loop that answers has kept what every round keeps. -/
theorem foldlM_keeps {ε β : Type} {f : β → α → Except ε β} {I : β → Prop} {xs : List α}
    (h : ∀ b, I b → ∀ x ∈ xs, ∀ b', f b x = .ok b' → I b') {b b' : β} (hb : I b)
    (hloop : xs.foldlM f b = .ok b') : I b' := by
  induction xs generalizing b with
  | nil =>
      cases hloop
      exact hb
  | cons x rest ih =>
      rw [List.foldlM_cons] at hloop
      obtain ⟨c, hc, hloop⟩ := Act.exceptBind_eq_ok.mp hloop
      exact ih (fun d hd y hy => h d hd y (List.mem_cons_of_mem _ hy))
        (h b hb x (List.mem_cons_self ..) c hc) hloop

/-- A fault of a computation on every entry is a fault on one of them. -/
theorem mapM_eq_error {ε β γ : Type} {f : β → Except ε γ} {xs : List β} {e : ε}
    (h : xs.mapM f = .error e) : ∃ x ∈ xs, f x = .error e := by
  induction xs with
  | nil =>
      rw [List.mapM_nil] at h
      cases h
  | cons x rest ih =>
      rw [List.mapM_cons] at h
      cases hx : f x with
      | error e' =>
          rw [hx] at h
          cases h
          exact ⟨x, List.mem_cons_self .., hx⟩
      | ok y =>
          rw [Act.exceptBind_of_ok hx] at h
          cases hr : rest.mapM f with
          | error e' =>
              rw [hr] at h
              cases h
              obtain ⟨z, hz, hfz⟩ := ih hr
              exact ⟨z, List.mem_cons_of_mem _ hz, hfz⟩
          | ok ys =>
              rw [Act.exceptBind_of_ok hr] at h
              cases h

theorem exists_mapM {ε β γ : Type} {f : β → Except ε γ} {xs : List β}
    (h : ∀ x ∈ xs, ∃ y, f x = .ok y) : ∃ ys, xs.mapM f = .ok ys := by
  cases hm : xs.mapM f with
  | ok ys => exact ⟨ys, rfl⟩
  | error e =>
      obtain ⟨x, hx, hfx⟩ := mapM_eq_error hm
      obtain ⟨y, hy⟩ := h x hx
      rw [hy] at hfx
      cases hfx

theorem pick_eq_ok {xs ys : List α} {indices : List Int} :
    (pick xs indices : Except (Fault R) (List α)) = .ok ys ↔
      List.Forall₂ (fun i y => at? xs i = some y) indices ys := by
  unfold pick
  rw [mapM_eq_ok]
  simp only [get_eq_ok]

theorem length_of_pick {xs ys : List α} {indices : List Int}
    (h : (pick xs indices : Except (Fault R) (List α)) = .ok ys) :
    ys.length = indices.length := (pick_eq_ok.mp h).length_eq.symm

theorem get_eq_error {xs : List α} {i : Int} {e : Fault R} (h : get xs i = .error e) :
    e = .noSuchEntry := by
  unfold get at h
  split at h
  · cases h
  · cases h
    rfl

theorem set_eq_error {xs : List α} {i : Int} {x : α} {e : Fault R} (h : set xs i x = .error e) :
    e = .noSuchEntry := by
  unfold set at h
  split at h
  · cases h
  · cases h
    rfl

theorem position?_of_get_error {xs : List α} {i : Int} {e : Fault R} (h : get xs i = .error e) :
    position? xs.length i = none := by
  refine at?_eq_none.mp ?_
  unfold get at h
  split at h
  · cases h
  · assumption

theorem pick_eq_error {xs : List α} {indices : List Int} {e : Fault R}
    (h : pick xs indices = .error e) : e = .noSuchEntry := by
  obtain ⟨i, -, hi⟩ := mapM_eq_error h
  exact get_eq_error hi

theorem map2_eq_error {β γ : Type} {f : α → β → γ} {xs : List α} {ys : List β} {e : Fault R}
    (h : map2 f xs ys = .error e) : e = .lengthsDiffer := by
  unfold map2 at h
  split at h
  · cases h
  · cases h
    rfl

theorem stretch_of_length {xs : List α} {n : Nat} (h : xs.length = n) : stretch n xs = xs := by
  unfold stretch
  split
  · rw [← h]
    rfl
  · rfl

/-- Vectors of one length are combined entry by entry. -/
theorem map2_of_length {β γ : Type} (f : α → β → γ) {xs : List α} {ys : List β}
    (h : xs.length = ys.length) :
    (map2 f xs ys : Except (Fault R) (List γ)) = .ok (List.zipWith f xs ys) := by
  unfold map2
  rw [jointLength?, if_pos h]
  dsimp only
  rw [stretch_of_length h, stretch_of_length rfl]

/-- Columns of one list are combined row by row. -/
theorem map2_map {β γ δ : Type} (f : α → β → γ) (g : δ → α) (h : δ → β) (cells : List δ) :
    (map2 f (cells.map g) (cells.map h) : Except (Fault R) (List γ)) =
      .ok (cells.map fun c => f (g c) (h c)) := by
  rw [map2_of_length f (by rw [List.length_map, List.length_map]), List.zipWith_map,
    List.zipWith_self]

/-- To select from a column is to filter the rows. -/
theorem select_map {δ : Type} (mask : δ → Bool) (g : δ → α) (cells : List δ) :
    (select (cells.map mask) (cells.map g) : Except (Fault R) (List α)) =
      .ok ((cells.filter mask).map g) := by
  unfold select
  rw [if_pos (by rw [List.length_map, List.length_map]), List.zip_map', List.filter_map,
    List.map_map]
  rfl

theorem at?_natCast {xs : List α} {k : Nat} : at? xs (k : Int) = xs[k]? := by
  by_cases h : k < xs.length
  · simp [at?, position?_natCast h]
  · have hnone : position? xs.length (k : Int) = none := by
      unfold position?
      rw [if_pos (by omega), if_neg (by omega)]
    rw [at?, hnone, List.getElem?_eq_none (by omega)]
    rfl

theorem at?_of_getElem? {xs : List α} {k : Nat} {x : α} (h : xs[k]? = some x) :
    at? xs (k : Int) = some x := by
  rw [at?_natCast, h]

theorem at?_map {β : Type} {xs : List α} {i : Int} {x : α} (h : at? xs i = some x) (f : α → β) :
    at? (xs.map f) i = some (f x) := by
  obtain ⟨p, hp, hx⟩ := at?_eq_some.mp h
  refine at?_eq_some.mpr ⟨p, ?_, ?_⟩
  · rw [List.length_map, hp]
  · rw [List.getElem?_map, hx]
    rfl

theorem pick_map {β : Type} {xs ys : List α} {indices : List Int}
    (h : (pick xs indices : Except (Fault R) (List α)) = .ok ys) (f : α → β) :
    (pick (xs.map f) indices : Except (Fault R) (List β)) = .ok (ys.map f) := by
  rw [pick_eq_ok] at h ⊢
  exact List.forall₂_map_right_iff.mpr (h.imp fun _ _ hx => at?_map hx f)

/-- A write after a prefix. -/
theorem setAt?_append (before : List α) (x y : α) (rest : List α) :
    setAt? (before ++ x :: rest) (before.length : Int) y = some (before ++ y :: rest) := by
  refine setAt?_eq_some.mpr ⟨before.length, position?_natCast (by simp), ?_⟩
  rw [List.set_append, if_neg (Nat.lt_irrefl _), Nat.sub_self]
  rfl

theorem eq_of_position?_natCast {n k p : Nat} (h : position? n (k : Int) = some p) : p = k := by
  unfold position? at h
  rw [if_pos (Int.natCast_nonneg k), Option.ite_none_right_eq_some] at h
  exact Option.some.inj (h.2.symm.trans (congrArg some (Int.toNat_natCast k)))

/-- Indices that are not negative address different entries. -/
theorem position?_inj {n p : Nat} {i j : Int} (hi : 0 ≤ i) (hj : 0 ≤ j)
    (h : position? n i = some p) (h' : position? n j = some p) : i = j := by
  obtain ⟨k, rfl⟩ := Int.eq_ofNat_of_zero_le hi
  obtain ⟨m, rfl⟩ := Int.eq_ofNat_of_zero_le hj
  rw [← eq_of_position?_natCast h, ← eq_of_position?_natCast h']

/-- A write to one entry is nothing to an index that addresses another. -/
theorem at?_set_of_ne {xs : List α} {i : Int} {p : Nat} (h : position? xs.length i ≠ some p)
    (x : α) : at? (xs.set p x) i = at? xs i := by
  unfold at?
  rw [List.length_set]
  cases hq : position? xs.length i with
  | none => rfl
  | some q =>
      have hpq : p ≠ q := fun heq => h (heq ▸ hq)
      simp only [Option.bind_some, List.getElem?_set_ne hpq]

/-- To write what is there changes nothing. -/
theorem setAt?_of_at? {xs : List α} {i : Int} {x : α} (h : at? xs i = some x) :
    setAt? xs i x = some xs := by
  obtain ⟨p, hp, hx⟩ := at?_eq_some.mp h
  refine setAt?_eq_some.mpr ⟨p, hp, ?_⟩
  obtain ⟨hlt, hx⟩ := List.getElem?_eq_some_iff.mp hx
  rw [← hx]
  exact List.set_getElem_self hlt

end Indices

section Writes

variable {R α : Type}

theorem placeAll_cons_of_set {xs ys : List α} {i : Int} {x : α} {rest : List (Int × α)}
    (h : setAt? xs i x = some ys) :
    (placeAll xs ((i, x) :: rest) : Except (Fault R) (List α)) = placeAll ys rest := by
  simp only [placeAll, h]

theorem placeAll_cons_of_outside {xs : List α} {i : Int} {x : α} {rest : List (Int × α)}
    (h : position? xs.length i = none) :
    (placeAll xs ((i, x) :: rest) : Except (Fault R) (List α)) = .error .noSuchEntry := by
  simp only [placeAll, setAt?, h, Option.map_none]

theorem placeAll_eq_error {xs : List α} {writes : List (Int × α)} {e : Fault R}
    (h : placeAll xs writes = .error e) : e = .noSuchEntry := by
  induction writes generalizing xs with
  | nil => cases h
  | cons w rest ih =>
      obtain ⟨i, x⟩ := w
      unfold placeAll at h
      split at h
      · exact ih h
      · cases h
        rfl

theorem placeAll_append {xs ys : List α} {writes writes' : List (Int × α)}
    (h : (placeAll xs writes : Except (Fault R) (List α)) = .ok ys) :
    (placeAll xs (writes ++ writes') : Except (Fault R) (List α)) = placeAll ys writes' := by
  induction writes generalizing xs with
  | nil =>
      cases h
      rfl
  | cons w rest ih =>
      obtain ⟨i, x⟩ := w
      cases hset : setAt? xs i x with
      | none => simp [placeAll, hset] at h
      | some zs =>
          rw [placeAll_cons_of_set hset] at h
          rw [List.cons_append, placeAll_cons_of_set hset]
          exact ih h

/-- Writes are made one part after the other. -/
theorem exists_placeAll_of_append {xs zs : List α} {writes writes' : List (Int × α)}
    (h : (placeAll xs (writes ++ writes') : Except (Fault R) (List α)) = .ok zs) :
    ∃ ys, (placeAll xs writes : Except (Fault R) (List α)) = .ok ys ∧
      (placeAll ys writes' : Except (Fault R) (List α)) = .ok zs := by
  induction writes generalizing xs with
  | nil => exact ⟨xs, rfl, h⟩
  | cons w rest ih =>
      obtain ⟨i, x⟩ := w
      cases hset : setAt? xs i x with
      | none => simp [placeAll, hset] at h
      | some ys =>
          rw [List.cons_append, placeAll_cons_of_set hset] at h
          rw [placeAll_cons_of_set hset]
          exact ih h

/-- A write to an entry is lost if a later write goes to the same entry. -/
theorem placeAll_set_of_mem {p : Nat} {x : α} {writes : List (Int × α)} :
    ∀ {xs : List α}, (∃ w ∈ writes, position? xs.length w.1 = some p) →
      (placeAll (xs.set p x) writes : Except (Fault R) (List α)) = placeAll xs writes := by
  induction writes with
  | nil =>
      rintro xs ⟨w, hw, -⟩
      cases hw
  | cons w rest ih =>
      obtain ⟨i, y⟩ := w
      intro xs hmem
      cases hq : position? xs.length i with
      | none =>
          have hq' : position? (xs.set p x).length i = none := by rw [List.length_set, hq]
          rw [placeAll_cons_of_outside hq, placeAll_cons_of_outside hq']
      | some q =>
          have hset : setAt? xs i y = some (xs.set q y) := setAt?_eq_some.mpr ⟨q, hq, rfl⟩
          have hset' : setAt? (xs.set p x) i y = some ((xs.set p x).set q y) :=
            setAt?_eq_some.mpr ⟨q, by rw [List.length_set, hq], rfl⟩
          rw [placeAll_cons_of_set hset, placeAll_cons_of_set hset']
          by_cases hpq : p = q
          · subst hpq
            rw [List.set_set]
          · rw [List.set_comm x y hpq]
            apply ih
            obtain ⟨w, hw, hp⟩ := hmem
            rcases List.mem_cons.mp hw with rfl | hw
            · exact absurd (Option.some.inj (hp.symm.trans hq)) hpq
            · exact ⟨w, hw, by rw [List.length_set, hp]⟩

/-- A write is lost if a later one goes to the same entry, also after other writes. -/
theorem placeAll_insert_of_mem {p : Nat} {i : Int} {x : α} {writes : List (Int × α)}
    (before : List (Int × α)) :
    ∀ {xs : List α}, position? xs.length i = some p →
      (∃ w ∈ writes, position? xs.length w.1 = some p) →
      (placeAll xs (before ++ (i, x) :: writes) : Except (Fault R) (List α)) =
        placeAll xs (before ++ writes) := by
  induction before with
  | nil =>
      intro xs hp hmem
      exact (placeAll_cons_of_set (setAt?_eq_some.mpr ⟨p, hp, rfl⟩)).trans (placeAll_set_of_mem hmem)
  | cons w before ih =>
      intro xs hp hmem
      obtain ⟨j, y⟩ := w
      rw [List.cons_append, List.cons_append]
      cases hq : position? xs.length j with
      | none => rw [placeAll_cons_of_outside hq, placeAll_cons_of_outside hq]
      | some q =>
          have hset : setAt? xs j y = some (xs.set q y) := setAt?_eq_some.mpr ⟨q, hq, rfl⟩
          rw [placeAll_cons_of_set hset, placeAll_cons_of_set hset]
          rw [← List.length_set (i := q) (a := y)] at hp hmem
          exact ih hp hmem

/-- A write may as well be made before others that go to other entries. -/
theorem placeAll_insert_of_not_mem {p : Nat} {i : Int} {x : α} {writes : List (Int × α)}
    {before : List (Int × α)} :
    ∀ {xs : List α}, position? xs.length i = some p →
      (∀ w ∈ before, position? xs.length w.1 ≠ some p) →
      (placeAll xs (before ++ (i, x) :: writes) : Except (Fault R) (List α)) =
        placeAll (xs.set p x) (before ++ writes) := by
  induction before with
  | nil => exact fun hp _ => placeAll_cons_of_set (setAt?_eq_some.mpr ⟨p, hp, rfl⟩)
  | cons w before ih =>
      intro xs hp hbefore
      obtain ⟨j, y⟩ := w
      rw [List.cons_append, List.cons_append]
      cases hq : position? xs.length j with
      | none =>
          have hq' : position? (xs.set p x).length j = none := by rw [List.length_set, hq]
          rw [placeAll_cons_of_outside hq, placeAll_cons_of_outside hq']
      | some q =>
          have hqp : q ≠ p := fun heq => hbefore _ (List.mem_cons_self ..) (heq ▸ hq)
          have hset : setAt? xs j y = some (xs.set q y) := setAt?_eq_some.mpr ⟨q, hq, rfl⟩
          have hset' : setAt? (xs.set p x) j y = some ((xs.set p x).set q y) :=
            setAt?_eq_some.mpr ⟨q, by rw [List.length_set, hq], rfl⟩
          rw [placeAll_cons_of_set hset, placeAll_cons_of_set hset', List.set_comm x y hqp.symm]
          rw [← List.length_set (i := q) (a := y)] at hp hbefore
          exact ih hp fun w hw => hbefore w (List.mem_cons_of_mem _ hw)

/-- To write down what is there changes nothing, if nothing else goes to the entry before or if
something will go there later. -/
theorem placeAll_insert_of_at? {i : Int} {x : α} {xs : List α} {before writes : List (Int × α)}
    (hx : at? xs i = some x)
    (h : ∀ p, position? xs.length i = some p →
      (∃ w ∈ writes, position? xs.length w.1 = some p) ∨
        ∀ w ∈ before, position? xs.length w.1 ≠ some p) :
    (placeAll xs (before ++ (i, x) :: writes) : Except (Fault R) (List α)) =
      placeAll xs (before ++ writes) := by
  obtain ⟨p, hp, hset⟩ := setAt?_eq_some.mp (setAt?_of_at? hx)
  rcases h p hp with hmem | hbefore
  · exact placeAll_insert_of_mem before hp hmem
  · rw [placeAll_insert_of_not_mem hp hbefore, hset]

/-- Writes to different entries may be made in either order. -/
theorem placeAll_append_comm {before writes rest : List (Int × α)} :
    ∀ {xs : List α}, (∀ w ∈ writes, ∃ p, position? xs.length w.1 = some p ∧
        ∀ w' ∈ before, position? xs.length w'.1 ≠ some p) →
      (placeAll xs (before ++ (writes ++ rest)) : Except (Fault R) (List α)) =
        placeAll xs (writes ++ (before ++ rest)) := by
  induction writes with
  | nil => exact fun _ => rfl
  | cons w writes ih =>
      intro xs h
      obtain ⟨i, x⟩ := w
      obtain ⟨p, hp, hbefore⟩ := h _ (List.mem_cons_self ..)
      rw [List.cons_append, List.cons_append, placeAll_insert_of_not_mem hp hbefore,
        placeAll_cons_of_set (setAt?_eq_some.mpr ⟨p, hp, rfl⟩)]
      refine ih fun w hw => ?_
      rw [List.length_set]
      exact h w (List.mem_cons_of_mem _ hw)

/-- Writes that agree with a vector, and go wherever the vector is not there yet, lead to it. -/
theorem placeAll_of_agree {xs ys : List α} {writes : List (Int × α)} (hlen : xs.length = ys.length)
    (hagree : ∀ w ∈ writes, ∃ p : Nat, w.1 = p ∧ ys[p]? = some w.2)
    (hall : ∀ p < ys.length, (∃ w ∈ writes, w.1 = (p : Int)) ∨ xs[p]? = ys[p]?) :
    (placeAll xs writes : Except (Fault R) (List α)) = .ok ys := by
  induction writes generalizing xs with
  | nil =>
      have heq : xs = ys := by
        refine List.ext_getElem? fun p => ?_
        by_cases hp : p < ys.length
        · rcases hall p hp with ⟨w, hw, -⟩ | h
          · cases hw
          · exact h
        · rw [List.getElem?_eq_none (by omega), List.getElem?_eq_none (by omega)]
      rw [heq]
      rfl
  | cons w rest ih =>
      obtain ⟨i, y⟩ := w
      obtain ⟨p, hp, hy⟩ := hagree (i, y) (List.mem_cons_self ..)
      dsimp only at hp hy
      subst hp
      obtain ⟨hlt, -⟩ := List.getElem?_eq_some_iff.mp hy
      rw [placeAll_cons_of_set (setAt?_eq_some.mpr
        ⟨p, position?_natCast (by omega), rfl⟩)]
      refine ih (by rw [List.length_set, hlen])
        (fun w hw => hagree w (List.mem_cons_of_mem _ hw)) fun k hk => ?_
      by_cases hkp : p = k
      · subst hkp
        right
        rw [List.getElem?_set_self (by omega), hy]
      · rcases hall k hk with ⟨w, hw, hwk⟩ | h
        · rcases List.mem_cons.mp hw with rfl | hw
          · exact absurd (Int.ofNat.inj hwk) hkp
          · exact Or.inl ⟨w, hw, hwk⟩
        · right
          rw [List.getElem?_set_ne hkp, h]

/-- The index is the number of one of `n` entries. -/
def InRange (n : Nat) (i : Int) : Prop := ∃ k : Nat, i = k ∧ k < n

theorem InRange.mono {m n : Nat} {i : Int} (h : InRange m i) (hle : m ≤ n) : InRange n i := by
  obtain ⟨k, hk, hlt⟩ := h
  exact ⟨k, hk, by omega⟩

theorem InRange.exists_at? {xs : List α} {n : Nat} {i : Int} (h : InRange n i)
    (hlen : xs.length = n) : ∃ x, at? xs i = some x := by
  obtain ⟨k, rfl, hk⟩ := h
  have hlt : k < xs.length := by omega
  exact ⟨xs[k], at?_of_getElem? (List.getElem?_eq_getElem hlt)⟩

theorem InRange.exists_setAt? {xs : List α} {n : Nat} {i : Int} (h : InRange n i)
    (hlen : xs.length = n) (x : α) : ∃ ys, setAt? xs i x = some ys ∧ ys.length = n := by
  obtain ⟨k, rfl, hk⟩ := h
  exact ⟨xs.set k x, setAt?_eq_some.mpr ⟨k, position?_natCast (by omega), rfl⟩, by simpa using hlen⟩

theorem InRange.exists_position? {n : Nat} {i : Int} (h : InRange n i) :
    ∃ p, position? n i = some p := by
  obtain ⟨k, rfl, hk⟩ := h
  exact ⟨k, position?_natCast hk⟩

/-- Entries can be picked at indices that address one. -/
theorem exists_pick {xs : List α} {n : Nat} (hlen : xs.length = n) {indices : List Int}
    (h : ∀ i ∈ indices, ∃ p, position? n i = some p) :
    ∃ ys, (pick xs indices : Except (Fault R) (List α)) = .ok ys := by
  refine exists_mapM fun i hi => ?_
  obtain ⟨p, hp⟩ := h i hi
  rw [← hlen] at hp
  exact ⟨xs.get ⟨p, position?_lt hp⟩, get_eq_ok.mpr
    (at?_eq_some.mpr ⟨p, hp, List.getElem?_eq_getElem (position?_lt hp)⟩)⟩

/-- Values can be written at indices that address an entry. -/
theorem exists_placeAll {n : Nat} {writes : List (Int × α)}
    (h : ∀ w ∈ writes, ∃ p, position? n w.1 = some p) {xs : List α} (hlen : xs.length = n) :
    ∃ ys, (placeAll xs writes : Except (Fault R) (List α)) = .ok ys ∧ ys.length = n := by
  induction writes generalizing xs with
  | nil => exact ⟨xs, rfl, hlen⟩
  | cons w rest ih =>
      obtain ⟨p, hp⟩ := h w (List.mem_cons_self ..)
      rw [← hlen] at hp
      rw [placeAll_cons_of_set (setAt?_eq_some.mpr ⟨p, hp, rfl⟩)]
      exact ih (fun w' hw' => h w' (List.mem_cons_of_mem _ hw')) (by rw [List.length_set, hlen])

end Writes

/-- Entries at one index of related lists are related. -/
theorem forall₂_at? {α β : Type} {r : α → β → Prop} {xs : List α} {ys : List β}
    (h : List.Forall₂ r xs ys) {i : Int} {y : β} (hy : at? ys i = some y) :
    ∃ x, at? xs i = some x ∧ r x y := by
  obtain ⟨p, hp, hy⟩ := at?_eq_some.mp hy
  obtain ⟨hlt, rfl⟩ := List.getElem?_eq_some_iff.mp hy
  have hlt' : p < xs.length := by
    rw [h.length_eq]
    exact hlt
  rw [← h.length_eq] at hp
  exact ⟨xs[p], at?_eq_some.mpr ⟨p, hp, List.getElem?_eq_getElem hlt'⟩,
    (List.forall₂_iff_get.mp h).2 p hlt' hlt⟩

/-- An entry has a related entry in the other list. -/
theorem exists_of_mem_left {α β : Type} {r : α → β → Prop} {xs : List α} {ys : List β}
    (h : List.Forall₂ r xs ys) {x : α} (hx : x ∈ xs) : ∃ y ∈ ys, r x y := by
  induction h with
  | nil => cases hx
  | cons hxy _ ih =>
      rcases List.mem_cons.mp hx with rfl | hx
      · exact ⟨_, List.mem_cons_self .., hxy⟩
      · obtain ⟨y, hy, hr⟩ := ih hx
        exact ⟨y, List.mem_cons_of_mem _ hy, hr⟩

theorem mem_stretch {n : Nat} {xs : List α} {x : α} (h : x ∈ stretch n xs) : x ∈ xs := by
  unfold stretch at h
  split at h
  · rw [List.eq_of_mem_replicate h]
    exact List.mem_singleton_self _
  · exact h

theorem getElem?_of_at? {xs : List α} {i : Int} {x : α} {p : Nat} (h : at? xs i = some x)
    (hp : position? xs.length i = some p) : xs[p]? = some x := by
  rwa [at?, hp, Option.bind_some] at h

theorem mem_of_at? {xs : List α} {i : Int} {x : α} (h : at? xs i = some x) : x ∈ xs := by
  obtain ⟨p, -, hp⟩ := at?_eq_some.mp h
  exact List.mem_of_getElem? hp

theorem mem_of_pick {xs ys : List α} {indices : List Int}
    (h : (pick xs indices : Except (Fault R) (List α)) = .ok ys) {y : α} (hy : y ∈ ys) :
    y ∈ xs := by
  obtain ⟨i, -, hi⟩ := exists_of_mem_left (pick_eq_ok.mp h).flip hy
  exact mem_of_at? hi

/-- An entry of a vector with written entries was there or was written. -/
theorem mem_of_placeAll {writes : List (Int × α)} {xs ys : List α}
    (h : (placeAll xs writes : Except (Fault R) (List α)) = .ok ys) {y : α} (hy : y ∈ ys) :
    y ∈ xs ∨ ∃ w ∈ writes, w.2 = y := by
  induction writes generalizing xs with
  | nil =>
      cases h
      exact Or.inl hy
  | cons w rest ih =>
      obtain ⟨i, x⟩ := w
      cases hset : setAt? xs i x with
      | none => simp [placeAll, hset] at h
      | some zs =>
          rw [placeAll_cons_of_set hset] at h
          obtain ⟨p, -, rfl⟩ := setAt?_eq_some.mp hset
          rcases ih h with hmem | ⟨w, hw, rfl⟩
          · rcases List.mem_or_eq_of_mem_set hmem with hmem | rfl
            · exact Or.inl hmem
            · exact Or.inr ⟨(i, y), List.mem_cons_self .., rfl⟩
          · exact Or.inr ⟨w, List.mem_cons_of_mem _ hw, rfl⟩

/-- The entry at a place was there and is not written to, or it is one of those that are written
there. -/
theorem getElem?_placeAll {writes : List (Int × α)} {xs ys : List α}
    (h : (placeAll xs writes : Except (Fault R) (List α)) = .ok ys) {k : Nat} {y : α}
    (hy : ys[k]? = some y) :
    (xs[k]? = some y ∧ ∀ w ∈ writes, position? xs.length w.1 ≠ some k) ∨
      ∃ w ∈ writes, position? xs.length w.1 = some k ∧ w.2 = y := by
  induction writes generalizing xs with
  | nil =>
      cases h
      exact .inl ⟨hy, nofun⟩
  | cons w rest ih =>
      obtain ⟨i, x⟩ := w
      cases hset : setAt? xs i x with
      | none => simp [placeAll, hset] at h
      | some zs =>
          rw [placeAll_cons_of_set hset] at h
          obtain ⟨p, hp, rfl⟩ := setAt?_eq_some.mp hset
          rcases ih h with ⟨hold, hrest⟩ | ⟨w, hw, hwk, rfl⟩
          · rw [List.length_set] at hrest
            by_cases hpk : p = k
            · subst hpk
              rw [List.getElem?_set_self (position?_lt hp), Option.some.injEq] at hold
              exact .inr ⟨(i, x), List.mem_cons_self .., hp, hold⟩
            · rw [List.getElem?_set_ne hpk] at hold
              refine .inl ⟨hold, fun w hw => ?_⟩
              rcases List.mem_cons.mp hw with rfl | hw
              · exact fun hk => hpk (Option.some.inj (hp.symm.trans hk))
              · exact hrest w hw
          · rw [List.length_set] at hwk
            exact .inr ⟨w, List.mem_cons_of_mem _ hw, hwk, rfl⟩

theorem length_of_placeAll {writes : List (Int × α)} {xs ys : List α}
    (h : (placeAll xs writes : Except (Fault R) (List α)) = .ok ys) : ys.length = xs.length := by
  induction writes generalizing xs with
  | nil =>
      cases h
      rfl
  | cons w rest ih =>
      obtain ⟨i, x⟩ := w
      cases hset : setAt? xs i x with
      | none => simp [placeAll, hset] at h
      | some zs =>
          rw [placeAll_cons_of_set hset] at h
          rw [ih h, length_of_setAt? hset]

/-- As many values as indices are written one by one. -/
theorem place_of_length {xs values : List α} {indices : List Int}
    (h : values.length = indices.length) :
    (place xs indices values : Except (Fault R) (List α)) = placeAll xs (indices.zip values) := by
  rw [place, if_pos (by simp [h]), stretch_of_length h]

theorem exists_position?_of_placeAll {writes : List (Int × α)} {xs ys : List α}
    (h : (placeAll xs writes : Except (Fault R) (List α)) = .ok ys) :
    ∀ w ∈ writes, ∃ p, position? xs.length w.1 = some p := by
  induction writes generalizing xs with
  | nil => exact nofun
  | cons w rest ih =>
      obtain ⟨i, x⟩ := w
      cases hset : setAt? xs i x with
      | none => simp [placeAll, hset] at h
      | some zs =>
          rw [placeAll_cons_of_set hset] at h
          have hrest := ih h
          rw [length_of_setAt? hset] at hrest
          obtain ⟨p, hp, -⟩ := setAt?_eq_some.mp hset
          exact List.forall_mem_cons.mpr ⟨⟨p, hp⟩, hrest⟩

/-- Where a value was written, there is what was written last to that place. -/
theorem exists_write_of_placeAll {writes : List (Int × α)} {xs ys : List α}
    (h : (placeAll xs writes : Except (Fault R) (List α)) = .ok ys) {w : Int × α}
    (hw : w ∈ writes) : ∃ w' ∈ writes, position? xs.length w'.1 = position? xs.length w.1 ∧
      at? ys w.1 = some w'.2 := by
  obtain ⟨p, hp⟩ := exists_position?_of_placeAll h w hw
  have hlen := length_of_placeAll h
  have hentry := List.getElem?_eq_getElem (l := ys) (i := p) (hlen ▸ position?_lt hp)
  rcases getElem?_placeAll h hentry with ⟨-, hnone⟩ | ⟨w', hw', hp', hvalue⟩
  · exact absurd hp (hnone w hw)
  · refine ⟨w', hw', hp'.trans hp.symm, ?_⟩
    rw [at?, hlen, hp, Option.bind_some, hentry, ← hvalue]

/-- A value is where it was written if no other one goes to the same entry. -/
theorem at?_placeAll {writes : List (Int × α)} {xs ys : List α}
    (h : (placeAll xs writes : Except (Fault R) (List α)) = .ok ys)
    (hdistinct : (writes.map (·.1)).Nodup) (hnonneg : ∀ w ∈ writes, 0 ≤ w.1) {w : Int × α}
    (hw : w ∈ writes) : at? ys w.1 = some w.2 := by
  obtain ⟨w', hw', hplace, hvalue⟩ := exists_write_of_placeAll h hw
  obtain ⟨p, hp⟩ := exists_position?_of_placeAll h w hw
  have hindex : w'.1 = w.1 :=
    position?_inj (hnonneg _ hw') (hnonneg _ hw) (hplace.trans hp) hp
  rw [hvalue, List.inj_on_of_nodup_map hdistinct hw' hw hindex]

/-- Replacing related entries at one place keeps lists related entry by entry. -/
theorem forall₂_set {α β : Type} {r : α → β → Prop} {x : α} {y : β} (hxy : r x y) :
    ∀ {xs : List α} {ys : List β} (p : Nat), List.Forall₂ r xs ys →
      List.Forall₂ r (xs.set p x) (ys.set p y)
  | _, _, _, .nil => .nil
  | _, _, 0, .cons _ h => .cons hxy h
  | _, _, p + 1, .cons h hs => .cons h (forall₂_set hxy p hs)

/-- Entries at one place of related lists are related. -/
theorem forall₂_getElem? {α β : Type} {r : α → β → Prop} {x : α} {xs : List α} {ys : List β}
    {p : Nat} (h : List.Forall₂ r xs ys) (hx : xs[p]? = some x) : ∃ y, ys[p]? = some y ∧ r x y := by
  obtain ⟨hlt, rfl⟩ := List.getElem?_eq_some_iff.mp hx
  have hlt' : p < ys.length := by
    rw [← h.length_eq]
    exact hlt
  exact ⟨ys[p], List.getElem?_eq_getElem hlt', (List.forall₂_iff_get.mp h).2 p hlt hlt'⟩

/-- Two lists that are related to a third one are related to each other. -/
theorem forall₂_combine {α β γ : Type} {r : α → β → Prop} {s : α → γ → Prop} {t : β → γ → Prop}
    (hrs : ∀ x y z, r x y → s x z → t y z) {xs : List α} {ys : List β} {zs : List γ}
    (h : List.Forall₂ r xs ys) (h' : List.Forall₂ s xs zs) : List.Forall₂ t ys zs := by
  induction h generalizing zs with
  | nil =>
      cases h'
      exact .nil
  | cons hxy _ ih =>
      cases h' with
      | cons hxz h' => exact .cons (hrs _ _ _ hxy hxz) (ih h')

/-- Replacing an entry of one list by another one that is related to the same entry. -/
theorem forall₂_set_left {α β : Type} {r : α → β → Prop} {x : α} {y : β} {xs : List α}
    {ys : List β} {p : Nat} (h : List.Forall₂ r xs ys) (hy : ys[p]? = some y) (hxy : r x y) :
    List.Forall₂ r (xs.set p x) ys := by
  obtain ⟨hp, rfl⟩ := List.getElem?_eq_some_iff.mp hy
  have hset := forall₂_set hxy p h
  rwa [List.set_getElem_self] at hset

theorem forall₂_set_right {α β : Type} {r : α → β → Prop} {x : α} {y : β} {xs : List α}
    {ys : List β} {p : Nat} (h : List.Forall₂ r xs ys) (hx : xs[p]? = some x) (hxy : r x y) :
    List.Forall₂ r xs (ys.set p y) := by
  obtain ⟨hp, rfl⟩ := List.getElem?_eq_some_iff.mp hx
  have hset := forall₂_set hxy p h
  rwa [List.set_getElem_self] at hset

section Sums

variable {R : Type} [Arith R] {Term Known : R → Prop}

/-- What is known of the sum of two terms is known of each. -/
structure Splits (Term Known : R → Prop) : Prop where
  zero : Term 0
  add : ∀ {x y}, Term x → Term y → Term (x + y)
  split : ∀ {x y}, Term x → Term y → Known (x + y) → Known x ∧ Known y

namespace Splits

variable (h : Splits Term Known) {xs : List R}
include h

theorem foldl {a : R} (ha : Term a) (hxs : ∀ x ∈ xs, Term x) :
    Term (xs.foldl (· + ·) a) ∧
      (Known (xs.foldl (· + ·) a) → Known a ∧ ∀ x ∈ xs, Known x) := by
  induction xs generalizing a with
  | nil => exact ⟨ha, fun hknown => ⟨hknown, nofun⟩⟩
  | cons x xs ih =>
      obtain ⟨hx, hrest⟩ := List.forall_mem_cons.mp hxs
      obtain ⟨hterm, hsplit⟩ := ih (h.add ha hx) hrest
      refine ⟨hterm, fun hknown => ?_⟩
      obtain ⟨hsum, hknown⟩ := hsplit hknown
      obtain ⟨ha', hx'⟩ := h.split ha hx hsum
      exact ⟨ha', List.forall_mem_cons.mpr ⟨hx', hknown⟩⟩

theorem plainSum (hxs : ∀ x ∈ xs, Term x) :
    Term (Vec.plainSum xs) ∧ (Known (Vec.plainSum xs) → ∀ x ∈ xs, Known x) :=
  (h.foldl h.zero hxs).imp_right fun hsplit hknown => (hsplit hknown).2

theorem zipWith {ys : List R} (hlen : xs.length = ys.length) (hxs : ∀ x ∈ xs, Term x)
    (hys : ∀ y ∈ ys, Term y) :
    (∀ z ∈ List.zipWith (· + ·) xs ys, Term z) ∧
      ((∀ z ∈ List.zipWith (· + ·) xs ys, Known z) → (∀ x ∈ xs, Known x) ∧ ∀ y ∈ ys, Known y) := by
  induction xs generalizing ys with
  | nil =>
      obtain rfl := List.length_eq_zero_iff.mp hlen.symm
      exact ⟨nofun, fun _ => ⟨nofun, nofun⟩⟩
  | cons x xs ih =>
      cases ys with
      | nil => cases hlen
      | cons y ys =>
          obtain ⟨hx, hxs⟩ := List.forall_mem_cons.mp hxs
          obtain ⟨hy, hys⟩ := List.forall_mem_cons.mp hys
          obtain ⟨hterms, hsplit⟩ := ih (by simpa using hlen) hxs hys
          rw [List.zipWith_cons_cons]
          refine ⟨List.forall_mem_cons.mpr ⟨h.add hx hy, hterms⟩, fun hknown => ?_⟩
          obtain ⟨hsum, hrest⟩ := List.forall_mem_cons.mp hknown
          obtain ⟨hx', hy'⟩ := h.split hx hy hsum
          obtain ⟨hxs', hys'⟩ := hsplit hrest
          exact ⟨List.forall_mem_cons.mpr ⟨hx', hxs'⟩, List.forall_mem_cons.mpr ⟨hy', hys'⟩⟩

/-- Blocks of eight entries are added to eight partial sums, and some entries are left over. -/
theorem addBlocks (sums xs : List R) (hsums : sums.length = 8) (hterms : ∀ x ∈ sums, Term x)
    (hxs : ∀ x ∈ xs, Term x) :
    (Vec.addBlocks sums xs).1.length = 8 ∧ (∀ x ∈ (Vec.addBlocks sums xs).1, Term x) ∧
      (∀ x ∈ (Vec.addBlocks sums xs).2, Term x) ∧
      ((∀ x ∈ (Vec.addBlocks sums xs).1, Known x) → (∀ x ∈ (Vec.addBlocks sums xs).2, Known x) →
        (∀ x ∈ sums, Known x) ∧ ∀ x ∈ xs, Known x) := by
  induction sums, xs using Vec.addBlocks.induct with
  | case1 sums y₁ y₂ y₃ y₄ y₅ y₆ y₇ y₈ rest ih =>
      rw [Vec.addBlocks]
      have hblock : ∀ x ∈ [y₁, y₂, y₃, y₄, y₅, y₆, y₇, y₈], Term x := fun x hx =>
        hxs x (List.mem_append_left rest hx)
      obtain ⟨hadded, hsplit⟩ := h.zipWith (by simp [hsums]) hterms hblock
      obtain ⟨hlen, hfirst, hlast, hback⟩ := ih (by simp [hsums]) hadded fun x hx =>
        hxs x (List.mem_append_right [y₁, y₂, y₃, y₄, y₅, y₆, y₇, y₈] hx)
      refine ⟨hlen, hfirst, hlast, fun hknown hleft => ?_⟩
      obtain ⟨hsum, hrest⟩ := hback hknown hleft
      obtain ⟨hold, hblock'⟩ := hsplit hsum
      refine ⟨hold, fun x hx => ?_⟩
      rcases List.mem_append.mp (show x ∈ [y₁, y₂, y₃, y₄, y₅, y₆, y₇, y₈] ++ rest from hx) with
        hx | hx
      · exact hblock' x hx
      · exact hrest x hx
  | case2 sums xs hshort =>
      rw [Vec.addBlocks.eq_2 sums xs hshort]
      exact ⟨hsums, hterms, hxs, fun hknown hleft => ⟨hknown, hleft⟩⟩

theorem combinePairs (hlen : xs.length = 8) (hxs : ∀ x ∈ xs, Term x) :
    Term (Vec.combinePairs xs) ∧ (Known (Vec.combinePairs xs) → ∀ x ∈ xs, Known x) := by
  match xs, hlen with
  | [a, b, c, d, e, f, g, i], _ =>
      simp only [List.forall_mem_cons, List.not_mem_nil, false_imp_iff, implies_true,
        and_true] at hxs ⊢
      obtain ⟨ha, hb, hc, hd, he, hf, hg, hi⟩ := hxs
      have hab := h.add ha hb
      have hcd := h.add hc hd
      have hef := h.add he hf
      have hgi := h.add hg hi
      refine ⟨h.add (h.add hab hcd) (h.add hef hgi), fun hknown => ?_⟩
      obtain ⟨hfirst, hlast⟩ := h.split (h.add hab hcd) (h.add hef hgi) hknown
      obtain ⟨hab', hcd'⟩ := h.split hab hcd hfirst
      obtain ⟨hef', hgi'⟩ := h.split hef hgi hlast
      exact ⟨(h.split ha hb hab').1, (h.split ha hb hab').2, (h.split hc hd hcd').1,
        (h.split hc hd hcd').2, (h.split he hf hef').1, (h.split he hf hef').2,
        (h.split hg hi hgi').1, (h.split hg hi hgi').2⟩

theorem blockSum (hxs : ∀ x ∈ xs, Term x) :
    Term (Vec.blockSum xs) ∧ (Known (Vec.blockSum xs) → ∀ x ∈ xs, Known x) := by
  unfold Vec.blockSum
  split
  case isTrue => exact h.plainSum hxs
  case isFalse hlong =>
    have htake : (xs.take 8).length = 8 := by
      rw [List.length_take]
      omega
    obtain ⟨hlen, hfirst, hlast, hback⟩ := h.addBlocks (xs.take 8) (xs.drop 8) htake
      (fun x hx => hxs x (List.mem_of_mem_take hx)) fun x hx => hxs x (List.mem_of_mem_drop hx)
    obtain ⟨hpairs, hsplit⟩ := h.combinePairs hlen hfirst
    obtain ⟨hterm, hrest⟩ := h.foldl hpairs hlast
    refine ⟨hterm, fun hknown x hx => ?_⟩
    obtain ⟨hsum, hleft⟩ := hrest hknown
    obtain ⟨htook, hdropped⟩ := hback (hsplit hsum) hleft
    rw [← List.take_append_drop 8 xs] at hx
    exact (List.mem_append.mp hx).elim (htook x) (hdropped x)

theorem halvedSum (fuel : Nat) (hxs : ∀ x ∈ xs, Term x) :
    Term (Vec.halvedSum fuel xs) ∧ (Known (Vec.halvedSum fuel xs) → ∀ x ∈ xs, Known x) := by
  induction fuel generalizing xs with
  | zero => exact h.blockSum hxs
  | succ fuel ih =>
      unfold Vec.halvedSum
      split
      case isTrue => exact h.blockSum hxs
      case isFalse =>
        dsimp only
        generalize xs.length / 2 - xs.length / 2 % 8 = cut
        have htake : ∀ x ∈ xs.take cut, Term x := fun x hx => hxs x (List.mem_of_mem_take hx)
        have hdrop : ∀ x ∈ xs.drop cut, Term x := fun x hx => hxs x (List.mem_of_mem_drop hx)
        obtain ⟨hfirst, hsplit⟩ := ih htake
        obtain ⟨hlast, hsplit'⟩ := ih hdrop
        refine ⟨h.add hfirst hlast, fun hknown x hx => ?_⟩
        obtain ⟨htook, hdropped⟩ := h.split hfirst hlast hknown
        rw [← List.take_append_drop cut xs] at hx
        exact (List.mem_append.mp hx).elim (hsplit htook x) (hsplit' hdropped x)

/-- What is known of a sum in paired order is known of every term. -/
theorem pairedSum (hxs : ∀ x ∈ xs, Term x) (hknown : Known (Vec.pairedSum xs)) :
    ∀ x ∈ xs, Known x := (h.halvedSum _ hxs).2 hknown

end Splits

end Sums

end Vec
end MipPump
