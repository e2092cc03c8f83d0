import MipPump.Fault

/-!
# Laws of actions

An action either answers or stops with a fault, and leaves a state in both cases.  This module holds
the ways in which the theory looks at actions.

* **Equations.**  `bind_of_ok`, `bind_of_error` and `bind_eq_ok` take a sequence of actions apart.
* **Invariants.**  `Keeps I act` says that `act` leaves `I` true whether it answers or not; the rules
  `Keeps.bind`, `Keeps.zoom` and so on follow the way actions are put together.
* **Faults.**  `Throws P act` says that a fault of `act` is one of those in `P`.
* **Successes.**  `Runs P act Q` says that `act` answers from every state in `P`, with `Q` afterwards.
* **Attempts.**  `Tries F P act Q` says the same of an action that may also stop with a fault in `F`.
* **Safety.**  `Stays F I act Q` says that `act` leaves `I` true in either case, that its answers are
  in `Q`, and that its faults are in `F`.
* **Agreements.**  `Agree P act other` says that from states in the relation `P` the two actions come
  to the same answer or the same fault, and that `P` holds again of the states they leave.
-/

namespace MipPump
namespace Act

variable {R σ τ α β : Type}

section Answers

/-- A sequence of computations without a state answers if both of its parts do. -/
theorem exceptBind_eq_ok {ε : Type} {x : Except ε α} {f : α → Except ε β} {b : β} :
    (x >>= f) = .ok b ↔ ∃ a, x = .ok a ∧ f a = .ok b := by
  cases x with
  | ok a =>
      constructor
      · intro h
        exact ⟨a, rfl, h⟩
      · rintro ⟨_, ha, h⟩
        cases ha
        exact h
  | error e =>
      constructor
      · intro h
        cases h
      · rintro ⟨_, ha, -⟩
        cases ha

theorem exceptBind_of_ok {ε : Type} {x : Except ε α} {f : α → Except ε β} {a : α}
    (h : x = .ok a) : (x >>= f) = f a := by
  rw [h]
  rfl

/-- A fault of a sequence is a fault of its first part, or of the second after an answer. -/
theorem exceptBind_eq_error {ε : Type} {x : Except ε α} {f : α → Except ε β} {e : ε}
    (h : (x >>= f) = .error e) : x = .error e ∨ ∃ a, x = .ok a ∧ f a = .error e := by
  cases x with
  | ok a => exact .inr ⟨a, rfl, h⟩
  | error e' =>
      cases h
      exact .inl rfl

/-- A sequence of computations without a state answers if its parts do. -/
theorem exists_exceptBind {ε : Type} {x : Except ε α} {f : α → Except ε β}
    (hx : ∃ a, x = .ok a) (hf : ∀ a, x = .ok a → ∃ b, f a = .ok b) :
    ∃ b, (x >>= f) = .ok b := by
  obtain ⟨a, ha⟩ := hx
  rw [exceptBind_of_ok ha]
  exact hf a ha

theorem exists_ok_of_isOk {ε : Type} {x : Except ε α} (h : x.isOk = true) : ∃ a, x = .ok a := by
  cases x with
  | ok a => exact ⟨a, rfl⟩
  | error e => cases h

/-- A view of the answer that is known by evaluation. -/
theorem exists_ok_of_map {ε : Type} {x : Except ε α} {view : α → β} {b : β}
    (h : x.toOption.map view = some b) : ∃ a, x = .ok a ∧ view a = b := by
  cases x with
  | ok a => exact ⟨a, rfl, Option.some.inj h⟩
  | error e => cases h

end Answers

section Equations

@[simp] theorem pure_apply (a : α) (s : σ) : (pure a : Act R σ α) s = .ok a s := rfl

@[simp] theorem get_apply (s : σ) : (get : Act R σ σ) s = .ok s s := rfl

@[simp] theorem set_apply (s t : σ) : (set t : Act R σ PUnit) s = .ok ⟨⟩ t := rfl

@[simp] theorem modify_apply (f : σ → σ) (s : σ) :
    (modify f : Act R σ PUnit) s = .ok ⟨⟩ (f s) := rfl

@[simp] theorem throw_apply (e : Fault R) (s : σ) :
    (throw e : Act R σ α) s = .error e s := rfl

@[simp] theorem ofExcept_ok (a : α) (s : σ) :
    (ofExcept (.ok a) : Act R σ α) s = .ok a s := rfl

@[simp] theorem ofExcept_error (e : Fault R) (s : σ) :
    (ofExcept (.error e) : Act R σ α) s = .error e s := rfl

theorem bind_apply (act : Act R σ α) (f : α → Act R σ β) (s : σ) :
    (act >>= f) s =
      match act s with
      | .ok a t => f a t
      | .error e t => .error e t := by
  show EStateM.bind act f s = _
  unfold EStateM.bind
  cases act s <;> rfl

theorem map_apply (f : α → β) (act : Act R σ α) (s : σ) :
    (f <$> act) s =
      match act s with
      | .ok a t => .ok (f a) t
      | .error e t => .error e t := by
  show EStateM.map f act s = _
  unfold EStateM.map
  cases act s <;> rfl

/-- After an answer the sequence goes on. -/
theorem bind_of_ok {act : Act R σ α} {f : α → Act R σ β} {s t : σ} {a : α}
    (h : act s = .ok a t) : (act >>= f) s = f a t := by
  rw [bind_apply, h]

/-- After a fault nothing follows. -/
theorem bind_of_error {act : Act R σ α} {f : α → Act R σ β} {s t : σ} {e : Fault R}
    (h : act s = .error e t) : (act >>= f) s = .error e t := by
  rw [bind_apply, h]

theorem ofExcept_bind {x : Except (Fault R) α} {f : α → Act R σ β} {a : α} (h : x = .ok a)
    (s : σ) : (ofExcept x >>= f) s = f a s := by
  rw [h]
  exact bind_of_ok (ofExcept_ok a s)

/-- A sequence answers if both of its parts do. -/
theorem bind_eq_ok {act : Act R σ α} {f : α → Act R σ β} {s u : σ} {b : β} :
    (act >>= f) s = .ok b u ↔ ∃ a t, act s = .ok a t ∧ f a t = .ok b u := by
  rw [bind_apply]
  constructor
  · intro h
    split at h
    · exact ⟨_, _, ‹_›, h⟩
    · cases h
  · rintro ⟨a, t, ha, hf⟩
    rw [ha]
    exact hf

/-- A mapped action answers if the action does. -/
theorem map_eq_ok {act : Act R σ α} {f : α → β} {s t : σ} {b : β} :
    (f <$> act) s = .ok b t ↔ ∃ a, act s = .ok a t ∧ f a = b := by
  rw [map_apply]
  constructor
  · intro h
    split at h
    · cases h
      exact ⟨_, ‹_›, rfl⟩
    · cases h
  · rintro ⟨a, ha, rfl⟩
    rw [ha]

/-- A computation without a state answers if its value is no fault, and changes nothing. -/
theorem ofExcept_eq_ok {x : Except (Fault R) α} {s t : σ} {a : α} :
    ofExcept x s = .ok a t ↔ x = .ok a ∧ s = t := by
  cases x with
  | ok b => simp
  | error e => simp

/-- An action on a part answers if the action does, and the part is put back. -/
theorem zoom_eq_ok {get : σ → τ} {put : σ → τ → σ} {act : Act R τ α} {s u : σ} {a : α} :
    zoom get put act s = .ok a u ↔ ∃ t, act (get s) = .ok a t ∧ put s t = u := by
  unfold zoom
  constructor
  · intro h
    split at h
    · cases h
      exact ⟨_, ‹_›, rfl⟩
    · cases h
  · rintro ⟨t, ht, rfl⟩
    rw [ht]

theorem zoom_eq_error {get : σ → τ} {put : σ → τ → σ} {act : Act R τ α} {s u : σ}
    {e : Fault R} :
    zoom get put act s = .error e u ↔ ∃ t, act (get s) = .error e t ∧ put s t = u := by
  unfold zoom
  constructor
  · intro h
    split at h
    · cases h
    · cases h
      exact ⟨_, ‹_›, rfl⟩
  · rintro ⟨t, ht, rfl⟩
    rw [ht]

theorem zoom_of_ok {get : σ → τ} {put : σ → τ → σ} {act : Act R τ α} {s : σ} {t : τ} {a : α}
    (h : act (get s) = .ok a t) : zoom get put act s = .ok a (put s t) := by
  unfold zoom
  rw [h]

theorem zoom_of_error {get : σ → τ} {put : σ → τ → σ} {act : Act R τ α} {s : σ} {t : τ}
    {e : Fault R} (h : act (get s) = .error e t) :
    zoom get put act s = .error e (put s t) := by
  unfold zoom
  rw [h]

end Equations

section Invariants

/-- The state that an action leaves, whether it answers or not. -/
def after (act : Act R σ α) (s : σ) : σ := (act.split s).2

theorem after_of_ok {act : Act R σ α} {s t : σ} {a : α} (h : act s = .ok a t) :
    act.after s = t := by
  simp [after, split, h]

theorem after_of_error {act : Act R σ α} {s t : σ} {e : Fault R} (h : act s = .error e t) :
    act.after s = t := by
  simp [after, split, h]

theorem after_zoom (get : σ → τ) (put : σ → τ → σ) (act : Act R τ α) (s : σ) :
    (zoom get put act).after s = put s (act.after (get s)) := by
  cases h : act (get s) with
  | ok a t => rw [after_of_ok h, after_of_ok (zoom_of_ok h)]
  | error e t => rw [after_of_error h, after_of_error (zoom_of_error h)]

/-- After an answer the sequence leaves what its second part leaves. -/
theorem after_bind_of_ok {act : Act R σ α} {f : α → Act R σ β} {s t : σ} {a : α}
    (h : act s = .ok a t) : (act >>= f).after s = (f a).after t := by
  simp only [after, split, bind_of_ok h]

/-- An action leaves `I` true, whether it answers or not. -/
def Keeps (I : σ → Prop) (act : Act R σ α) : Prop := ∀ s, I s → I (act.after s)

variable {I : σ → Prop}

/-- What is kept holds after an answer. -/
theorem Keeps.of_ok {act : Act R σ α} (h : Keeps I act) {s t : σ} {a : α} (hs : I s)
    (ht : act s = .ok a t) : I t := by
  rw [← after_of_ok ht]
  exact h s hs

/-- What is kept holds after a fault. -/
theorem Keeps.of_error {act : Act R σ α} (h : Keeps I act) {s t : σ} {e : Fault R} (hs : I s)
    (ht : act s = .error e t) : I t := by
  rw [← after_of_error ht]
  exact h s hs

theorem keeps_pure (a : α) : Keeps I (pure a : Act R σ α) := fun _ hs => hs

theorem keeps_get : Keeps I (get : Act R σ σ) := fun _ hs => hs

theorem keeps_throw (e : Fault R) : Keeps I (throw e : Act R σ α) := fun _ hs => hs

theorem keeps_ofExcept (x : Except (Fault R) α) : Keeps I (ofExcept x : Act R σ α) := by
  intro s hs
  cases x with
  | ok a => exact hs
  | error e => exact hs

theorem keeps_modify {f : σ → σ} (h : ∀ s, I s → I (f s)) :
    Keeps I (modify f : Act R σ PUnit) := fun s hs => h s hs

theorem keeps_bind {act : Act R σ α} {f : α → Act R σ β} (h : Keeps I act)
    (hf : ∀ a, Keeps I (f a)) : Keeps I (act >>= f) := by
  intro s hs
  cases ha : act s with
  | ok a t =>
      rw [after_bind_of_ok ha]
      exact hf a t (h.of_ok hs ha)
  | error e t =>
      rw [after_of_error (bind_of_error ha)]
      exact h.of_error hs ha

/-- A sequence that begins by reading the state may use what holds of it. -/
theorem keeps_get_bind {f : σ → Act R σ β} (h : ∀ s, I s → Keeps I (f s)) :
    Keeps I (get >>= f) := fun s hs => h s hs s hs

/-- A sequence that begins with a computation without a state. -/
theorem keeps_ofExcept_bind {x : Except (Fault R) α} {f : α → Act R σ β}
    (h : ∀ a, x = .ok a → Keeps I (f a)) : Keeps I (ofExcept x >>= f) := by
  intro s hs
  cases x with
  | ok a => exact h a rfl s hs
  | error e => exact hs

theorem keeps_set {t : σ} (h : I t) : Keeps I (set t : Act R σ PUnit) := fun _ _ => h

theorem keeps_ite {c : Prop} [Decidable c] {act other : Act R σ α} (h : Keeps I act)
    (h' : Keeps I other) : Keeps I (if c then act else other) := by
  split
  · exact h
  · exact h'

theorem keeps_map {act : Act R σ α} {f : α → β} (h : Keeps I act) : Keeps I (f <$> act) := by
  intro s hs
  cases ha : act s with
  | ok a t =>
      rw [after_of_ok (map_eq_ok.mpr ⟨a, ha, rfl⟩)]
      exact h.of_ok hs ha
  | error e t =>
      have he : (f <$> act) s = .error e t := by rw [map_apply, ha]
      rw [after_of_error he]
      exact h.of_error hs ha

theorem keeps_zoom {get : σ → τ} {put : σ → τ → σ} {act : Act R τ α} {J : τ → Prop}
    (h : Keeps J act) (hget : ∀ s, I s → J (get s)) (hput : ∀ s t, I s → J t → I (put s t)) :
    Keeps I (zoom get put act) := by
  intro s hs
  cases ha : act (get s) with
  | ok a t =>
      rw [after_of_ok (zoom_of_ok ha)]
      exact hput s t hs (h.of_ok (hget s hs) ha)
  | error e t =>
      rw [after_of_error (zoom_of_error ha)]
      exact hput s t hs (h.of_error (hget s hs) ha)

/-- What every round keeps, a loop over a list keeps. -/
theorem keeps_forM {f : β → Act R σ PUnit} :
    ∀ {xs : List β}, (∀ x ∈ xs, Keeps I (f x)) → Keeps I (xs.forM f)
  | [], _ => keeps_pure _
  | x :: _, h => keeps_bind (h x (List.mem_cons_self ..)) fun _ =>
      keeps_forM fun y hy => h y (List.mem_cons_of_mem _ hy)

/-- Nothing that is true of every state can be lost. -/
theorem keeps_trivial (act : Act R σ α) : Keeps (fun _ => True) act := fun _ _ => trivial

/-- An action on a part that the invariant does not look at. -/
theorem keeps_zoom_of_put {get : σ → τ} {put : σ → τ → σ} (act : Act R τ α)
    (hput : ∀ s t, I s → I (put s t)) : Keeps I (zoom get put act) :=
  keeps_zoom (keeps_trivial act) (fun _ _ => trivial) (fun s t hs _ => hput s t hs)

end Invariants

section Faults

/-- A fault of the action is one of those in `P`. -/
def Throws (P : Fault R → Prop) (act : Act R σ α) : Prop :=
  ∀ ⦃s t : σ⦄ ⦃e : Fault R⦄, act s = .error e t → P e

variable {P : Fault R → Prop}

theorem throws_pure (a : α) : Throws P (pure a : Act R σ α) := by
  intro s t e h
  cases h

theorem throws_throw {e : Fault R} (h : P e) : Throws P (throw e : Act R σ α) := by
  intro s t e' he
  cases he
  exact h

theorem throws_ofExcept {x : Except (Fault R) α} (h : ∀ e, x = .error e → P e) :
    Throws P (ofExcept x : Act R σ α) := by
  intro s t e he
  cases x with
  | ok a => cases he
  | error e' =>
      cases he
      exact h e rfl

theorem throws_get : Throws P (get : Act R σ σ) := by
  intro s t e he
  cases he

theorem throws_set (t : σ) : Throws P (set t : Act R σ PUnit) := by
  intro s t e he
  cases he

theorem throws_zoom {get : σ → τ} {put : σ → τ → σ} {act : Act R τ α} (h : Throws P act) :
    Throws P (zoom get put act) := by
  intro s t e he
  obtain ⟨_, hact, -⟩ := zoom_eq_error.mp he
  exact h hact

theorem throws_bind {act : Act R σ α} {f : α → Act R σ β} (h : Throws P act)
    (hf : ∀ a, Throws P (f a)) : Throws P (act >>= f) := by
  intro s t e he
  rw [bind_apply] at he
  split at he
  · exact hf _ he
  · cases he
    exact h ‹_›

theorem throws_ite {c : Prop} [Decidable c] {act other : Act R σ α} (h : Throws P act)
    (h' : Throws P other) : Throws P (if c then act else other) := by
  split
  · exact h
  · exact h'

end Faults

section Successes

/-- From a state in `P` the action answers, and the answer and the state it leaves are in `Q`. -/
def Runs (P : σ → Prop) (act : Act R σ α) (Q : α → σ → Prop) : Prop :=
  ∀ s, P s → ∃ a t, act s = .ok a t ∧ Q a t

variable {P : σ → Prop} {Q : α → σ → Prop} {S : β → σ → Prop}

theorem runs_pure {a : α} (h : ∀ s, P s → Q a s) : Runs P (pure a : Act R σ α) Q :=
  fun s hs => ⟨a, s, rfl, h s hs⟩

theorem runs_ofExcept {x : Except (Fault R) α} (h : ∀ s, P s → ∃ a, x = .ok a ∧ Q a s) :
    Runs P (ofExcept x) Q := by
  intro s hs
  obtain ⟨a, rfl, ha⟩ := h s hs
  exact ⟨a, s, rfl, ha⟩

theorem runs_of_ok_bind {x : Except (Fault R) α} {a : α} (hx : x = .ok a) {f : α → Act R σ β}
    (h : Runs P (f a) S) : Runs P (ofExcept x >>= f) S := by
  subst hx
  exact h

theorem runs_modify {f : σ → σ} {Q : PUnit → σ → Prop} (h : ∀ s, P s → Q ⟨⟩ (f s)) :
    Runs P (modify f : Act R σ PUnit) Q := fun s hs => ⟨⟨⟩, f s, rfl, h s hs⟩

theorem runs_bind {act : Act R σ α} {f : α → Act R σ β} (h : Runs P act Q)
    (hf : ∀ a, Runs (Q a) (f a) S) : Runs P (act >>= f) S := by
  intro s hs
  obtain ⟨a, t, ha, ht⟩ := h s hs
  rw [bind_of_ok ha]
  exact hf a t ht

theorem runs_map {f : α → β} {act : Act R σ α} (h : Runs P act Q)
    (hf : ∀ a s, Q a s → S (f a) s) : Runs P (f <$> act) S := by
  intro s hs
  obtain ⟨a, t, ha, ht⟩ := h s hs
  exact ⟨f a, t, map_eq_ok.mpr ⟨a, ha, rfl⟩, hf a t ht⟩

/-- After the state was read, it is known. -/
theorem runs_get_bind {f : σ → Act R σ β} (h : ∀ s, P s → Runs (· = s) (f s) S) :
    Runs P (get >>= f) S := by
  intro s hs
  rw [bind_of_ok (get_apply s)]
  exact h s hs s rfl

/-- A loop over a list runs if every round takes what is true of the rounds before it to what is true
of them and this round. -/
theorem runs_forM {f : β → Act R σ PUnit} {J : List β → σ → Prop} {xs : List β}
    (h : ∀ done x rest, xs = done ++ x :: rest → Runs (J done) (f x) fun _ => J (done ++ [x])) :
    Runs (J []) (xs.forM f) fun _ => J xs := by
  have hfrom (done : List β) : ∀ rest, xs = done ++ rest →
      Runs (J done) (rest.forM f) fun _ => J xs := by
    intro rest
    induction rest generalizing done with
    | nil =>
        intro heq
        rw [List.append_nil] at heq
        subst heq
        exact runs_pure fun _ hs => hs
    | cons x rest ih =>
        intro heq
        exact runs_bind (h done x rest heq) fun _ => ih (done ++ [x]) (by simpa using heq)
  exact hfrom [] xs rfl

/-- What is known of the answer before may be used after it. -/
theorem runs_of_and {C : Prop} {act : Act R σ α} (h : C → Runs P act Q) :
    Runs (fun s => C ∧ P s) act Q := fun s hs => h hs.1 s hs.2

theorem runs_zoom {get : σ → τ} {put : σ → τ → σ} {act : Act R τ α} {J : τ → Prop}
    {T : α → τ → Prop} (h : Runs J act T) (hget : ∀ s, P s → J (get s))
    (hput : ∀ s a t, P s → T a t → Q a (put s t)) : Runs P (zoom get put act) Q := by
  intro s hs
  obtain ⟨a, t, ha, ht⟩ := h (get s) (hget s hs)
  exact ⟨a, put s t, zoom_of_ok ha, hput s a t hs ht⟩

theorem Runs.mono {act : Act R σ α} {P' : σ → Prop} {Q' : α → σ → Prop} (h : Runs P act Q)
    (hP : ∀ s, P' s → P s) (hQ : ∀ a s, Q a s → Q' a s) : Runs P' act Q' := by
  intro s hs
  obtain ⟨a, t, ha, ht⟩ := h s (hP s hs)
  exact ⟨a, t, ha, hQ a t ht⟩

end Successes

section Attempts

/-- From a state in `P` the action answers, and the answer and the state it leaves are in `Q`, or it
stops with a fault in `F`. -/
def Tries (F : Fault R → Prop) (P : σ → Prop) (act : Act R σ α) (Q : α → σ → Prop) : Prop :=
  ∀ s, P s → (∃ a t, act s = .ok a t ∧ Q a t) ∨ ∃ e t, act s = .error e t ∧ F e

variable {F : Fault R → Prop} {P : σ → Prop} {Q : α → σ → Prop} {S : β → σ → Prop}

theorem Runs.tries {act : Act R σ α} (h : Runs P act Q) : Tries F P act Q :=
  fun s hs => .inl (h s hs)

theorem Tries.of_ok {act : Act R σ α} (h : Tries F P act Q) {s t : σ} {a : α} (hs : P s)
    (ha : act s = .ok a t) : Q a t := by
  rcases h s hs with ⟨a', t', ha', ht⟩ | ⟨e, t', he, -⟩
  · rw [ha] at ha'
    cases ha'
    exact ht
  · rw [ha] at he
    cases he

theorem Tries.of_error {act : Act R σ α} (h : Tries F P act Q) {s t : σ} {e : Fault R} (hs : P s)
    (he : act s = .error e t) : F e := by
  rcases h s hs with ⟨a, t', ha, -⟩ | ⟨e', t', he', hfault⟩
  · rw [he] at ha
    cases ha
  · rw [he] at he'
    cases he'
    exact hfault

/-- An action of which only the faults are known attempts nothing. -/
theorem Throws.tries {act : Act R σ α} (h : Throws F act) :
    Tries F (fun _ => True) act fun _ _ => True := by
  intro s _
  cases ha : act s with
  | ok a t => exact .inl ⟨a, t, rfl, trivial⟩
  | error e t => exact .inr ⟨e, t, rfl, h ha⟩

/-- An attempt without faults to stop with is a success. -/
theorem Tries.runs {act : Act R σ α} (h : Tries (fun _ => False) P act Q) : Runs P act Q :=
  fun s hs => (h s hs).resolve_right fun ⟨_, _, _, hf⟩ => hf

theorem tries_pure {a : α} (h : ∀ s, P s → Q a s) : Tries F P (pure a : Act R σ α) Q :=
  (runs_pure h).tries

theorem tries_bind {act : Act R σ α} {f : α → Act R σ β} (h : Tries F P act Q)
    (hf : ∀ a, Tries F (Q a) (f a) S) : Tries F P (act >>= f) S := by
  intro s hs
  rcases h s hs with ⟨a, t, ha, ht⟩ | ⟨e, t, he, hfault⟩
  · rw [bind_of_ok ha]
    exact hf a t ht
  · exact .inr ⟨e, t, bind_of_error he, hfault⟩

/-- After the state was read, it is known. -/
theorem tries_get_bind {f : σ → Act R σ β} (h : ∀ s, P s → Tries F (· = s) (f s) S) :
    Tries F P (get >>= f) S := by
  intro s hs
  rw [bind_of_ok (get_apply s)]
  exact h s hs s rfl

theorem tries_of_ok_bind {x : Except (Fault R) α} {a : α} (hx : x = .ok a) {f : α → Act R σ β}
    (h : Tries F P (f a) S) : Tries F P (ofExcept x >>= f) S := by
  subst hx
  exact h

/-- A sequence that begins with a computation without a state. -/
theorem tries_ofExcept_bind {x : Except (Fault R) α} {f : α → Act R σ β}
    (h : ∀ a, x = .ok a → Tries F P (f a) S) (he : ∀ e, x = .error e → F e) :
    Tries F P (ofExcept x >>= f) S := by
  intro s hs
  cases x with
  | ok a => exact h a rfl s hs
  | error e => exact .inr ⟨e, s, rfl, he e rfl⟩

/-- What is known of the answer before may be used after it. -/
theorem tries_of_and {C : Prop} {act : Act R σ α} (h : C → Tries F P act Q) :
    Tries F (fun s => C ∧ P s) act Q := fun s hs => h hs.1 s hs.2

theorem tries_zoom {get : σ → τ} {put : σ → τ → σ} {act : Act R τ α} {J : τ → Prop}
    {T : α → τ → Prop} (h : Tries F J act T) (hget : ∀ s, P s → J (get s))
    (hput : ∀ s a t, P s → T a t → Q a (put s t)) : Tries F P (zoom get put act) Q := by
  intro s hs
  rcases h (get s) (hget s hs) with ⟨a, t, ha, ht⟩ | ⟨e, t, he, hfault⟩
  · exact .inl ⟨a, put s t, zoom_of_ok ha, hput s a t hs ht⟩
  · exact .inr ⟨e, put s t, zoom_of_error he, hfault⟩

theorem Tries.mono {act : Act R σ α} {P' : σ → Prop} {Q' : α → σ → Prop} (h : Tries F P act Q)
    (hP : ∀ s, P' s → P s) (hQ : ∀ a s, Q a s → Q' a s) : Tries F P' act Q' := by
  intro s hs
  rcases h s (hP s hs) with ⟨a, t, ha, ht⟩ | hfault
  · exact .inl ⟨a, t, ha, hQ a t ht⟩
  · exact .inr hfault

end Attempts

section Safety

/-- From a state in `I` the action leaves a state in `I`; it answers with one of `Q`, or it stops with
a fault in `F`. -/
def Stays (F : Fault R → Prop) (I : σ → Prop) (act : Act R σ α) (Q : α → Prop) : Prop :=
  ∀ s, I s → (∃ a t, act s = .ok a t ∧ I t ∧ Q a) ∨ ∃ e t, act s = .error e t ∧ I t ∧ F e

variable {F : Fault R → Prop} {I : σ → Prop} {Q : α → Prop} {S : β → Prop}

theorem Stays.keeps {act : Act R σ α} (h : Stays F I act Q) : Keeps I act := by
  intro s hs
  rcases h s hs with ⟨a, t, ha, ht, -⟩ | ⟨e, t, he, ht, -⟩
  · rwa [after_of_ok ha]
  · rwa [after_of_error he]

theorem Stays.of_error {act : Act R σ α} (h : Stays F I act Q) {s t : σ} {e : Fault R} (hs : I s)
    (he : act s = .error e t) : F e := by
  rcases h s hs with ⟨a, t', ha, -⟩ | ⟨e', t', he', -, hfault⟩
  · rw [ha] at he
    cases he
  · rw [he'] at he
    cases he
    exact hfault

theorem Stays.tries {act : Act R σ α} (h : Stays F I act Q) :
    Tries F I act fun a t => I t ∧ Q a := by
  intro s hs
  rcases h s hs with hok | ⟨e, t, he, -, hfault⟩
  · exact .inl hok
  · exact .inr ⟨e, t, he, hfault⟩

theorem Stays.mono {act : Act R σ α} {F' : Fault R → Prop} {Q' : α → Prop} (h : Stays F I act Q)
    (hF : ∀ e, F e → F' e) (hQ : ∀ a, Q a → Q' a) : Stays F' I act Q' := by
  intro s hs
  rcases h s hs with ⟨a, t, ha, ht, hans⟩ | ⟨e, t, he, ht, hfault⟩
  · exact .inl ⟨a, t, ha, ht, hQ a hans⟩
  · exact .inr ⟨e, t, he, ht, hF e hfault⟩

theorem stays_pure {a : α} (h : Q a) : Stays F I (pure a : Act R σ α) Q :=
  fun s hs => .inl ⟨a, s, rfl, hs, h⟩

theorem stays_set {t : σ} {Q : PUnit → Prop} (ht : I t) (hQ : Q ⟨⟩) :
    Stays F I (set t : Act R σ PUnit) Q := fun _ _ => .inl ⟨⟨⟩, t, rfl, ht, hQ⟩

theorem stays_bind {act : Act R σ α} {f : α → Act R σ β} (h : Stays F I act Q)
    (hf : ∀ a, Q a → Stays F I (f a) S) : Stays F I (act >>= f) S := by
  intro s hs
  rcases h s hs with ⟨a, t, ha, ht, hans⟩ | ⟨e, t, he, ht, hfault⟩
  · rw [bind_of_ok ha]
    exact hf a hans t ht
  · exact .inr ⟨e, t, bind_of_error he, ht, hfault⟩

/-- A sequence that begins by reading the state may use what holds of it. -/
theorem stays_get_bind {f : σ → Act R σ β} (h : ∀ s, I s → Stays F I (f s) S) :
    Stays F I (get >>= f) S := fun s hs => h s hs s hs

/-- A sequence that begins with a computation without a state. -/
theorem stays_ofExcept_bind {x : Except (Fault R) α} {f : α → Act R σ β}
    (h : ∀ a, x = .ok a → Stays F I (f a) S) (he : ∀ e, x = .error e → F e) :
    Stays F I (ofExcept x >>= f) S := by
  intro s hs
  cases x with
  | ok a => exact h a rfl s hs
  | error e => exact .inr ⟨e, s, rfl, hs, he e rfl⟩

theorem stays_ite {c : Prop} [Decidable c] {act other : Act R σ α} (h : c → Stays F I act Q)
    (h' : ¬ c → Stays F I other Q) : Stays F I (if c then act else other) Q := by
  split
  · exact h ‹_›
  · exact h' ‹_›

theorem stays_zoom {get : σ → τ} {put : σ → τ → σ} {act : Act R τ α} {J : τ → Prop}
    (h : Stays F J act Q) (hget : ∀ s, I s → J (get s)) (hput : ∀ s t, I s → J t → I (put s t)) :
    Stays F I (zoom get put act) Q := by
  intro s hs
  rcases h (get s) (hget s hs) with ⟨a, t, ha, ht, hans⟩ | ⟨e, t, he, ht, hfault⟩
  · exact .inl ⟨a, put s t, zoom_of_ok ha, hput s t hs ht, hans⟩
  · exact .inr ⟨e, put s t, zoom_of_error he, hput s t hs ht, hfault⟩

end Safety

section Agreements

variable {ρ υ : Type}

/-- From related states the two actions give the same answer or stop with the same fault, and the
states they leave are related. -/
def Agree (P : σ → τ → Prop) (act : Act R σ α) (other : Act R τ α) : Prop :=
  ∀ s t, P s t → (act.split s).1 = (other.split t).1 ∧ P (act.after s) (other.after t)

variable {P : σ → τ → Prop} {act : Act R σ α} {other : Act R τ α}

theorem split_of_ok {s t : σ} {a : α} (h : act s = .ok a t) : act.split s = (.ok a, t) := by
  unfold split
  rw [h]

theorem exists_of_split {s : σ} {a : α} (h : (act.split s).1 = .ok a) : ∃ t, act s = .ok a t := by
  unfold split at h
  cases hact : act s with
  | ok b t =>
      rw [hact] at h
      cases h
      exact ⟨t, rfl⟩
  | error e t =>
      rw [hact] at h
      cases h

theorem split_of_error {s t : σ} {e : Fault R} (h : act s = .error e t) :
    act.split s = (.error e, t) := by
  unfold split
  rw [h]

theorem split_zoom {get : σ → τ} {put : σ → τ → σ} {act : Act R τ α} {s : σ} :
    (zoom get put act).split s = ((act.split (get s)).1, put s (act.split (get s)).2) := by
  cases h : act (get s) with
  | ok a t => rw [split_of_ok h, split_of_ok (zoom_of_ok h)]
  | error e t => rw [split_of_error h, split_of_error (zoom_of_error h)]

/-- Where the first action answers the other one gives the same answer. -/
theorem Agree.of_ok (h : Agree P act other) {s s' : σ} {t : τ} {a : α} (hst : P s t)
    (hs : act s = .ok a s') : ∃ t', other t = .ok a t' ∧ P s' t' := by
  obtain ⟨hanswer, hafter⟩ := h s t hst
  rw [after_of_ok hs] at hafter
  rw [split_of_ok hs] at hanswer
  cases ht : other t with
  | ok b t' =>
      rw [split_of_ok ht] at hanswer
      rw [after_of_ok ht] at hafter
      cases hanswer
      exact ⟨t', rfl, hafter⟩
  | error e t' =>
      rw [split_of_error ht] at hanswer
      cases hanswer

/-- Where the first action stops the other one stops with the same fault. -/
theorem Agree.of_error (h : Agree P act other) {s s' : σ} {t : τ} {e : Fault R} (hst : P s t)
    (hs : act s = .error e s') : ∃ t', other t = .error e t' ∧ P s' t' := by
  obtain ⟨hanswer, hafter⟩ := h s t hst
  rw [after_of_error hs] at hafter
  rw [split_of_error hs] at hanswer
  cases ht : other t with
  | ok b t' =>
      rw [split_of_ok ht] at hanswer
      cases hanswer
  | error e' t' =>
      rw [split_of_error ht] at hanswer
      rw [after_of_error ht] at hafter
      cases hanswer
      exact ⟨t', rfl, hafter⟩

/-- Two actions agree if they answer together and stop together. -/
theorem agree_of_cases
    (hok : ∀ s t a s', P s t → act s = .ok a s' → ∃ t', other t = .ok a t' ∧ P s' t')
    (herror : ∀ s t e s', P s t → act s = .error e s' →
      ∃ t', other t = .error e t' ∧ P s' t') : Agree P act other := by
  intro s t hst
  cases hs : act s with
  | ok a s' =>
      obtain ⟨t', ht, hst'⟩ := hok s t a s' hst hs
      rw [split_of_ok hs, split_of_ok ht, after_of_ok hs, after_of_ok ht]
      exact ⟨rfl, hst'⟩
  | error e s' =>
      obtain ⟨t', ht, hst'⟩ := herror s t e s' hst hs
      rw [split_of_error hs, split_of_error ht, after_of_error hs, after_of_error ht]
      exact ⟨rfl, hst'⟩

/-- An action agrees with itself from the same state. -/
theorem agree_refl (act : Act R σ α) : Agree (· = ·) act act := by
  rintro s _ rfl
  exact ⟨rfl, rfl⟩

theorem agree_pure (a : α) : Agree P (pure a : Act R σ α) (pure a) := fun _ _ h => ⟨rfl, h⟩

theorem agree_ofExcept (x : Except (Fault R) α) : Agree P (ofExcept x) (ofExcept x) := by
  intro s t h
  cases x with
  | ok a => exact ⟨rfl, h⟩
  | error e => exact ⟨rfl, h⟩

theorem agree_modify {f : σ → σ} {g : τ → τ} (h : ∀ s t, P s t → P (f s) (g t)) :
    Agree P (modify f : Act R σ PUnit) (modify g) := fun s t hst => ⟨rfl, h s t hst⟩

theorem agree_bind {f : α → Act R σ β} {g : α → Act R τ β} (h : Agree P act other)
    (hf : ∀ a, Agree P (f a) (g a)) : Agree P (act >>= f) (other >>= g) := by
  refine agree_of_cases (fun s t b s' hst hs => ?_) (fun s t e s' hst hs => ?_)
  · obtain ⟨a, s₁, ha, hs⟩ := bind_eq_ok.mp hs
    obtain ⟨t₁, ht, hst⟩ := h.of_ok hst ha
    rw [bind_of_ok ht]
    exact (hf a).of_ok hst hs
  · cases ha : act s with
    | ok a s₁ =>
        rw [bind_of_ok ha] at hs
        obtain ⟨t₁, ht, hst⟩ := h.of_ok hst ha
        rw [bind_of_ok ht]
        exact (hf a).of_error hst hs
    | error e' s₁ =>
        rw [bind_of_error ha] at hs
        cases hs
        obtain ⟨t₁, ht, hst⟩ := h.of_error hst ha
        exact ⟨t₁, bind_of_error ht, hst⟩

theorem agree_map (f : α → β) (h : Agree P act other) : Agree P (f <$> act) (f <$> other) := by
  rw [map_eq_pure_bind, map_eq_pure_bind]
  exact agree_bind h fun a => agree_pure (f a)

/-- Sequences that begin by reading the state may use that the states are related. -/
theorem agree_get_bind {f : σ → Act R σ β} {g : τ → Act R τ β}
    (h : ∀ s t, P s t → Agree P (f s) (g t)) : Agree P (get >>= f) (get >>= g) :=
  fun s t hst => h s t hst s t hst

theorem agree_ite {c : Prop} [Decidable c] {act' : Act R σ α} {other' : Act R τ α}
    (h : Agree P act other) (h' : Agree P act' other') :
    Agree P (if c then act else act') (if c then other else other') := by
  split
  · exact h
  · exact h'

/-- What an action keeps from a state holds of the same state on both sides. -/
theorem Keeps.agree {I : σ → Prop} {act : Act R σ α} (h : Keeps I act) :
    Agree (fun s t => s = t ∧ I s) act act := by
  rintro s _ ⟨rfl, hs⟩
  exact ⟨rfl, rfl, h s hs⟩

theorem Agree.keeps {I : σ → Prop} {act : Act R σ α}
    (h : Agree (fun s t => s = t ∧ I s) act act) : Keeps I act := fun s hs => (h s s ⟨rfl, hs⟩).2.2

theorem agree_zoom {get : σ → ρ} {put : σ → ρ → σ} {get' : τ → υ} {put' : τ → υ → τ}
    {Q : ρ → υ → Prop} {act : Act R ρ α} {other : Act R υ α} (h : Agree Q act other)
    (hget : ∀ s t, P s t → Q (get s) (get' t))
    (hput : ∀ s t x y, P s t → Q x y → P (put s x) (put' t y)) :
    Agree P (zoom get put act) (zoom get' put' other) := by
  refine agree_of_cases (fun s t a s' hst hs => ?_) (fun s t e s' hst hs => ?_)
  · obtain ⟨x, hx, rfl⟩ := zoom_eq_ok.mp hs
    obtain ⟨y, hy, hxy⟩ := h.of_ok (hget s t hst) hx
    exact ⟨_, zoom_of_ok hy, hput s t x y hst hxy⟩
  · obtain ⟨x, hx, rfl⟩ := zoom_eq_error.mp hs
    obtain ⟨y, hy, hxy⟩ := h.of_error (hget s t hst) hx
    exact ⟨_, zoom_of_error hy, hput s t x y hst hxy⟩

end Agreements

end Act
end MipPump
