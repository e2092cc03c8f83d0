import MipPump.Proofs.RestingBounds

/-!
# Work on a queue of rows

What the propagation of single rows does to boxes, the work on a queue of rows does to the box of a
propagator.  The module speaks of any property `I` of boxes and of any faults `F`, so that it serves
propagation around a point, which never stops, as well as propagation in bounds, which may find a
domain empty.

* `Propagator.Works F I n p`: each row of `p` keeps the boxes in `I`, or stops with a fault in `F`,
  and the rows of `n` variables are known.
* `Propagator.Holds I p q`: the propagator `q` has the rows of `p` and a box in `I`.
* `tries_drain`: the work on a queue, by induction on the visits.
* `tries_fix`: fixing a variable.
* `build_eq_ok`: the rows of a propagator that was built.
-/

namespace MipPump
namespace Propagation

variable {R : Type}

section Meaning

variable [Arith R]

/-- Each row of the propagator keeps the boxes in `I` or stops with a fault in `F`, and every one of
`n` variables has its rows. -/
structure Propagator.Works (F : Fault R → Prop) (I : Box R → Prop) (n : Nat) (p : Propagator R) :
    Prop where
  rows : ∀ row ∈ p.rows,
    Act.Tries F I (row.propagate p.limits) fun ks b => I b ∧ ∀ k ∈ ks, k < n
  rowsOf : p.rowsOf.length = n
  numbers : ∀ ns ∈ p.rowsOf, ∀ r ∈ ns, r < p.rows.length

/-- The propagator `q` has the rows of `p` and a box in `I`. -/
structure Propagator.Holds (I : Box R → Prop) (p q : Propagator R) : Prop where
  same : p.SameRows q
  inside : I q.box

/-- All changes are in the relation `C` of a variable and its bounds. -/
def Changes.All (C : Nat → R → R → Prop) (changes : Changes R) : Prop :=
  ∀ c ∈ changes, C c.1 c.2.1 c.2.2

/-- The rows that wait are numbered below `m`. -/
def Queue.Below (m : Nat) (q : Queue) : Prop := ∀ r ∈ q.pending, ∃ n : Nat, r = n ∧ n < m

/-- The box that a propagator happens to have does not matter. -/
theorem Propagator.Works.of_sameRows {F : Fault R → Prop} {I : Box R → Prop} {n : Nat}
    {p q : Propagator R} (h : p.Works F I n) (hq : p.SameRows q) : q.Works F I n := by
  obtain ⟨_, rfl⟩ := hq
  exact ⟨h.rows, h.rowsOf, h.numbers⟩

end Meaning

section Queues

variable {C : Nat → R → R → Prop} {changes : Changes R} {m : Nat} {q : Queue}

theorem Changes.All.note (h : changes.All C) {k : Nat} {l u : R} (hk : C k l u) :
    (changes.note k l u).All C := by
  unfold Changes.note
  split
  · intro c hc
    obtain ⟨c', hc', rfl⟩ := List.mem_map.mp hc
    by_cases hck : c'.1 == k
    · rw [if_pos hck]
      exact hk
    · rw [if_neg hck]
      exact h c' hc'
  · intro c hc
    rcases List.mem_append.mp hc with hc | hc
    · exact h c hc
    · rw [List.mem_singleton.mp hc]
      exact hk

theorem Queue.pending_push (q : Queue) (r : Int) :
    (q.push r).pending = q.pending ∨ (q.push r).pending = q.pending ++ [r] := by
  unfold Queue.push
  split
  · exact .inl rfl
  · exact .inr rfl

/-- The rows that wait after others were added wait behind those that waited before. -/
theorem Queue.pending_pushAll (q : Queue) (r : Int) (rows : List Nat) :
    ∃ news : List Int, (∀ s ∈ news, ∃ n ∈ rows, s = (n : Int)) ∧
      (rows.foldl (fun (q : Queue) (other : Nat) => if (other : Int) == r then q else q.push other)
        q).pending = q.pending ++ news := by
  induction rows generalizing q with
  | nil => exact ⟨[], by simp, (List.append_nil _).symm⟩
  | cons n rows ih =>
      rw [List.foldl_cons]
      obtain ⟨news, hnews, hpending⟩ := ih (if (n : Int) == r then q else q.push n)
      have hrest : ∀ s ∈ news, ∃ n' ∈ n :: rows, s = (n' : Int) := fun s hs =>
        (hnews s hs).imp fun n' hn' => ⟨List.mem_cons_of_mem _ hn'.1, hn'.2⟩
      rw [hpending]
      split
      · exact ⟨news, hrest, rfl⟩
      · rcases q.pending_push n with hsame | hadded
        · exact ⟨news, hrest, by rw [hsame]⟩
        · refine ⟨(n : Int) :: news, fun s hs => ?_, by rw [hadded, List.append_assoc]; rfl⟩
          rcases List.mem_cons.mp hs with rfl | hs
          · exact ⟨n, List.mem_cons_self .., rfl⟩
          · exact hrest s hs

theorem Queue.Below.pushAll (h : q.Below m) (r : Int) {rows : List Nat} (hrows : ∀ n ∈ rows, n < m) :
    (rows.foldl (fun (q : Queue) (other : Nat) => if (other : Int) == r then q else q.push other)
      q).Below m := by
  obtain ⟨news, hnews, hpending⟩ := q.pending_pushAll r rows
  intro s hs
  rw [hpending] at hs
  rcases List.mem_append.mp hs with hs | hs
  · exact h s hs
  · obtain ⟨n, hn, rfl⟩ := hnews s hs
    exact ⟨n, rfl, hrows n hn⟩

end Queues

section Work

variable [Arith R] {F : Fault R → Prop} {I : Box R → Prop} {C : Nat → R → R → Prop} {n : Nat}
  {p : Propagator R}

/-- To follow a tightened variable keeps changes and queue in order. -/
theorem exists_follow (hp : p.Works F I n) {q : Propagator R} (hq : p.Holds I q)
    (hread : ∀ b, I b → ∀ k < n, ∃ l u, b.bounds k = .ok (l, u) ∧ C k l u) (r : Int)
    {work : Changes R × Queue} (hwork : work.1.All C ∧ work.2.Below p.rows.length) {k : Nat}
    (hk : k < n) :
    ∃ work', q.follow r work k = .ok work' ∧ work'.1.All C ∧ work'.2.Below p.rows.length := by
  obtain ⟨box, rfl⟩ := hq.same
  obtain ⟨l, u, hbounds, hchange⟩ := hread box hq.inside k hk
  have hk' : k < p.rowsOf.length := by rw [hp.rowsOf]; exact hk
  have hrows : (Vec.get p.rowsOf k : Except (Fault R) (List Nat)) = .ok p.rowsOf[k] :=
    Vec.get_eq_ok.mpr (Vec.at?_of_getElem? (List.getElem?_eq_getElem hk'))
  refine ⟨(_, _), ?_, hwork.1.note hchange,
    hwork.2.pushAll r (hp.numbers _ (List.getElem_mem hk'))⟩
  unfold Propagator.follow
  rw [Act.exceptBind_of_ok hbounds]
  exact Act.exceptBind_of_ok hrows

theorem tries_visit (hp : p.Works F I n) {r : Int} (hr : Vec.InRange p.rows.length r) :
    Act.Tries F (p.Holds I) (Propagator.visit r) fun ks q => p.Holds I q ∧ ∀ k ∈ ks, k < n := by
  obtain ⟨i, rfl, hi⟩ := hr
  unfold Propagator.visit
  refine Act.tries_get_bind fun q hq => ?_
  obtain ⟨box, rfl⟩ := hq.same
  have hget : (Vec.get p.rows (i : Int) : Except (Fault R) _) = .ok p.rows[i] :=
    Vec.get_eq_ok.mpr (Vec.at?_of_getElem? (List.getElem?_eq_getElem hi))
  refine Act.tries_of_ok_bind hget (Act.tries_zoom (hp.rows _ (List.getElem_mem hi)) ?_ ?_)
  · rintro s rfl
    exact hq.inside
  · rintro s ks b rfl ⟨hb, hks⟩
    exact ⟨⟨⟨b, rfl⟩, hb⟩, hks⟩

/-- The work on a queue, by induction on the visits that are left. -/
theorem tries_drain (hp : p.Works F I n)
    (hread : ∀ b, I b → ∀ k < n, ∃ l u, b.bounds k = .ok (l, u) ∧ C k l u) (fuel : Nat)
    {changes : Changes R} {q : Queue} (hchanges : changes.All C) (hq : q.Below p.rows.length) :
    Act.Tries F (p.Holds I) (Propagator.drain fuel changes q)
      fun changes s => changes.All C ∧ p.Holds I s := by
  induction fuel generalizing changes q with
  | zero => exact Act.tries_pure fun s hs => ⟨hchanges, hs⟩
  | succ fuel ih =>
      unfold Propagator.drain
      cases hpending : q.pending with
      | nil => exact Act.tries_pure fun s hs => ⟨hchanges, hs⟩
      | cons r rest =>
          have hfirst := hq r (by rw [hpending]; exact List.mem_cons_self ..)
          refine Act.tries_bind (tries_visit hp hfirst) fun tightened => Act.tries_get_bind ?_
          rintro s ⟨hs, htightened⟩
          let waiting : Queue := { pending := rest, queued := q.queued.filter (· != r) }
          have hwaiting : waiting.Below p.rows.length :=
            fun r' hr' => hq r' (by rw [hpending]; exact List.mem_cons_of_mem _ hr')
          obtain ⟨work, hwork, hchanges', hq'⟩ := Vec.exists_foldlM (b := (changes, waiting))
            (fun work hwork k hk => exists_follow hp hs hread r hwork (htightened k hk))
            ⟨hchanges, hwaiting⟩
          refine Act.tries_of_ok_bind hwork ((ih hchanges' hq').mono ?_ fun _ _ h => h)
          rintro _ rfl
          exact hs

theorem tries_propagateRows (hp : p.Works F I n)
    (hread : ∀ b, I b → ∀ k < n, ∃ l u, b.bounds k = .ok (l, u) ∧ C k l u) {rows : List Int}
    (hrows : ∀ r ∈ rows, Vec.InRange p.rows.length r) :
    Act.Tries F (p.Holds I) (Propagator.propagate rows)
      fun changes q => changes.All C ∧ p.Holds I q := by
  unfold Propagator.propagate
  refine Act.tries_get_bind fun s hs => ?_
  have hnone : Changes.All C [] := fun c hc => by cases hc
  refine (tries_drain hp hread _ hnone (q := { pending := rows, queued := rows }) hrows).mono ?_
    fun _ _ h => h
  rintro _ rfl
  exact hs

/-- Fixing a variable keeps the boxes that setting it keeps, if a value outside its domain is one of
the faults to expect. -/
theorem tries_fix (hp : p.Works F I n)
    (hread : ∀ b, I b → ∀ k < n, ∃ l u, b.bounds k = .ok (l, u) ∧ C k l u) {i : Int}
    (hi : ∃ ns ∈ p.rowsOf, Vec.at? p.rowsOf i = some ns) (value : R)
    (hfix : ∀ b, I b → ∃ l u box, b.bounds i = .ok (l, u) ∧
      (value < l - p.limits.tol ∨ u + p.limits.tol < value → F (.emptiedDomain i l u)) ∧
      b.set i value value = .ok box ∧ I box) :
    Act.Tries F (p.Holds I) (Propagator.fix i value)
      fun changes q => changes.All C ∧ p.Holds I q := by
  obtain ⟨ns, hmem, hns⟩ := hi
  unfold Propagator.fix
  refine Act.tries_get_bind fun q hq => ?_
  obtain ⟨start, rfl⟩ := hq.same
  obtain ⟨l, u, box, hbounds, houtside, hset, hbox⟩ := hfix start hq.inside
  refine Act.tries_of_ok_bind hbounds ?_
  dsimp only
  split
  · rename_i hout
    rw [Bool.or_eq_true, decide_eq_true_eq, decide_eq_true_eq] at hout
    exact fun s _ => .inr ⟨_, s, rfl, houtside hout⟩
  · refine Act.tries_of_ok_bind hset ?_
    refine Act.tries_bind (Q := fun _ => p.Holds I) ?_ fun _ =>
      Act.tries_of_ok_bind (Vec.get_eq_ok.mpr hns) (tries_propagateRows hp hread ?_)
    · rintro _ rfl
      exact .inl ⟨_, _, rfl, ⟨box, rfl⟩, hbox⟩
    · intro r hr
      obtain ⟨number, hnumber, rfl⟩ := List.mem_map.mp hr
      exact ⟨number, rfl, hp.numbers ns hmem number hnumber⟩

end Work

section Building

variable [Arith R] {rows : Rows R} {box : Box R} {kinds : List Kind} {tol epsilon : R}
  {maxRounds : Int} {p : Propagator R}

/-- What is known of a propagator that was built: its rows, the numbers of the rows of each variable,
and that the rows are about these variables. -/
theorem build_eq_ok (h : Propagator.build rows box kinds tol epsilon maxRounds = .ok p) :
    collectRows rows 0 rows.coefficients = .ok p.rows ∧
      p.limits = { integral := kinds.map (·.isIntegral), tol, epsilon } ∧
      p.rowsOf.length = box.lb.length ∧
      (∀ ns ∈ p.rowsOf, ∀ r ∈ ns, r < p.rows.length) ∧
      ∀ row ∈ p.rows, ∀ term ∈ row.terms, term.1 < box.lb.length := by
  unfold Propagator.build at h
  dsimp only at h
  split at h
  · cases h
  · obtain ⟨upper, hupper, h⟩ := Act.exceptBind_eq_ok.mp h
    split at h
    · cases h
    · rename_i hinside
      cases h
      refine ⟨hupper, rfl, by simp, fun ns hns r hr => ?_, fun row hrow term hterm => ?_⟩
      · obtain ⟨j, -, rfl⟩ := List.mem_map.mp hns
        obtain ⟨pair, hpair, rfl⟩ := List.mem_map.mp hr
        have hlt := List.snd_lt_of_mem_zipIdx (List.mem_filter.mp hpair).1
        omega
      · refine Nat.not_le.mp fun hle => hinside (List.any_eq_true.mpr ⟨row, hrow, ?_⟩)
        exact List.any_eq_true.mpr ⟨term, hterm, decide_eq_true hle⟩

end Building

end Propagation
end MipPump
