import MipPump.Proofs.BoundedPropagation
import MipPump.Proofs.FixedVariables
import MipPump.Proofs.SoundPropagation

/-!
# Propagation never cuts off a solution

A propagator may be handed any list of row numbers, in any box, and its queue is capped.  None of
this matters to a point that satisfies the rows: it stays in the box, and no domain is found empty.
The statements are about single calls, so they hold of any sequence of calls.

* `Rows.Solution rows kinds n x`: the point `x` satisfies the rows and has integers where they are
  asked for.
* `stays_drain`: the work on a queue around a point.  The only faults are a row number without a row
  and an index that no machine word holds.
* `stays_fix`: fixing a variable to its value at the point.
* `keeps_solutions`: both for the propagator of a problem, and what follows if fixing a variable
  finds a domain empty.
-/

namespace MipPump

open ExtRat

section Meaning

/-- The point satisfies the rows exactly and has an integer for every integer variable. -/
structure Rows.Solution (rows : Rows ExtRat) (kinds : List Kind) (n : Nat) (x : List ℚ) : Prop where
  length : x.length = n
  rows : rows.SatisfiedBy x
  whole : List.Forall₂ (fun k (q : ℚ) => Kind.isIntegral k = true → ∃ n : ℤ, q = n) kinds x

/-- The faults that are left around a point with `n` entries: a row number without a row, if `C`
allows for one, and an index that no machine word holds. -/
def Fault.Stray {R : Type} (C : Prop) (n : Nat) (e : Fault R) : Prop :=
  (e = .noSuchEntry ∧ C) ∨ e.BeyondWords n

/-- An empty domain is none of them. -/
theorem Fault.Stray.not_emptied {R : Type} {C : Prop} {n : Nat} {e : Fault R} (h : e.Stray C n) :
    ¬ e.Emptied := by
  rintro ⟨j, lb, ub, rfl⟩
  rcases h with ⟨h, -⟩ | ⟨h, -⟩ <;> cases h

end Meaning

namespace Propagation

variable {x : List ℚ} {m : Nat} {C : Prop}

section Visits

/-- The rows of a propagator around a point do not depend on its box. -/
theorem Propagator.Around.withBox {p : Propagator ExtRat} (h : p.Around x m) {box : Box ExtRat}
    (hbox : box.Contains x) : Propagator.Around x m { p with box } :=
  ⟨h.count, h.rows, h.rowsOf, h.numbers, h.limits, hbox⟩

/-- One visit, of any number: a number without a row is a fault of its own. -/
theorem stays_visit {r : Int} (hr : Vec.position? m r = none → C) :
    Act.Stays (Fault.Stray C x.length) (Propagator.Around x m) (Propagator.visit r)
      fun ks => ∀ k ∈ ks, k < x.length := by
  unfold Propagator.visit Propagator.onBox
  refine Act.stays_get_bind fun p hp => Act.stays_ofExcept_bind (fun row hrow => ?_) fun e he => ?_
  · have hmem : row ∈ p.rows := Vec.mem_of_at? (Vec.get_eq_ok.mp hrow)
    refine Act.stays_zoom ((stays_propagate hp.limits (hp.rows row hmem)).mono (fun _ => .inr)
      fun _ hks => hks) (fun _ hq => hq.inside) fun _ _ hq hb => hq.withBox hb
  · exact .inl ⟨Vec.get_eq_error he, hr (hp.count ▸ Vec.position?_of_get_error he)⟩

/-- To follow a tightened variable adds numbers of rows only. -/
theorem follow_cases {p : Propagator ExtRat} (hp : p.Around x m) (r : Int)
    {work : Changes ExtRat × Queue} (hwork : ∀ s ∈ work.2.pending, Vec.position? m s = none → C)
    {k : Nat} (hk : k < x.length) :
    (∃ work', p.follow r work k = .ok work' ∧
      ∀ s ∈ work'.2.pending, Vec.position? m s = none → C) ∨
      ∃ e, p.follow r work k = .error e ∧ e.Stray C x.length := by
  have hk' : k < p.rowsOf.length := hp.rowsOf ▸ hk
  have hrows : (Vec.get p.rowsOf k : Except (Fault ExtRat) (List Nat)) = .ok p.rowsOf[k] :=
    Vec.get_eq_ok.mpr (Vec.at?_of_getElem? (List.getElem?_eq_getElem hk'))
  unfold Propagator.follow
  rcases hp.inside.bounds_cases (Vec.at?_of_getElem? (List.getElem?_eq_getElem hk)) with
    ⟨l, u, hbounds, -⟩ | ⟨e, hbounds, hlong⟩
  · rw [Act.exceptBind_of_ok hbounds]
    dsimp only
    rw [Act.exceptBind_of_ok hrows]
    refine .inl ⟨_, rfl, fun s hs => ?_⟩
    obtain ⟨news, hnews, hpending⟩ := work.2.pending_pushAll r p.rowsOf[k]
    dsimp only at hs
    rw [hpending] at hs
    rcases List.mem_append.mp hs with hs | hs
    · exact hwork s hs
    · obtain ⟨n, hn, rfl⟩ := hnews s hs
      have hlt := hp.numbers _ (List.getElem_mem hk') n hn
      intro hnone
      rw [Vec.position?_natCast hlt] at hnone
      cases hnone
  · rw [hbounds]
    exact .inr ⟨e, rfl, .inr hlong⟩

end Visits

section Queues

/-- The work on a queue, by induction on the visits that are left. -/
theorem stays_drain (fuel : Nat) (changes : Changes ExtRat) {q : Queue}
    (hq : ∀ r ∈ q.pending, Vec.position? m r = none → C) :
    Act.Stays (Fault.Stray C x.length) (Propagator.Around x m) (Propagator.drain fuel changes q)
      fun _ => True := by
  induction fuel generalizing changes q with
  | zero => exact Act.stays_pure trivial
  | succ fuel ih =>
      unfold Propagator.drain
      cases hpending : q.pending with
      | nil => exact Act.stays_pure trivial
      | cons r rest =>
          refine Act.stays_bind (stays_visit (hq r (by rw [hpending]; exact List.mem_cons_self ..)))
            fun tightened htightened => Act.stays_get_bind fun p hp => ?_
          let waiting : Queue := { pending := rest, queued := q.queued.filter (· != r) }
          have hwaiting : ∀ s ∈ waiting.pending, Vec.position? m s = none → C :=
            fun s hs => hq s (by rw [hpending]; exact List.mem_cons_of_mem _ hs)
          have hround := Vec.foldlM_cases (b := (changes, waiting))
            (I := fun work => ∀ s ∈ work.2.pending, Vec.position? m s = none → C)
            (fun work hwork k hk => follow_cases hp r hwork (htightened k hk)) hwaiting
          refine Act.stays_ofExcept_bind (fun work hwork => ?_) fun e he => ?_
          · rcases hround with ⟨work', hok, hall⟩ | ⟨e, herror, -⟩
            · rw [hok] at hwork
              cases hwork
              exact ih _ hall
            · rw [herror] at hwork
              cases hwork
          · rcases hround with ⟨work', hok, -⟩ | ⟨e', herror, hfault⟩
            · rw [hok] at he
              cases he
            · rw [herror] at he
              cases he
              exact hfault

/-- Any list of row numbers. -/
theorem stays_propagateRows (numbers : List Int) :
    Act.Stays (Fault.Stray (∃ r ∈ numbers, Vec.position? m r = none) x.length)
      (Propagator.Around x m) (Propagator.propagate numbers) fun _ => True := by
  unfold Propagator.propagate
  exact Act.stays_get_bind fun p _ => stays_drain _ _ fun r hr hnone => ⟨r, hr, hnone⟩

/-- Fixing a variable to its value at the point. -/
theorem stays_fix {i : Int} {v : ℚ} (hv : Vec.at? x i = some v) :
    Act.Stays (·.BeyondWords x.length) (Propagator.Around x m) (Propagator.fix i (fin v))
      fun _ => True := by
  have hself : fin v ≤ fin v := (fin_le_fin v v).mpr (le_refl v)
  unfold Propagator.fix
  refine Act.stays_get_bind fun p hp => ?_
  obtain ⟨e, he, hpos⟩ := hp.limits.tol
  refine Act.stays_ofExcept_bind (fun bounds hbounds => ?_) fun fault hfault => ?_
  · rcases hp.inside.bounds_cases hv with ⟨l, u, hread, hl, hu⟩ | ⟨_, hread, -⟩
    · rw [hread] at hbounds
      cases hbounds
      dsimp only
      rw [if_neg (by simp [he, not_lt_sub_of_between hpos hl hself,
        not_add_lt_of_between hpos hu hself])]
      obtain ⟨box, hset, hbox⟩ := hp.inside.set_of_bounds hread hv hself hself
      rw [hset]
      refine Act.stays_ofExcept_bind (fun box' heq => ?_) fun _ h => by cases h
      cases heq
      refine Act.stays_bind (Act.stays_set (hp.withBox hbox) (Q := fun _ => True) trivial)
        fun _ _ => ?_
      refine Act.stays_ofExcept_bind (fun ns hns => ?_) fun fault hfault => ?_
      · refine (stays_propagateRows _).mono (fun _ hfault => ?_) fun _ h => h
        rcases hfault with ⟨-, r, hr, hnone⟩ | hlong
        · obtain ⟨n, hn, rfl⟩ := List.mem_map.mp hr
          have hlt := hp.numbers ns (Vec.mem_of_at? (Vec.get_eq_ok.mp hns)) n hn
          exact absurd (hnone.symm.trans (Vec.position?_natCast hlt)) (by simp)
        · exact hlong
      · have hnone := Vec.position?_of_get_error hfault
        obtain ⟨k, hk, -⟩ := Vec.at?_eq_some.mp hv
        rw [hp.rowsOf, hk] at hnone
        cases hnone
    · rw [hread] at hbounds
      cases hbounds
  · rcases hp.inside.bounds_cases hv with ⟨_, _, hread, -⟩ | ⟨_, hread, hlong⟩
    · rw [hread] at hfault
      cases hfault
    · rw [hread] at hfault
      cases hfault
      exact hlong

end Queues

section Calls

/-- A call on the propagator `p` leaves the point `x` in the box and finds no domain empty. -/
structure Propagator.Spares {α : Type} (x : List ℚ) (C : Prop)
    (call : Act ExtRat (Propagator ExtRat) α) (p : Propagator ExtRat) : Prop where
  inside : (call.after p).box.Contains x
  faults : ∀ e p', call p = .error e p' → ¬ e.Emptied ∧ e.Stray C x.length

theorem spares_of_stays {α : Type} {call : Act ExtRat (Propagator ExtRat) α} {Q : α → Prop}
    (h : Act.Stays (Fault.Stray C x.length) (Propagator.Around x m) call Q)
    {p : Propagator ExtRat} (hp : p.Around x m) : p.Spares x C call where
  inside := (h.keeps p hp).inside
  faults := fun _ _ he => ⟨(h.of_error hp he).not_emptied, h.of_error hp he⟩

variable {rows : Rows ExtRat} {start : Box ExtRat} {kinds : List Kind} {tol epsilon : ExtRat}
  {maxRounds : Int} {p q : Propagator ExtRat}

/-- **Propagation never cuts off a solution.**  In whatever box the propagator of a problem is: every
solution in the box is spared by the propagation of any list of row numbers, and by fixing any
variable to its value at the solution, which afterwards is both bounds of the variable.  So a
variable that cannot be fixed to a value, because some domain becomes empty, has this value at no
solution in the box. -/
theorem keeps_solutions (hbuild : Propagator.build rows start kinds tol epsilon maxRounds = .ok p)
    (htol : ∃ e : ℚ, tol = fin e ∧ 0 < e) (hq : p.SameRows q) :
    (∀ x, rows.Solution kinds start.lb.length x → q.box.Contains x →
      (∀ numbers : List Int, q.Spares x (∃ r ∈ numbers, Vec.at? p.rows r = none)
        (Propagator.propagate numbers)) ∧
      ∀ i v, Vec.at? x i = some v → q.Spares x False (Propagator.fix i (fin v)) ∧
        ∀ changes q', Propagator.fix i (fin v) q = .ok changes q' →
          q'.box.bounds i = .ok (fin v, fin v)) ∧
    ∀ i v e q', Propagator.fix i v q = .error e q' → e.Emptied →
      ∀ x, rows.Solution kinds start.lb.length x → q.box.Contains x →
        ∀ u, Vec.at? x i = some u → v ≠ fin u := by
  obtain ⟨box, rfl⟩ := hq
  have haround (x : List ℚ) (hx : rows.Solution kinds start.lb.length x) (hin : box.Contains x) :
      Propagator.Around x p.rows.length { p with box } := by
    obtain ⟨m, hm⟩ := around_of_build hbuild hx.rows hx.length.symm hx.whole htol hin
    exact hm.count ▸ hm
  have hfix (x : List ℚ) (hx : rows.Solution kinds start.lb.length x) (hin : box.Contains x)
      (i : Int) (v : ℚ) (hv : Vec.at? x i = some v) :
      Propagator.Spares x False (Propagator.fix i (fin v)) { p with box } :=
    spares_of_stays ((stays_fix hv).mono (fun _ => .inr) fun _ h => h) (haround x hx hin)
  refine ⟨fun x hx hin => ⟨fun numbers => ?_, fun i v hv => ⟨hfix x hx hin i v hv, ?_⟩⟩, ?_⟩
  · have hmissing : (∃ r ∈ numbers, Vec.at? p.rows r = none) ↔
        ∃ r ∈ numbers, Vec.position? p.rows.length r = none :=
      exists_congr fun r => and_congr_right fun _ => Vec.at?_eq_none
    rw [hmissing]
    exact spares_of_stays (stays_propagateRows numbers) (haround x hx hin)
  · intro changes q' hrun
    obtain ⟨e, he, -⟩ := (haround x hx hin).limits.tol
    exact (pinned_of_fix he (hin.lower.length_eq.trans hin.upper.length_eq.symm) hrun).2.2
  · rintro i _ e q' hrun hempty x hx hin u hu rfl
    exact ((hfix x hx hin i u hu).faults e q' hrun).1 hempty

/-- The rows `x + 2y ≤ 7` and `x - z = 1`. -/
def mixedRows : Rows ExtRat :=
  { coefficients := [[.fin 1, .fin 2, .fin 0], [.fin 1, .fin 0, .fin (-1)]]
    senses := [.atMost, .equal]
    rhs := [.fin 7, .fin 1] }

/-- The solution `(3, 1/2, 2)` is spared in a box that is open on both sides, also if rows are asked
for that do not exist. -/
theorem keeps_solutions_mixed :
    let start : Box ExtRat := ⟨[.fin 0, .negInf, .fin 0], [.posInf, .posInf, .posInf]⟩
    let box : Box ExtRat := ⟨[.fin 2, .negInf, .fin 0], [.posInf, .posInf, .fin 4]⟩
    let kinds : List Kind := [.integer, .continuous, .integer]
    let x : List ℚ := [3, 1 / 2, 2]
    ∃ p, Propagator.build mixedRows start kinds (fin (1 / 1000000)) (fin (1 / 1000)) 20 = .ok p ∧
      (∃ e : ℚ, fin (1 / 1000000) = fin e ∧ 0 < e) ∧ p.SameRows { p with box } ∧
      mixedRows.Solution kinds start.lb.length x ∧ box.Contains x ∧
      Propagator.Spares x (∃ r ∈ [1, -3, 0, 5], Vec.at? p.rows r = none)
        (Propagator.propagate [1, -3, 0, 5]) { p with box } ∧
      ∀ changes q', Propagator.fix (-3) (fin 3) { p with box } = .ok changes q' →
        q'.box.bounds (-3) = .ok (fin 3, fin 3) := by
  intro start box kinds x
  obtain ⟨p, hp⟩ : ∃ p, Propagator.build mixedRows start kinds (fin (1 / 1000000))
      (fin (1 / 1000)) 20 = .ok p := Act.exists_ok_of_isOk (by decide +kernel)
  have hsolution : mixedRows.Solution kinds start.lb.length x := by
    refine ⟨rfl, fun i row hrow => ?_, ?_⟩
    · match i with
      | 0 =>
          cases hrow
          exact ⟨[1, 2, 0], .atMost, fin 7, rfl, rfl, rfl, rfl, by
            show fin (dotRat [1, 2, 0] x) ≤ fin 7
            decide +kernel⟩
      | 1 =>
          cases hrow
          exact ⟨[1, 0, -1], .equal, fin 1, rfl, rfl, rfl, rfl, by
            show fin (dotRat [1, 0, -1] x) = fin 1
            decide +kernel⟩
      | i + 2 => cases hrow
    · exact .cons (fun _ => ⟨3, by norm_num⟩)
        (.cons (fun h => by cases h) (.cons (fun _ => ⟨2, by norm_num⟩) .nil))
  have hbox : box.Contains x :=
    ⟨.cons (by decide +kernel) (.cons (by decide +kernel) (.cons (by decide +kernel) .nil)),
      .cons (by decide +kernel) (.cons (by decide +kernel) (.cons (by decide +kernel) .nil))⟩
  have htol : ∃ e : ℚ, fin (1 / 1000000) = fin e ∧ 0 < e := ⟨_, rfl, by norm_num⟩
  have hsame : p.SameRows { p with box } := ⟨box, rfl⟩
  obtain ⟨hspared, -⟩ := keeps_solutions hp htol hsame
  obtain ⟨hpropagate, hfix⟩ := hspared x hsolution hbox
  exact ⟨p, hp, htol, hsame, hsolution, hbox, hpropagate [1, -3, 0, 5], (hfix (-3) 3 rfl).2⟩

end Calls

end Propagation
end MipPump
