import MipPump.Proofs.SettledRows

/-!
# Drained queues

When no row waits any more, propagation has come to a fixpoint.  Rows that wait are the only ones
that may still have a bound to move: a row is settled by its own visit, and a bound that it moves
sends the other rows of the variable to the queue.  The row itself is not sent, and need not be.

* `Propagator.work`: the work on a queue with the rows that are left; `drain_eq_work`.
* `Propagator.Indexed`: what the rows and their numbers are like; `indexed_of_build`.
* `Propagator.Covers numbers changes q p`: the rows that propagation is about wait or are settled.
* `Propagator.Covers.visit`, `Propagator.Covers.work`: one visit, and all.

**Result.**  `drained_propagation_settles`.
-/

namespace MipPump
namespace Propagation

section Meaning

variable {R : Type} [Arith R]

/-- The work on a queue, with the rows that are left waiting at the end. -/
def Propagator.work : (fuel : Nat) → Changes R → Queue → Act R (Propagator R) (Changes R × Queue)
  | 0, changes, q => pure (changes, q)
  | fuel + 1, changes, q =>
      match q.pending with
      | [] => pure (changes, q)
      | r :: rest => do
          let tightened ← Propagator.visit r
          let p ← get
          let q : Queue := { pending := rest, queued := q.queued.filter (· != r) }
          let (changes, q) ← Act.ofExcept (tightened.foldlM (p.follow r) (changes, q))
          Propagator.work fuel changes q

/-- The propagation of the rows ends because no row waits any more. -/
def Propagator.Drains (numbers : List Int) (p : Propagator R) : Prop :=
  ∃ changes left q,
    Propagator.work p.maxVisits.toNat [] { pending := numbers, queued := numbers } p =
      .ok (changes, left) q ∧ left.pending = []

/-- The rows that a propagation is about: those it was asked for, and those of the variables that
have changed. -/
def Propagator.Concerns (numbers : List Int) (changes : Changes R) (p : Propagator R)
    (row : UpperRow R) : Prop :=
  (∃ r ∈ numbers, Vec.at? p.rows r = some row) ∨
    ∃ c ∈ changes, ∃ term ∈ row.terms, term.1 = c.1

/-- A variable occurs once in a row, and its rows are all among those listed for it. -/
structure Propagator.Indexed (p : Propagator R) : Prop where
  distinct : ∀ row ∈ p.rows, (row.terms.map (·.1)).Nodup
  listed : ∀ {k : Nat} {ns : List Nat}, p.rowsOf[k]? = some ns → ∀ {n : Nat} {row : UpperRow R},
    p.rows[n]? = some row → (∃ term ∈ row.terms, term.1 = k) → n ∈ ns

/-- Rows that are not to be added again do wait. -/
def Queue.Waiting (q : Queue) : Prop := ∀ r ∈ q.queued, r ∈ q.pending

/-- The rows that a propagation is about wait or are settled. -/
structure Propagator.Covers (numbers : List Int) (changes : Changes R) (q : Queue)
    (p : Propagator R) : Prop where
  waiting : q.Waiting
  exists_row : ∀ r ∈ numbers, r ∈ q.pending ∨ ∃ row, Vec.at? p.rows r = some row
  settled : ∀ row ∈ p.rows, p.Concerns numbers changes row →
    (∃ r ∈ q.pending, Vec.at? p.rows r = some row) ∨ row.Settled p.limits p.box

end Meaning

section Work

variable {R : Type} [Arith R] {p p' : Propagator R} {changes changes' : Changes R} {q left : Queue}

/-- The work with its rest is the work itself. -/
theorem drain_eq_work (fuel : Nat) (changes : Changes R) (q : Queue) :
    Propagator.drain fuel changes q = Prod.fst <$> Propagator.work fuel changes q := by
  induction fuel generalizing changes q with
  | zero => rfl
  | succ fuel ih =>
      unfold Propagator.drain Propagator.work
      cases q.pending with
      | nil => rfl
      | cons r rest =>
          simp only [map_bind]
          simp only [ih]

theorem propagate_eq_work (numbers : List Int) (p : Propagator R) :
    Propagator.propagate numbers p =
      (Prod.fst <$> Propagator.work p.maxVisits.toNat []
        { pending := numbers, queued := numbers }) p := by
  unfold Propagator.propagate
  rw [Act.bind_of_ok (Act.get_apply p), drain_eq_work]

/-- A visit of the work, or its end. -/
theorem work_succ_eq_ok {fuel : Nat}
    (h : Propagator.work (fuel + 1) changes q p = .ok (changes', left) p') :
    q.pending = [] ∧ changes' = changes ∧ left = q ∧ p' = p ∨
      ∃ r rest tightened p₁ next, q.pending = r :: rest ∧
        Propagator.visit r p = .ok tightened p₁ ∧
        tightened.foldlM (p₁.follow r)
          (changes, { pending := rest, queued := q.queued.filter (· != r) }) = .ok next ∧
        Propagator.work fuel next.1 next.2 p₁ = .ok (changes', left) p' := by
  unfold Propagator.work at h
  cases hpending : q.pending with
  | nil =>
      rw [hpending] at h
      cases h
      exact .inl ⟨rfl, rfl, rfl, rfl⟩
  | cons r rest =>
      rw [hpending] at h
      obtain ⟨tightened, p₁, hvisit, h⟩ := Act.bind_eq_ok.mp h
      rw [Act.bind_of_ok (Act.get_apply p₁)] at h
      obtain ⟨next, _, hfollow, h⟩ := Act.bind_eq_ok.mp h
      obtain ⟨hfold, rfl⟩ := Act.ofExcept_eq_ok.mp hfollow
      exact .inr ⟨r, rest, tightened, p₁, next, rfl, hvisit, hfold, h⟩

end Work

section Queues

variable {R : Type} {p : Propagator R} {q : Queue}

/-- Taking the first row from the queue leaves the others waiting. -/
theorem Queue.Waiting.pop (h : q.Waiting) {r : Int} {rest : List Int}
    (hpending : q.pending = r :: rest) :
    Queue.Waiting { pending := rest, queued := q.queued.filter (· != r) } := by
  intro s hs
  obtain ⟨hqueued, hne⟩ := List.mem_filter.mp hs
  have hwaits := h s hqueued
  rw [hpending] at hwaits
  exact (List.mem_cons.mp hwaits).resolve_left (bne_iff_ne.mp hne)

theorem Queue.Waiting.push (h : q.Waiting) (r : Int) :
    (q.push r).Waiting ∧ r ∈ (q.push r).pending := by
  unfold Queue.push
  by_cases hqueued : q.queued.contains r = true
  · rw [if_pos hqueued]
    exact ⟨h, h r (List.contains_iff_mem.mp hqueued)⟩
  · rw [if_neg hqueued]
    refine ⟨fun s hs => ?_, List.mem_append_right _ (List.mem_singleton_self r)⟩
    rcases List.mem_cons.mp hs with rfl | hs
    · exact List.mem_append_right _ (List.mem_singleton_self s)
    · exact List.mem_append_left _ (h s hs)

/-- All rows but `r` wait after they were added. -/
theorem Queue.Waiting.pushAll (h : q.Waiting) (r : Int) (ns : List Nat) :
    let q' := ns.foldl
      (fun (q : Queue) (other : Nat) => if (other : Int) == r then q else q.push other) q
    q'.Waiting ∧ ∀ n ∈ ns, (n : Int) ≠ r → (n : Int) ∈ q'.pending := by
  induction ns generalizing q with
  | nil => exact ⟨h, fun n hn => absurd hn List.not_mem_nil⟩
  | cons n ns ih =>
      rw [List.foldl_cons]
      by_cases hn : ((n : Int) == r) = true
      · rw [if_pos hn]
        refine ⟨(ih h).1, fun m hm hne => ?_⟩
        rcases List.mem_cons.mp hm with rfl | hm
        · exact absurd (beq_iff_eq.mp hn) hne
        · exact (ih h).2 m hm hne
      · rw [if_neg hn]
        obtain ⟨hwaiting, hpushed⟩ := h.push (n : Int)
        refine ⟨(ih hwaiting).1, fun m hm hne => ?_⟩
        rcases List.mem_cons.mp hm with rfl | hm
        · obtain ⟨news, -, hpending⟩ := (q.push (m : Int)).pending_pushAll r ns
          rw [hpending]
          exact List.mem_append_left _ hpushed
        · exact (ih hwaiting).2 m hm hne

/-- When all tightened variables were followed, all their rows wait but the row itself. -/
theorem Queue.Waiting.followAll {r : Int} {tightened : List Nat} {work work' : Changes R × Queue}
    (hwork : work.2.Waiting) (h : tightened.foldlM (p.follow r) work = .ok work') :
    work'.2.Waiting ∧ ∀ k ∈ tightened, ∃ ns, p.rowsOf[k]? = some ns ∧
      ∀ n ∈ ns, (n : Int) ≠ r → (n : Int) ∈ work'.2.pending := by
  induction tightened generalizing work with
  | nil =>
      cases h
      exact ⟨hwork, fun k hk => absurd hk List.not_mem_nil⟩
  | cons k rest ih =>
      rw [List.foldlM_cons] at h
      obtain ⟨middle, hfollow, h⟩ := Act.exceptBind_eq_ok.mp h
      unfold Propagator.follow at hfollow
      obtain ⟨bounds, -, hfollow⟩ := Act.exceptBind_eq_ok.mp hfollow
      obtain ⟨ns, hns, hfollow⟩ := Act.exceptBind_eq_ok.mp hfollow
      cases hfollow
      obtain ⟨hmiddle, hadded⟩ := hwork.pushAll r ns
      obtain ⟨hwaiting, hrest⟩ := ih hmiddle h
      refine ⟨hwaiting, fun j hj => ?_⟩
      rcases List.mem_cons.mp hj with rfl | hj
      · obtain ⟨news, hnews⟩ := exists_news_of_follow p r h
        refine ⟨ns, ?_, fun n hn hne => ?_⟩
        · rw [← Vec.at?_natCast]
          exact Vec.get_eq_ok.mp hns
        · rw [hnews]
          exact List.mem_append_left _ (hadded n hn hne)
      · exact hrest j hj

/-- A row that none of the followed variables is in was of concern before, if it is. -/
theorem Propagator.Concerns.before {numbers : List Int} {r : Int} {tightened : List Nat}
    {work work' : Changes R × Queue} {row : UpperRow R}
    (h : tightened.foldlM (p.follow r) work = .ok work')
    (hconcerned : p.Concerns numbers work'.1 row)
    (huntouched : ∀ k ∈ tightened, ∀ term ∈ row.terms, term.1 ≠ k) :
    p.Concerns numbers work.1 row := by
  refine hconcerned.imp_right ?_
  rintro ⟨c, hc, term, hterm, hname⟩
  rcases List.mem_append.mp (noted_of_followAll h c hc) with hold | hnew
  · obtain ⟨c', hc', heq⟩ := List.mem_map.mp hold
    exact ⟨c', hc', term, hterm, hname.trans heq.symm⟩
  · exact absurd hname (huntouched c.1 hnew term hterm)

end Queues

section Steps

variable {R Key : Type} [Arith R] [LinearOrder Key] (o : SumOrder R Key) {numbers : List Int}
  {changes changes' : Changes R} {q left : Queue} {p p' : Propagator R}
include o

/-- **A visit keeps the rows covered.**  The row that was visited is settled.  Another row is
settled as before if none of its variables was tightened, and else it waits. -/
theorem Propagator.Covers.visit (htol : 0 ≤ p.limits.tol) (hp : p.Indexed)
    (h : p.Covers numbers changes q) {r : Int} {rest : List Int} (hpending : q.pending = r :: rest)
    {tightened : List Nat} {next : Changes R × Queue}
    (hvisit : Propagator.visit r p = .ok tightened p')
    (hfollow : tightened.foldlM (p'.follow r)
      (changes, { pending := rest, queued := q.queued.filter (· != r) }) = .ok next) :
    p'.Covers numbers next.1 next.2 := by
  obtain ⟨row₀, box, hrow₀, hrun, rfl⟩ := visit_eq_ok hvisit
  have hsettled₀ : row₀.Settled p.limits box :=
    settled_of_propagate o htol (hp.distinct row₀ (Vec.mem_of_at? hrow₀)) hrun
  have houtside : Box.SameOutside tightened p.box box := sameOutside_of_propagate hrun
  obtain ⟨hwaiting, hadded⟩ := (h.waiting.pop hpending).followAll hfollow
  obtain ⟨news, hnews⟩ := exists_news_of_follow _ r hfollow
  have hkept : ∀ s ∈ q.pending, s = r ∨ s ∈ next.2.pending := fun s hs => by
    rw [hpending] at hs
    rw [hnews]
    exact (List.mem_cons.mp hs).imp_right (List.mem_append_left _)
  refine ⟨hwaiting, fun s hs => ?_, fun row hrow hconcerned => ?_⟩
  · rcases h.exists_row s hs with hwaits | hexists
    · rcases hkept s hwaits with rfl | hwaits
      · exact .inr ⟨row₀, hrow₀⟩
      · exact .inl hwaits
    · exact .inr hexists
  · by_cases hsame : row = row₀
    · exact .inr (hsame ▸ hsettled₀)
    by_cases htouched : ∃ k ∈ tightened, ∃ term ∈ row.terms, term.1 = k
    · -- the number of the row is among those of the variable
      obtain ⟨k, hk, hterm⟩ := htouched
      obtain ⟨ns, hns, hpushed⟩ := hadded k hk
      obtain ⟨n, hn⟩ := List.mem_iff_getElem?.mp hrow
      have hread : Vec.at? p.rows (n : Int) = some row := Vec.at?_natCast.trans hn
      refine .inl ⟨n, hpushed n (hp.listed hns hn hterm) ?_, hread⟩
      rintro rfl
      exact hsame (Option.some.inj (hread.symm.trans hrow₀))
    · have huntouched : ∀ k ∈ tightened, ∀ term ∈ row.terms, term.1 ≠ k :=
        fun k hk term hterm heq => htouched ⟨k, hk, term, hterm, heq⟩
      have hbefore := Propagator.Concerns.before hfollow hconcerned huntouched
      rcases h.settled row hrow hbefore with ⟨s, hs, hread⟩ | hsettled
      · rcases hkept s hs with rfl | hs
        · exact absurd (Option.some.inj (hread.symm.trans hrow₀)) hsame
        · exact .inl ⟨s, hs, hread⟩
      · exact .inr (hsettled.congr fun term hterm =>
          houtside.bounds fun hk => huntouched term.1 hk term hterm rfl)

/-- The work keeps the rows covered, by induction on the visits that are left. -/
theorem Propagator.Covers.work (fuel : Nat) (htol : 0 ≤ p.limits.tol) (hp : p.Indexed)
    (h : p.Covers numbers changes q)
    (hwork : Propagator.work fuel changes q p = .ok (changes', left) p') :
    p'.Covers numbers changes' left := by
  induction fuel generalizing changes q p with
  | zero =>
      cases hwork
      exact h
  | succ fuel ih =>
      obtain ⟨-, rfl, rfl, rfl⟩ | ⟨r, rest, tightened, p₁, next, hpending, hvisit, hfollow, hrun⟩ :=
        work_succ_eq_ok hwork
      · exact h
      · have hnext := h.visit o htol hp hpending hvisit hfollow
        obtain ⟨row₀, box, -, -, rfl⟩ := visit_eq_ok hvisit
        exact ih (p := { p with box }) htol ⟨hp.distinct, hp.listed⟩ hnext hrun

end Steps

section Fixpoints

variable {R : Type} [Arith R] {numbers : List Int} {changes : Changes R} {q : Queue}
  {p p₀ : Propagator R}

/-- At the beginning the rows that were asked for wait. -/
theorem covers_start (numbers : List Int) (p : Propagator R) :
    p.Covers numbers [] { pending := numbers, queued := numbers } where
  waiting := fun _ hr => hr
  exists_row := fun _ hr => .inl hr
  settled := by
    rintro row - (⟨r, hr, hread⟩ | ⟨c, hc, -⟩)
    · exact .inl ⟨r, hr, hread⟩
    · exact absurd hc List.not_mem_nil

theorem indexed_of_build {rows : Rows R} {start : Box R} {kinds : List Kind} {tol epsilon : R}
    {maxRounds : Int} (h : Propagator.build rows start kinds tol epsilon maxRounds = .ok p) :
    p.Indexed where
  distinct := fun _ hrow => nodup_of_collectRows (build_eq_ok h).1 hrow
  listed := fun hns _ _ hrow hterm => mem_rowsOf_of_build h hns hrow hterm

theorem visit_of_settled {r : Int} {row : UpperRow R} (hread : Vec.at? p.rows r = some row)
    (h : row.Settled p.limits p.box) : Propagator.visit r p = .ok [] p := by
  unfold Propagator.visit Propagator.onBox
  rw [Act.bind_of_ok (Act.get_apply p), Act.ofExcept_bind (Vec.get_eq_ok.mpr hread)]
  exact Act.zoom_of_ok (propagate_of_settled h)

/-- When no row waits any more, the rows that propagation is about change nothing. -/
theorem Propagator.Covers.visit_eq_ok (h : p.Covers numbers changes q) (hempty : q.pending = [])
    {r : Int} (hr : r ∈ numbers ∨ ∃ row, Vec.at? p.rows r = some row ∧
      ∃ c ∈ changes, ∃ term ∈ row.terms, term.1 = c.1) :
    Propagator.visit r p = .ok [] p := by
  obtain ⟨row, hread, hconcerned⟩ : ∃ row, Vec.at? p.rows r = some row ∧
      p.Concerns numbers changes row := by
    rcases hr with hr | ⟨row, hread, hchanged⟩
    · rcases h.exists_row r hr with hwaits | ⟨row, hread⟩
      · rw [hempty] at hwaits
        exact absurd hwaits List.not_mem_nil
      · exact ⟨row, hread, .inl ⟨r, hr, hread⟩⟩
    · exact ⟨row, hread, .inr hchanged⟩
  refine visit_of_settled hread ((h.settled row (Vec.mem_of_at? hread) hconcerned).resolve_left ?_)
  rintro ⟨s, hs, -⟩
  rw [hempty] at hs
  exact absurd hs List.not_mem_nil

/-- Work on rows that change nothing, by induction on the visits that are left. -/
theorem drain_of_visits (fuel : Nat) (h : ∀ r ∈ q.pending, Propagator.visit r p = .ok [] p) :
    Propagator.drain fuel changes q p = .ok changes p := by
  induction fuel generalizing q with
  | zero => rfl
  | succ fuel ih =>
      unfold Propagator.drain
      cases hpending : q.pending with
      | nil => rfl
      | cons r rest =>
          rw [hpending] at h
          dsimp only
          rw [Act.bind_of_ok (h r (List.mem_cons_self ..)), Act.bind_of_ok (Act.get_apply p)]
          exact ih fun s hs => h s (List.mem_cons_of_mem _ hs)

/-- A propagation that ends because no row waits has come to a fixpoint: the rows that it was asked
for, and the rows of the variables that it changed, change nothing any more, nor does the
propagation. -/
def Propagator.Settles (R : Type) [Arith R] : Prop :=
  ∀ {rows : Rows R} {start : Box R} {kinds : List Kind} {tol epsilon : R} {maxRounds : Int}
    {p₀ p q : Propagator R} {numbers : List Int} {changes : Changes R},
    Propagator.build rows start kinds tol epsilon maxRounds = .ok p₀ → 0 ≤ tol → p₀.SameRows p →
    Propagator.propagate numbers p = .ok changes q → p.Drains numbers →
    (∀ r, (r ∈ numbers ∨ ∃ row, Vec.at? p.rows r = some row ∧
        ∃ c ∈ changes, ∃ term ∈ row.terms, term.1 = c.1) →
      Propagator.visit r q = .ok [] q) ∧
    Propagator.propagate numbers q = .ok [] q

/-- In an arithmetic with an order of sums propagation settles the rows it is about. -/
theorem settles {Key : Type} [LinearOrder Key] (o : SumOrder R Key) : Propagator.Settles R := by
  intro rows start kinds tol epsilon maxRounds p₀ p q numbers changes hp₀ htol hsame hrun hdrains
  have htol' : 0 ≤ p₀.limits.tol := by rwa [(build_eq_ok hp₀).2.1]
  have hindexed := indexed_of_build hp₀
  have hsame' : p.SameRows q :=
    (keeps_propagate p numbers).of_ok (Propagator.SameRows.refl p) hrun
  obtain ⟨box, rfl⟩ := hsame
  obtain ⟨changes', left, q', hwork, hempty⟩ := hdrains
  rw [propagate_eq_work] at hrun
  obtain ⟨answer, hwork', rfl⟩ := Act.map_eq_ok.mp hrun
  rw [hwork] at hwork'
  cases hwork'
  have hcovers := (covers_start numbers { p₀ with box }).work o (p := { p₀ with box }) _ htol'
    ⟨hindexed.distinct, hindexed.listed⟩ hwork
  obtain ⟨box', rfl⟩ := hsame'
  have hvisits := fun r => hcovers.visit_eq_ok hempty (r := r)
  refine ⟨hvisits, ?_⟩
  unfold Propagator.propagate
  rw [Act.bind_of_ok (Act.get_apply _)]
  exact drain_of_visits _ fun r hr => hvisits r (.inl hr)

end Fixpoints

section Both

/-- **A propagation that ends because no row waits has come to a fixpoint**, whether numbers are
rounded or exact. -/
theorem drained_propagation_settles : Propagator.Settles Float ∧ Propagator.Settles ExtRat :=
  ⟨settles Binary64.sumOrder, settles ExtRat.sumOrder⟩

/-- The rows `2 x + y ≤ 7` and `x - z = 1`. -/
def chainedRows (R : Type) [Arith R] : Rows R :=
  { coefficients := [[2, 1, 0], [1, 0, -1]], senses := [.atMost, .equal], rhs := [7, 1] }

/-- Asked for the first upper row twice and for the last one, propagation visits the other one, too;
in the end all are settled. -/
theorem drained_propagation_settles_chained :
    let start := (chained Float).box
    let kinds : List Kind := [.integer, .continuous, .integer]
    let tol : Float := Arith.tenth 6
    ∃ p q changes,
      Propagator.build (chainedRows Float) start kinds tol defaultEpsilon defaultRounds = .ok p ∧
      0 ≤ tol ∧ p.SameRows p ∧ Propagator.propagate [0, 2, 0] p = .ok changes q ∧
      p.Drains [0, 2, 0] ∧ changes = [(0, 1, 3), (1, 1, 5), (2, 0, 2)] ∧
      (∀ r ∈ [0, 1, 2], Propagator.visit r q = .ok [] q) ∧
      Propagator.propagate [0, 2, 0] q = .ok [] q := by
  intro start kinds tol
  have hbuilt : (Propagator.build (chainedRows Float) start kinds tol defaultEpsilon
      defaultRounds).toOption.map (fun p => (Vec.at? p.rows 1).map (·.terms.map (·.1))) =
      some (some [0, 2]) := by decide +kernel
  have hworked : (Propagator.build (chainedRows Float) start kinds tol defaultEpsilon
      defaultRounds).toOption.map (fun p => ((Propagator.work p.maxVisits.toNat []
        { pending := [0, 2, 0], queued := [0, 2, 0] }).split p).1.toOption.map fun answer =>
          (answer.1, answer.2.pending)) =
      some (some ([(0, 1, 3), (1, 1, 5), (2, 0, 2)], [])) := by decide +kernel
  obtain ⟨p, hp, hsecond⟩ := Act.exists_ok_of_map hbuilt
  rw [hp] at hworked
  obtain ⟨row, hrow, hnames⟩ := Option.map_eq_some_iff.mp hsecond
  obtain ⟨⟨changes, left⟩, hanswer, hends⟩ := Act.exists_ok_of_map (Option.some.inj hworked)
  obtain ⟨rfl, hempty⟩ := Prod.mk.inj hends
  obtain ⟨q, hwork⟩ := Act.exists_of_split hanswer
  have hdrains : p.Drains [0, 2, 0] := ⟨_, left, q, hwork, hempty⟩
  have hpropagate : Propagator.propagate [0, 2, 0] p =
      .ok [(0, 1, 3), (1, 1, 5), (2, 0, 2)] q := by
    rw [propagate_eq_work]
    exact Act.map_eq_ok.mpr ⟨_, hwork, rfl⟩
  have htol : 0 ≤ tol := by decide +kernel
  obtain ⟨hvisits, hagain⟩ := drained_propagation_settles.1 hp htol (Propagator.SameRows.refl p)
    hpropagate hdrains
  have hterm : ∃ term ∈ row.terms, term.1 = 0 :=
    List.mem_map.mp (hnames ▸ List.mem_cons_self .. : 0 ∈ row.terms.map (·.1))
  refine ⟨p, q, _, hp, htol, Propagator.SameRows.refl p, hpropagate, hdrains, rfl, ?_, hagain⟩
  intro r hr
  refine hvisits r ?_
  fin_cases hr
  · exact .inl (by decide)
  · exact .inr ⟨row, hrow, (0, 1, 3), List.mem_cons_self .., hterm⟩
  · exact .inl (by decide)

end Both

end Propagation
end MipPump
