import MipPump.Proofs.Incumbents
import MipPump.Proofs.Pools
import MipPump.Proofs.TraceShape

/-!
# The store that runs share

Each run of a pool offers its solution to the store in the step in which it ends with a success, and
no run offers anything else.  The store is therefore a sequence of offers in the order of these
steps, while `bestOf` looks through the outcomes in the order of the slots.

* `transition_store`: a step makes no offer, or it ends the run with the success it offers.
* `Pool.Accounted`: what the store reflects is what the slots have won.  Every move keeps it.
-/

namespace MipPump

open ExtRat

section Meaning

variable {R σ : Type} [Arith R]

/-- Objective value of a run that has ended with a success. -/
def Stage.objective? : Stage R → Option R
  | .ended (.ok o) => o.ending.objective?
  | _ => none

/-- Objective value that a slot has won. -/
def Slot.objective? : Slot R σ → Option R
  | .active _ run => run.stage.objective?
  | .finished (.ok o) _ _ => o.ending.objective?
  | _ => none

/-- The run of a slot has stopped with a fault. -/
def Slot.Faulted : Slot R σ → Prop
  | .active _ run => ∃ e, run.stage = .ended (.error e)
  | .finished result _ _ => ∃ e, result = .error e
  | .waiting _ _ _ => False

/-- The run of a slot has stopped with a fault, or with an objective value that is no number. -/
def Slot.Spoiled (slot : Slot ExtRat σ) : Prop := slot.Faulted ∨ slot.objective? = some nan

/-- A slot is spoiled, or the store reflects offers of the values that slots have won. -/
def Pool.Accounted (p : Pool ExtRat σ) : Prop :=
  (∃ slot ∈ p.slots, slot.Spoiled) ∨ ∃ bids, p.shared.store.Reflects bids ∧
    ∀ c, (∃ b ∈ bids, b.value = c) ↔ ∃ slot ∈ p.slots, slot.objective? = some c

/-- The store has the least value of a success and `bestOf` finds the first success with this value,
or there is no success and the store has none either. -/
def Store.AgreesWith (s : Store ExtRat) (endings : List (Ending ExtRat)) : Prop :=
  match bestOf endings with
  | none => (∀ e ∈ endings, e.objective? = none) ∧ s.bestCost = posInf
  | some i => ∃ e v, endings[i]? = some e ∧ e.objective? = some v ∧ s.bestCost = v ∧
      (∀ (j : Nat) e' w, j < i → endings[j]? = some e' → e'.objective? = some w → v < w) ∧
      ∀ e' ∈ endings, ∀ w, e'.objective? = some w → v ≤ w

end Meaning

section Steps

variable {R σ : Type} [Arith R] {setup : Setup R σ}

/-- A step makes no offer, or it ends the run with the success it offers. -/
theorem transition_store {env : Surroundings R σ} {stage stage' : Stage R}
    {a a' : Ledger R} (going : ∀ result, stage ≠ .ended result)
    (h : Transition setup env stage a stage' a') :
    (a'.store = a.store ∧ stage'.objective? = none) ∨
      ∃ b : Incumbent R, a'.store = (a.store.offer b).2 ∧ stage'.objective? = some b.cost := by
  cases h with
  | rootConverged measured zero solves cost hb =>
      subst hb
      exact .inr ⟨_, rfl, rfl⟩
  | converged aim measured zero solves cost hb =>
      subst hb
      exact .inr ⟨_, rfl, rfl⟩
  | stays => exact absurd rfl (going _)
  | _ =>
      all_goals
        subst_vars
        exact .inl ⟨rfl, rfl⟩

end Steps

section Moves

variable {σ : Type} {p p' : Pool ExtRat σ} {now : ExtRat} {i : Nat}

theorem Slot.not_spoiled_of_going (setup : Setup ExtRat σ) {run : Run ExtRat σ}
    (going : ∀ result, run.stage ≠ .ended result) :
    ¬ (Slot.active setup run).Spoiled ∧ (Slot.active setup run).objective? = none := by
  have hnone : (Slot.active setup run).objective? = none := by
    show run.stage.objective? = none
    cases hstage : run.stage with
    | ended result => exact absurd hstage (going result)
    | _ => rfl
  refine ⟨?_, hnone⟩
  rintro (⟨e, he⟩ | hnan)
  · exact going _ he
  · rw [hnone] at hnan
    cases hnan

/-- What a run has come to is what its slot finishes with. -/
theorem Slot.objective?_finished {setup : Setup ExtRat σ} {run : Run ExtRat σ}
    {result : Except (Fault ExtRat) (Outcome ExtRat)} (ended : run.stage = .ended result) :
    (Slot.finished (σ := σ) result run.oracle run.lines).objective? =
      (Slot.active setup run).objective? := by
  show _ = run.stage.objective?
  rw [ended]
  cases result <;> rfl

/-- A run that has just started has won nothing, and it is spoiled if it could not start. -/
theorem Slot.spoiled_start (now : ExtRat) (task : PumpTask ExtRat σ) (domain : Domain ExtRat)
    (oracle : σ) : (Slot.start now task domain oracle).Spoiled ∨
      (Slot.start now task domain oracle).objective? = none := by
  unfold Slot.start
  split
  · rename_i setup run hlaunch
    exact .inr (Slot.not_spoiled_of_going setup (PumpTask.launched_of_launch hlaunch).going).2
  · exact .inl (.inl ⟨_, rfl⟩)

/-- A spoiled slot stays spoiled. -/
theorem Pool.Move.spoiled (h : Pool.Move now i p p')
    (hspoiled : ∃ slot ∈ p.slots, slot.Spoiled) : ∃ slot ∈ p'.slots, slot.Spoiled := by
  cases h with
  | stays => exact hspoiled
  | starts h free =>
      refine (exists_mem_set h ?_).mpr (.inr hspoiled)
      rintro (h | h) <;> cases h
  | steps h going hw =>
      exact (exists_mem_set h fun hold =>
        absurd hold (Slot.not_spoiled_of_going _ going).1).mpr (.inr hspoiled)
  | @ends setup run result h ended =>
      refine (exists_mem_set h ?_).mpr (.inr hspoiled)
      rintro (⟨e, he⟩ | hnan)
      · exact .inl ⟨e, Stage.ended.inj (ended.symm.trans he)⟩
      · exact .inr ((Slot.objective?_finished ended).trans hnan)

/-- A slot that changes without a win, while the store stays. -/
theorem Pool.Accounted.replace (h : p.Accounted) {old new : Slot ExtRat σ}
    (hold : p.slots[i]? = some old) (hsame : new.objective? = old.objective?)
    (hspoiled : (∃ slot ∈ p.slots, slot.Spoiled) → ∃ slot ∈ p.slots.set i new, slot.Spoiled)
    {shared : Shared ExtRat} (hstore : shared.store = p.shared.store) :
    ({ p with shared, slots := p.slots.set i new } : Pool ExtRat σ).Accounted := by
  rcases h with h | ⟨bids, hreflects, hvalues⟩
  · exact .inl (hspoiled h)
  · refine .inr ⟨bids, ?_, fun c => ?_⟩
    · show shared.store.Reflects bids
      rw [hstore]
      exact hreflects
    · rw [hvalues c]
      exact (exists_mem_set_of_iff (P := fun slot => slot.objective? = some c) hold
        (by rw [hsame])).symm

/-- A slot that wins with the offer it has just made. -/
theorem Pool.Accounted.win (h : p.Accounted) {old new : Slot ExtRat σ}
    (hold : p.slots[i]? = some old) (hnone : old.objective? = none)
    (hspoiled : (∃ slot ∈ p.slots, slot.Spoiled) → ∃ slot ∈ p.slots.set i new, slot.Spoiled)
    {shared : Shared ExtRat} {b : Incumbent ExtRat} (hnew : new.objective? = some b.cost)
    (hstore : shared.store = (p.shared.store.offer b).2) :
    ({ p with shared, slots := p.slots.set i new } : Pool ExtRat σ).Accounted := by
  rcases h with h | ⟨bids, hreflects, hvalues⟩
  · exact .inl (hspoiled h)
  · have hset (c : ExtRat) : (∃ slot ∈ p.slots.set i new, slot.objective? = some c) ↔
        new.objective? = some c ∨ ∃ slot ∈ p.slots, slot.objective? = some c := by
      refine exists_mem_set hold fun h => ?_
      rw [hnone] at h
      cases h
    by_cases hnan : b.cost = nan
    · obtain ⟨hi, -⟩ := List.getElem?_eq_some_iff.mp hold
      exact .inl ⟨new, List.mem_set hi new, .inr (by rw [hnew, hnan])⟩
    · let bid : Bid := { point := b.point, cost := .number b.cost, source := b.source }
      refine .inr ⟨bids ++ [bid], ?_, fun c => ?_⟩
      · show shared.store.Reflects _
        rw [hstore]
        exact (hreflects.offer bid hnan).2
      · show _ ↔ ∃ slot ∈ p.slots.set i new, slot.objective? = some c
        rw [hset c, ← hvalues c, hnew, Option.some.injEq]
        constructor
        · rintro ⟨a, ha, hvalue⟩
          rcases List.mem_append.mp ha with ha | ha
          · exact .inr ⟨a, ha, hvalue⟩
          · rw [List.mem_singleton.mp ha] at hvalue
            exact .inl hvalue
        · rintro (hvalue | ⟨a, ha, hvalue⟩)
          · exact ⟨bid, List.mem_append_right _ (List.mem_singleton_self _), hvalue⟩
          · exact ⟨a, List.mem_append_left _ ha, hvalue⟩

/-- What the store reflects is what the slots have won, after every move. -/
theorem Pool.Accounted.move (h : p.Accounted) (hmove : Pool.Move now i p p') : p'.Accounted := by
  have hspoiled := hmove.spoiled
  cases hmove with
  | stays => exact h
  | @starts task domain oracle hslot free =>
      rcases Slot.spoiled_start now task domain oracle with hstart | hstart
      · obtain ⟨hi, -⟩ := List.getElem?_eq_some_iff.mp hslot
        exact .inl ⟨_, List.mem_set hi _, hstart⟩
      · exact h.replace hslot hstart hspoiled rfl
  | @steps setup run w hslot going hw =>
      subst hw
      obtain ⟨-, hnone⟩ := Slot.not_spoiled_of_going setup going
      rcases World.step_transition setup now { shared := p.shared, run } with
        ⟨e, he⟩ | htransition
      · obtain ⟨hi, -⟩ := List.getElem?_eq_some_iff.mp hslot
        exact .inl ⟨_, List.mem_set hi _, .inl ⟨e, he⟩⟩
      · rcases transition_store going htransition with ⟨hstore, hstage⟩ | ⟨b, hstore, hstage⟩
        · have hnew : (Slot.active setup (World.step setup now ⟨p.shared, run⟩).run).objective? =
              none := hstage
          exact h.replace hslot (hnew.trans hnone.symm) hspoiled hstore
        · exact h.win hslot hnone hspoiled hstage hstore
  | @ends setup run result hslot ended =>
      refine h.replace hslot (Slot.objective?_finished ended) hspoiled ?_
      split <;> rfl

end Moves

section Results

variable {σ : Type}

/-- The store agrees with the choice among the endings: both have the least value that was won. -/
theorem Store.Reflects.bestCost_eq {s : Store ExtRat} {bids : List Bid} (h : s.Reflects bids)
    {endings : List (Ending ExtRat)} (hnan : ∀ e ∈ endings, e.objective? ≠ some nan)
    (hvalues : ∀ c, (∃ b ∈ bids, b.value = c) ↔ ∃ e ∈ endings, e.objective? = some c) :
    s.AgreesWith endings := by
  obtain ⟨best, hbest, hleast⟩ := firstLeast_bestOf endings hnan
  unfold Store.AgreesWith
  rw [hbest]
  cases best with
  | none =>
      have hnone : ∀ e ∈ endings, e.objective? = none := fun e he =>
        hleast _ (List.mem_map_of_mem he)
      have hempty : bids = [] := by
        refine List.eq_nil_iff_forall_not_mem.mpr fun b hb => ?_
        obtain ⟨e, he, hvalue⟩ := (hvalues b.value).mp ⟨b, hb, rfl⟩
        rw [hnone e he] at hvalue
        cases hvalue
      subst hempty
      exact ⟨hnone, h.of_nil.2⟩
  | some best =>
      obtain ⟨i, v⟩ := best
      obtain ⟨hi, hfirst, hall⟩ := hleast
      rw [List.getElem?_map, Option.map_eq_some_iff] at hi
      obtain ⟨e, he, hv⟩ := hi
      obtain ⟨b, hb, hbv⟩ := (hvalues v).mpr ⟨e, List.mem_of_getElem? he, hv⟩
      obtain ⟨k, b', hb', -, hcost, -, hmin⟩ := h.exists_best (List.ne_nil_of_mem hb)
      obtain ⟨e', he', hv'⟩ := (hvalues b'.value).mp ⟨b', List.mem_of_getElem? hb', rfl⟩
      refine ⟨e, v, he, hv, ?_, fun j e'' w hj he'' hw => ?_, fun e'' he'' w hw => ?_⟩
      · rw [hcost]
        refine eq_of_le_of_le ?_ (hall _ ?_)
        · rw [← hbv]
          exact hmin b hb
        · rw [← hv']
          exact List.mem_map_of_mem he'
      · exact hfirst j w hj (by rw [List.getElem?_map, he'', Option.map_some, hw])
      · refine hall w ?_
        rw [← hw]
        exact List.mem_map_of_mem he''

/-- Nothing is won and nothing offered before the first run starts. -/
theorem Pool.accounted_of_waiting {p : Pool ExtRat σ} (hstore : p.shared.store = {})
    (hwaiting : ∀ slot ∈ p.slots, slot.isWaiting = true) : p.Accounted := by
  refine .inr ⟨[], ?_, fun c => ?_⟩
  · rw [hstore]
    exact reflects_nil
  · constructor
    · rintro ⟨b, hb, -⟩
      cases hb
    · rintro ⟨slot, hslot, hwon⟩
      have hkind := hwaiting slot hslot
      cases slot with
      | waiting task domain oracle => cases hwon
      | active setup run => cases hkind
      | finished result oracle lines => cases hkind

/-- A slot that has finished with an outcome has won what the outcome says. -/
theorem Slot.objective?_of_result {slot : Slot ExtRat σ} {o : Outcome ExtRat}
    (h : slot.result? = some (.ok o)) :
    ¬ slot.Faulted ∧ slot.objective? = o.ending.objective? := by
  cases slot with
  | waiting task domain oracle => cases h
  | active setup run => cases h
  | finished result oracle lines =>
      cases h
      refine ⟨?_, rfl⟩
      rintro ⟨e, he⟩
      cases he

/-- When all slots have finished with outcomes, the store reflects the values of the successes. -/
theorem Pool.Accounted.reflects {p : Pool ExtRat σ} (h : p.Accounted) {os : List (Outcome ExtRat)}
    (hos : p.outcomes = .ok os) (hnan : ∀ o ∈ os, o.ending.objective? ≠ some nan) :
    ∃ bids, p.shared.store.Reflects bids ∧
      ∀ c, (∃ b ∈ bids, b.value = c) ↔ ∃ e ∈ os.map (·.ending), e.objective? = some c := by
  have hfinished := Pool.outcomes_eq_ok.mp hos
  rcases h with ⟨slot, hslot, hspoiled⟩ | ⟨bids, hreflects, hvalues⟩
  · obtain ⟨o, ho, hresult⟩ := Vec.exists_of_mem_left hfinished hslot
    obtain ⟨hfault, hobjective⟩ := Slot.objective?_of_result hresult
    rcases hspoiled with hfaulted | hwon
    · exact absurd hfaulted hfault
    · exact absurd (hobjective.symm.trans hwon) (hnan o ho)
  · refine ⟨bids, hreflects, fun c => (hvalues c).trans ⟨?_, ?_⟩⟩
    · rintro ⟨slot, hslot, hwon⟩
      obtain ⟨o, ho, hresult⟩ := Vec.exists_of_mem_left hfinished hslot
      refine ⟨o.ending, List.mem_map_of_mem ho, ?_⟩
      rw [← (Slot.objective?_of_result hresult).2]
      exact hwon
    · rintro ⟨e, he, hvalue⟩
      obtain ⟨o, ho, rfl⟩ := List.mem_map.mp he
      obtain ⟨slot, hslot, hresult⟩ := Vec.exists_of_mem_left hfinished.flip ho
      exact ⟨slot, hslot, (Slot.objective?_of_result hresult).2.trans hvalue⟩

/-- **The store holds the least cost.**  Of a sequence of offers whose costs are numbers it accepts
those that are better than all before them, holds the first of the best, and lists the costs of the
accepted ones, which decrease.  After the runs of a pool, in whatever order they took their steps, it
holds the least objective value of a success, and `bestOf` finds the first success with this
value. -/
theorem Store.holds_least :
    (∀ bids : List Bid, (∀ b ∈ bids, b.value ≠ nan) → ∃ s : Store ExtRat,
      ({} : Store ExtRat).takeBids bids =
        .ok (bids.zipIdx.map fun (b, k) => isRecord (bids.take k) b, s) ∧
      (bids = [] → s.best = none ∧ s.bestCost = posInf) ∧
      (bids ≠ [] → ∃ (i : Nat) (b : Bid), bids[i]? = some b ∧ s.best = some b.incumbent ∧
        s.bestCost = b.value ∧ (∀ (j : Nat) a, j < i → bids[j]? = some a → b.value < a.value) ∧
        ∀ a ∈ bids, b.value ≤ a.value) ∧
      s.history = (records bids).map Bid.value ∧ s.history.Pairwise fun a b => b < a) ∧
    ∀ (p : Pool ExtRat σ) (schedule : List (Nat × ExtRat)) (os : List (Outcome ExtRat)),
      p.shared.store = {} → (∀ slot ∈ p.slots, slot.isWaiting = true) →
      (p.follow schedule).outcomes = .ok os → (∀ o ∈ os, o.ending.objective? ≠ some nan) →
      (p.follow schedule).shared.store.AgreesWith (os.map (·.ending)) := by
  refine ⟨fun bids hbids => ?_, fun p schedule os hstore hwaiting hos hnan => ?_⟩
  · obtain ⟨s, htake, hs⟩ := reflects_nil.takeBids hbids
    refine ⟨s, htake, fun hnil => ?_, hs.exists_best, hs.history, ?_⟩
    · rw [hnil] at hs
      exact hs.of_nil
    · rw [hs.history]
      exact pairwise_records bids
  · have haccounted : (p.follow schedule).Accounted :=
      Pool.follow_induct (fun _ _ _ _ h hmove => h.move hmove) schedule
        (Pool.accounted_of_waiting hstore hwaiting)
    obtain ⟨bids, hreflects, hvalues⟩ := haccounted.reflects hos hnan
    refine hreflects.bestCost_eq (fun e he => ?_) hvalues
    obtain ⟨o, ho, rfl⟩ := List.mem_map.mp he
    exact hnan o ho

/-- Four offers, of which the second and the third cost the same. -/
def tiedBids : List Bid :=
  [ { point := [fin 3], cost := .number (fin 3), source := "a" }
  , { point := [fin 2], cost := .integer 2, source := "b" }
  , { point := [fin 1], cost := .number (fin 2), source := "c" }
  , { point := [fin 4], cost := .number posInf, source := "d" } ]

/-- Two runs of one task. -/
def twoHalfways : Pool ExtRat Unit where
  shared := { store := {}, token := none }
  slots := List.replicate 2
    (.waiting PumpTask.halfway { box := { lb := [fin 0], ub := [fin 1] } } ())
  workers := 2
  cancelOnSuccess := false

/-- The steps of two runs in turn. -/
def inTurn (rounds : Nat) : List (Nat × ExtRat) :=
  (List.replicate rounds [(0, fin 0), (1, fin 0)]).flatten

/-- The second of the four offers stays, and of two runs that find the same value the first is
chosen. -/
theorem Store.holds_least_halfway :
    (∃ s : Store ExtRat,
      ({} : Store ExtRat).takeBids tiedBids = .ok ([true, true, false, false], s) ∧
      s.history = [fin 3, fin 2]) ∧
    ∃ os, (twoHalfways.follow (inTurn 8)).outcomes = .ok os ∧
      bestOf (os.map (·.ending)) = some 0 ∧
      (twoHalfways.follow (inTurn 8)).shared.store.AgreesWith (os.map (·.ending)) := by
  obtain ⟨hbids, hpools⟩ := Store.holds_least (σ := Unit)
  obtain ⟨s, htake, -, -, hhistory, -⟩ := hbids tiedBids (by decide)
  refine ⟨⟨s, htake, hhistory⟩, ?_⟩
  obtain ⟨os, hos⟩ : ∃ os, (twoHalfways.follow (inTurn 8)).outcomes = .ok os :=
    Act.exists_ok_of_isOk (by decide +kernel)
  have hobjectives : (twoHalfways.follow (inTurn 8)).outcomes.toOption.map
      (fun os => (os.map (·.ending.objective?), bestOf (os.map (·.ending)))) =
        some ([some (fin 0), some (fin 0)], some 0) := by decide +kernel
  rw [hos] at hobjectives
  obtain ⟨hvalues, hbest⟩ := Prod.mk.inj (Option.some.inj hobjectives)
  refine ⟨os, hos, hbest, hpools twoHalfways (inTurn 8) os rfl (by simp [twoHalfways, Slot.isWaiting])
    hos fun o ho hnan => ?_⟩
  have hmem := List.mem_map_of_mem (f := fun o : Outcome ExtRat => o.ending.objective?) ho
  rw [hvalues, hnan] at hmem
  simp at hmem

end Results

end MipPump
