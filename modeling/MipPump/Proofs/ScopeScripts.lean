import MipPump.Number.ExtRat
import MipPump.Proofs.OpenScopes

/-!
# Whatever happens in a scope is undone

A caller of a scope may change bounds in any order, meet refusals and go on after them, look at the
bounds before it decides, empty the scope in between, or open a scope inside and still call the
outer one.  A script is such a block of calls as data: the handler of a fault and the continuation of
a look are functions, so that a script has the choices of a program.

* `Script.run`: the calls of a script, each to one of the scopes that are open at its place;
  `Script.inScope` runs the script in a scope of its own.
* `Script.Orderly`: no scope is called for a variable for the first time after a scope that is still
  open inside it has been called for it.  Scripts that call the innermost scope only are such
  (`Script.Innermost.orderly`).
* `Script.undoable_run`: an orderly script keeps what can be undone, by one case for each kind of
  call.
* `Script.inScope_restores`: leaving the block of an orderly script brings back the bounds at entry,
  adds no fault, and leaves the scope empty.
* `inScope_crossing`: a script that is not orderly, and the bounds it leaves behind.
-/

namespace MipPump

namespace Act

variable {R σ : Type} {act : Act R σ Unit} {s t : σ}

/-- The state that the action leaves has a property if it answers. -/
def OnAnswer (act : Act R σ Unit) (s : σ) (P : σ → Prop) : Prop :=
  match act s with
  | .ok _ t => P t
  | .error _ _ => True

/-- The fault of the action and the state that it leaves have a property if it fails. -/
def OnFault (act : Act R σ Unit) (s : σ) (P : Fault R → σ → Prop) : Prop :=
  match act s with
  | .ok _ _ => True
  | .error e t => P e t

instance instDecidableOnAnswer {P : σ → Prop} [∀ t, Decidable (P t)] :
    Decidable (act.OnAnswer s P) :=
  match h : act s with
  | .ok _ t => decidable_of_iff (P t) (by simp only [OnAnswer, h])
  | .error _ _ => .isTrue (by simp only [OnAnswer, h])

instance instDecidableOnFault {P : Fault R → σ → Prop} [∀ e t, Decidable (P e t)] :
    Decidable (act.OnFault s P) :=
  match h : act s with
  | .ok _ _ => .isTrue (by simp only [OnFault, h])
  | .error e t => decidable_of_iff (P e t) (by simp only [OnFault, h])

theorem onAnswer_of_ok {P : σ → Prop} (h : act s = .ok () t) : act.OnAnswer s P ↔ P t := by
  simp only [OnAnswer, h]

theorem onFault_of_error {P : Fault R → σ → Prop} {e : Fault R} (h : act s = .error e t) :
    act.OnFault s P ↔ P e t := by
  simp only [OnFault, h]

theorem tryCatch_of_ok {handler : Fault R → Act R σ Unit} (h : act s = .ok () t) :
    tryCatch act handler s = .ok () t := by
  simp only [tryCatch, tryCatchThe, MonadExceptOf.tryCatch, EStateM.tryCatch, h]

/-- The handler of a fault goes on from the state that the fault left. -/
theorem tryCatch_of_error {handler : Fault R → Act R σ Unit} {e : Fault R}
    (h : act s = .error e t) : tryCatch act handler s = handler e t := by
  simp only [tryCatch, tryCatchThe, MonadExceptOf.tryCatch, EStateM.tryCatch, h]
  rfl

end Act

namespace Scoped

/-- A block of calls to the scopes that are open, which are numbered from the innermost one. -/
inductive Script (R : Type) : Nat → Type where
  | done {n : Nat} : Script R n
  | raise {n : Nat} (fault : Fault R) : Script R n
  | tighten {n : Nat} (k : Fin n) (i : Int) (lb ub : R) : Script R n
  | fix {n : Nat} (k : Fin n) (i : Int) (value : R) : Script R n
  /-- Undoes the changes of a scope so far, with its block still open. -/
  | restore {n : Nat} (k : Fin n) : Script R n
  /-- Decides by the bounds in force and by what the scopes remember. -/
  | look {n : Nat} (next : Scopes R n → Script R n) : Script R n
  | andThen {n : Nat} (block rest : Script R n) : Script R n
  /-- Goes on after a fault of the block. -/
  | catching {n : Nat} (block : Script R n) (handler : Fault R → Script R n) : Script R n
  /-- A block in a new scope. -/
  | nested {n : Nat} (block : Script R (n + 1)) : Script R n

namespace Script

section Running

variable {R : Type} [Arith R]

/-- The calls of a script. -/
def run : {n : Nat} → Script R n → Act R (Scopes R n) Unit
  | _, .done => pure ()
  | _, .raise e => throw e
  | _, .tighten k i lb ub => Scopes.through k (Scoped.tighten i lb ub)
  | _, .fix k i value => Scopes.through k (Scoped.fix i value)
  | _, .restore k => Scopes.through k Scoped.restore
  | _, .look next => do
      let s ← get
      (next s).run
  | _, .andThen block rest => do
      block.run
      rest.run
  | _, .catching block handler => tryCatch block.run fun e => (handler e).run
  | _, .nested block => Scopes.inside block.run

/-- Runs a script in a scope of its own. -/
def inScope (script : Script R 1) : Act R (Domain R) Unit :=
  Act.zoom Scopes.closed (fun _ s => s.domain) (Scopes.inside script.run)

/-- Every call of the script, on its way from a state, is one that the scopes allow. -/
def Orderly : {n : Nat} → Script R n → Scopes R n → Prop
  | _, .done, _ => True
  | _, .raise _, _ => True
  | _, .tighten k i _ _, s => s.Admits k i
  | _, .fix k i _, s => s.Admits k i
  | _, .restore k, s => s.Frees k
  | _, .look next, s => (next s).Orderly s
  | _, .andThen block rest, s =>
      block.Orderly s ∧ block.run.OnAnswer s fun t => rest.Orderly t
  | _, .catching block handler, s =>
      block.Orderly s ∧ block.run.OnFault s fun e t => (handler e).Orderly t
  | _, .nested block, s => block.Orderly s.opened

/-- Whether a script is orderly can be found out by running it. -/
def decideOrderly : {n : Nat} → (script : Script R n) → (s : Scopes R n) →
    Decidable (script.Orderly s)
  | _, .done, _ => .isTrue trivial
  | _, .raise _, _ => .isTrue trivial
  | _, .tighten k i _ _, s => inferInstanceAs (Decidable (s.Admits k i))
  | _, .fix k i _, s => inferInstanceAs (Decidable (s.Admits k i))
  | _, .restore k, s => inferInstanceAs (Decidable (s.Frees k))
  | _, .look next, s => decideOrderly (next s) s
  | _, .andThen block rest, s =>
      @instDecidableAnd _ _ (decideOrderly block s)
        (@Act.instDecidableOnAnswer _ _ _ s _ fun t => decideOrderly rest t)
  | _, .catching block handler, s =>
      @instDecidableAnd _ _ (decideOrderly block s)
        (@Act.instDecidableOnFault _ _ _ s _ fun e t => decideOrderly (handler e) t)
  | _, .nested block, s => decideOrderly block s.opened

instance {n : Nat} (script : Script R n) (s : Scopes R n) : Decidable (script.Orderly s) :=
  decideOrderly script s

/-- Every call of the script goes to the scope that is the innermost one at its place. -/
inductive Innermost : {n : Nat} → Script R n → Prop
  | done {n : Nat} : Innermost (.done : Script R n)
  | raise {n : Nat} (e : Fault R) : Innermost (.raise e : Script R n)
  | tighten {n : Nat} (i : Int) (lb ub : R) : Innermost (.tighten (0 : Fin (n + 1)) i lb ub)
  | fix {n : Nat} (i : Int) (value : R) : Innermost (.fix (0 : Fin (n + 1)) i value)
  | restore {n : Nat} : Innermost (.restore (0 : Fin (n + 1)))
  | look {n : Nat} {next : Scopes R n → Script R n} :
      (∀ s, Innermost (next s)) → Innermost (.look next)
  | andThen {n : Nat} {block rest : Script R n} :
      Innermost block → Innermost rest → Innermost (.andThen block rest)
  | catching {n : Nat} {block : Script R n} {handler : Fault R → Script R n} :
      Innermost block → (∀ e, Innermost (handler e)) → Innermost (.catching block handler)
  | nested {n : Nat} {block : Script R (n + 1)} : Innermost block → Innermost (.nested block)

end Running

section Restoring

variable {R : Type} [Arith R] {n : Nat}

/-- No scope is inside the innermost one, so it may be called for every variable. -/
theorem Innermost.orderly {script : Script R n} (h : script.Innermost) (s : Scopes R n) :
    script.Orderly s := by
  induction h with
  | done => trivial
  | raise e => trivial
  | tighten i lb ub => exact s.admits_innermost i
  | fix i value => exact s.admits_innermost i
  | restore => exact s.frees_innermost
  | look _ ih => exact ih s s
  | andThen _ _ ihBlock ihRest =>
      refine ⟨ihBlock s, ?_⟩
      unfold Act.OnAnswer
      split
      · exact ihRest _
      · trivial
  | catching _ _ ihBlock ihHandler =>
      refine ⟨ihBlock s, ?_⟩
      unfold Act.OnFault
      split
      · trivial
      · exact ihHandler _ _
  | nested _ ih => exact ih s.opened

/-- An orderly script keeps what can be undone.  The number of open scopes varies in the induction,
while the box to come back to is the same throughout. -/
theorem undoable_run {start : Box R} (script : Script R n) :
    ∀ {s : Scopes R n}, script.Orderly s → Undoable start s.merged →
      Undoable start (script.run.after s).merged := by
  induction script with
  | done => exact fun _ h => h
  | raise e => exact fun _ h => h
  | tighten k i lb ub => exact fun horderly h => Scopes.undoable_tighten h horderly lb ub
  | fix k i value => exact fun horderly h => Scopes.undoable_tighten h horderly value value
  | restore k => exact fun horderly h => Scopes.undoable_restore h horderly
  | look next ih => exact fun horderly h => ih _ horderly h
  | andThen block rest ihBlock ihRest =>
      intro s ⟨hblock, hrest⟩ h
      have hmid := ihBlock hblock h
      unfold run
      cases hrun : block.run s with
      | ok u t =>
          rw [Act.after_of_ok hrun] at hmid
          rw [Act.after_bind_of_ok hrun]
          exact ihRest ((Act.onAnswer_of_ok hrun).mp hrest) hmid
      | error e t =>
          rw [Act.after_of_error (Act.bind_of_error hrun)]
          rwa [Act.after_of_error hrun] at hmid
  | catching block handler ihBlock ihHandler =>
      intro s ⟨hblock, hhandler⟩ h
      have hmid := ihBlock hblock h
      unfold run
      cases hrun : block.run s with
      | ok u t =>
          rw [Act.after_of_ok (Act.tryCatch_of_ok hrun)]
          rwa [Act.after_of_ok hrun] at hmid
      | error e t =>
          rw [Act.after_of_error hrun] at hmid
          have hgo := ihHandler e ((Act.onFault_of_error hrun).mp hhandler) hmid
          simpa only [Act.after, Act.split, Act.tryCatch_of_error hrun] using hgo
  | nested block ih =>
      intro s horderly h
      refine Scopes.undoable_inside (ih horderly ?_)
      rwa [Scopes.opened_merged]

end Restoring

end Script

section Leaving

variable {R : Type} [Arith R]

/-- **A scope restores the bounds exactly, whatever happened inside.**  For every script on bounds
that are in order, undoing what the script left answers: every variable has its bounds at entry, the
scope is empty, and undoing once more changes nothing.  Leaving the block does just this, and it
answers or fails as the script does.  An outer scope may be called while others are open inside it,
but not for a variable that one of those has changed and the outer one has not. -/
theorem Script.inScope_restores (script : Script R 1) {d : Domain R} (h : d.box.Ordered)
    (horderly : script.Orderly (Scopes.closed d).opened) :
    ∃ s' : Scoped R,
      Scoped.restore ((script.run.after (Scopes.closed d).opened).scope 0) = .ok () s' ∧
        s'.domain.box = d.box ∧ s'.saved.length = 0 ∧ Scoped.restore s' = .ok () s' ∧
        script.inScope.split d =
          ((script.run.split (Scopes.closed d).opened).1, s'.domain) := by
  have hundoable : Undoable d.box (script.run.after (Scopes.closed d).opened).merged :=
    script.undoable_run horderly (by
      rw [Scopes.opened_merged, Scopes.closed_merged]
      exact Undoable.opened h)
  obtain ⟨d', hrestore, hend⟩ := Scopes.exists_restore_innermost hundoable
  refine ⟨_, hrestore, Scopes.box_of_none_open hend, rfl, rfl, ?_⟩
  unfold inScope
  rw [Act.split_zoom, Scopes.split_inside hrestore]
  rfl

/-- A block on two variables: it tightens one of them twice and widens it under its negative index,
goes on after a crossed change and after an index without a place, and fixes the other variable in an
inner scope, from which it changes the first one through the outer scope once more before it ends
with a fault. -/
def restless : Script ExtRat 1 :=
  .andThen (.tighten 0 0 (.fin 1) (.fin 2)) <|
  .andThen (.tighten 0 0 (.fin 1) (.fin 1)) <|
  .andThen (.tighten 0 (-2) .negInf (.fin 9)) <|
  .andThen (.catching (.tighten 0 1 (.fin 3) (.fin 2)) fun _ => .fix 0 1 (.fin 4)) <|
  .andThen (.catching (.fix 0 2 (.fin 0)) fun _ => .done) <|
  .nested (.andThen (.fix 0 (-1) (.fin 5)) (.andThen (.fix 1 0 (.fin 6)) (.raise .solverRefused)))

/-- Before it is left the block has three memories and other bounds, and it ends with a fault. -/
theorem inScope_restores_restless :
    let d : Domain ExtRat := ⟨⟨[.fin 0, .negInf], [.fin 7, .posInf]⟩, []⟩
    let s := (restless.run.after (Scopes.closed d).opened).scope 0
    d.box.Ordered ∧ restless.Orderly (Scopes.closed d).opened ∧ s.saved.length = 3 ∧
      s.domain.box.lb = [.fin 6, .fin 4] ∧ s.domain.box.ub = [.fin 6, .fin 4] ∧
      (restless.run.split (Scopes.closed d).opened).1.isOk = false ∧
      ∃ s', Scoped.restore s = .ok () s' ∧ s'.domain.box = d.box ∧ s'.saved.length = 0 ∧
        Scoped.restore s' = .ok () s' ∧
        restless.inScope.split d =
          ((restless.run.split (Scopes.closed d).opened).1, s'.domain) := by
  intro d s
  have hordered : d.box.Ordered :=
    .cons (by decide +kernel) (.cons (by decide +kernel) .nil)
  have horderly : restless.Orderly (Scopes.closed d).opened := by decide +kernel
  exact ⟨hordered, horderly, by decide +kernel, by decide +kernel, by decide +kernel,
    by decide +kernel, restless.inScope_restores hordered horderly⟩

/-- A block that fixes its variable in an inner scope first and then, with the inner scope still
open, through the outer one. -/
def crossing : Script ExtRat 1 :=
  .nested (.andThen (.tighten 0 0 (.fin 1) (.fin 1)) (.tighten 1 0 (.fin 2) (.fin 2)))

/-- The outer scope remembers what the inner one has set, and that is what it brings back. -/
theorem inScope_crossing :
    let d : Domain ExtRat := ⟨⟨[.fin 0], [.fin 7]⟩, []⟩
    d.box.Ordered ∧ (crossing.inScope.split d).1.isOk = true ∧
      (crossing.inScope.after d).box.lb = [.fin 1] ∧ (crossing.inScope.after d).box.ub = [.fin 1] ∧
      ¬ crossing.Orderly (Scopes.closed d).opened := by
  intro d
  exact ⟨.cons (by decide +kernel) .nil, by decide +kernel, by decide +kernel, by decide +kernel,
    by decide +kernel⟩

end Leaving

end Scoped
end MipPump
