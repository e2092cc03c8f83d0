import MipPump.Proofs.Laps
import MipPump.Proofs.Mirrors

/-!
# What an oracle has replied

Between two worlds of a run the oracle was asked some questions.  They tell in which state it is and
whether the signal to stop was raised meanwhile.

* `Oracle.leaves`, `Oracle.replies`: an oracle that is asked a list of questions, one by one.
* `World.Asked setup start calls w`: the questions `calls` lead from `start` to `w`.
* `Leads.step`, `Lapped.leads`: each step asks some questions, and so do the laps of a run.
-/

namespace MipPump

section Definitions

variable {R σ : Type}

/-- The state in which a list of questions leaves an oracle. -/
def Oracle.leaves (oracle : Oracle R σ) (s : σ) (calls : List (Question R)) : σ :=
  calls.foldl (fun s call => (oracle s call.box call.goal).next) s

/-- The replies to a list of questions, each in the state that the questions before it have left. -/
def Oracle.replies (oracle : Oracle R σ) : σ → List (Question R) → List (Reply R σ)
  | _, [] => []
  | s, call :: rest =>
      let reply := oracle s call.box call.goal
      reply :: oracle.replies reply.next rest

/-- The signal after a list of replies, each of which may have raised it. -/
def Token.heard (t : Token R) (replies : List (Reply R σ)) : Token R :=
  { t with raised := t.raised || replies.any (·.cancels) }

variable [Arith R]

/-- The questions lead from one world to another, as far as the oracle and the signal to stop are
concerned. -/
structure World.Asked (setup : Setup R σ) (start : World R σ) (calls : List (Question R))
    (w : World R σ) : Prop where
  oracle : w.run.oracle = setup.oracle.leaves start.run.oracle calls
  token : w.shared.token =
    start.shared.token.map (·.heard (setup.oracle.replies start.run.oracle calls))

/-- Some questions lead from one world to the other. -/
def World.Leads (setup : Setup R σ) (start w : World R σ) : Prop :=
  ∃ calls, start.Asked setup calls w

end Definitions

section Replies

variable {R σ : Type}

theorem Oracle.leaves_concat (oracle : Oracle R σ) (s : σ) (calls : List (Question R))
    (call : Question R) : oracle.leaves s (calls ++ [call]) =
      (oracle (oracle.leaves s calls) call.box call.goal).next := by
  unfold leaves
  rw [List.foldl_concat]

theorem Oracle.replies_concat (oracle : Oracle R σ) (s : σ) (calls : List (Question R))
    (call : Question R) : oracle.replies s (calls ++ [call]) =
      oracle.replies s calls ++ [oracle (oracle.leaves s calls) call.box call.goal] := by
  induction calls generalizing s with
  | nil => rfl
  | cons first calls ih => exact congrArg _ (ih _)

/-- The log of an oracle is what it was asked. -/
theorem Oracle.log_leaves_recording (oracle : Oracle R σ) (s : Logged R σ)
    (calls : List (Question R)) : (oracle.recording.leaves s calls).2 = s.2 ++ calls := by
  induction calls generalizing s with
  | nil => exact (List.append_nil _).symm
  | cons first calls ih => exact (ih _).trans (List.append_assoc _ _ _)

@[simp] theorem Token.heard_nil (t : Token R) : t.heard ([] : List (Reply R σ)) = t := by
  simp [heard]

theorem Token.heard_concat (t : Token R) (replies : List (Reply R σ)) (reply : Reply R σ) :
    t.heard (replies ++ [reply]) =
      if reply.cancels then (t.heard replies).cancel else t.heard replies := by
  unfold heard cancel
  cases h : reply.cancels <;> simp [h]

end Replies

namespace World

open Act

variable {R σ : Type} [Arith R] {setup : Setup R σ} {start w v : World R σ}
  {calls : List (Question R)} {done : List (Lap R σ)}

section Asking

theorem asked_nil (setup : Setup R σ) (w : World R σ) : w.Asked setup [] w where
  oracle := rfl
  token := by simp [Oracle.replies]

theorem Asked.congr (h : start.Asked setup calls w) (horacle : v.run.oracle = w.run.oracle)
    (htoken : v.shared.token = w.shared.token) : start.Asked setup calls v where
  oracle := horacle.trans h.oracle
  token := htoken.trans h.token

/-- One more question. -/
theorem Asked.replied (h : start.Asked setup calls w) (box : Box R) (goal : Goal R) :
    start.Asked setup (calls ++ [⟨box, goal⟩])
      (w.replied (setup.oracle w.run.oracle box goal)) where
  oracle := by
    rw [Oracle.leaves_concat, ← h.oracle]
    rfl
  token := by
    rw [Oracle.replies_concat, ← h.oracle]
    have htoken := h.token
    unfold World.replied
    cases hcancels : (setup.oracle w.run.oracle box goal).cancels with
    | true => simp [Shared.cancel, htoken, Token.heard_concat, hcancels, Function.comp_def]
    | false => simp [htoken, Token.heard_concat, hcancels]

theorem Leads.congr (h : start.Leads setup w) (horacle : v.run.oracle = w.run.oracle)
    (htoken : v.shared.token = w.shared.token) : start.Leads setup v :=
  h.imp fun _ hw => hw.congr horacle htoken

theorem after_ask (setup : Setup R σ) (box : Box R) (goal : Goal R) (w : World R σ) :
    (ask setup box goal).after w = w.replied (setup.oracle w.run.oracle box goal) := by
  cases ha : (setup.oracle w.run.oracle box goal).answer with
  | ok x => exact after_of_ok (ask_of_ok ha)
  | error e => exact after_of_error (ask_of_error ha)

theorem agree_ask_leads (setup : Setup R σ) (start : World R σ) (box : Box R) (goal : Goal R) :
    Agree (fun w v => w = v ∧ start.Leads setup w) (ask setup box goal) (ask setup box goal) := by
  refine Keeps.agree fun w ⟨calls, h⟩ => ?_
  rw [after_ask]
  exact ⟨_, h.replied box goal⟩

theorem keeps_record_leads (setup : Setup R σ) (start : World R σ) (now : R) (phase : Phase)
    (d : Distance R) (point : List R) :
    Keeps (start.Leads setup) (record setup now phase d point) := by
  refine keeps_get_bind fun w _ => keeps_bind (keeps_ofExcept _) fun k => ?_
  refine keeps_bind (keeps_modify fun _ h => h.congr rfl rfl) fun _ => ?_
  exact keeps_ite (keeps_modify fun _ h => h.congr rfl rfl) (keeps_pure _)

theorem pace_leads (setup : Setup R σ) (start : World R σ) (now : R) :
    Pace (fun w v => w = v ∧ start.Leads setup w) setup setup now now :=
  pace_of_keeps (fun _ => keeps_zoom_of_put _ fun _ _ h => h.congr rfl rfl)
    (fun _ => keeps_modify fun _ h => h.congr rfl rfl) (keeps_record_leads setup start now)

theorem asks_leads (setup : Setup R σ) (start : World R σ) :
    Asks (fun w v => w = v ∧ start.Leads setup w) setup setup where
  solve := agree_solve (fun h => by rw [h.1]) (agree_ask_leads setup start)
  solveFixed := agree_solveFixed (fun h => by rw [h.1]) (agree_ask_leads setup start) (.refl setup)
    fun _ h => by
      obtain ⟨rfl, h⟩ := h
      exact ⟨rfl, h.congr rfl rfl⟩
  round _ := Keeps.agree <| keeps_bind (keeps_zoom_of_put _ fun _ _ h => h.congr rfl rfl) fun _ =>
    keeps_bind (keeps_ofExcept _) fun _ => keeps_pure _
  offer := by
    rintro w _ offered ⟨rfl, h⟩
    exact ⟨rfl, h.congr rfl rfl⟩

/-- Every step asks some questions, perhaps none. -/
theorem Leads.step (h : start.Leads setup w) (now : R) : start.Leads setup (w.step setup now) := by
  rw [step_eq_moveTo]
  exact (keeps_act (pace_leads setup start now) (asks_leads setup start) _ w h).congr rfl rfl

theorem Lapped.leads (h : Lapped setup start done w) : start.Leads setup w := by
  induction h with
  | start => exact ⟨[], asked_nil setup start⟩
  | look _ _ now ih => exact ih.step now
  | lap _ _ now ih => exact ih.step now

/-- A run keeps its signal, and the deadline of the signal does not move. -/
theorem Lapped.exists_token (h : Lapped setup start done w) {token : Token R}
    (htoken : start.shared.token = some token) :
    ∃ t : Token R, w.shared.token = some t ∧ t.deadline = token.deadline := by
  obtain ⟨calls, hasked⟩ := h.leads
  refine ⟨token.heard (setup.oracle.replies start.run.oracle calls), ?_, rfl⟩
  rw [hasked.token, htoken, Option.map_some]

end Asking

end World

end MipPump
