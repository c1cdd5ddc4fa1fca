/-
A batch that comes again. When every event id of a batch is in the log, the first loop of the pull passes over the whole
batch, so no atom is touched and nothing is recomputed or materialized (`pullOnce_known`). Ids never leave the log of a
run of the daemon (`run_eventIds`).
-/
import AstramemLocal.Daemon.Log
import AstramemLocal.Sync.Convergence

namespace AstramemLocal.Daemon

open AstramemLocal.Store AstramemLocal.Sync AstramemLocal.Core

variable {E : Env} {s t : St} {batch : PullBatch}

/-! ## Known ids -/

theorem Grows.eventIds (h : Grows s t) : ∀ i ∈ eventIds s, i ∈ eventIds t := by
  obtain ⟨es, hlog, -⟩ := h
  intro i hi
  rw [Sync.eventIds, records, hlog, List.map_append, List.map_append]
  exact List.mem_append_left _ hi

theorem step_eventIds (s : St) (op : Op) : ∀ i ∈ eventIds s, i ∈ eventIds (step E s op) := by
  cases hop : op.isShip with
  | false => exact (step_grows hop).eventIds
  | true =>
    cases op with
    | ship batchSize answer =>
      intro i hi
      rw [eventIds, show records (step E s (.ship batchSize answer)) = records s from
        (shipOnce_frame batchSize answer).records]
      exact hi
    | _ => cases hop

theorem run_eventIds (s : St) (ops : List Op) : ∀ i ∈ eventIds s, i ∈ eventIds (run E s ops) :=
  along_inv (fun u => ∀ i ∈ eventIds s, i ∈ eventIds u) (fun u op hu _ i hi => step_eventIds u op i (hu i hi))
    (fun _ hi => hi) (along_trivial _ _ ops)

/-! ## The pull -/

theorem mergeEvents_known {es : List RemotePullEvent} (h : ∀ e ∈ es, e.eventId ∈ eventIds s) :
    mergeEvents E s es = .ok (s, []) := by
  unfold mergeEvents
  induction es with
  | nil => rfl
  | cons e es ih =>
    simp only [List.foldlM_cons, mergeEvent_known (h e List.mem_cons_self)]
    exact ih fun f hf => h f (List.mem_cons_of_mem _ hf)

theorem pullOnce_known (h : ∀ e ∈ batch.events, e.eventId ∈ eventIds s) :
    pullOnce E s batch = .ok (if batch.events = [] then s else setPullWatermark s batch.nextCursor) := by
  unfold pullOnce
  split_ifs with hnil
  · rfl
  · simp [mergeEvents_known h, recomputeAll, pure]

/-- the pull commits, and no table but the cursor changes -/
def ReplaysIdle (E : Env) (s : St) (batch : PullBatch) : Prop :=
  ∃ t, pullOnce E s batch = .ok t ∧ t.memoryEvents = s.memoryEvents ∧ t.memories = s.memories ∧
    t = { s with cursor := t.cursor, clock := t.clock }

theorem replaysIdle_of_known (h : ∀ e ∈ batch.events, e.eventId ∈ eventIds s) : ReplaysIdle E s batch := by
  refine ⟨_, pullOnce_known h, ?_⟩
  split_ifs
  · exact ⟨rfl, rfl, rfl⟩
  · exact ⟨rfl, rfl, rfl⟩

/-- **Replay.** A batch whose events are all in the log, or that was delivered before, changes no table but the cursor
when it comes again, whatever ran in between. -/
theorem pull_replay (E : Env) (s : St) (batch : PullBatch) (ops : List Op) :
    ((∀ e ∈ batch.events, e.eventId ∈ eventIds s) → ReplaysIdle E (run E s ops) batch) ∧
      ∀ t, pullOnce E s batch = .ok t → ReplaysIdle E (run E t ops) batch := by
  refine ⟨fun h => ?_, fun t ht => ?_⟩
  · exact replaysIdle_of_known fun e he => run_eventIds s ops _ (h e he)
  · exact replaysIdle_of_known fun e he => run_eventIds t ops _ ((pull_eventIds ht).2 e he)

/-- the fork of two devices, and requests after it -/
def afterFork : List Op := [.pull forkBatch, .unsupersede 1 none, .archive 3 none, .erase 2 none]

theorem pull_replay_fork : (run countingEnv {} afterFork).memories.map (·.id) = [1, 3] ∧
    ReplaysIdle countingEnv (run countingEnv (run countingEnv {} afterFork) [.restore 3]) forkBatch :=
  ⟨by decide, (pull_replay countingEnv (run countingEnv {} afterFork) forkBatch [.restore 3]).1 (by decide)⟩

end AstramemLocal.Daemon
