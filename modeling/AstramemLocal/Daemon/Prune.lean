/-
The retention sweep of `recall_served` events beside the shipper. What the sweep deletes, no ship round would select
(`prune_keeps`), so an event that could be shipped leaves the log only after a round shipped it (`prune_loses_nothing`).
-/
import AstramemLocal.Daemon.ShipRounds

namespace AstramemLocal.Daemon

open AstramemLocal.Store AstramemLocal.Sync AstramemLocal.Core

/-- a `recall_served` event -/
def recallServed (e : MemoryEvent) : Bool :=
  e.eventType = .usefulness ∧ e.payloadJson.bind (·.family) = some "recall_served"

variable {E : Env} {s : St} {st : Shipping} {e : MemoryEvent}

/-- **The two queries exclude each other.** -/
theorem prune_keeps (days : ℤ) (now : Time) (he : e ∈ s.memoryEvents)
    (h : shipEligible s e = true ∨ recallServed e = false) :
    e ∈ (pruneOldRecallServedEvents s days now).memoryEvents := by
  have hkept : recallServedPrunable s (now - days * 24 * 60 * 60 * 1000) e = false := by
    rcases h with helig | hserved
    · obtain ⟨hsync, -, -, hin⟩ := shipEligible_iff.1 helig
      exact hin.not_prunable ⟨rfl, rfl⟩ hsync _
    · rw [recallServedPrunable, decide_eq_false_iff_not]
      intro hprunable
      simp [recallServed, hprunable.1, hprunable.2.1] at hserved
  exact List.mem_filter.2 ⟨he, by simp [hkept]⟩

/-- an event whose atom stays in scope is kept until a round acknowledges it; by induction on the run, from its end -/
theorem kept_or_acked (hs : SeqOrdered st.db) (hc : Current st) (he : e ∈ st.db.memoryEvents) (hsync : e.syncedAt = none)
    (ops : List ShipOp) (hin : Along (shipStep E) (fun v _ => InScope v.db e) st ops) :
    (∃ f ∈ (shipRun E st ops).db.memoryEvents, Same f e) ∨ AckedIn E st ops e := by
  induction ops using List.reverseRecOn with
  | nil => exact Or.inl ⟨e, he, rfl, rfl⟩
  | append_singleton ops op ih =>
    obtain ⟨hin, hlast, -⟩ := along_append.1 hin
    rw [shipRun_snoc]
    rcases ih hin with ⟨f, hf, hfe⟩ | hacked
    · rcases shipStep_log (E := E) (shipRun E st ops) op with ⟨es, hlog, -⟩ | ⟨⟨g, hg, hrows⟩, -⟩ | ⟨days, now, rfl⟩
      · exact Or.inl ⟨f, by rw [hlog]; exact List.mem_append_left _ hf, hfe⟩
      · obtain ⟨hsame, -, -⟩ := hrows f
        exact Or.inl ⟨g f, by rw [hg]; exact List.mem_map_of_mem hf, hsame.1.trans hfe.1, hsame.2.trans hfe.2⟩
      · by_cases hfsync : f.syncedAt = none
        · refine Or.inl ⟨f, List.mem_filter.2 ⟨hf, ?_⟩, hfe⟩
          have hkept : recallServedPrunable (shipRun E st ops).db (now - days * 24 * 60 * 60 * 1000) f = false :=
            hlast.not_prunable hfe hfsync _
          simp [hkept]
        · -- the row has been synced since, so a round of the run has acknowledged it
          rcases synced_was_acked hs hc ops f hf hfsync with ⟨g, hg, hfg, hgsync⟩ | hacked
          · rw [hs.inj hg he (hfg.2.symm.trans hfe.2)] at hgsync
            exact absurd hsync hgsync
          · exact Or.inr (hacked.snoc ⟨hfe.1.symm, hfe.2.symm⟩ _)
    · exact Or.inr (hacked.snoc ⟨rfl, rfl⟩ op)

/-- neither a sweep nor an event of a ship round -/
def ShipOp.isOther : ShipOp → Bool
  | .other _ => true
  | _ => false

/-- sweeps and ship rounds leave the memories alone -/
theorem shipStep_memories {op : ShipOp} (hop : op.isOther = false) :
    (shipStep E st op).db.memories = st.db.memories := by
  have hsynced : ∀ (s : St) (seqs : List ℕ), (markSynced E s seqs).memories = s.memories := by
    intro s seqs
    unfold markSynced
    split <;> rfl
  have hrejected : ∀ (s : St) (seqs : List ℕ), (markRejected E s seqs).memories = s.memories := by
    intro s seqs
    unfold markRejected
    split <;> rfl
  cases op with
  | other op => cases hop
  | send n =>
    simp only [shipStep]
    split <;> rfl
  | answer answer =>
    simp only [shipStep]
    split
    · rw [markShipped_eq, hrejected, hsynced]
    · rfl
  | crash answer =>
    simp only [shipStep]
    split
    · rw [hsynced]
    · rfl
  | unreject seqs => rfl
  | prune days now => rfl

theorem InScope.congr {t : St} (h : InScope s e) (hrows : t.memories = s.memories) : InScope t e := by
  rw [InScope, findRow_congr hrows]
  exact h

/-- **A sweep loses nothing.** It deletes no event that `listUnsynced` would select, and no event but `recall_served`
ones. Over sweeps and ship rounds in any order, with any answers, failures and crashes, an event that could be shipped is
in the log, or a round whose batch held it has been acknowledged. -/
theorem prune_loses_nothing (E : Env) (db : St) (hdb : SeqOrdered db) (ops : List ShipOp)
    (hops : ∀ op ∈ ops, op.isOther = false) :
    (∀ (s : St) (days : ℤ) (now : Time), ∀ e ∈ s.memoryEvents, shipEligible s e = true ∨ recallServed e = false →
      e ∈ (pruneOldRecallServedEvents s days now).memoryEvents) ∧
    ∀ pre post, pre ++ post = ops → ∀ e ∈ (shipRun E ⟨db, none⟩ pre).db.memoryEvents,
      shipEligible (shipRun E ⟨db, none⟩ pre).db e = true →
        (∃ f ∈ (shipRun E ⟨db, none⟩ ops).db.memoryEvents, Same f e) ∨
          AckedIn E (shipRun E ⟨db, none⟩ pre) post e := by
  refine ⟨fun s days now e he h => prune_keeps days now he h, ?_⟩
  rintro pre post rfl e he helig
  obtain ⟨hsync, -, -, hin⟩ := shipEligible_iff.1 helig
  have hstart : SeqOrdered (⟨db, none⟩ : Shipping).db := hdb
  have hcurrent : Current ⟨db, none⟩ := fun rows hrows => by cases hrows
  rw [shipRun_append]
  refine kept_or_acked (hstart.shipRun pre) (current_run hstart hcurrent pre) he hsync post ?_
  refine Along.carry (fun v : Shipping => InScope v.db e)
    (fun v op hv hop => InScope.congr hv (shipStep_memories hop.2)) (fun v op hv _ => hv) hin
    ((along_trivial (shipStep E) _ post).and_forall fun op hop => hops op (List.mem_append_right pre hop))

/-- two served events of a team atom; a round ships them, the answer acknowledges the first, a sweep comes last -/
def servedTwice : St where
  memories := [{ rowid := 1, id := 0, type := .fact, text := "a", normalizedText := "a", repo := none, project := none,
                 branch := none, agent := none, sessionId := none, importance := 1, confidence := 1, hash := 1,
                 createdAt := 0, updatedAt := 0, sourceHash := none, evidence := none, validFrom := 0, scope := .team }]
  memoryEvents := [⟨⟨1, .usefulness, 0, some { family := some "recall_served" }, none, 0⟩, 1, none, none⟩,
    ⟨⟨2, .usefulness, 0, some { family := some "recall_served" }, none, 0⟩, 2, none, none⟩]
  seqHigh := 2

theorem servedTwice_ordered : SeqOrdered servedTwice where
  sorted := by decide
  high := by decide

theorem prune_loses_nothing_served :
    (shipRun countingEnv ⟨servedTwice, none⟩ [.send 5, .answer (some ⟨1, []⟩), .prune 1 100000000]).db.memoryEvents.map
      (·.seq) = [2] ∧
    ∀ e ∈ servedTwice.memoryEvents, shipEligible servedTwice e = true →
      (∃ f ∈ (shipRun countingEnv ⟨servedTwice, none⟩
        [.send 5, .answer (some ⟨1, []⟩), .prune 1 100000000]).db.memoryEvents, Same f e) ∨
        AckedIn countingEnv ⟨servedTwice, none⟩ [.send 5, .answer (some ⟨1, []⟩), .prune 1 100000000] e :=
  ⟨by decide, (prune_loses_nothing countingEnv servedTwice servedTwice_ordered _ (by decide)).2 [] _ rfl⟩

end AstramemLocal.Daemon
