/-
What an ingest does with the row of its key: it throws a replay exactly when the row is live, under the hash of the body
(`ingestCanonical_replay`), and when it returns the row points to the new transcript (`ingestCanonical_ok`).
-/
import AstramemLocal.Server.Ingest

namespace AstramemLocal.Server

open AstramemLocal.Core AstramemLocal.Store AstramemLocal.Ingest

variable {E : Ingest.Env} {db after : Db} {key k hash : String} {now : Time} {n : ℕ} {row : IdempotencyRow}

/-! ## The idempotency table -/

theorem findKey_insert : findKey (insertIdempotency db row) k =
    (findKey db k).or (if row.key = k then some row else none) := by
  unfold insertIdempotency
  split
  · rename_i hsome
    by_cases hk : row.key = k
    · subst hk
      obtain ⟨r, hr⟩ := Option.isSome_iff_exists.1 hsome
      simp [hr]
    · simp [hk]
  · exact lookup_insert

theorem insert_of_none (h : findKey db row.key = none) :
    insertIdempotency db row = { db with idempotency := db.idempotency ++ [row] } := by
  simp [insertIdempotency, h]

theorem insert_of_some {old : IdempotencyRow} (h : findKey db row.key = some old) : insertIdempotency db row = db := by
  simp [insertIdempotency, h]

/-- a row put in the place of the row of its key -/
theorem insert_delete : insertIdempotency (deleteIdempotency db row.key) row =
    { db with idempotency := deleteWhere (·.key = row.key) db.idempotency ++ [row] } := by
  apply insert_of_none
  apply lookup_eq_none.2
  intro r hr
  exact (mem_deleteWhere.1 hr).2

/-! ## The slot -/

/-- the row of the key has this hash, and its target exists -/
def Live (db : Db) (key hash : String) (n : ℕ) : Prop :=
  ∃ row, findKey db key = some row ∧ row.bodyHash = hash ∧ row.summaryMemoryId = some (.id n) ∧ stillExists db n = true

theorem claim_of_none (h : findKey db key = none) : claimIdempotencySlot db key hash now =
    .ok { db with idempotency := db.idempotency ++ [placeholder key hash now] } := by
  have hinsert : insertIdempotency db (placeholder key hash now) = _ := insert_of_none h
  have hfind : findKey { db with idempotency := db.idempotency ++ [placeholder key hash now] } key =
      some (placeholder key hash now) := by
    rw [← hinsert, findKey_insert, h]
    simp [placeholder]
  unfold claimIdempotencySlot
  simp only [hinsert, hfind]
  exact if_pos rfl

theorem claim_of_some (h : findKey db key = some row) : claimIdempotencySlot db key hash now =
    if row.summaryMemoryId = some .pending then .ok db
    else if row.bodyHash ≠ hash then .error (.idempotencyConflict key)
    else
      match row.summaryMemoryId with
      | some (.id n) =>
        if stillExists db n then .error (.idempotentReplay n)
        else .ok (insertIdempotency (deleteIdempotency db key) (placeholder key hash now))
      | _ => .ok (insertIdempotency (deleteIdempotency db key) (placeholder key hash now)) := by
  have hinsert : insertIdempotency db (placeholder key hash now) = db := insert_of_some h
  cases hsummary : row.summaryMemoryId with
  | none => simp [claimIdempotencySlot, hinsert, h, hsummary]
  | some summary => cases summary <;> simp [claimIdempotencySlot, hinsert, h, hsummary]

/-- a claim that returns has changed nothing but the row of its key -/
theorem claim_ok (h : claimIdempotencySlot db key hash now = .ok after) :
    ∃ rows, after = { db with idempotency := rows } ∧
      deleteWhere (·.key = key) rows = deleteWhere (·.key = key) db.idempotency := by
  have hreclaim : insertIdempotency (deleteIdempotency db key) (placeholder key hash now) = after →
      ∃ rows, after = { db with idempotency := rows } ∧
        deleteWhere (·.key = key) rows = deleteWhere (·.key = key) db.idempotency := by
    rintro rfl
    refine ⟨_, insert_delete, ?_⟩
    calc deleteWhere (·.key = key) (deleteWhere (·.key = key) db.idempotency ++ [placeholder key hash now])
        = deleteWhere (·.key = key) (deleteWhere (·.key = key) db.idempotency) := by
          apply deleteWhere_snoc
          rfl
      _ = deleteWhere (·.key = key) db.idempotency := deleteWhere_twice
  cases hrow : findKey db key with
  | none =>
    rw [claim_of_none hrow] at h
    cases h
    exact ⟨_, rfl, deleteWhere_snoc rfl⟩
  | some row =>
    rw [claim_of_some hrow] at h
    by_cases hpending : row.summaryMemoryId = some .pending
    · rw [if_pos hpending] at h
      cases h
      exact ⟨db.idempotency, rfl, rfl⟩
    · rw [if_neg hpending] at h
      by_cases hhash : row.bodyHash ≠ hash
      · rw [if_pos hhash] at h
        cases h
      · rw [if_neg hhash] at h
        split at h
        · split_ifs at h
          exact hreclaim (Except.ok.inj h)
        · exact hreclaim (Except.ok.inj h)

/-- a claim that returns found no row with a target that exists -/
theorem claim_dangling (h : claimIdempotencySlot db key hash now = .ok after) (hrow : findKey db key = some row)
    (hid : row.summaryMemoryId = some (.id n)) : ¬ stillExists db n = true := by
  intro hexists
  rw [claim_of_some hrow, hid, if_neg (by simp)] at h
  by_cases hhash : row.bodyHash ≠ hash
  · rw [if_pos hhash] at h
    cases h
  · rw [if_neg hhash] at h
    simp [hexists] at h

/-- a claim throws a replay exactly when the row of its key is live under the hash -/
theorem claim_replay : claimIdempotencySlot db key hash now = .error (.idempotentReplay n) ↔ Live db key hash n := by
  constructor
  · intro h
    cases hrow : findKey db key with
    | none => rw [claim_of_none hrow] at h; cases h
    | some row =>
      rw [claim_of_some hrow] at h
      by_cases hpending : row.summaryMemoryId = some .pending
      · rw [if_pos hpending] at h
        cases h
      · rw [if_neg hpending] at h
        by_cases hhash : row.bodyHash ≠ hash
        · rw [if_pos hhash] at h
          cases h
        · rw [if_neg hhash] at h
          split at h
          · rename_i m hid
            split_ifs at h with hexists
            cases h
            exact ⟨row, hrow, not_not.1 hhash, hid, hexists⟩
          · cases h
  · rintro ⟨row, hrow, rfl, hid, hexists⟩
    rw [claim_of_some hrow, hid]
    simp [hexists]

/-- no other body holds the key -/
def SlotFree (db : Db) (key hash : String) : Prop :=
  ∀ row, findKey db key = some row → row.summaryMemoryId = some .pending ∨ row.bodyHash = hash

theorem claim_conflict :
    claimIdempotencySlot db key hash now = .error (.idempotencyConflict key) ↔ ¬ SlotFree db key hash := by
  constructor
  · intro h hfree
    cases hrow : findKey db key with
    | none => rw [claim_of_none hrow] at h; cases h
    | some row =>
      rw [claim_of_some hrow] at h
      rcases hfree row hrow with hpending | hhash
      · rw [if_pos hpending] at h
        cases h
      · split_ifs at h with hpending hother
        · exact hother hhash
        · split at h
          · split_ifs at h
            cases h
          · cases h
  · intro hheld
    simp only [SlotFree, not_forall, not_or] at hheld
    obtain ⟨row, hrow, hpending, hhash⟩ := hheld
    rw [claim_of_some hrow, if_neg hpending, if_pos hhash]

/-- a claim returns, or throws one of the two -/
theorem claim_cases (db : Db) (key hash : String) (now : Time) :
    (∃ after, claimIdempotencySlot db key hash now = .ok after) ∨
      (∃ n, claimIdempotencySlot db key hash now = .error (.idempotentReplay n)) ∨
      claimIdempotencySlot db key hash now = .error (.idempotencyConflict key) := by
  cases hrow : findKey db key with
  | none =>
    rw [claim_of_none hrow]
    exact Or.inl ⟨_, rfl⟩
  | some row =>
    rw [claim_of_some hrow]
    split_ifs
    · exact Or.inl ⟨_, rfl⟩
    · exact Or.inr (Or.inr rfl)
    · split
      · split_ifs
        · exact Or.inr (Or.inl ⟨_, rfl⟩)
        · exact Or.inl ⟨_, rfl⟩
      · exact Or.inl ⟨_, rfl⟩

/-! ## The transaction -/

section
variable {session : Session} {transcript : ℕ → Transcript} {events : List String} {kind : Pipeline.JobKind}
  {result : IngestResult}

/-- what an ingest writes besides the row of its key -/
structure Wrote (db : Db) (row : Transcript) (after : Db) : Prop where
  transcripts : after.transcripts = db.transcripts ++ [row]
  memories : after.store.memories = db.store.memories

theorem insertTranscript_ok {t : Transcript} (h : insertTranscript db t = .ok after) :
    after = { db with transcripts := db.transcripts ++ [t] } := by
  unfold insertTranscript at h
  split_ifs at h
  exact (Except.ok.inj h).symm

theorem insertJob_ok {job : Pipeline.Job} (h : insertJob db job = .ok after) :
    after = { db with jobs := db.jobs ++ [job] } := by
  unfold insertJob at h
  split_ifs at h
  exact (Except.ok.inj h).symm

/-- the tables the claim's rows and their targets are in, but for the transcripts -/
def SameTargets (db after : Db) : Prop :=
  after.idempotency = db.idempotency ∧ after.store.memories = db.store.memories ∧ after.transcripts = db.transcripts

theorem sameTargets_session : SameTargets db (upsertSession E db session) := by
  unfold upsertSession
  split <;> exact ⟨rfl, rfl, rfl⟩

theorem sameTargets_redaction {id : String} : SameTargets db (recordRedactionEvents E db events id) := by
  unfold recordRedactionEvents
  split <;> exact ⟨rfl, rfl, rfl⟩

theorem writeRows_ok (h : writeRows E db now session transcript events kind = .ok (result, after)) :
    Wrote db (transcript result.transcriptId) after ∧ after.idempotency = db.idempotency := by
  have hsession : SameTargets db (upsertSession E db session) := sameTargets_session
  unfold writeRows at h
  dsimp only at h
  split at h
  · cases h
  · rename_i inserted hinsert
    have hlog : SameTargets inserted (recordRedactionEvents E inserted events session.id) := sameTargets_redaction
    split at h
    · cases h
    · rename_i enqueued henqueue
      cases h
      rw [insertJob_ok henqueue]
      rw [insertTranscript_ok hinsert] at hlog ⊢
      refine ⟨⟨?_, ?_⟩, ?_⟩
      · exact hlog.2.2.trans (congrArg (· ++ _) hsession.2.2)
      · exact hlog.2.1.trans hsession.2.1
      · exact hlog.1.trans hsession.1

theorem writeRows_error {e : IngestError} (h : writeRows E db now session transcript events kind = .error e) :
    e = .constraint := by
  unfold writeRows at h
  dsimp only at h
  split at h
  · rename_i thrown hinsert
    unfold insertTranscript at hinsert
    split_ifs at hinsert
    cases h
    exact (Except.error.inj hinsert).symm
  · split at h
    · rename_i thrown henqueue
      unfold insertJob at henqueue
      split_ifs at henqueue
      cases h
      exact (Except.error.inj henqueue).symm
    · cases h

/-- the ids still to be drawn are not in use -/
def FreshIds (E : Ingest.Env) (db : Db) : Prop :=
  ∀ i, db.store.drawn ≤ i → (∀ t ∈ db.transcripts, t.id ≠ E.uuid i) ∧ ∀ job ∈ db.jobs, job.id ≠ E.uuid i

theorem upsertSession_frame : (upsertSession E db session).store.drawn = db.store.drawn ∧
    (upsertSession E db session).jobs = db.jobs := by
  unfold upsertSession
  split <;> exact ⟨rfl, rfl⟩

theorem recordRedactionEvents_frame {id : String} :
    (recordRedactionEvents E db events id).store.drawn = db.store.drawn ∧
      (recordRedactionEvents E db events id).jobs = db.jobs := by
  unfold recordRedactionEvents
  split <;> exact ⟨rfl, rfl⟩

theorem insertTranscript_fresh {t : Transcript} (h : ∀ u ∈ db.transcripts, u.id ≠ t.id) :
    insertTranscript db t = .ok { db with transcripts := db.transcripts ++ [t] } := by
  apply if_neg
  simpa using h

theorem insertJob_fresh {job : Pipeline.Job} (h : ∀ j ∈ db.jobs, j.id ≠ job.id) :
    insertJob db job = .ok { db with jobs := db.jobs ++ [job] } := by
  apply if_neg
  simpa using h

theorem writeRows_fresh (hfresh : FreshIds E db) (hid : ∀ id, (transcript id).id = id) :
    ∃ written, writeRows E db now session transcript events kind = .ok written := by
  have hsession : SameTargets db (upsertSession E db session) := sameTargets_session
  obtain ⟨hdrawn, hjobs⟩ : (upsertSession E db session).store.drawn = db.store.drawn ∧
      (upsertSession E db session).jobs = db.jobs := upsertSession_frame
  unfold writeRows
  dsimp only
  rw [insertTranscript_fresh]
  · dsimp only
    rw [insertJob_fresh]
    · exact ⟨_, rfl⟩
    · intro job hjob
      rw [recordRedactionEvents_frame.1]
      have hold : job ∈ db.jobs := by
        have hlogged : job ∈ (recordRedactionEvents E _ events session.id).jobs := hjob
        rw [recordRedactionEvents_frame.2] at hlogged
        exact hjobs ▸ hlogged
      have hlater : db.store.drawn ≤ (upsertSession E db session).store.drawn + 1 := by
        rw [hdrawn]
        exact Nat.le_succ _
      exact (hfresh _ hlater).2 job hold
  · intro t ht
    have hold : t ∈ db.transcripts := hsession.2.2 ▸ ht
    rw [hid]
    exact (hfresh _ hdrawn.ge).1 t hold

/-- an ingest that returns leaves a row of its key that points to its transcript -/
theorem ingestTx_ok (h : ingestTx E db (some key) hash now session transcript events kind = .ok (result, after)) :
    Wrote db (transcript result.transcriptId) after ∧
      after.idempotency = deleteWhere (·.key = key) db.idempotency ++
        [⟨key, hash, some (.id result.transcriptId), now⟩] := by
  unfold ingestTx at h
  dsimp only at h
  split at h
  · cases h
  · rename_i claimed hclaim
    obtain ⟨rows, rfl, hrows⟩ := claim_ok hclaim
    split at h
    · cases h
    · rename_i written hwrite
      obtain ⟨hwrote, hsame⟩ := writeRows_ok hwrite
      cases h
      have hfinal : finalizeIdempotencySlot written key hash result.transcriptId now = _ := insert_delete
      refine ⟨⟨?_, ?_⟩, ?_⟩
      · exact (congrArg Db.transcripts hfinal).trans hwrote.transcripts
      · exact (congrArg (·.store.memories) hfinal).trans hwrote.memories
      · exact (congrArg Db.idempotency hfinal).trans (by rw [hsame, hrows])

theorem ingestTx_dangling (h : ingestTx E db (some key) hash now session transcript events kind = .ok (result, after))
    (hrow : findKey db key = some row) (hid : row.summaryMemoryId = some (.id n)) : ¬ stillExists db n = true := by
  unfold ingestTx at h
  dsimp only at h
  split at h
  · cases h
  · rename_i claimed hclaim
    exact claim_dangling hclaim hrow hid

/-- an error that is no broken constraint is that of the claim -/
theorem ingestTx_error {e : IngestError} (he : e ≠ .constraint) :
    ingestTx E db (some key) hash now session transcript events kind = .error e ↔
      claimIdempotencySlot db key hash now = .error e := by
  unfold ingestTx
  dsimp only
  cases hclaim : claimIdempotencySlot db key hash now with
  | error thrown => simp
  | ok claimed =>
    cases hwrite : writeRows E claimed now session transcript events kind with
    | error thrown => simp [hwrite, writeRows_error hwrite, he.symm]
    | ok written => simp [hwrite]

theorem ingestTx_replay :
    ingestTx E db (some key) hash now session transcript events kind = .error (.idempotentReplay n) ↔
      Live db key hash n := by
  have hclaimed : claimIdempotencySlot db key hash now = .error (.idempotentReplay n) ↔ Live db key hash n := claim_replay
  rw [← hclaimed]
  exact ingestTx_error (by simp)

theorem ingestTx_conflict :
    ingestTx E db (some key) hash now session transcript events kind = .error (.idempotencyConflict key) ↔
      ¬ SlotFree db key hash := by
  have hclaimed : claimIdempotencySlot db key hash now = .error (.idempotencyConflict key) ↔ ¬ SlotFree db key hash :=
    claim_conflict
  rw [← hclaimed]
  exact ingestTx_error (by simp)

/-- where the ids are fresh, an ingest under a free key returns or is a replay -/
theorem ingestTx_fresh (hfresh : FreshIds E db) (hid : ∀ id, (transcript id).id = id) (hfree : SlotFree db key hash) :
    (∃ written, ingestTx E db (some key) hash now session transcript events kind = .ok written) ∨
      ∃ n, ingestTx E db (some key) hash now session transcript events kind = .error (.idempotentReplay n) := by
  unfold ingestTx
  dsimp only
  rcases claim_cases db key hash now with ⟨claimed, hclaim⟩ | ⟨n, hclaim⟩ | hclaim
  · obtain ⟨rows, rfl, -⟩ := claim_ok hclaim
    have hrows : FreshIds E { db with idempotency := rows } := hfresh
    obtain ⟨written, hwrite⟩ : ∃ written, writeRows E { db with idempotency := rows } now session transcript events kind =
        .ok written := writeRows_fresh hrows hid
    rw [hclaim]
    dsimp only
    rw [hwrite]
    exact Or.inl ⟨_, rfl⟩
  · rw [hclaim]
    exact Or.inr ⟨n, rfl⟩
  · exact absurd hfree (claim_conflict.1 hclaim)

end

/-! ## The canonical ingests -/

section
variable {data : Envelope} {result : IngestResult}

/-- what `ingestCanonicalTranscript` checks before its transaction -/
def Admitted (E : Ingest.Env) (data : Envelope) : Prop :=
  data.kind = .transcript → data.turns.getD [] ≠ [] ∧
    ¬ (data.captureSource = some .meetingCaptions ∧ ¬ E.config.meetingCaptionsEnabled = true)

/-- both kinds are one transaction, under the hash of the body -/
theorem ingestCanonical_eq (h : Admitted E data) (db : Db) (key : Option String) :
    ∃ session transcript events kind, (∀ id, (transcript id : Transcript).id = id) ∧
      ingestCanonical E db data key =
        ingestTx E (tickDb db) key (bodyHash E data) (E.now db.store.clock) session transcript events kind := by
  cases hkind : data.kind with
  | events =>
    refine ⟨_, _, _, _, ?_, by simp only [ingestCanonical, hkind]; rfl⟩
    intro id
    rfl
  | transcript =>
    obtain ⟨hturns, hcaptions⟩ := h hkind
    have hgate : ¬ (data.kind = .events ∨ data.turns.getD [] = []) := by simp [hkind, hturns]
    refine ⟨_, _, _, _, ?_, by
      simp only [ingestCanonical, hkind]
      unfold ingestCanonicalTranscript
      rw [if_neg hgate, if_neg hcaptions]⟩
    intro id
    rfl

theorem admitted_of_ok {key : Option String} (h : ingestCanonical E db data key = .ok (result, after)) :
    Admitted E data := by
  intro hkind
  simp only [ingestCanonical, hkind] at h
  unfold ingestCanonicalTranscript at h
  constructor
  · intro hturns
    rw [if_pos (Or.inr hturns)] at h
    cases h
  · intro hcaptions
    by_cases hgate : data.kind = .events ∨ data.turns.getD [] = []
    · rw [if_pos hgate] at h
      cases h
    · rw [if_neg hgate, if_pos hcaptions] at h
      cases h

theorem ingestCanonical_ok (h : ingestCanonical E db data (some key) = .ok (result, after)) :
    (∃ t : Transcript, t.id = result.transcriptId ∧ Wrote db t after) ∧
      after.idempotency = deleteWhere (·.key = key) db.idempotency ++
        [⟨key, bodyHash E data, some (.id result.transcriptId), E.now db.store.clock⟩] := by
  obtain ⟨session, transcript, events, kind, hid, heq⟩ := ingestCanonical_eq (admitted_of_ok h) db (some key)
  obtain ⟨hwrote, hrows⟩ := ingestTx_ok (heq.symm.trans h)
  exact ⟨⟨transcript result.transcriptId, hid _, hwrote.transcripts, hwrote.memories⟩, hrows⟩

theorem ingestCanonical_dangling (h : ingestCanonical E db data (some key) = .ok (result, after))
    (hrow : findKey db key = some row) (hid : row.summaryMemoryId = some (.id n)) : ¬ stillExists db n = true := by
  obtain ⟨session, transcript, events, kind, -, heq⟩ := ingestCanonical_eq (admitted_of_ok h) db (some key)
  have hgone : ¬ stillExists (tickDb db) n = true := ingestTx_dangling (heq.symm.trans h) hrow hid
  exact hgone

theorem ingestCanonical_replay (h : Admitted E data) :
    ingestCanonical E db data (some key) = .error (.idempotentReplay n) ↔ Live db key (bodyHash E data) n := by
  obtain ⟨session, transcript, events, kind, -, heq⟩ := ingestCanonical_eq h db (some key)
  rw [heq, ingestTx_replay]
  rfl

theorem ingestCanonical_conflict (h : Admitted E data) :
    ingestCanonical E db data (some key) = .error (.idempotencyConflict key) ↔ ¬ SlotFree db key (bodyHash E data) := by
  obtain ⟨session, transcript, events, kind, -, heq⟩ := ingestCanonical_eq h db (some key)
  rw [heq, ingestTx_conflict]
  rfl

theorem ingestCanonical_fresh (h : Admitted E data) (hfresh : FreshIds E db) (hfree : SlotFree db key (bodyHash E data)) :
    (∃ written, ingestCanonical E db data (some key) = .ok written) ∨
      ∃ n, ingestCanonical E db data (some key) = .error (.idempotentReplay n) := by
  obtain ⟨session, transcript, events, kind, hid, heq⟩ := ingestCanonical_eq h db (some key)
  have hticked : FreshIds E (tickDb db) := hfresh
  rw [heq]
  exact ingestTx_fresh hticked hid hfree

/-- what was stored is a replay from then on -/
theorem live_of_ok (h : ingestCanonical E db data (some key) = .ok (result, after)) :
    Live after key (bodyHash E data) result.transcriptId := by
  obtain ⟨⟨t, hid, hwrote⟩, hrows⟩ := ingestCanonical_ok h
  refine ⟨⟨key, bodyHash E data, some (.id result.transcriptId), E.now db.store.clock⟩, ?_, rfl, rfl, ?_⟩
  · have hother : lookup (·.key) key (deleteWhere (·.key = key) db.idempotency) = none :=
      lookup_eq_none.2 fun r hr => (mem_deleteWhere.1 hr).2
    rw [findKey, hrows, lookup_insert, hother]
    exact if_pos rfl
  · simp [stillExists, hwrote.transcripts, hid]

/-- the drain ingests as the route does -/
theorem ingestCanonicalTranscript_eq (hkind : data.kind = .transcript) (key : Option String) :
    ingestCanonicalTranscript E db data key none = ingestCanonical E db data key := by
  simp only [ingestCanonical, hkind]
  rfl

end

end AstramemLocal.Server
