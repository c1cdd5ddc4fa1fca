/-
`src/storage/memory-events.ts`: the append-only log and the local lifecycle operations. Each operation is one
transaction, so it either throws and leaves the state as it was, or returns the new state.
-/
import AstramemLocal.Store.Schema

namespace AstramemLocal.Store

inductive LifecycleError where
  | memoryNotFound (atomId : AtomId)
  | memoryConflict (message : String)
  | invalidScopeTransition (message : String)
  | purgeBatchNotFound (batchId : BatchId)
deriving DecidableEq, Repr

/-- `SCOPE_RANK` -/
def scopeRank : MemoryScope → ℕ
  | .priv => 0
  | .team => 1
  | .org => 2

def MemoryScope.text : MemoryScope → String
  | .priv => "private"
  | .team => "team"
  | .org => "org"

structure SupersedeProvenance where
  threshold : ℚ
  similarity : ℚ
deriving DecidableEq, Repr

inductive CorrectionSource where
  | consolidationAuto | external
deriving DecidableEq, Repr

def CorrectionSource.text : CorrectionSource → String
  | .consolidationAuto => "consolidation_auto"
  | .external => "external"

/-- the `memory_corrected` usefulness payload -/
def corrected (action : String) (source : CorrectionSource) : Payload :=
  { family := some "memory_corrected", action := some action, source := some source.text }

def invalidate (E : Env) (s : St) (atomId : AtomId) (reason : Option String) : Except LifecycleError St :=
  match findRow s atomId with
  | none => .error (.memoryNotFound atomId)
  | some row =>
    if row.validTo ≠ none then .error (.memoryConflict s!"memory {atomId} is already invalid")
    else
      let now := E.now s.clock
      let s := updateRow (tick s) atomId fun m => { m with validTo := some now, updatedAt := now }
      let s := append E s .invalidate atomId (some { reason }) none now
      .ok (append E s .usefulness atomId (some (corrected "invalidated" .external)) none now)

/-- the payload of a local `supersede` event -/
def supersedePayload (newId : AtomId) : Option SupersedeProvenance → Payload
  | none => { supersededBy := some newId }
  | some p =>
    { supersededBy := some newId, autoAccepted := some true, threshold := some p.threshold,
      similarity := some p.similarity }

def supersede (E : Env) (s : St) (oldId newId : AtomId) (provenance : Option SupersedeProvenance)
    (correctionSource : CorrectionSource) : Except LifecycleError St :=
  match findRow s oldId with
  | none => .error (.memoryNotFound oldId)
  | some oldRow =>
    match findRow s newId with
    | none => .error (.memoryNotFound newId)
    | some newRow =>
      if oldRow.validTo ≠ none then .error (.memoryConflict s!"memory {oldId} is already invalid")
      else if newRow.validTo ≠ none then
        .error (.memoryConflict s!"memory {newId} must be valid to supersede with — it is already invalid")
      else
        let now := E.now s.clock
        let s := updateRow (tick s) oldId fun m =>
          { m with validTo := some now, supersededBy := some newId, updatedAt := now }
        let s := updateRow s newId fun m => { m with validFrom := now, updatedAt := now }
        let s := dropRelations (unlinkMemory s oldId) oldId
        let s := append E s .supersede oldId (some (supersedePayload newId provenance)) none now
        .ok (append E s .usefulness oldId (some (corrected "superseded" correctionSource)) none now)

def archive (E : Env) (s : St) (atomId : AtomId) (reason : Option String) : Except LifecycleError St :=
  match findRow s atomId with
  | none => .error (.memoryNotFound atomId)
  | some row =>
    if row.validTo ≠ none then .error (.memoryConflict s!"memory {atomId} is already invalid — cannot archive")
    else
      let now := E.now s.clock
      let s := updateRow (tick s) atomId fun m =>
        { m with validTo := some now, archived := true, archivedAt := some now, updatedAt := now }
      .ok (append E s .archive atomId (some { reason }) none now)

def restore (E : Env) (s : St) (atomId : AtomId) : Except LifecycleError St :=
  match findRow s atomId with
  | none => .error (.memoryNotFound atomId)
  | some row =>
    if row.archived ≠ true then .error (.memoryConflict s!"memory {atomId} is not archived")
    else
      let now := E.now s.clock
      let s := updateRow (tick s) atomId fun m =>
        { m with validTo := none, archived := false, archivedAt := none, updatedAt := now }
      .ok (append E s .restore atomId none none now)

def unsupersede (E : Env) (s : St) (atomId : AtomId) (reason : Option String) : Except LifecycleError St :=
  match findRow s atomId with
  | none => .error (.memoryNotFound atomId)
  | some row =>
    if row.archived = true then
      .error (.memoryConflict s!"memory {atomId} is archived, not superseded — use restore() instead")
    else
      match row.supersededBy with
      | none => .error (.memoryConflict s!"memory {atomId} was not superseded")
      | some previousWinner =>
        let now := E.now s.clock
        let s := updateRow (tick s) atomId fun m => { m with validTo := none, supersededBy := none, updatedAt := now }
        .ok (append E s .unsupersede atomId (some { reversedSupersededBy := some previousWinner, reason }) none now)

/-- one round of the loop of `purgeBatch`: ids that are unknown or already invalid are skipped -/
def purgeOne (E : Env) (batchId : BatchId) (captureSource : String) (now restoreDeadlineAt : Time) (acc : St × ℕ)
    (atomId : AtomId) : St × ℕ :=
  match findRow acc.1 atomId with
  | none => acc
  | some row =>
    if row.validTo ≠ none then acc
    else
      let s := updateRow acc.1 atomId fun m =>
        { m with validTo := some now, purgeBatchId := some batchId, updatedAt := now }
      (append E s .purge atomId
        (some { batchId := some batchId, captureSource := some captureSource,
                restoreDeadlineAt := some restoreDeadlineAt }) none now, acc.2 + 1)

def purgeBatch (E : Env) (s : St) (atomIds : List AtomId) (captureSource : String) (restoreWindowDays : ℤ) :
    St × BatchId × ℕ :=
  let batchId := E.uuid s.drawn
  let now := E.now s.clock
  let restoreDeadlineAt := now + restoreWindowDays * 86400000
  let r := atomIds.foldl (purgeOne E batchId captureSource now restoreDeadlineAt) (tick (draw s), 0)
  ({ r.1 with
      purgeBatches := r.1.purgeBatches ++
        [⟨batchId, captureSource, now, restoreDeadlineAt, r.2, .openBatch, none⟩] }, batchId, r.2)

/-- `SELECT * FROM purge_batches WHERE batch_id = ?` -/
def findBatch (s : St) (b : BatchId) : Option PurgeBatchRow := s.purgeBatches.find? (·.batchId = b)

/-- `UPDATE purge_batches SET .. WHERE batch_id = ?` -/
def updateBatch (s : St) (b : BatchId) (f : PurgeBatchRow → PurgeBatchRow) : St :=
  { s with purgeBatches := s.purgeBatches.map fun r => if r.batchId = b then f r else r }

/-- `SELECT id FROM memories WHERE purge_batch_id = ? AND valid_to IS NOT NULL` -/
def purgedRows (s : St) (b : BatchId) : List AtomId :=
  (s.memories.filter fun m => m.purgeBatchId = some b ∧ m.validTo ≠ none).map (·.id)

/-- one round of the loop of `restorePurgeBatch` -/
def unpurgeOne (E : Env) (batchId : BatchId) (now : Time) (s : St) (id : AtomId) : St :=
  let s := updateRow s id fun m => { m with validTo := none, purgeBatchId := none, updatedAt := now }
  append E s .unpurge id (some { batchId := some batchId }) none now

def restorePurgeBatch (E : Env) (s : St) (batchId : BatchId) : Except LifecycleError (St × ℕ) :=
  match findBatch s batchId with
  | none => .error (.purgeBatchNotFound batchId)
  | some batch =>
    match batch.status with
    | .finalized =>
      .error (.memoryConflict s!"purge batch {batchId} is already finalized — nothing to restore")
    | .restored => .error (.memoryConflict s!"purge batch {batchId} is already restored")
    | .openBatch =>
      let now := E.now s.clock
      if batch.restoreDeadlineAt < now then
        .error (.memoryConflict
          s!"purge batch {batchId}'s restore window has elapsed — call finalizePurgeBatch() instead")
      else
        let rows := purgedRows s batchId
        let s := rows.foldl (unpurgeOne E batchId now) (tick s)
        .ok (updateBatch s batchId fun r => { r with status := .restored }, rows.length)

/-- the tombstone goes first, in the same transaction -/
def erase (E : Env) (s : St) (atomId : AtomId) (reason : Option String) : Except LifecycleError St :=
  match findRow s atomId with
  | none => .error (.memoryNotFound atomId)
  | some row =>
    let now := E.now s.clock
    let s := append E (tick s) .eraseRequest atomId (some { scope := some row.scope, reason }) (some row.hash) now
    .ok (deleteRow (deleteVec s row.rowid) atomId)

def finalizePurgeBatch (E : Env) (s : St) (batchId : BatchId) : Except LifecycleError (St × ℕ) :=
  match findBatch s batchId with
  | none => .error (.purgeBatchNotFound batchId)
  | some batch =>
    match batch.status with
    | .finalized => .error (.memoryConflict s!"purge batch {batchId} is already finalized")
    | .restored =>
      .error (.memoryConflict s!"purge batch {batchId} was already restored — nothing to finalize")
    | .openBatch =>
      let rows := purgedRows s batchId
      match rows.foldlM (fun s id => erase E s id (some s!"purge batch {batchId} finalized")) s with
      | .error e => .error e
      | .ok s =>
        .ok (updateBatch (tick s) batchId fun r =>
          { r with status := .finalized, finalizedAt := some (E.now s.clock) }, rows.length)

def promoteScope (E : Env) (s : St) (atomId : AtomId) (toScope : MemoryScope) : Except LifecycleError St :=
  match findRow s atomId with
  | none => .error (.memoryNotFound atomId)
  | some row =>
    if scopeRank toScope ≤ scopeRank row.scope then
      .error (.invalidScopeTransition <|
        s!"cannot promote memory {atomId} from '{row.scope.text}' to '{toScope.text}' — " ++
          "only upward promotions allowed (private -> team -> org)")
    else
      let now := E.now s.clock
      let s := updateRow (tick s) atomId fun m => { m with scope := toScope, updatedAt := now }
      .ok (append E s .promoteScope atomId (some { fromScope := some row.scope, toScope := some toScope }) none now)

/-- the replay filter: a tombstone with this content hash is in the log -/
def isErasedHash (s : St) (contentHash : Hash) : Bool :=
  s.memoryEvents.any fun e => e.eventType = .eraseRequest ∧ e.contentHash = some contentHash

/-! ## What the operations have done when they return -/

section

variable {E : Env} {s t : St} {a w : AtomId} {reason : Option String}

theorem invalidate_ok (h : invalidate E s a reason = .ok t) : ∃ row, findRow s a = some row ∧ row.validTo = none ∧
    t = append E (append E (updateRow (tick s) a fun m =>
      { m with validTo := some (E.now s.clock), updatedAt := E.now s.clock }) .invalidate a (some { reason }) none
      (E.now s.clock)) .usefulness a (some (corrected "invalidated" .external)) none (E.now s.clock) := by
  unfold invalidate at h
  split at h
  · cases h
  next row hrow =>
    split_ifs at h with hv
    exact ⟨row, hrow, not_not.1 hv, (Except.ok.inj h).symm⟩

theorem supersede_ok {provenance : Option SupersedeProvenance} {source : CorrectionSource}
    (h : supersede E s a w provenance source = .ok t) : ∃ row wrow, findRow s a = some row ∧ row.validTo = none ∧
      findRow s w = some wrow ∧ wrow.validTo = none ∧
        t = append E (append E (dropRelations (unlinkMemory (updateRow (updateRow (tick s) a fun m =>
          { m with validTo := some (E.now s.clock), supersededBy := some w, updatedAt := E.now s.clock }) w fun m =>
          { m with validFrom := E.now s.clock, updatedAt := E.now s.clock }) a) a) .supersede a
          (some (supersedePayload w provenance)) none (E.now s.clock)) .usefulness a
          (some (corrected "superseded" source)) none (E.now s.clock) := by
  unfold supersede at h
  split at h
  · cases h
  next row hrow =>
    split at h
    · cases h
    next wrow hwrow =>
      split_ifs at h with hv hw
      exact ⟨row, wrow, hrow, not_not.1 hv, hwrow, not_not.1 hw, (Except.ok.inj h).symm⟩

theorem archive_ok (h : archive E s a reason = .ok t) : ∃ row, findRow s a = some row ∧ row.validTo = none ∧
    t = append E (updateRow (tick s) a fun m =>
      { m with validTo := some (E.now s.clock), archived := true, archivedAt := some (E.now s.clock),
               updatedAt := E.now s.clock }) .archive a (some { reason }) none (E.now s.clock) := by
  unfold archive at h
  split at h
  · cases h
  next row hrow =>
    split_ifs at h with hv
    exact ⟨row, hrow, not_not.1 hv, (Except.ok.inj h).symm⟩

theorem restore_ok (h : restore E s a = .ok t) : ∃ row, findRow s a = some row ∧ row.archived = true ∧
    t = append E (updateRow (tick s) a fun m =>
      { m with validTo := none, archived := false, archivedAt := none, updatedAt := E.now s.clock }) .restore a none none
      (E.now s.clock) := by
  unfold restore at h
  split at h
  · cases h
  next row hrow =>
    split_ifs at h with ha
    exact ⟨row, hrow, not_not.1 ha, (Except.ok.inj h).symm⟩

theorem unsupersede_ok (h : unsupersede E s a reason = .ok t) : ∃ row w, findRow s a = some row ∧ row.archived = false ∧
    row.supersededBy = some w ∧ t = append E (updateRow (tick s) a fun m =>
      { m with validTo := none, supersededBy := none, updatedAt := E.now s.clock }) .unsupersede a
      (some { reversedSupersededBy := some w, reason }) none (E.now s.clock) := by
  unfold unsupersede at h
  split at h
  · cases h
  next row hrow =>
    split_ifs at h with ha
    split at h
    · cases h
    next w hw => exact ⟨row, w, hrow, Bool.eq_false_iff.2 ha, hw, (Except.ok.inj h).symm⟩

theorem promoteScope_ok {toScope : MemoryScope} (h : promoteScope E s a toScope = .ok t) : ∃ row, findRow s a = some row ∧
    scopeRank row.scope < scopeRank toScope ∧ t = append E (updateRow (tick s) a fun m =>
      { m with scope := toScope, updatedAt := E.now s.clock }) .promoteScope a
      (some { fromScope := some row.scope, toScope := some toScope }) none (E.now s.clock) := by
  unfold promoteScope at h
  split at h
  · cases h
  next row hrow =>
    split_ifs at h with hrank
    exact ⟨row, hrow, not_le.1 hrank, (Except.ok.inj h).symm⟩

theorem erase_ok (h : erase E s a reason = .ok t) : ∃ row, findRow s a = some row ∧
    t = deleteRow (deleteVec (append E (tick s) .eraseRequest a (some { scope := some row.scope, reason })
      (some row.hash) (E.now s.clock)) row.rowid) a := by
  unfold erase at h
  split at h
  · cases h
  next row hrow => exact ⟨row, hrow, (Except.ok.inj h).symm⟩

theorem restorePurgeBatch_ok {b : BatchId} {r : St × ℕ} (h : restorePurgeBatch E s b = .ok r) :
    ∃ batch, findBatch s b = some batch ∧ batch.status = .openBatch ∧ E.now s.clock ≤ batch.restoreDeadlineAt ∧
      r = (updateBatch ((purgedRows s b).foldl (unpurgeOne E b (E.now s.clock)) (tick s)) b fun r =>
        { r with status := .restored }, (purgedRows s b).length) := by
  unfold restorePurgeBatch at h
  split at h
  · cases h
  next batch hbatch =>
    split at h
    · cases h
    · cases h
    next hopen =>
      simp only at h
      split_ifs at h with hlate
      exact ⟨batch, hbatch, hopen, not_lt.1 hlate, (Except.ok.inj h).symm⟩

theorem finalizePurgeBatch_ok {b : BatchId} {r : St × ℕ} (h : finalizePurgeBatch E s b = .ok r) :
    ∃ batch u, findBatch s b = some batch ∧ batch.status = .openBatch ∧
      (purgedRows s b).foldlM (fun s id => erase E s id (some s!"purge batch {b} finalized")) s = .ok u ∧
      r = (updateBatch (tick u) b fun r => { r with status := .finalized, finalizedAt := some (E.now u.clock) },
        (purgedRows s b).length) := by
  unfold finalizePurgeBatch at h
  split at h
  · cases h
  next batch hbatch =>
    split at h
    · cases h
    · cases h
    next hopen =>
      simp only at h
      split at h
      · cases h
      next u hu => exact ⟨batch, u, hbatch, hopen, hu, (Except.ok.inj h).symm⟩

end

end AstramemLocal.Store
