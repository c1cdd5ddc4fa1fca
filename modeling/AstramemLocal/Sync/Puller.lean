/-
`src/sync/puller.ts`: one pull round merges a fetched batch in one transaction. An error rolls the transaction back, so
the log, the rows and the cursor stay as they were.
-/
import AstramemLocal.Sync.ConflictResolve

namespace AstramemLocal.Sync

open AstramemLocal.Store

structure AtomSnapshot where
  type : MemoryType
  text : String
  normalizedText : String
  hash : Hash
  scope : MemoryScope
  repo : Option String := none
  project : Option String := none
  branch : Option String := none
  agent : Option String := none
  sessionId : Option SessionId := none
  importance : Option ℚ := none
  confidence : Option ℚ := none
  sourceHash : Option Hash := none
  evidence : Option String := none
deriving DecidableEq, Repr

structure RemotePullEvent extends EventRecord where
  atomSnapshot : Option AtomSnapshot := none
deriving DecidableEq, Repr

structure PullBatch where
  events : List RemotePullEvent
  nextCursor : Option Cursor
deriving DecidableEq, Repr

inductive PullError where
  | constraint (e : ConstraintError)
  | stackOverflow
deriving DecidableEq, Repr

def getPullWatermark (s : St) : Option Cursor := s.cursor

def setPullWatermark (s : St) (cursor : Option Cursor) : St := tick { s with cursor }

/-- `INSERT .. WHERE NOT EXISTS` on event_id; says whether a row went in -/
def dedupInsertEvent (s : St) (event : EventRecord) : St × Bool :=
  if s.memoryEvents.any (·.eventId = event.eventId) then (s, false)
  else ({ s with memoryEvents := s.memoryEvents ++ [{ event with seq := s.seqHigh + 1 }], seqHigh := s.seqHigh + 1 },
    true)

/-- the row a pulled 'create' event materializes, but for the rowid -/
def snapshotRow (atomId : AtomId) (snapshot : AtomSnapshot) (createdAt now : Time) : Memory :=
  { rowid := 0
    id := atomId
    type := snapshot.type
    text := snapshot.text
    normalizedText := snapshot.normalizedText
    repo := snapshot.repo
    project := snapshot.project
    branch := snapshot.branch
    agent := snapshot.agent
    sessionId := snapshot.sessionId
    importance := snapshot.importance.getD (1 / 2)
    confidence := snapshot.confidence.getD (1 / 2)
    hash := snapshot.hash
    createdAt
    updatedAt := now
    sourceHash := snapshot.sourceHash
    evidence := snapshot.evidence
    validFrom := createdAt
    scope := snapshot.scope }

def materializeAtomIfMissing (E : Env) (s : St) (atomId : AtomId) (snapshot : AtomSnapshot) (createdAt : Time) :
    Except ConstraintError St :=
  if rowExists s atomId then .ok s
  else insertMemory (tick s) (snapshotRow atomId snapshot createdAt (E.now s.clock))

/-- `touchedAtomIds.add` -/
def touch (touched : List AtomId) (a : AtomId) : List AtomId := if a ∈ touched then touched else touched ++ [a]

/-- the first loop of the transaction, one event -/
def mergeEvent (E : Env) (acc : St × List AtomId) (event : RemotePullEvent) :
    Except ConstraintError (St × List AtomId) :=
  let r := dedupInsertEvent acc.1 event.toEventRecord
  if ¬ r.2 then .ok (r.1, acc.2)
  else
    let touched := touch acc.2 event.atomId
    match event.eventType, event.atomSnapshot with
    | .create, some snapshot =>
      (materializeAtomIfMissing E r.1 event.atomId snapshot event.createdAt).map (·, touched)
    | _, _ => .ok (r.1, touched)

def mergeEvents (E : Env) (s : St) (events : List RemotePullEvent) : Except ConstraintError (St × List AtomId) :=
  events.foldlM (mergeEvent E) (s, [])

/-- the second loop of the transaction -/
def recomputeAll (E : Env) (s : St) (touched : List AtomId) : Option St :=
  touched.foldlM (recomputeProjection E E.stack) s

def pullOnce (E : Env) (s : St) (batch : PullBatch) : Except PullError St :=
  if batch.events = [] then .ok s
  else
    match mergeEvents E s batch.events with
    | .error e => .error (.constraint e)
    | .ok (s, touched) =>
      match recomputeAll E s touched with
      | none => .error .stackOverflow
      | some s => .ok (setPullWatermark s batch.nextCursor)

/-- a round that commits had nothing to pull, or both of its loops went through -/
theorem pullOnce_cases {E : Env} {s t : St} {batch : PullBatch} (h : pullOnce E s batch = .ok t) :
    batch.events = [] ∧ t = s ∨ ∃ m touched u, mergeEvents E s batch.events = .ok (m, touched) ∧
      recomputeAll E m touched = some u ∧ t = setPullWatermark u batch.nextCursor := by
  unfold pullOnce at h
  split_ifs at h with hnil
  · exact .inl ⟨hnil, (Except.ok.inj h).symm⟩
  · cases hm : mergeEvents E s batch.events with
    | error x =>
      rw [hm] at h
      cases h
    | ok r =>
      obtain ⟨m, touched⟩ := r
      simp only [hm] at h
      cases hr : recomputeAll E m touched with
      | none =>
        rw [hr] at h
        cases h
      | some u =>
        simp only [hr] at h
        exact .inr ⟨m, touched, u, rfl, hr, (Except.ok.inj h).symm⟩

/-- what the daemon keeps after a round: a round that throws leaves nothing behind -/
def pullStep (E : Env) (s : St) (batch : PullBatch) : St :=
  match pullOnce E s batch with
  | .error _ => s
  | .ok s => s

end AstramemLocal.Sync
