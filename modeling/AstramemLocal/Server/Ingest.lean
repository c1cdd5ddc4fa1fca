/-
`POST /ingest/transcript` (`src/server/routes/ingest.ts`). An ingest is one transaction: claim the idempotency slot,
upsert the session, insert the transcript, log the redactions, enqueue the job, finalize the slot. A statement that
throws rolls it back, and the route turns what was thrown into a response.
-/
import AstramemLocal.Ingest.SpoolGuard
import AstramemLocal.Ingest.Tables
import AstramemLocal.Server.StableStringify

namespace AstramemLocal.Server

open AstramemLocal.Core AstramemLocal.Store AstramemLocal.Ingest

/-- what an ingest throws -/
inductive IngestError where
  /-- `ingestCanonicalTranscript: requires a non-empty turns array (transcript kind only)` -/
  | requiresTurns
  | meetingCaptionsDisabled
  | idempotentReplay (replayId : ℕ)
  | idempotencyConflict (idempotencyKey : String)
  /-- a second row under one primary key -/
  | constraint
deriving DecidableEq, Repr

structure IngestResult where
  transcriptId : ℕ
  jobId : ℕ
  serverRedactionHits : ℕ
deriving DecidableEq, Repr

/-! ## The idempotency slot -/

def placeholder (key bodyHash : String) (now : Time) : IdempotencyRow := ⟨key, bodyHash, some .pending, now⟩

def claimIdempotencySlot (db : Db) (key bodyHash : String) (now : Time) : Except IngestError Db :=
  let db := insertIdempotency db (placeholder key bodyHash now)
  match findKey db key with
  | none => .ok db
  | some existing =>
    if existing.summaryMemoryId = some .pending then .ok db
    else if existing.bodyHash ≠ bodyHash then .error (.idempotencyConflict key)
    else
      match existing.summaryMemoryId with
      | some (.id n) =>
        if stillExists db n then .error (.idempotentReplay n)
        else .ok (insertIdempotency (deleteIdempotency db key) (placeholder key bodyHash now))
      | _ => .ok (insertIdempotency (deleteIdempotency db key) (placeholder key bodyHash now))

def finalizeIdempotencySlot (db : Db) (key bodyHash : String) (transcriptId : ℕ) (now : Time) : Db :=
  insertIdempotency (deleteIdempotency db key) ⟨key, bodyHash, some (.id transcriptId), now⟩

/-! ## The transaction -/

def insertTranscript (db : Db) (row : Transcript) : Except IngestError Db :=
  if db.transcripts.any (·.id = row.id) then .error .constraint
  else .ok { db with transcripts := db.transcripts ++ [row] }

def insertJob (db : Db) (job : Pipeline.Job) : Except IngestError Db :=
  if db.jobs.any (·.id = job.id) then .error .constraint else .ok { db with jobs := db.jobs ++ [job] }

section
variable (E : Ingest.Env)

def jsonText (value : Json) : String := String.ofList (value.stringify E.numberText)

/-- `JSON.stringify({ transcript_id: transcriptId, session_id: data.session_id })` -/
def jobPayload (transcriptId : ℕ) (sessionId : String) : String :=
  jsonText E (.obj [("transcript_id", .str (E.idText transcriptId)), ("session_id", .str sessionId)])

/-- the rows of an ingest; `transcript` is the row under the id drawn for it -/
def writeRows (db : Db) (now : Time) (session : Session) (transcript : ℕ → Transcript) (redactionEvents : List String)
    (kind : Pipeline.JobKind) : Except IngestError (IngestResult × Db) :=
  let db := upsertSession E db session
  let transcriptId := E.uuid db.store.drawn
  match insertTranscript (drawDb db) (transcript transcriptId) with
  | .error e => .error e
  | .ok db =>
    let db := recordRedactionEvents E db redactionEvents session.id
    let jobId := E.uuid db.store.drawn
    let job := Pipeline.freshJob jobId kind (jobPayload E transcriptId session.id) Pipeline.defaultJobPriority now
    match insertJob (drawDb db) job with
    | .error e => .error e
    | .ok db => .ok (⟨transcriptId, jobId, redactionEvents.length⟩, db)

/-- the transaction of the three kinds of ingest -/
def ingestTx (db : Db) (key : Option String) (bodyHash : String) (now : Time) (session : Session)
    (transcript : ℕ → Transcript) (redactionEvents : List String) (kind : Pipeline.JobKind) :
    Except IngestError (IngestResult × Db) :=
  match key with
  | none => writeRows E db now session transcript redactionEvents kind
  | some key =>
    match claimIdempotencySlot db key bodyHash now with
    | .error e => .error e
    | .ok db =>
      match writeRows E db now session transcript redactionEvents kind with
      | .error e => .error e
      | .ok (result, db) => .ok (result, finalizeIdempotencySlot db key bodyHash result.transcriptId now)

/-! ## The three kinds -/

/-- `createHash('sha256').update(stableStringify(data)).digest('hex')` -/
def bodyHash (data : Envelope) : String := E.sha256 (stableStringify E.numberText data.toJson)

/-- the session row of a canonical envelope -/
def sessionOf (data : Envelope) (sessionRepo : Option String) (now : Time) : Session :=
  { id := data.sessionId
    repo := sessionRepo
    project := reconcileIngestProject (some data.projectId) data.cwd (E.resolveRepoIdentity data.cwd)
    agent := data.agentType
    cwd := data.cwd
    startedAt := now }

/-- the columns both canonical kinds write -/
def transcriptOf (data : Envelope) (source content : String) (now : Time) (id : ℕ) : Transcript :=
  { id, source, content
    sessionId := data.sessionId
    ingestedAt := now
    event := some data.event
    capturedAt := some (E.getTime data.capturedAt)
    clientScrubApplied := some data.clientScrubApplied
    clientScrubHits := some data.clientScrubHits
    clientScrubVersion := some data.clientScrubVersion
    clientScrubHitsByLabelJson := data.clientScrubHitsByLabel.map fun hits => jsonText E (hitsJson hits)
    clientVersion := some data.clientVersion
    wireVersion := data.wireVersion }

def redactText (s : String) : String := (E.redactIfEnabled s).1

/-- `data.extract_profile ?? (data.capture_source === 'meeting_captions' ? 'conversational' : null)` -/
def resolvedExtractProfile (data : Envelope) : Option ExtractProfile :=
  data.extractProfile.or (if data.captureSource = some .meetingCaptions then some .conversational else none)

/-- `resolvedRepo` is `none` where the caller has not resolved the repo -/
def ingestCanonicalTranscript (db : Db) (data : Envelope) (idempotencyKey : Option String)
    (resolvedRepo : Option (Option String)) : Except IngestError (IngestResult × Db) :=
  let turns := data.turns.getD []
  if data.kind = .events ∨ turns = [] then .error .requiresTurns
  else if data.captureSource = some .meetingCaptions ∧ ¬ E.config.meetingCaptionsEnabled then
    .error .meetingCaptionsDisabled
  else
    let redactedTurns := turns.map (·.redacted (redactText E))
    let redactionEvents := turns.flatMap fun turn => (E.redactIfEnabled turn.text).2
    let now := E.now db.store.clock
    let sessionRepo := resolvedRepo.getD (deriveRepoFromCwd (E.resolveRepoIdentity data.cwd) data.cwd)
    let content := jsonText E (.arr (redactedTurns.map (·.toJson)))
    ingestTx E (tickDb db) idempotencyKey (bodyHash E data) now (sessionOf E data sessionRepo now)
      (fun id =>
        { transcriptOf E data ("claude-code-" ++ data.event.name) content now id with
          captureSource := data.captureSource
          proxyUsageJson := data.proxyUsage.map fun usage => jsonText E usage.toJson
          extractProfile := resolvedExtractProfile data
          capturedAtLocalDate := some (String.ofList (data.capturedAt.toList.take 10))
          platform := data.platform
          meetingId := data.meetingId
          consentDisclosed := data.consentDisclosed })
      redactionEvents .distill

/-- the `events` branch of the route -/
def ingestEvents (db : Db) (data : Envelope) (idempotencyKey : Option String) :
    Except IngestError (IngestResult × Db) :=
  let events := data.events.getD []
  let redactedEvents := events.map (·.redacted (redactText E))
  let redactionEvents := events.flatMap fun event =>
    (E.redactIfEnabled event.text).2 ++ (event.evidence.map fun evidence => (E.redactIfEnabled evidence).2).getD []
  let now := E.now db.store.clock
  let sourceLabel := ((truthy data.tool).map (· ++ "-events")).getD "events"
  let sessionRepo := deriveRepoFromCwd (E.resolveRepoIdentity data.cwd) data.cwd
  let content := jsonText E (.arr (redactedEvents.map (·.toJson)))
  ingestTx E (tickDb db) idempotencyKey (bodyHash E data) now (sessionOf E data sessionRepo now)
    (transcriptOf E data sourceLabel content now) redactionEvents .distillEvents

/-- the legacy branch of the route, which reads no idempotency key -/
def ingestLegacy (db : Db) (data : LegacyEnvelope) : Except IngestError (IngestResult × Db) :=
  let now := E.now db.store.clock
  let session : Session :=
    { id := data.sessionId
      repo := data.repo
      project := reconcileIngestProject data.project none data.repo
      branch := data.branch
      agent := data.agent
      startedAt := now }
  ingestTx E (tickDb db) none "" now session
    (fun id =>
      { id, sessionId := data.sessionId, source := data.source, content := redactText E data.content, ingestedAt := now })
    (E.redactIfEnabled data.content).2 .distill

/-! ## The route -/

inductive Response where
  /-- 400 -/
  | invalid
  /-- 200, `idempotent: false` -/
  | stored (summaryMemoryId : ℕ) (sessionId : String) (extractionJobId : ℕ) (clientHits serverHits : ℕ)
      (queuedExtractionTypes : List EventType)
  /-- 200, `idempotent: true` -/
  | idempotent (summaryMemoryId : Option Summary) (sessionId : String)
  /-- 409 -/
  | idempotencyConflict (idempotencyKey : Option String)
  /-- 400 -/
  | meetingCaptionsDisabled
  /-- 200, to a legacy envelope -/
  | ok
  /-- 500 -/
  | failed
deriving DecidableEq, Repr

/-- `ALL_ATOM_TYPES` -/
def allAtomTypes : List EventType := [.decision, .fact, .lesson, .command, .todo, .note, .event]

def queuedExtractionTypes (data : Envelope) : List EventType :=
  match data.kind with
  | .events => ((data.events.getD []).map (·.type)).eraseDups
  | .transcript => allAtomTypes

def errorResponse (db : Db) (data : Envelope) (idempotencyKey : Option String) : IngestError → Response
  | .idempotentReplay replayId => .idempotent (some (.id replayId)) data.sessionId
  | .idempotencyConflict _ => .idempotencyConflict idempotencyKey
  | .meetingCaptionsDisabled => .meetingCaptionsDisabled
  | .constraint => .idempotent ((findKey db (idempotencyKey.getD "")).bind (·.summaryMemoryId)) data.sessionId
  | .requiresTurns => .failed

/-- the canonical branch of the route, either kind -/
def ingestCanonical (db : Db) (data : Envelope) (idempotencyKey : Option String) :
    Except IngestError (IngestResult × Db) :=
  match data.kind with
  | .events => ingestEvents E db data idempotencyKey
  | .transcript =>
    ingestCanonicalTranscript E db data idempotencyKey
      (some (deriveRepoFromCwd (E.resolveRepoIdentity data.cwd) data.cwd))

def postTranscript (db : Db) (idempotencyKey : Option String) (body : Json) : Response × Db :=
  if looksCanonical body then
    match safeParse E.isDatetime body with
    | none => (.invalid, db)
    | some data =>
      match ingestCanonical E db data idempotencyKey with
      | .ok (result, after) =>
        (.stored result.transcriptId data.sessionId result.jobId data.clientScrubHits result.serverRedactionHits
          (queuedExtractionTypes data), after)
      | .error e => (errorResponse db data idempotencyKey e, db)
  else
    match safeParseLegacy body with
    | none => (.invalid, db)
    | some data =>
      match ingestLegacy E db data with
      | .ok (_, after) => (.ok, after)
      | .error _ => (.failed, db)

end

end AstramemLocal.Server
