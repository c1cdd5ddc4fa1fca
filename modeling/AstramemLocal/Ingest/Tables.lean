/-
The tables an ingest writes (`sessions`, `transcripts`, `redaction_log`, `jobs`, `ingest_idempotency`) beside the store
of memories, and `src/storage/ingest-idempotency.ts`. The ids of transcripts and jobs are drawn like the ids of
memories. What the process computes with code from outside is a field of `Env`: SHA-256, the date parser, the text of a
number or of an id, what `git` answers; `redactIfEnabled` is one too.
-/
import AstramemLocal.Ingest.Envelope
import AstramemLocal.Ingest.Project
import AstramemLocal.Pipeline.JobRepo

namespace AstramemLocal.Ingest

open AstramemLocal.Core AstramemLocal.Store

/-- what ingest reads of the config -/
structure Config where
  /-- `captureSource.meetingCaptions.enabled` -/
  meetingCaptionsEnabled : Bool := false
  /-- `ingestIdempotency.retentionDays` -/
  retentionDays : ℤ := 7
  /-- `ingest.spoolMaxBytes` -/
  spoolMaxBytes : ℕ := 32 * 1024 * 1024
deriving DecidableEq, Repr

structure Env extends Store.Env where
  config : Config
  /-- the hex digest of a text -/
  sha256 : List Char → String
  /-- `redactIfEnabled`: the text, and the type of each event -/
  redactIfEnabled : String → String × List String
  /-- `z.string().datetime({ offset: true })` -/
  isDatetime : String → Bool
  /-- `new Date(s).getTime()` -/
  getTime : String → Time
  numberText : ℚ → List Char
  idText : ℕ → String
  /-- the number that stands for a session id in the store -/
  sessionRef : String → SessionId
  resolveRepoIdentity : Option String → Option String
  /-- the bytes of `JSON.stringify(value, null, 2)` -/
  byteLength : Json → ℕ
  /-- `a.localeCompare(b) <= 0` -/
  localeLe : String → String → Bool

/-- a counting clock, counting ids, and tables of digests and instants -/
def tableEnv (digests : List (String × String)) (instants : List (String × Time)) : Env where
  now i := i
  uuid i := i
  stack := 50
  toLowerCase s := s
  config := {}
  sha256 text := (digests.lookup (String.ofList text)).getD ""
  redactIfEnabled s := (s, [])
  isDatetime s := (instants.lookup s).isSome
  getTime s := (instants.lookup s).getD 0
  numberText n := (toString n.num).toList
  idText n := toString n
  sessionRef _ := 0
  resolveRepoIdentity _ := none
  byteLength _ := 512
  localeLe a b := decide (a ≤ b)

/-- a row of `sessions` -/
structure Session where
  id : String
  repo : Option String := none
  project : Option String := none
  branch : Option String := none
  agent : Option String := none
  cwd : Option String := none
  startedAt : Time
deriving DecidableEq, Repr

/-- a row of `transcripts` -/
structure Transcript where
  id : ℕ
  sessionId : String
  source : String
  content : String
  ingestedAt : Time
  event : Option CaptureEvent := none
  capturedAt : Option Time := none
  clientScrubApplied : Option Bool := none
  clientScrubHits : Option ℕ := none
  clientScrubVersion : Option String := none
  clientScrubHitsByLabelJson : Option String := none
  clientVersion : Option String := none
  wireVersion : String := "v0.0"
  captureSource : Option CaptureSource := none
  proxyUsageJson : Option String := none
  extractProfile : Option ExtractProfile := none
  capturedAtLocalDate : Option String := none
  platform : Option String := none
  meetingId : Option String := none
  consentDisclosed : Option Bool := none
deriving DecidableEq, Repr

/-- a row of `redaction_log` -/
structure RedactionRow where
  type : String
  count : ℕ
  sessionId : String
  createdAt : Time
deriving DecidableEq, Repr

/-- `summary_memory_id`: the placeholder `__pending__`, or the id of a transcript or a memory -/
inductive Summary where
  | pending
  | id (n : ℕ)
deriving DecidableEq, Repr

/-- a row of `ingest_idempotency` -/
structure IdempotencyRow where
  key : String
  bodyHash : String
  summaryMemoryId : Option Summary
  createdAt : Time
deriving DecidableEq, Repr

structure Db where
  store : St := {}
  sessions : List Session := []
  transcripts : List Transcript := []
  redactionLog : List RedactionRow := []
  jobs : List Pipeline.Job := []
  idempotency : List IdempotencyRow := []
deriving DecidableEq, Repr

/-! ## Statements -/

/-- `Date.now()` -/
def tickDb (db : Db) : Db := { db with store := tick db.store }

/-- `randomUUID()` -/
def drawDb (db : Db) : Db := { db with store := draw db.store }

/-- `SELECT .. FROM ingest_idempotency WHERE key = ?` -/
def findKey (db : Db) (key : String) : Option IdempotencyRow := lookup (·.key) key db.idempotency

/-- `INSERT .. ON CONFLICT(key) DO NOTHING` -/
def insertIdempotency (db : Db) (row : IdempotencyRow) : Db :=
  if (findKey db row.key).isSome then db else { db with idempotency := db.idempotency ++ [row] }

def deleteIdempotency (db : Db) (key : String) : Db :=
  { db with idempotency := deleteWhere (·.key = key) db.idempotency }

/-- does the id stand for a transcript, or else for a memory -/
def stillExists (db : Db) (n : ℕ) : Bool := db.transcripts.any (·.id = n) || (findRow db.store n).isSome

/-- `COALESCE(excluded.x, x)` on every column but the id and `started_at` -/
def coalesce (old new : Session) : Session :=
  { old with
    repo := new.repo.or old.repo
    project := new.project.or old.project
    branch := new.branch.or old.branch
    agent := new.agent.or old.agent
    cwd := new.cwd.or old.cwd }

def upsertSession (E : Env) (db : Db) (row : Session) : Db :=
  if (lookup (·.id) row.id db.sessions).isSome then
    { db with sessions := updateWhere (·.id = row.id) (coalesce · row) db.sessions }
  else
    { db with
      sessions := db.sessions ++ [row]
      store := { db.store with sessions := db.store.sessions ++ [E.sessionRef row.id] } }

/-- one row per type, in the order of the first events -/
def aggregateRedactionEvents (events : List String) : List (String × ℕ) :=
  events.eraseDups.map fun type => (type, events.count type)

def recordRedactionEvents (E : Env) (db : Db) (events : List String) (sessionId : String) : Db :=
  if events = [] then db
  else
    let now := E.now db.store.clock
    let rows := (aggregateRedactionEvents events).map fun row => ⟨row.1, row.2, sessionId, now⟩
    tickDb { db with redactionLog := db.redactionLog ++ rows }

/-! ## `src/storage/ingest-idempotency.ts` -/

def backfillSummaryMemoryId (db : Db) (transcriptId memoryId : ℕ) : Db :=
  { db with
    idempotency := updateWhere (·.summaryMemoryId = some (.id transcriptId))
      (fun row => { row with summaryMemoryId := some (.id memoryId) }) db.idempotency }

/-- the rows created before this are pruned -/
def pruneCutoff (E : Env) (now : Time) : Time := now - E.config.retentionDays * Pipeline.dayMs

def pruneIngestIdempotency (E : Env) (db : Db) : Db :=
  let cutoff := pruneCutoff E (E.now db.store.clock)
  tickDb { db with idempotency := deleteWhere (·.createdAt < cutoff) db.idempotency }

end AstramemLocal.Ingest
