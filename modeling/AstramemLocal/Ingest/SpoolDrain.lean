/-
The ingest spool (`src/ingest/spool.ts`) and its drain (`src/ingest/spool-drain.ts`). A spool file holds an envelope
under its idempotency key; the drain passes it to `ingestCanonicalTranscript` (`drainFile`) and deletes it, keeps it for
a retry or quarantines it (`settle`). One tick drains a bounded number of files; on the database it is the sequence of
their drains (`drainIngestSpool_db`).
-/
import AstramemLocal.Server.Ingest

namespace AstramemLocal.Ingest

open AstramemLocal.Core AstramemLocal.Store AstramemLocal.Server

structure SpoolFile where
  /-- the stem of the file's name -/
  key : String
  size : ℕ
  /-- what JSON.parse makes of the text; `none` where it throws -/
  content : Option Json
  mtime : Time

/-- what a failed attempt to drain a file says -/
inductive DrainFailure where
  | unparsableJson
  | schemaValidation
  | ingest (e : IngestError)
deriving DecidableEq, Repr

inductive QuarantineReason where
  | oversize (size maxBytes : ℕ)
  | idempotencyConflict
  | poison (attempts : ℕ) (reason : DrainFailure)
deriving DecidableEq, Repr

structure Spool where
  files : List SpoolFile := []
  quarantine : List (SpoolFile × QuarantineReason) := []
  /-- `failureCounts`, in memory -/
  failureCounts : List (String × ℕ) := []

/-- `MAX_DRAIN_ATTEMPTS` -/
def maxDrainAttempts : ℕ := 5

/-- `DEFAULT_QUARANTINE_TTL_MS` -/
def quarantineTtlMs : ℤ := 7 * Pipeline.dayMs

/-- `/^[0-9a-f]{64}$/` -/
def isDigest (key : String) : Bool :=
  key.length = 64 && key.toList.all fun c => c.isDigit || ('a' ≤ c && c ≤ 'f')

/-! ## Files -/

def deleteSpoolFile (spool : Spool) (key : String) : Spool :=
  { spool with files := deleteWhere (·.key = key) spool.files }

/-- the file moves with its modification time, and replaces one of its name -/
def quarantineSpoolFile (spool : Spool) (file : SpoolFile) (reason : QuarantineReason) : Spool :=
  { deleteSpoolFile spool file.key with
    quarantine := deleteWhere (·.1.key = file.key) spool.quarantine ++ [(file, reason)] }

def pruneExpiredQuarantine (spool : Spool) (now : Time) : Spool :=
  { spool with quarantine := deleteWhere (fun entry => quarantineTtlMs < now - entry.1.mtime) spool.quarantine }

section
variable (E : Env)

/-- the file `writeToSpool` leaves for a body -/
def spooledFile (key : String) (body : Json) (now : Time) : SpoolFile :=
  let redacted := redactSpooledEnvelope (redactText E) body
  { key, size := E.byteLength redacted, content := some redacted, mtime := now }

/-- `none` where it throws -/
def writeToSpool (spool : Spool) (key : String) (body : Json) (now : Time) : Option Spool :=
  if isDigest key then
    some { spool with files := deleteWhere (·.key = key) spool.files ++ [spooledFile E key body now] }
  else none

def listSpoolFiles (spool : Spool) : List SpoolFile :=
  spool.files.insertionSort fun a b => E.localeLe a.key b.key = true

/-! ## The drain -/

/-- what became of one file -/
inductive DrainVerdict where
  | stored
  | replayed
  | oversize
  | conflict
  | failed (reason : DrainFailure)
deriving DecidableEq, Repr

/-- one file of a tick, up to what is done with the file -/
def drainFile (db : Db) (file : SpoolFile) : DrainVerdict × Db :=
  if E.config.spoolMaxBytes < file.size then (.oversize, db)
  else
    match file.content with
    | none => (.failed .unparsableJson, db)
    | some value =>
      match safeParse E.isDatetime value with
      | none => (.failed .schemaValidation, db)
      | some data =>
        match ingestCanonicalTranscript E db data (some file.key) none with
        | .ok (_, after) => (.stored, after)
        | .error (.idempotentReplay _) => (.replayed, db)
        | .error (.idempotencyConflict _) => (.conflict, db)
        | .error e => (.failed (.ingest e), db)

structure DrainState where
  db : Db
  spool : Spool
  drained : ℕ := 0
  quarantined : ℕ := 0

def forgetFailures (spool : Spool) (key : String) : Spool :=
  { spool with failureCounts := deleteWhere (·.1 = key) spool.failureCounts }

/-- the file is quarantined at the last attempt -/
def recordFailureOrQuarantine (st : DrainState) (file : SpoolFile) (reason : DrainFailure) : DrainState :=
  let attempts := (st.spool.failureCounts.lookup file.key).getD 0 + 1
  let forgotten := forgetFailures st.spool file.key
  if maxDrainAttempts ≤ attempts then
    { st with
      spool := quarantineSpoolFile forgotten file (.poison attempts reason)
      quarantined := st.quarantined + 1 }
  else { st with spool := { forgotten with failureCounts := forgotten.failureCounts ++ [(file.key, attempts)] } }

/-- what is done with the file -/
def settle (st : DrainState) (file : SpoolFile) : DrainVerdict → DrainState
  | .stored | .replayed =>
    { st with spool := deleteSpoolFile (forgetFailures st.spool file.key) file.key, drained := st.drained + 1 }
  | .oversize =>
    { st with
      spool := quarantineSpoolFile (forgetFailures st.spool file.key) file (.oversize file.size E.config.spoolMaxBytes)
      quarantined := st.quarantined + 1 }
  | .conflict =>
    { st with
      spool := quarantineSpoolFile (forgetFailures st.spool file.key) file .idempotencyConflict
      quarantined := st.quarantined + 1 }
  | .failed reason => recordFailureOrQuarantine st file reason

def drainNext (st : DrainState) (file : SpoolFile) : DrainState :=
  let drained := drainFile E st.db file
  settle E { st with db := drained.2 } file drained.1

/-- one tick; what is pending afterwards is what the spool still lists -/
def drainIngestSpool (db : Db) (spool : Spool) (now : Time) (maxPerTick : ℕ) : DrainState :=
  let spool := pruneExpiredQuarantine spool now
  ((listSpoolFiles E spool).take maxPerTick).foldl (drainNext E) { db, spool }

/-! ## A tick on the database -/

variable {E} {st : DrainState} {file : SpoolFile}

@[simp] theorem settle_db (verdict : DrainVerdict) : (settle E st file verdict).db = st.db := by
  cases verdict with
  | failed reason =>
    simp only [settle, recordFailureOrQuarantine]
    split <;> rfl
  | _ => rfl

theorem drainNext_db : (drainNext E st file).db = (drainFile E st.db file).2 := by
  simp [drainNext]

/-- a tick drains its files one by one -/
theorem drainIngestSpool_db (db : Db) (spool : Spool) (now : Time) (maxPerTick : ℕ) :
    (drainIngestSpool E db spool now maxPerTick).db =
      ((listSpoolFiles E (pruneExpiredQuarantine spool now)).take maxPerTick).foldl
        (fun db file => (drainFile E db file).2) db := by
  have hfold : ∀ (files : List SpoolFile) (st : DrainState),
      (files.foldl (drainNext E) st).db = files.foldl (fun db file => (drainFile E db file).2) st.db := by
    intro files
    induction files with
    | nil =>
      intro st
      rfl
    | cons file files ih =>
      intro st
      rw [List.foldl_cons, List.foldl_cons, ih, drainNext_db]
  exact hfold _ _

end

end AstramemLocal.Ingest
