/-
`src/sync/shipper.ts`: one ship round reads the eligible events, posts them and marks what the cloud answered. The
answer (`acked_seq`, `rejected_seqs`) is an input.
-/
import AstramemLocal.Sync.ConflictResolve

namespace AstramemLocal.Sync

open AstramemLocal.Store

/-- an event a round selects, with the current scope of its atom -/
structure UnsyncedRow extends MemoryEvent where
  currentScope : Option MemoryScope
deriving DecidableEq, Repr

/-- event types that never leave the device -/
def localOnly : MemoryEventType → Bool
  | .archive | .restore | .unsupersede | .purge | .unpurge => true
  | _ => false

def shared (scope : Option MemoryScope) : Bool := scope = some .team ∨ scope = some .org

/-- the WHERE clause of `listUnsynced` and `countUnsynced` -/
def shipEligible (s : St) (e : MemoryEvent) : Bool :=
  e.syncedAt = none ∧ e.rejectedAt = none ∧ ¬ localOnly e.eventType ∧
    (shared ((findRow s e.atomId).map (·.scope)) ∨
      e.eventType = .eraseRequest ∧ shared (e.payloadJson.bind (·.scope)))

/-- `ORDER BY e.seq ASC LIMIT ?`; the log is kept in seq order -/
def listUnsynced (s : St) (batchSize : ℕ) : List UnsyncedRow :=
  ((s.memoryEvents.filter (shipEligible s)).take batchSize).map fun e =>
    { e with currentScope := (findRow s e.atomId).map (·.scope) }

structure WireSyncEvent extends EventRecord where
  seq : ℕ
deriving DecidableEq, Repr

/-- strings keep every character but U+0000 (a `String` has no lone surrogates) -/
def sanitizeJsonbHostile (t : String) : String := String.ofList (t.toList.filter (· ≠ '\x00'))

def sanitizePayload (p : Payload) : Payload :=
  { p with
    reason := p.reason.map sanitizeJsonbHostile
    text := p.text.map sanitizeJsonbHostile
    repo := p.repo.map sanitizeJsonbHostile
    entities := p.entities.map (·.map fun e => ⟨sanitizeJsonbHostile e.name, sanitizeJsonbHostile e.kind⟩)
    speakerLabel := p.speakerLabel.map sanitizeJsonbHostile
    family := p.family.map sanitizeJsonbHostile
    action := p.action.map sanitizeJsonbHostile
    source := p.source.map sanitizeJsonbHostile
    captureSource := p.captureSource.map sanitizeJsonbHostile
    others := p.others.map sanitizeJsonbHostile }

/-- a 'create' payload goes out with the current scope of its atom -/
def withCurrentScope (r : UnsyncedRow) : Option Payload :=
  match r.eventType, r.payloadJson, r.currentScope with
  | .create, some payload, some scope => some { payload with scope := some scope }
  | _, payload, _ => payload

/-- the events of `buildEnvelope` -/
def buildEnvelope (rows : List UnsyncedRow) : List WireSyncEvent :=
  rows.map fun r => { r.toEventRecord with payloadJson := (withCurrentScope r).map sanitizePayload, seq := r.seq }

/-- the cloud's answer -/
structure ShipAck where
  ackedSeq : ℕ
  rejectedSeqs : List ℕ := []
deriving DecidableEq, Repr

/-- the two UPDATEs after the answer -/
def markShipped (E : Env) (s : St) (rows : List UnsyncedRow) (ack : ShipAck) : St :=
  let seqs := rows.map (·.seq)
  let rejected := ack.rejectedSeqs.filter (· ∈ seqs)
  let acked := seqs.filter fun q => q ≤ ack.ackedSeq ∧ q ∉ rejected
  let s := if acked = [] then s else
    { tick s with memoryEvents := s.memoryEvents.map fun e =>
        if e.seq ∈ acked ∧ e.syncedAt = none then { e with syncedAt := some (E.now s.clock) } else e }
  if rejected = [] then s else
    { tick s with memoryEvents := s.memoryEvents.map fun e =>
        if e.seq ∈ rejected ∧ e.rejectedAt = none then { e with rejectedAt := some (E.now s.clock) } else e }

/-- what the round sends, and the state after the answer; `none` is a transport or HTTP failure, which throws -/
def shipOnce (E : Env) (s : St) (batchSize : ℕ) (answer : Option ShipAck) : List WireSyncEvent × St :=
  let rows := listUnsynced s batchSize
  if rows = [] then ([], s)
  else (buildEnvelope rows, match answer with | none => s | some ack => markShipped E s rows ack)

/-- `astramem-local sync unreject`: the terminal-reject marker of these seqs is cleared, or of all -/
def clearRejected (s : St) (seqs : Option (List ℕ)) : St :=
  { s with memoryEvents := s.memoryEvents.map fun e =>
      if seqs.all (e.seq ∈ ·) then { e with rejectedAt := none } else e }

end AstramemLocal.Sync
