/-
The daemon: local requests, stage-8 jobs, ship rounds and pull rounds on one database. Every operation is a
transaction, so a run is a list of operations; one that throws leaves the state as it was.
-/
import AstramemLocal.Distill.EmbedIndex
import AstramemLocal.Sync.Puller
import AstramemLocal.Sync.Shipper

namespace AstramemLocal.Daemon

open AstramemLocal.Store AstramemLocal.Sync AstramemLocal.Distill

inductive Op where
  /-- `POST /remember` and its MCP and memory-tool siblings -/
  | remember (input : InsertInput)
  | screen (mem : NormalizedMemory)
  | discard (mem : NormalizedMemory)
  | index (ctx : EmbedIndexContext) (mem : NormalizedMemory)
  | invalidate (a : AtomId) (reason : Option String)
  | supersede (oldId newId : AtomId) (provenance : Option SupersedeProvenance) (source : CorrectionSource)
  | archive (a : AtomId) (reason : Option String)
  | restore (a : AtomId)
  | unsupersede (a : AtomId) (reason : Option String)
  | purgeBatch (ids : List AtomId) (captureSource : String) (restoreWindowDays : ℤ)
  | restorePurgeBatch (b : BatchId)
  | finalizePurgeBatch (b : BatchId)
  | erase (a : AtomId) (reason : Option String)
  | promoteScope (a : AtomId) (toScope : MemoryScope)
  | ship (batchSize : ℕ) (answer : Option ShipAck)
  | pull (batch : PullBatch)
deriving DecidableEq, Repr

inductive OpError where
  | lifecycle (e : LifecycleError)
  | constraint (e : ConstraintError)
  | pull (e : PullError)
deriving DecidableEq, Repr

/-- one operation; stage 8 indexes only what passed its screening, and an insert that throws fails the job -/
def exec (E : Env) (s : St) : Op → Except OpError St
  | .remember input => ((insertWithCreateEvent E s input).mapError .constraint).map (·.1)
  | .screen mem => .ok (screen s mem)
  | .discard mem => .ok (discard s mem)
  | .index ctx mem =>
    if mem ∉ s.inFlight then .ok s
    else
      match embedAndIndex E (discard s mem) ctx mem with
      | .error _ => .ok (discard s mem)
      | .ok t => .ok t
  | .invalidate a reason => (Store.invalidate E s a reason).mapError .lifecycle
  | .supersede oldId newId provenance source =>
    (Store.supersede E s oldId newId provenance source).mapError .lifecycle
  | .archive a reason => (Store.archive E s a reason).mapError .lifecycle
  | .restore a => (Store.restore E s a).mapError .lifecycle
  | .unsupersede a reason => (Store.unsupersede E s a reason).mapError .lifecycle
  | .purgeBatch ids captureSource days => .ok (Store.purgeBatch E s ids captureSource days).1
  | .restorePurgeBatch b => ((Store.restorePurgeBatch E s b).mapError .lifecycle).map (·.1)
  | .finalizePurgeBatch b => ((Store.finalizePurgeBatch E s b).mapError .lifecycle).map (·.1)
  | .erase a reason => (Store.erase E s a reason).mapError .lifecycle
  | .promoteScope a toScope => (Store.promoteScope E s a toScope).mapError .lifecycle
  | .ship batchSize answer => .ok (shipOnce E s batchSize answer).2
  | .pull batch => (pullOnce E s batch).mapError .pull

def step (E : Env) (s : St) (op : Op) : St :=
  match exec E s op with
  | .ok t => t
  | .error _ => s

def run (E : Env) (s : St) (ops : List Op) : St := ops.foldl (step E) s

/-- a clock that counts, and ids that count -/
def countingEnv : Env := ⟨fun i => i, fun i => i, 50, fun s => s⟩

def rememberInput (h : Hash) (text : String) : InsertInput :=
  { type := .fact, text, normalizedText := text, hash := h }

end AstramemLocal.Daemon
