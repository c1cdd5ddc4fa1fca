/-
`src/storage/usefulness.ts`: the retention sweep of `recall_served` events, the three writers of usefulness events and
the implicit-positive pass. The payload keys only these events have stand beside the log, by the seq of their row.
-/
import AstramemLocal.Store.MemoryEvents
import Mathlib.Data.List.Dedup
import Mathlib.Data.List.Sort
import Mathlib.Data.Rat.Cast.Order

namespace AstramemLocal.Store

/-! ## The sweep -/

/-- the WHERE clause of the sweep: old, and shipped already or of an atom without a team/org row -/
def recallServedPrunable (s : St) (cutoffMs : Time) (e : MemoryEvent) : Bool :=
  e.eventType = .usefulness ∧ e.payloadJson.bind (·.family) = some "recall_served" ∧ e.createdAt < cutoffMs ∧
    (e.syncedAt ≠ none ∨ ¬ (findRow s e.atomId).any fun m => m.scope = .team ∨ m.scope = .org)

def pruneOldRecallServedEvents (s : St) (retentionDays : ℤ) (now : Time) : St :=
  let cutoffMs := now - retentionDays * 24 * 60 * 60 * 1000
  { s with memoryEvents := s.memoryEvents.filter fun e => ¬ recallServedPrunable s cutoffMs e }

/-! ## The writers -/

inductive UsefulnessSurface where
  | mcp | rest | cli | system
deriving DecidableEq, Repr

inductive UsefulnessSignal where
  | explicit | heuristic
deriving DecidableEq, Repr

def UsefulnessSignal.text : UsefulnessSignal → String
  | .explicit => "explicit"
  | .heuristic => "heuristic"

inductive CorrectionAction where
  | invalidated | superseded | demoted | edited
deriving DecidableEq, Repr

def CorrectionAction.text : CorrectionAction → String
  | .invalidated => "invalidated"
  | .superseded => "superseded"
  | .demoted => "demoted"
  | .edited => "edited"

/-- the keys of a usefulness payload beside `family`, `action` and `source`. The texts are as a pulled payload may hold
them; an absent or null key is `none`. -/
structure UsefulnessKeys where
  queryHash : Option String := none
  score : Option ℚ := none
  surface : Option UsefulnessSurface := none
  mode : Option String := none
  signal : Option String := none
  basis : Option String := none

/-- the database, with the keys of the payload at each seq -/
structure UsefulnessDb where
  db : St
  keys : ℕ → UsefulnessKeys

/-- `events.append({ event_type: 'usefulness', .. })` -/
def appendUsefulness (E : Env) (d : UsefulnessDb) (atomId : AtomId) (payload : Payload) (keys : UsefulnessKeys)
    (createdAt : Time) : UsefulnessDb :=
  ⟨append E d.db .usefulness atomId (some payload) none createdAt, Function.update d.keys (d.db.seqHigh + 1) keys⟩

/-- the same without `created_at`: `append` reads the clock -/
def appendUsefulnessNow (E : Env) (d : UsefulnessDb) (atomId : AtomId) (payload : Payload) (keys : UsefulnessKeys) :
    UsefulnessDb :=
  appendUsefulness E ⟨tick d.db, d.keys⟩ atomId payload keys (E.now d.db.clock)

structure RecordRecallServedInput where
  queryHash : Option String := none
  query : Option String := none
  atomIds : List AtomId
  scores : Option (List ℚ) := none
  surface : UsefulnessSurface
  mode : Option String := none

/-- the event of one served atom, with its index in the list -/
def appendServed (E : Env) (input : RecordRecallServedInput) (queryHash : String) (d : UsefulnessDb)
    (atom : AtomId × ℕ) : UsefulnessDb :=
  appendUsefulnessNow E d atom.1 { family := some "recall_served" }
    { queryHash := some queryHash, score := input.scores.bind (·[atom.2]?), surface := some input.surface,
      mode := input.mode }

def recordRecallServed (E : Env) (hashQuery : String → String) (d : UsefulnessDb) (input : RecordRecallServedInput) :
    Except String UsefulnessDb :=
  if input.atomIds = [] then .ok d
  else
    match (input.queryHash.orElse fun _ => input.query.map hashQuery).filter (· ≠ "") with
    | none => .error "recordRecallServed requires queryHash or query"
    | some queryHash => .ok (input.atomIds.zipIdx.foldl (appendServed E input queryHash) d)

structure RecordRecallUsedInput where
  atomId : AtomId
  surface : UsefulnessSurface
  signal : UsefulnessSignal
  basis : Option String := none

def recordRecallUsed (E : Env) (d : UsefulnessDb) (input : RecordRecallUsedInput) : UsefulnessDb :=
  appendUsefulnessNow E d input.atomId { family := some "recall_used" }
    { surface := some input.surface, signal := some input.signal.text, basis := input.basis }

structure RecordMemoryCorrectedInput where
  atomId : AtomId
  action : CorrectionAction
  source : Option CorrectionSource := none

def recordMemoryCorrected (E : Env) (d : UsefulnessDb) (input : RecordMemoryCorrectedInput) : UsefulnessDb :=
  appendUsefulnessNow E d input.atomId (corrected input.action.text (input.source.getD .external)) {}

/-! ## The implicit-positive pass -/

/-- `event_type = 'usefulness' AND json_extract(payload,'$.family') = ?` -/
def ofFamily (family : String) (e : EventRecord) : Bool :=
  e.eventType = .usefulness ∧ e.payloadJson.bind (·.family) = some family

/-- an event of the `memory_corrected` family -/
def isCorrection (e : EventRecord) : Bool := ofFamily "memory_corrected" e

/-- a `recall_used` event with `signal: 'heuristic'`, of whatever basis -/
def isHeuristic (e : EventRecord) (keys : UsefulnessKeys) : Bool :=
  ofFamily "recall_used" e ∧ keys.signal = some "heuristic"

structure ImplicitPositiveOpts where
  windowDays : ℚ
  minDistinctQueries : ℚ
  maxGrantsPerRun : ℤ

structure ImplicitPositiveResult where
  candidates : ℕ
  granted : ℕ
deriving DecidableEq, Repr

/-- the `recall_served` events of the window -/
def servedSince (d : UsefulnessDb) (windowStartMs : ℚ) : List MemoryEvent :=
  d.db.memoryEvents.filter fun e => ofFamily "recall_served" e.toEventRecord ∧ windowStartMs ≤ e.createdAt

/-- `COUNT(DISTINCT query_hash)`; a row without a hash does not count -/
def distinctQueries (d : UsefulnessDb) (served : List MemoryEvent) (a : AtomId) : ℕ :=
  ((served.filter (·.atomId = a)).filterMap fun e => (d.keys e.seq).queryHash).dedup.length

/-- the two `NOT IN`: the atom has neither a correction nor a heuristic grant -/
def uncredited (d : UsefulnessDb) (a : AtomId) : Bool :=
  d.db.memoryEvents.all fun e =>
    e.atomId = a → isCorrection e.toEventRecord = false ∧ isHeuristic e.toEventRecord (d.keys e.seq) = false

/-- `LIMIT ?`; a negative one is none -/
def sqlLimit {α : Type} (n : ℤ) (rows : List α) : List α := if n < 0 then rows else rows.take n.toNat

/-- the rows of the qualifying query. `groupOrder` is the order in which SQLite hands out the groups, which the query
leaves open. -/
def implicitPositiveRows (groupOrder : AtomId → AtomId → Bool) (d : UsefulnessDb) (opts : ImplicitPositiveOpts)
    (now : Time) : List AtomId :=
  let served := servedSince d (now - opts.windowDays * 24 * 60 * 60 * 1000)
  let groups := (served.map (·.atomId)).dedup.insertionSort fun a b => groupOrder a b = true
  sqlLimit opts.maxGrantsPerRun
    (groups.filter fun a => opts.minDistinctQueries ≤ distinctQueries d served a ∧ uncredited d a)

/-- the event the pass appends -/
def grantHeuristic (E : Env) (now : Time) (d : UsefulnessDb) (a : AtomId) : UsefulnessDb :=
  appendUsefulness E d a { family := some "recall_used" }
    { surface := some .system, signal := some "heuristic", basis := some "no_correction_survival" } now

def runImplicitPositivePass (E : Env) (groupOrder : AtomId → AtomId → Bool) (d : UsefulnessDb)
    (opts : ImplicitPositiveOpts) (now : Time) : UsefulnessDb × ImplicitPositiveResult :=
  let rows := implicitPositiveRows groupOrder d opts now
  (rows.foldl (grantHeuristic E now) d, ⟨rows.length, rows.length⟩)

end AstramemLocal.Store
