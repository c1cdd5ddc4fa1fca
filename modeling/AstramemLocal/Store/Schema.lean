/-
The tables of one device's database (`migrations/`): memories, memory_events, memories_vec, memory_entities,
entity_relations, purge_batches and the pull cursor, with the statements the storage, sync and distill code runs on
them. A table is a list of rows; `UPDATE .. WHERE id = ?` is `updateRow`, `DELETE` with its `ON DELETE CASCADE` is
`deleteRow`.

Ids and digests are TEXT in the source. The code compares them for equality, and event ids also by the order of the
tie-break, so they are numbers here. Times are epoch milliseconds. `Date.now()` and `randomUUID()` are the readings of
an `Env`, consumed in the order of the calls (`clock`, `drawn`).
-/
import Mathlib.Data.Rat.Defs
import Mathlib.Data.Int.Order.Basic
import Mathlib.Data.List.Nodup
import Mathlib.Tactic.Common

namespace AstramemLocal.Store

/-! ## Rows -/

abbrev Time := ℤ
abbrev AtomId := ℕ
abbrev EventId := ℕ
abbrev BatchId := ℕ
abbrev EntityId := ℕ
abbrev SessionId := ℕ
abbrev Hash := ℕ
abbrev Cursor := ℕ

inductive MemoryType where
  | decision | fact | lesson | command | todo | note | event | preference | taskResult | summary
deriving DecidableEq, Repr

/-- `private` (spelled `priv`), `team`, `org` -/
inductive MemoryScope where
  | priv | team | org
deriving DecidableEq, Repr

inductive MemoryEventType where
  | create | invalidate | supersede | promoteScope | eraseRequest | usefulness | archive | restore | unsupersede
  | purge | unpurge
deriving DecidableEq, Repr

structure EntityInput where
  name : String
  kind : String
deriving DecidableEq, Repr

/-- the keys of `payload_json`; an absent or null key is `none`. `others` holds the strings under any further key of a
pulled payload. -/
structure Payload where
  supersededBy : Option AtomId := none
  reversedSupersededBy : Option AtomId := none
  reason : Option String := none
  scope : Option MemoryScope := none
  text : Option String := none
  type : Option MemoryType := none
  importance : Option ℚ := none
  confidence : Option ℚ := none
  repo : Option String := none
  entities : Option (List EntityInput) := none
  transcriptId : Option Hash := none
  speakerLabel : Option String := none
  consentDisclosed : Option Bool := none
  autoAccepted : Option Bool := none
  threshold : Option ℚ := none
  similarity : Option ℚ := none
  family : Option String := none
  action : Option String := none
  source : Option String := none
  batchId : Option BatchId := none
  captureSource : Option String := none
  restoreDeadlineAt : Option Time := none
  fromScope : Option MemoryScope := none
  toScope : Option MemoryScope := none
  others : List String := []
deriving DecidableEq, Repr

/-- every string a payload holds -/
def Payload.strings (p : Payload) : List String :=
  p.text.toList ++ p.reason.toList ++ p.repo.toList ++ p.speakerLabel.toList ++ p.family.toList ++ p.action.toList ++
    p.source.toList ++ p.captureSource.toList ++ ((p.entities.getD []).flatMap fun e => [e.name, e.kind]) ++ p.others

/-- what an event says, wherever it is stored. `payloadJson` is `none` for NULL and for text that is not JSON: the
readers (`safeParseEventPayload`, `safeJsonColumn`) find no key in either. -/
structure EventRecord where
  eventId : EventId
  eventType : MemoryEventType
  atomId : AtomId
  payloadJson : Option Payload
  contentHash : Option Hash
  createdAt : Time
deriving DecidableEq, Repr

/-- a row of `memory_events` -/
structure MemoryEvent extends EventRecord where
  seq : ℕ
  syncedAt : Option Time := none
  rejectedAt : Option Time := none
deriving DecidableEq, Repr

/-- a row of `memories` -/
structure Memory where
  rowid : ℕ
  id : AtomId
  type : MemoryType
  text : String
  normalizedText : String
  repo : Option String
  project : Option String
  branch : Option String
  agent : Option String
  sessionId : Option SessionId
  importance : ℚ
  confidence : ℚ
  hash : Hash
  createdAt : Time
  updatedAt : Time
  sourceHash : Option Hash
  evidence : Option String
  validFrom : Time
  validTo : Option Time := none
  supersededBy : Option AtomId := none
  scope : MemoryScope
  archived : Bool := false
  archivedAt : Option Time := none
  captureSource : Option String := none
  purgeBatchId : Option BatchId := none
deriving DecidableEq, Repr

/-- a row of `entities`; `name` is normalized -/
structure EntityRow where
  id : EntityId
  name : String
  kind : String
deriving DecidableEq, Repr

/-- a row of `memory_entities` -/
structure MemoryEntity where
  memoryId : AtomId
  entityId : EntityId
  validAt : Option Time
  invalidAt : Option Time
deriving DecidableEq, Repr

/-- a row of `entity_relations` -/
structure EntityRelation where
  subjectEntityId : EntityId
  predicate : String
  objectEntityId : EntityId
  evidenceMemoryId : AtomId
  sourceExcerpt : String
  confidence : ℚ
  validFrom : Time
  validTo : Option Time
deriving DecidableEq, Repr

inductive PurgeStatus where
  | openBatch | restored | finalized
deriving DecidableEq, Repr

/-- a row of `purge_batches` -/
structure PurgeBatchRow where
  batchId : BatchId
  captureSource : String
  requestedAt : Time
  restoreDeadlineAt : Time
  atomCount : ℕ
  status : PurgeStatus
  finalizedAt : Option Time
deriving DecidableEq, Repr

/-- an atom the distiller extracted, as stage 8 receives it (`NormalizedMemory`) -/
structure ExtractedEntity extends EntityInput where
  validAt : Option Time := none
  invalidAt : Option Time := none
deriving DecidableEq, Repr

structure ExtractedRelation where
  subject : String
  predicate : String
  object : String
  evidence : Option String := none
  confidence : Option ℚ := none
  validAt : Option Time := none
  invalidAt : Option Time := none
deriving DecidableEq, Repr

structure NormalizedMemory where
  type : MemoryType
  text : String
  normalizedText : String
  finalHash : Hash
  importance : ℚ
  confidence : ℚ
  evidence : Option String := none
  validAt : Option Time := none
  invalidAt : Option Time := none
  entities : List ExtractedEntity := []
  relations : List ExtractedRelation := []
deriving DecidableEq, Repr

/-! ## The database of one device -/

/-- what the process reads from outside: the wall clock (readings in call order, not monotone), fresh random ids, and
how many nested calls its stack admits -/
structure Env where
  now : ℕ → Time
  uuid : ℕ → ℕ
  stack : ℕ
  /-- the language's Unicode lower-casing -/
  toLowerCase : String → String

structure St where
  memories : List Memory := []
  /-- rowids with a vector -/
  memoriesVec : List ℕ := []
  memoryEvents : List MemoryEvent := []
  /-- AUTOINCREMENT high-water mark of `memory_events.seq` -/
  seqHigh : ℕ := 0
  entities : List EntityRow := []
  memoryEntities : List MemoryEntity := []
  entityRelations : List EntityRelation := []
  purgeBatches : List PurgeBatchRow := []
  sessions : List SessionId := []
  /-- `sync_pull_state.cursor`; no row and NULL read the same -/
  cursor : Option Cursor := none
  /-- atoms of running stage-8 jobs that passed the screening and are not inserted yet -/
  inFlight : List NormalizedMemory := []
  /-- `Date.now()` calls so far -/
  clock : ℕ := 0
  /-- `randomUUID()` calls so far -/
  drawn : ℕ := 0
deriving DecidableEq, Repr

def tick (s : St) : St := { s with clock := s.clock + 1 }

def draw (s : St) : St := { s with drawn := s.drawn + 1 }

/-! ## Statements -/

/-- `SELECT .. FROM memories WHERE id = ?` -/
def findRow (s : St) (a : AtomId) : Option Memory := s.memories.find? (·.id = a)

/-- `SELECT id FROM memories WHERE hash = ?` -/
def findHash (s : St) (h : Hash) : Option Memory := s.memories.find? (·.hash = h)

/-- `UPDATE memories SET .. WHERE id = ?` -/
def updateRow (s : St) (a : AtomId) (f : Memory → Memory) : St :=
  { s with memories := s.memories.map fun m => if m.id = a then f m else m }

/-- `DELETE FROM memory_entities WHERE memory_id = ?` -/
def unlinkMemory (s : St) (a : AtomId) : St :=
  { s with memoryEntities := s.memoryEntities.filter (·.memoryId ≠ a) }

/-- `DELETE FROM entity_relations WHERE evidence_memory_id = ?` -/
def dropRelations (s : St) (a : AtomId) : St :=
  { s with entityRelations := s.entityRelations.filter (·.evidenceMemoryId ≠ a) }

/-- `DELETE FROM memories_vec WHERE rowid = ?` -/
def deleteVec (s : St) (r : ℕ) : St := { s with memoriesVec := s.memoriesVec.filter (· ≠ r) }

/-- `DELETE FROM memories WHERE id = ?`, with the cascades into the two link tables -/
def deleteRow (s : St) (a : AtomId) : St :=
  dropRelations (unlinkMemory { s with memories := s.memories.filter (·.id ≠ a) } a) a

/-- the next rowid SQLite hands out -/
def nextRowid (s : St) : ℕ := (s.memories.map (·.rowid)).foldl max 0 + 1

/-- what makes an INSERT throw -/
inductive ConstraintError where
  | primaryKey (id : AtomId)
  | uniqueHash (hash : Hash)
  | foreignKeySession (sessionId : SessionId)
deriving DecidableEq, Repr

/-- `INSERT INTO memories`: PRIMARY KEY, `idx_memories_hash` (UNIQUE) and the FOREIGN KEY on sessions -/
def insertMemory (s : St) (m : Memory) : Except ConstraintError St :=
  if (findRow s m.id).isSome then .error (.primaryKey m.id)
  else if (findHash s m.hash).isSome then .error (.uniqueHash m.hash)
  else
    match m.sessionId.filter (· ∉ s.sessions) with
    | some k => .error (.foreignKeySession k)
    | none => .ok { s with memories := s.memories ++ [{ m with rowid := nextRowid s }] }

/-- `MemoryEventRepo.append`: the next seq, a fresh event id, not synced -/
def append (E : Env) (s : St) (eventType : MemoryEventType) (atomId : AtomId) (payload : Option Payload)
    (contentHash : Option Hash) (createdAt : Time) : St :=
  { s with
    memoryEvents := s.memoryEvents ++
      [{ eventId := E.uuid s.drawn, eventType, atomId, payloadJson := payload, contentHash, createdAt,
         seq := s.seqHigh + 1 }]
    seqHigh := s.seqHigh + 1
    drawn := s.drawn + 1 }

/-- the rows of `memory_events` without the shipping columns -/
def records (s : St) : List EventRecord := s.memoryEvents.map (·.toEventRecord)

/-! ## What the statements change -/

section
variable (E : Env) (s : St) (a b : AtomId) (f : Memory → Memory)

@[simp] theorem tick_memories : (tick s).memories = s.memories := rfl
@[simp] theorem tick_memoryEvents : (tick s).memoryEvents = s.memoryEvents := rfl
@[simp] theorem tick_clock : (tick s).clock = s.clock + 1 := rfl
@[simp] theorem tick_drawn : (tick s).drawn = s.drawn := rfl
@[simp] theorem draw_memories : (draw s).memories = s.memories := rfl
@[simp] theorem draw_memoryEvents : (draw s).memoryEvents = s.memoryEvents := rfl
@[simp] theorem updateRow_memoryEvents : (updateRow s a f).memoryEvents = s.memoryEvents := rfl
@[simp] theorem updateRow_clock : (updateRow s a f).clock = s.clock := rfl
@[simp] theorem updateRow_drawn : (updateRow s a f).drawn = s.drawn := rfl
@[simp] theorem deleteVec_memories (r : ℕ) : (deleteVec s r).memories = s.memories := rfl
@[simp] theorem deleteVec_memoryEvents (r : ℕ) : (deleteVec s r).memoryEvents = s.memoryEvents := rfl
@[simp] theorem deleteVec_clock (r : ℕ) : (deleteVec s r).clock = s.clock := rfl
@[simp] theorem deleteVec_drawn (r : ℕ) : (deleteVec s r).drawn = s.drawn := rfl
@[simp] theorem deleteRow_memories : (deleteRow s a).memories = s.memories.filter (·.id ≠ a) := rfl
@[simp] theorem deleteRow_memoryEvents : (deleteRow s a).memoryEvents = s.memoryEvents := rfl
@[simp] theorem deleteRow_clock : (deleteRow s a).clock = s.clock := rfl
@[simp] theorem deleteRow_drawn : (deleteRow s a).drawn = s.drawn := rfl
@[simp] theorem unlinkMemory_memories : (unlinkMemory s a).memories = s.memories := rfl
@[simp] theorem unlinkMemory_memoryEvents : (unlinkMemory s a).memoryEvents = s.memoryEvents := rfl
@[simp] theorem dropRelations_memories : (dropRelations s a).memories = s.memories := rfl
@[simp] theorem dropRelations_memoryEvents : (dropRelations s a).memoryEvents = s.memoryEvents := rfl

section
variable (ty : MemoryEventType) (p : Option Payload) (h : Option Hash) (t : Time)

@[simp] theorem append_memories : (append E s ty a p h t).memories = s.memories := rfl
@[simp] theorem append_clock : (append E s ty a p h t).clock = s.clock := rfl
@[simp] theorem append_drawn : (append E s ty a p h t).drawn = s.drawn + 1 := rfl

@[simp] theorem append_records :
    records (append E s ty a p h t) = records s ++ [⟨E.uuid s.drawn, ty, a, p, h, t⟩] := by
  simp [records, append]

end

theorem records_congr {s t : St} (h : s.memoryEvents = t.memoryEvents) : records s = records t := by
  rw [records, records, h]

theorem findRow_congr {s t : St} (h : s.memories = t.memories) (a : AtomId) : findRow s a = findRow t a := by
  rw [findRow, findRow, h]

@[simp] theorem tick_records : records (tick s) = records s := rfl
@[simp] theorem draw_records : records (draw s) = records s := rfl
@[simp] theorem updateRow_records : records (updateRow s a f) = records s := rfl
@[simp] theorem deleteVec_records (r : ℕ) : records (deleteVec s r) = records s := rfl
@[simp] theorem deleteRow_records : records (deleteRow s a) = records s := rfl

@[simp] theorem findRow_tick : findRow (tick s) a = findRow s a := rfl
@[simp] theorem findRow_draw : findRow (draw s) a = findRow s a := rfl
@[simp] theorem findRow_deleteVec (r : ℕ) : findRow (deleteVec s r) a = findRow s a := rfl
@[simp] theorem findRow_unlinkMemory : findRow (unlinkMemory s b) a = findRow s a := rfl
@[simp] theorem findRow_dropRelations : findRow (dropRelations s b) a = findRow s a := rfl

@[simp] theorem findRow_append (ty : MemoryEventType) (p : Option Payload) (h : Option Hash) (t : Time) :
    findRow (append E s ty b p h t) a = findRow s a := rfl

variable {s a}

theorem findRow_id {m : Memory} (h : findRow s a = some m) : m.id = a := by
  simpa using List.find?_some h

theorem findRow_mem {m : Memory} (h : findRow s a = some m) : m ∈ s.memories := List.mem_of_find?_eq_some h

theorem findRow_eq_none : findRow s a = none ↔ ∀ m ∈ s.memories, m.id ≠ a := by
  simp [findRow]

theorem findRow_isSome_of_mem {m : Memory} (h : m ∈ s.memories) : (findRow s m.id).isSome := by
  rw [Option.isSome_iff_ne_none]
  exact fun hn => findRow_eq_none.1 hn m h rfl

variable (s a) {f}

/-- an UPDATE that keeps ids changes the row it names and no other -/
theorem findRow_updateRow (hf : ∀ m, (f m).id = m.id) :
    findRow (updateRow s a f) b = (findRow s b).map fun m => if b = a then f m else m := by
  have hid : ((fun m : Memory => decide (m.id = b)) ∘ fun m => if m.id = a then f m else m) =
      fun m => decide (m.id = b) := by
    funext m
    simp only [Function.comp]
    split_ifs <;> simp [hf]
  simp only [findRow, updateRow, List.find?_map, hid]
  cases hr : s.memories.find? (·.id = b) with
  | none => rfl
  | some m => simp [findRow_id hr]

theorem findRow_updateRow_self (hf : ∀ m, (f m).id = m.id) :
    findRow (updateRow s a f) a = (findRow s a).map f := by
  simp [findRow_updateRow s a a hf]

theorem findRow_updateRow_ne (hf : ∀ m, (f m).id = m.id) (h : b ≠ a) :
    findRow (updateRow s a f) b = findRow s b := by
  simp [findRow_updateRow s a b hf, h]

theorem findRow_deleteRow : findRow (deleteRow s a) b = if b = a then none else findRow s b := by
  simp only [findRow, deleteRow_memories, List.find?_filter]
  split_ifs with h
  · simp [h]
  · congr 1
    funext m
    by_cases hm : m.id = b <;> simp [hm, h]

@[simp] theorem findRow_deleteRow_self : findRow (deleteRow s a) a = none := by simp [findRow_deleteRow]

end

theorem insertMemory_ok {s t : St} {m : Memory} (h : insertMemory s m = .ok t) :
    findRow s m.id = none ∧ findHash s m.hash = none ∧ (∀ k, m.sessionId = some k → k ∈ s.sessions) ∧
      t = { s with memories := s.memories ++ [{ m with rowid := nextRowid s }] } := by
  unfold insertMemory at h
  split_ifs at h with h1 h2
  split at h
  · cases h
  · rename_i hk
    simp only [Except.ok.injEq] at h
    refine ⟨by simpa using h1, by simpa using h2, fun k hs => ?_, h.symm⟩
    rw [hs, Option.filter_eq_none_iff] at hk
    simpa using hk k rfl

theorem findRow_append_left {s t : St} {made : List Memory} (h : t.memories = s.memories ++ made) {a : AtomId}
    {m : Memory} (hm : findRow s a = some m) : findRow t a = some m := by
  rw [findRow] at hm ⊢
  rw [h, List.find?_append, hm]
  rfl

theorem findRow_snoc {s t : St} {m : Memory} (h : t.memories = s.memories ++ [m]) (hm : findRow s m.id = none)
    (a : AtomId) : findRow t a = if a = m.id then some m else findRow s a := by
  rw [findRow, h, List.find?_append]
  split_ifs with ha
  · rw [ha, show s.memories.find? (·.id = m.id) = none from hm]
    simp
  · rw [show s.memories.find? (·.id = a) = findRow s a from rfl]
    simp [Ne.symm ha]

/-! ## Unique columns -/

/-- the columns of memories with a UNIQUE index -/
inductive Key where
  | id | hash
deriving DecidableEq, Repr

def Key.of : Key → Memory → ℕ
  | .id => (·.id)
  | .hash => (·.hash)

def Unique (k : Key) (s : St) : Prop := (s.memories.map k.of).Nodup

/-- the PRIMARY KEY of memories -/
abbrev UniqueIds (s : St) : Prop := Unique .id s

section
variable {k : Key} {s t : St} {m : Memory}

theorem findRow_of_mem (h : UniqueIds s) (hm : m ∈ s.memories) : findRow s m.id = some m := by
  obtain ⟨x, hx⟩ := Option.isSome_iff_exists.1 (findRow_isSome_of_mem hm)
  rw [hx, List.inj_on_of_nodup_map h (findRow_mem hx) hm (findRow_id hx)]

theorem findHash_eq_none {h : Hash} : findHash s h = none ↔ ∀ m ∈ s.memories, m.hash ≠ h := by
  simp [findHash]

theorem Unique.updateRow (h : Unique k s) (a : AtomId) {f : Memory → Memory} (hf : ∀ m, k.of (f m) = k.of m) :
    Unique k (updateRow s a f) := by
  have hmap : (Store.updateRow s a f).memories.map k.of = s.memories.map k.of := by
    simp only [Store.updateRow, List.map_map]
    refine List.map_congr_left fun m _ => ?_
    simp only [Function.comp]
    split_ifs
    · exact hf m
    · rfl
  rw [Unique, hmap]
  exact h

theorem Unique.sublist (h : Unique k s) (ht : t.memories.Sublist s.memories) : Unique k t :=
  List.Nodup.sublist (ht.map _) h

/-- an INSERT that checks both indexes -/
theorem Unique.snoc (h : Unique k s) (hid : findRow s m.id = none) (hhash : findHash s m.hash = none)
    (ht : t.memories = s.memories ++ [m]) : Unique k t := by
  rw [Unique, ht, List.map_append, List.nodup_append]
  refine ⟨h, List.nodup_singleton _, ?_⟩
  rintro b hb c hc rfl
  obtain ⟨x, hx, hxk⟩ := List.mem_map.1 hb
  rw [List.map_cons, List.map_nil, List.mem_singleton] at hc
  cases k with
  | id => exact findRow_eq_none.1 hid x hx (hxk.trans hc)
  | hash => exact findHash_eq_none.1 hhash x hx (hxk.trans hc)

end

end AstramemLocal.Store
