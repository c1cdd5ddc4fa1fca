/-
`src/distill/stages/08-embed-index.ts`, per atom. `embedAndIndex` screens every atom of its job first (`screen`: the
erased-hash check), gives the event loop back any number of times, and then writes the survivors one by one
(`embedAndIndex`: row and 'create' event, entity links, relations, vector). Between the two, and between two survivors,
other requests run. What else drops an atom in the screening (quality gates, triage) is `discard`.
-/
import AstramemLocal.Core.Runs
import AstramemLocal.Store.MemoryEvents
import AstramemLocal.Store.Memories
import AstramemLocal.Store.Entities

namespace AstramemLocal.Distill

open AstramemLocal.Core AstramemLocal.Store

/-- `EmbedIndexContext`, with what the stage computes from the source text of the atom -/
structure EmbedIndexContext where
  sessionId : Option SessionId := none
  repo : Option String := none
  project : Option String := none
  branch : Option String := none
  agent : Option String := none
  sourceHash : Option Hash := none
  capturedAtMs : Option Time := none
  captureSource : Option String := none
  speakerLabel : Option String := none
  consentDisclosed : Option Bool := none
deriving DecidableEq, Repr

/-- 50 years of 365.25 days -/
def validityBoundMaxSkewMs : ℕ := 1577880000000

def guardValidTo (invalidAtMs validFromMs : Option Time) (anchorMs : Time) : Option Time :=
  match invalidAtMs with
  | none => none
  | some invalidAt =>
    if validFromMs.any (invalidAt ≤ ·) then none
    else if validityBoundMaxSkewMs < (invalidAt - anchorMs).natAbs then none
    else some invalidAt

/-- Phase A: `if (eventsRepo.isErasedHash(mem.finalHash)) continue` -/
def screen (s : St) (mem : NormalizedMemory) : St :=
  if isErasedHash s mem.finalHash then s else { s with inFlight := s.inFlight ++ [mem] }

/-- a later filter of the stage drops the atom -/
def discard (s : St) (mem : NormalizedMemory) : St := { s with inFlight := s.inFlight.erase mem }

/-- what Phase C passes to `insertWithCreateEvent` -/
def insertInput (ctx : EmbedIndexContext) (mem : NormalizedMemory) (now : Time) : InsertInput :=
  { type := mem.type
    text := mem.text
    normalizedText := mem.normalizedText
    hash := mem.finalHash
    importance := some mem.importance
    confidence := some mem.confidence
    sessionId := ctx.sessionId
    repo := ctx.repo
    project := ctx.project
    branch := ctx.branch
    agent := ctx.agent
    sourceHash := ctx.sourceHash
    evidence := mem.evidence
    scope := some .priv
    validFrom := mem.validAt.or ctx.capturedAtMs
    validTo := guardValidTo mem.invalidAt (mem.validAt.or ctx.capturedAtMs) (ctx.capturedAtMs.getD now)
    captureSource := ctx.captureSource
    speakerLabel := ctx.speakerLabel
    consentDisclosed := ctx.consentDisclosed
    entities := some (mem.entities.map (·.toEntityInput)) }

/-- one round of the entity loop; the accumulator is `entityIdByName` -/
def linkEntity (E : Env) (memoryId : AtomId) (acc : St × List (String × EntityId)) (entity : ExtractedEntity) :
    St × List (String × EntityId) :=
  let r := upsertEntity E acc.1 entity.name entity.kind
  (linkWithValidity r.1 memoryId r.2 entity.validAt entity.invalidAt, (normalizeEntityName E entity.name, r.2) :: acc.2)

/-- one round of the relation loop; a triple with an unknown end is dropped -/
def writeRelation (E : Env) (memoryId : AtomId) (mem : NormalizedMemory) (relationValidFrom : Time)
    (entityIdByName : List (String × EntityId)) (s : St) (relation : ExtractedRelation) : St :=
  match entityIdByName.lookup (normalizeEntityName E relation.subject),
    entityIdByName.lookup (normalizeEntityName E relation.object) with
  | some subjectId, some objectId =>
    insertRelation s
      { subjectEntityId := subjectId
        predicate := relation.predicate
        objectEntityId := objectId
        evidenceMemoryId := memoryId
        sourceExcerpt := (relation.evidence.or mem.evidence).getD (String.ofList (mem.text.toList.take 500))
        confidence := relation.confidence.getD mem.confidence
        validFrom := relation.validAt.getD relationValidFrom
        validTo := relation.invalidAt }
  | _, _ => s

/-- `vecStore.upsert`, and the touch of `updated_at` that follows it -/
def upsertVec (E : Env) (s : St) (memoryId : AtomId) : St :=
  match findRow s memoryId with
  | none => s
  | some row =>
    let s := { s with memoriesVec := s.memoriesVec.filter (· ≠ row.rowid) ++ [row.rowid] }
    updateRow (tick s) memoryId fun m => { m with updatedAt := E.now s.clock }

/-- Phase C for one survivor -/
def embedAndIndex (E : Env) (s : St) (ctx : EmbedIndexContext) (mem : NormalizedMemory) : Except ConstraintError St :=
  let now := E.now s.clock
  let s := if ctx.capturedAtMs = none then tick s else s
  match insertWithCreateEvent E s (insertInput ctx mem now) with
  | .error e => .error e
  | .ok (s, inserted) =>
    let linked := mem.entities.foldl (linkEntity E inserted.id) (s, [])
    let relationValidFrom := ctx.capturedAtMs.getD (E.now linked.1.clock)
    let s := if ctx.capturedAtMs = none then tick linked.1 else linked.1
    let s := mem.relations.foldl (writeRelation E inserted.id mem relationValidFrom linked.2) s
    .ok (upsertVec E s inserted.id)

/-! ## Writes to the graph -/

/-- what a write to the entities, their links or relations leaves as it is -/
structure GraphWrite (s t : St) : Prop where
  memories : t.memories = s.memories
  memoryEvents : t.memoryEvents = s.memoryEvents
  seqHigh : t.seqHigh = s.seqHigh
  purgeBatches : t.purgeBatches = s.purgeBatches

theorem GraphWrite.trans {s t u : St} (h : GraphWrite s t) (h' : GraphWrite t u) : GraphWrite s u :=
  ⟨h'.memories.trans h.memories, h'.memoryEvents.trans h.memoryEvents, h'.seqHigh.trans h.seqHigh,
    h'.purgeBatches.trans h.purgeBatches⟩

theorem upsertEntity_graphWrite (E : Env) (s : St) (name kind : String) : GraphWrite s (upsertEntity E s name kind).1 := by
  unfold upsertEntity
  dsimp only
  split
  · exact ⟨rfl, rfl, rfl, rfl⟩
  · exact ⟨rfl, rfl, rfl, rfl⟩

theorem linkWithValidity_graphWrite (s : St) (a : AtomId) (e : EntityId) (validAt invalidAt : Option Time) :
    GraphWrite s (linkWithValidity s a e validAt invalidAt) := by
  unfold linkWithValidity
  split_ifs
  · exact ⟨rfl, rfl, rfl, rfl⟩
  · exact ⟨rfl, rfl, rfl, rfl⟩

theorem linkEntity_graphWrite (E : Env) (a : AtomId) (acc : St × List (String × EntityId)) (entity : ExtractedEntity) :
    GraphWrite acc.1 (linkEntity E a acc entity).1 :=
  (upsertEntity_graphWrite E acc.1 entity.name entity.kind).trans (linkWithValidity_graphWrite _ a _ _ _)

theorem insertRelation_graphWrite (s : St) (r : EntityRelation) : GraphWrite s (insertRelation s r) := by
  unfold insertRelation
  dsimp only
  split_ifs
  · exact ⟨rfl, rfl, rfl, rfl⟩
  · exact ⟨rfl, rfl, rfl, rfl⟩

theorem writeRelation_graphWrite (E : Env) (a : AtomId) (mem : NormalizedMemory) (at_ : Time)
    (ids : List (String × EntityId)) (s : St) (relation : ExtractedRelation) :
    GraphWrite s (writeRelation E a mem at_ ids s relation) := by
  unfold writeRelation
  split
  · exact insertRelation_graphWrite s _
  · exact ⟨rfl, rfl, rfl, rfl⟩

/-- **Phase C rule.** What its statements keep is kept by Phase C. -/
theorem embedAndIndex_rule {E : Env} {s t : St} {ctx : EmbedIndexContext} {mem : NormalizedMemory} {P : St → Prop}
    (h : embedAndIndex E s ctx mem = .ok t) (hs : P s) (hclock : ∀ v, P v → P (tick v))
    (hinsert : ∀ v input r, P v → insertWithCreateEvent E v input = .ok r → P r.1)
    (hlink : ∀ a acc entity, P acc.1 → P (linkEntity E a acc entity).1)
    (hrelation : ∀ a at_ named v relation, P v → P (writeRelation E a mem at_ named v relation))
    (hvec : ∀ v a, P v → P (upsertVec E v a)) : P t := by
  have hread : ∀ v, P v → P (if ctx.capturedAtMs = none then tick v else v) := by
    intro v hv
    split_ifs
    · exact hclock v hv
    · exact hv
  unfold embedAndIndex at h
  simp only at h
  split at h
  · cases h
  next u inserted hr =>
    obtain rfl := Except.ok.inj h
    have hents := foldl_rest (fun _ (acc : St × List (String × EntityId)) => P acc.1) (f := linkEntity E inserted.id)
      (fun e _ acc hacc => hlink inserted.id acc e hacc) (l := mem.entities) (b := (u, []))
      (hinsert _ _ _ (hread s hs) hr)
    apply hvec
    exact foldl_rest (fun _ v => P v) (fun relation _ v hv => hrelation _ _ _ v relation hv) (l := mem.relations)
      (hread _ hents)

end AstramemLocal.Distill
