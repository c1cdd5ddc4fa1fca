/-
`src/storage/entities.ts`, `src/storage/entity-relations.ts` and `src/entity/normalize.ts`: the graph tables stage 8
writes, as far as it writes them.
-/
import AstramemLocal.Store.Schema

namespace AstramemLocal.Store

/-- the white space of `trim` and of `\s`, ASCII part and no-break space -/
def isJsSpace (c : Char) : Bool :=
  c = ' ' ∨ c = '\t' ∨ c = '\n' ∨ c = '\r' ∨ c.toNat = 11 ∨ c.toNat = 12 ∨ c.toNat = 160 ∨ c.toNat = 65279

/-- `.replace(/\s+/g, ' ')`; `sp` says that the previous character was white space -/
def collapseSpaces : Bool → List Char → List Char
  | _, [] => []
  | sp, c :: cs =>
    if isJsSpace c then if sp then collapseSpaces true cs else ' ' :: collapseSpaces true cs
    else c :: collapseSpaces false cs

def trimSpaces (cs : List Char) : List Char :=
  ((cs.dropWhile isJsSpace).reverse.dropWhile isJsSpace).reverse

def normalizeEntityName (E : Env) (raw : String) : String :=
  String.ofList (collapseSpaces false (E.toLowerCase (String.ofList (trimSpaces raw.toList))).toList)

/-- `EntityRepo.upsert` -/
def upsertEntity (E : Env) (s : St) (name kind : String) : St × EntityId :=
  let normalized := normalizeEntityName E name
  match s.entities.find? (·.name = normalized) with
  | some existing => (s, existing.id)
  | none =>
    let id := E.uuid s.drawn
    (draw { s with entities := s.entities ++ [⟨id, normalized, kind⟩] }, id)

/-- `EntityRepo.linkWithValidity`: nothing happens when an open row of the pair is there (the partial unique index is on
open rows, so a row with a stated end never conflicts) -/
def linkWithValidity (s : St) (memoryId : AtomId) (entityId : EntityId) (validAt invalidAt : Option Time) : St :=
  if invalidAt = none ∧
      s.memoryEntities.any (fun r => r.memoryId = memoryId ∧ r.entityId = entityId ∧ r.invalidAt = none) then draw s
  else draw { s with memoryEntities := s.memoryEntities ++ [⟨memoryId, entityId, validAt, invalidAt⟩] }

/-- `EntityRelationRepo.insert`: one statement, guarded by an open row of the same triple -/
def insertRelation (s : St) (r : EntityRelation) : St :=
  let s := tick (draw s)
  if s.entityRelations.any (fun x => x.subjectEntityId = r.subjectEntityId ∧ x.predicate = r.predicate ∧
      x.objectEntityId = r.objectEntityId ∧ x.validTo = none) then s
  else { s with entityRelations := s.entityRelations ++ [r] }

end AstramemLocal.Store
