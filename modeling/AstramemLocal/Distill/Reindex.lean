/-
The whole call of stage 8: `embedBatch` screens the batch, writes its survivors one by one (`indexAtom`) and then the
links between atoms (`resolveLink`). `Extends` is what every statement of it keeps: rows are added, none goes. `linkWithValidity`
and `EntityRelationRepo.insert` write nothing for a pair or a triple with an open row (`linkWithValidity_eq_iff`,
`insertRelation_eq_iff`).
-/
import AstramemLocal.Core.Runs
import AstramemLocal.Distill.EmbedIndex
import Mathlib.Data.List.Infix

namespace AstramemLocal.Distill

open AstramemLocal.Store AstramemLocal.Core

/-! ## The batch -/

/-- an atom that passed the other filters of the screening, with the hash its links name it by -/
structure BatchAtom extends NormalizedMemory where
  contentHash : Hash
deriving DecidableEq, Repr

inductive AtomLinkType where
  | sharedEntity | sessionProximity | possessionFamily | eventParticipant
deriving DecidableEq, Repr

structure AtomLinkCandidate where
  contentHashA : Hash
  contentHashB : Hash
  linkType : AtomLinkType
  evidence : String
  confidence : ℚ
deriving DecidableEq, Repr

/-- a row of `memory_links` -/
structure MemoryLink where
  memoryIdA : AtomId
  memoryIdB : AtomId
  linkType : AtomLinkType
  evidence : String
  confidence : ℚ
deriving DecidableEq, Repr

structure IndexDb where
  st : St
  memoryLinks : List MemoryLink
deriving DecidableEq, Repr

/-- `MemoryLinkRepo.insert` -/
def insertLink (links : List MemoryLink) (memoryIdA memoryIdB : AtomId) (c : AtomLinkCandidate) : List MemoryLink :=
  if memoryIdA = memoryIdB then links
  else
    let link : MemoryLink := ⟨min memoryIdA memoryIdB, max memoryIdA memoryIdB, c.linkType, c.evidence, c.confidence⟩
    if links.any fun x => x.memoryIdA = link.memoryIdA ∧ x.memoryIdB = link.memoryIdB ∧ x.linkType = link.linkType then
      links
    else links ++ [link]

/-- one round of the link loop; `ids` is `memoryIdByContentHash` -/
def resolveLink (ids : List (Hash × AtomId)) (links : List MemoryLink) (c : AtomLinkCandidate) : List MemoryLink :=
  match ids.lookup c.contentHashA, ids.lookup c.contentHashB with
  | some a, some b => insertLink links a b c
  | _, _ => links

/-- the id `insertWithCreateEvent` answers with -/
def memoryIdOf (E : Env) (s : St) (hash : Hash) : AtomId :=
  match findHash s hash with
  | some existing => existing.id
  | none => E.uuid s.drawn

/-- one round of Phase C -/
def indexAtom (E : Env) (ctx : EmbedIndexContext) (acc : St × List (Hash × AtomId)) (mem : BatchAtom) :
    Except ConstraintError (St × List (Hash × AtomId)) :=
  (embedAndIndex E acc.1 ctx mem.toNormalizedMemory).map fun t =>
    (t, (mem.contentHash, memoryIdOf E acc.1 mem.finalHash) :: acc.2)

def survivors (s : St) (batch : List BatchAtom) : List BatchAtom := batch.filter fun mem => ¬ isErasedHash s mem.finalHash

/-- `embedAndIndex`, the whole call -/
def embedBatch (E : Env) (ctx : EmbedIndexContext) (batch : List BatchAtom) (atomLinks : List AtomLinkCandidate)
    (db : IndexDb) : Except ConstraintError IndexDb :=
  ((survivors db.st batch).foldlM (indexAtom E ctx) (db.st, [])).map fun r =>
    ⟨r.1, atomLinks.foldl (resolveLink r.2) db.memoryLinks⟩

/-! ## What a run keeps -/

variable {E : Env} {s t u : St}

/-- rows are added only, and a hash keeps its owner -/
structure Extends (s t : St) : Prop where
  owner : ∀ h m, findHash s h = some m → ∃ m', findHash t h = some m' ∧ m'.id = m.id
  entities : s.entities <+: t.entities
  links : s.memoryEntities <+: t.memoryEntities
  relations : s.entityRelations <+: t.entityRelations
  erased : ∀ h, isErasedHash t h = isErasedHash s h

theorem Extends.refl (s : St) : Extends s s :=
  ⟨fun _ m hm => ⟨m, hm, rfl⟩, List.prefix_rfl, List.prefix_rfl, List.prefix_rfl, fun _ => rfl⟩

theorem Extends.trans (h : Extends s t) (h' : Extends t u) : Extends s u where
  owner := by
    intro hash m hm
    obtain ⟨m', hm', hid⟩ := h.owner hash m hm
    obtain ⟨m'', hm'', hid'⟩ := h'.owner hash m' hm'
    exact ⟨m'', hm'', hid'.trans hid⟩
  entities := h.entities.trans h'.entities
  links := h.links.trans h'.links
  relations := h.relations.trans h'.relations
  erased := fun hash => (h'.erased hash).trans (h.erased hash)

/-- the id of a name -/
def entityId (s : St) (name : String) : Option EntityId := (s.entities.find? (·.name = name)).map (·.id)

def OpenLink (s : St) (a : AtomId) (k : EntityId) : Prop :=
  ∃ row ∈ s.memoryEntities, row.memoryId = a ∧ row.entityId = k ∧ row.invalidAt = none

def OpenTriple (s : St) (i : EntityId) (predicate : String) (j : EntityId) : Prop :=
  ∃ row ∈ s.entityRelations, row.subjectEntityId = i ∧ row.predicate = predicate ∧ row.objectEntityId = j ∧
    row.validTo = none

theorem Extends.entityId (h : Extends s t) {name : String} {k : EntityId} (hk : entityId s name = some k) :
    entityId t name = some k := by
  obtain ⟨added, hadded⟩ := h.entities
  obtain ⟨row, hrow, rfl⟩ := Option.map_eq_some_iff.1 hk
  unfold Distill.entityId
  rw [← hadded, List.find?_append, hrow]
  rfl

theorem Extends.openLink (h : Extends s t) {a : AtomId} {k : EntityId} (hopen : OpenLink s a k) : OpenLink t a k := by
  obtain ⟨row, hrow, hrest⟩ := hopen
  exact ⟨row, h.links.subset hrow, hrest⟩

theorem Extends.openTriple (h : Extends s t) {i j : EntityId} {p : String} (hopen : OpenTriple s i p j) :
    OpenTriple t i p j := by
  obtain ⟨row, hrow, hrest⟩ := hopen
  exact ⟨row, h.relations.subset hrow, hrest⟩

/-! ## The statements -/

theorem extends_of_eq (hm : t.memories = s.memories) (he : t.entities = s.entities)
    (hl : t.memoryEntities = s.memoryEntities) (hr : t.entityRelations = s.entityRelations)
    (hv : t.memoryEvents = s.memoryEvents) : Extends s t where
  owner := by
    intro h m hfound
    refine ⟨m, ?_, rfl⟩
    unfold findHash
    rw [hm]
    exact hfound
  entities := he ▸ List.prefix_rfl
  links := hl ▸ List.prefix_rfl
  relations := hr ▸ List.prefix_rfl
  erased := by
    intro h
    unfold isErasedHash
    rw [hv]

theorem extends_upsertEntity (s : St) (name kind : String) : Extends s (upsertEntity E s name kind).1 := by
  unfold upsertEntity
  dsimp only
  split
  · exact Extends.refl s
  · exact { Extends.refl s with entities := List.prefix_append _ _ }

/-- the id returned is that of the name -/
theorem entityId_upsertEntity (s : St) (name kind : String) :
    entityId (upsertEntity E s name kind).1 (normalizeEntityName E name) = some (upsertEntity E s name kind).2 := by
  unfold upsertEntity
  dsimp only
  split
  next existing hfound =>
    unfold Distill.entityId
    rw [hfound]
    rfl
  next hnone =>
    change ((s.entities ++ [_]).find? _).map _ = _
    rw [List.find?_append, hnone]
    simp

theorem upsertEntity_known {name kind : String} {k : EntityId} (h : entityId s (normalizeEntityName E name) = some k) :
    upsertEntity E s name kind = (s, k) := by
  obtain ⟨row, hrow, rfl⟩ := Option.map_eq_some_iff.1 h
  unfold upsertEntity
  dsimp only
  rw [hrow]

theorem extends_linkWithValidity (s : St) (a : AtomId) (k : EntityId) (validAt invalidAt : Option Time) :
    Extends s (linkWithValidity s a k validAt invalidAt) := by
  unfold linkWithValidity
  split
  · exact extends_of_eq rfl rfl rfl rfl rfl
  · exact { Extends.refl s with links := List.prefix_append _ _ }

theorem openLink_linkWithValidity (s : St) (a : AtomId) (k : EntityId) (validAt : Option Time) :
    OpenLink (linkWithValidity s a k validAt none) a k := by
  unfold linkWithValidity
  split
  next hopen =>
    obtain ⟨row, hrow, hmatch⟩ := List.any_eq_true.1 hopen.2
    exact ⟨row, hrow, by simpa using hmatch⟩
  · exact ⟨⟨a, k, validAt, none⟩, List.mem_append_right _ List.mem_cons_self, rfl, rfl, rfl⟩

/-- nothing is written for a link that is open already and states no end -/
theorem linkWithValidity_eq_iff (s : St) (a : AtomId) (k : EntityId) (validAt invalidAt : Option Time) :
    (linkWithValidity s a k validAt invalidAt).memoryEntities = s.memoryEntities ↔ invalidAt = none ∧ OpenLink s a k := by
  have hany : s.memoryEntities.any (fun r => r.memoryId = a ∧ r.entityId = k ∧ r.invalidAt = none) = true ↔
      OpenLink s a k := by
    simp [OpenLink]
  unfold linkWithValidity
  split
  next h => exact iff_of_true rfl ⟨h.1, hany.1 h.2⟩
  next h =>
    refine iff_of_false ?_ fun h' => h ⟨h'.1, hany.2 h'.2⟩
    change ¬ s.memoryEntities ++ [_] = s.memoryEntities
    simp

theorem extends_insertRelation (s : St) (r : EntityRelation) : Extends s (insertRelation s r) := by
  unfold insertRelation
  dsimp only
  split
  · exact extends_of_eq rfl rfl rfl rfl rfl
  · exact { Extends.refl s with relations := List.prefix_append _ _ }

theorem openTriple_insertRelation (s : St) {r : EntityRelation} (hr : r.validTo = none) :
    OpenTriple (insertRelation s r) r.subjectEntityId r.predicate r.objectEntityId := by
  unfold insertRelation
  dsimp only
  split
  next hopen =>
    obtain ⟨row, hrow, hmatch⟩ := List.any_eq_true.1 hopen
    exact ⟨row, hrow, by simpa using hmatch⟩
  · exact ⟨r, List.mem_append_right _ List.mem_cons_self, rfl, rfl, rfl, hr⟩

theorem insertRelation_eq_iff (s : St) (r : EntityRelation) : (insertRelation s r).entityRelations = s.entityRelations ↔
    OpenTriple s r.subjectEntityId r.predicate r.objectEntityId := by
  have hany : s.entityRelations.any (fun x => x.subjectEntityId = r.subjectEntityId ∧ x.predicate = r.predicate ∧
      x.objectEntityId = r.objectEntityId ∧ x.validTo = none) = true ↔
      OpenTriple s r.subjectEntityId r.predicate r.objectEntityId := by
    simp [OpenTriple]
  unfold insertRelation
  dsimp only
  split
  next h => exact iff_of_true rfl (hany.1 h)
  next h =>
    refine iff_of_false ?_ fun h' => h (hany.2 h')
    change ¬ s.entityRelations ++ [_] = s.entityRelations
    simp

end AstramemLocal.Distill
