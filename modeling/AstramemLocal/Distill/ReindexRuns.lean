/-
Stage 8 run twice on one batch, as by the retry of a job that crashed behind its commits. In the second run every insert
finds its hash and every name its entity, so memories and links are as they were. The guards of `linkWithValidity` and of
`EntityRelationRepo.insert` see open rows only, so a stated end is written a second time (`ended_link_twice`).
`reindex_idempotent` says exactly when nothing is written twice.
- `Indexed`: what a run leaves behind for an atom. `Explains`: where its open relations come from.
- `embedAndIndex_first`, `embedAndIndex_again`: the first and the second run, for one atom.
-/
import AstramemLocal.Core.Table
import AstramemLocal.Distill.Reindex

namespace AstramemLocal.Distill

open AstramemLocal.Store AstramemLocal.Core

variable {E : Env} {s t u : St} {a : AtomId} {mem : NormalizedMemory}

/-! ## The batch and the tables -/

/-- both ends of the relation are entities of the atom -/
def Resolves (E : Env) (mem : NormalizedMemory) (r : ExtractedRelation) : Prop :=
  normalizeEntityName E r.subject ∈ mem.entities.map (normalizeEntityName E ·.name) ∧
    normalizeEntityName E r.object ∈ mem.entities.map (normalizeEntityName E ·.name)

/-- the triple of the relation has an open row -/
def HoldsOpen (E : Env) (s : St) (r : ExtractedRelation) : Prop :=
  ∃ i j, entityId s (normalizeEntityName E r.subject) = some i ∧ entityId s (normalizeEntityName E r.object) = some j ∧
    OpenTriple s i r.predicate j

def SameTriple (E : Env) (r r' : ExtractedRelation) : Prop :=
  normalizeEntityName E r.subject = normalizeEntityName E r'.subject ∧ r.predicate = r'.predicate ∧
    normalizeEntityName E r.object = normalizeEntityName E r'.object

/-- an atom of the batch asserts the triple without an end -/
def AssertedOpen (E : Env) (batch : List BatchAtom) (r : ExtractedRelation) : Prop :=
  ∃ mem ∈ batch, ∃ r' ∈ mem.relations, Resolves E mem.toNormalizedMemory r' ∧ r'.invalidAt = none ∧ SameTriple E r' r

/-- nothing of the atom goes past the guards twice: its entities state no end, and the triple of a relation that does is
open in the table or asserted open by the batch -/
structure Quiet (E : Env) (s : St) (batch : List BatchAtom) (mem : BatchAtom) : Prop where
  entities : ∀ e ∈ mem.entities, e.invalidAt = none
  relations : ∀ r ∈ mem.relations, Resolves E mem.toNormalizedMemory r → r.invalidAt ≠ none →
    HoldsOpen E s r ∨ AssertedOpen E batch r

/-- what the schema promises of the entity tables, and `randomUUID` of the ids it has not given out yet: PRIMARY KEY,
REFERENCES and no collision -/
structure WellKeyed (E : Env) (s : St) : Prop where
  ids : Keyed EntityRow.id s.entities
  ends : ∀ x ∈ s.entityRelations, (∃ e ∈ s.entities, e.id = x.subjectEntityId) ∧ ∃ e ∈ s.entities, e.id = x.objectEntityId
  fresh : ∀ i, s.drawn ≤ i → ∀ e ∈ s.entities, e.id ≠ E.uuid i
  distinct : E.uuid.Injective

/-- the rows of `memories` but for `updated_at`, which the vector upsert stamps on every run -/
def unstamped (s : St) : List Memory := s.memories.map fun m => { m with updatedAt := 0 }

structure SameTables (db db' : IndexDb) : Prop where
  memories : unstamped db'.st = unstamped db.st
  memoryEntities : db'.st.memoryEntities = db.st.memoryEntities
  entityRelations : db'.st.entityRelations = db.st.entityRelations
  memoryLinks : db'.memoryLinks = db.memoryLinks

theorem Extends.holdsOpen (h : Extends s t) {r : ExtractedRelation} (hopen : HoldsOpen E s r) : HoldsOpen E t r := by
  obtain ⟨i, j, hi, hj, hrow⟩ := hopen
  exact ⟨i, j, h.entityId hi, h.entityId hj, h.openTriple hrow⟩

theorem HoldsOpen.congr {r r' : ExtractedRelation} (hr : SameTriple E r' r) (h : HoldsOpen E s r') : HoldsOpen E s r := by
  obtain ⟨i, j, hi, hj, hrow⟩ := h
  exact ⟨i, j, hr.1 ▸ hi, hr.2.2 ▸ hj, hr.2.1 ▸ hrow⟩

/-! ## The entity loop -/

/-- the entity has its row, and its open link where it states no end -/
def Linked (E : Env) (a : AtomId) (s : St) (e : ExtractedEntity) : Prop :=
  ∃ k, entityId s (normalizeEntityName E e.name) = some k ∧ (e.invalidAt = none → OpenLink s a k)

theorem Extends.linked (h : Extends s t) {e : ExtractedEntity} (he : Linked E a s e) : Linked E a t e := by
  obtain ⟨k, hk, hopen⟩ := he
  exact ⟨k, h.entityId hk, fun hend => h.openLink (hopen hend)⟩

variable {acc : St × List (String × EntityId)} {e : ExtractedEntity}

theorem extends_linkEntity : Extends acc.1 (linkEntity E a acc e).1 :=
  (extends_upsertEntity acc.1 e.name e.kind).trans (extends_linkWithValidity _ _ _ _ _)

theorem linkEntity_linked : Linked E a (linkEntity E a acc e).1 e := by
  refine ⟨_, (extends_linkWithValidity _ _ _ _ _).entityId (entityId_upsertEntity acc.1 e.name e.kind), ?_⟩
  intro hend
  unfold linkEntity
  dsimp only
  rw [hend]
  exact openLink_linkWithValidity _ _ _ _

theorem upsertEntity_relations (s : St) (name kind : String) :
    (upsertEntity E s name kind).1.entityRelations = s.entityRelations := by
  unfold upsertEntity
  dsimp only
  split <;> rfl

theorem linkWithValidity_relations (s : St) (k : EntityId) (validAt invalidAt : Option Time) :
    (linkWithValidity s a k validAt invalidAt).entityRelations = s.entityRelations := by
  unfold linkWithValidity
  split <;> rfl

theorem linkEntity_relations : (linkEntity E a acc e).1.entityRelations = acc.1.entityRelations :=
  (linkWithValidity_relations _ _ _ _).trans (upsertEntity_relations _ _ _)

theorem linked_relations (l : List ExtractedEntity) :
    (l.foldl (linkEntity E a) acc).1.entityRelations = acc.1.entityRelations :=
  foldl_rest (fun _ (b : St × List (String × EntityId)) => b.1.entityRelations = acc.1.entityRelations)
    (fun _ _ _ hb => linkEntity_relations.trans hb) rfl

/-- `entityIdByName` gives every name the id it has in the table -/
def Agrees (acc : St × List (String × EntityId)) : Prop :=
  ∀ name k, acc.2.lookup name = some k → entityId acc.1 name = some k

theorem linkEntity_agrees (h : Agrees acc) : Agrees (linkEntity E a acc e) := by
  intro name k hk
  unfold linkEntity at hk
  dsimp only at hk
  rw [List.lookup_cons] at hk
  split at hk
  next hname =>
    obtain rfl : name = normalizeEntityName E e.name := by simpa using hname
    obtain rfl := Option.some.inj hk
    exact (extends_linkWithValidity _ _ _ _ _).entityId (entityId_upsertEntity acc.1 e.name e.kind)
  next => exact extends_linkEntity.entityId (h name k hk)

theorem linkEntity_lookup (name : String) : ((linkEntity E a acc e).2.lookup name).isSome ↔
    name = normalizeEntityName E e.name ∨ (acc.2.lookup name).isSome := by
  unfold linkEntity
  dsimp only
  rw [List.lookup_cons]
  by_cases hname : name = normalizeEntityName E e.name
  · simp [hname]
  · have hbeq : (name == normalizeEntityName E e.name) = false := beq_eq_false_iff_ne.2 hname
    simp only [hbeq, hname, false_or]

theorem linkEntities_spec (l : List ExtractedEntity) (h : Agrees acc) :
    Extends acc.1 (l.foldl (linkEntity E a) acc).1 ∧ Agrees (l.foldl (linkEntity E a) acc) ∧
      (∀ e ∈ l, Linked E a (l.foldl (linkEntity E a) acc).1 e) ∧
      ∀ name, ((l.foldl (linkEntity E a) acc).2.lookup name).isSome ↔
        name ∈ l.map (normalizeEntityName E ·.name) ∨ (acc.2.lookup name).isSome := by
  induction l generalizing acc with
  | nil => exact ⟨Extends.refl _, h, by simp, by simp⟩
  | cons e l ih =>
    obtain ⟨hext, hagrees, hlinked, hlookup⟩ := ih (linkEntity_agrees (a := a) (e := e) h)
    refine ⟨extends_linkEntity.trans hext, hagrees, ?_, ?_⟩
    · exact List.forall_mem_cons.2 ⟨hext.linked linkEntity_linked, hlinked⟩
    · intro name
      rw [List.foldl_cons, hlookup name, linkEntity_lookup, List.map_cons, List.mem_cons]
      tauto

/-! ## Ids and names -/

theorem exists_of_entityId {name : String} {k : EntityId} (h : entityId s name = some k) :
    ∃ e ∈ s.entities, e.id = k ∧ e.name = name := by
  obtain ⟨e, he, hid⟩ := Option.map_eq_some_iff.1 h
  exact ⟨e, List.mem_of_find?_eq_some he, hid, by simpa using List.find?_some he⟩

/-- an entity of the table before is found under the name it is found under later -/
theorem entityId_before (hkeyed : WellKeyed E t) (h : Extends s t) {k : EntityId} (hk : ∃ e ∈ s.entities, e.id = k)
    {name : String} (hname : entityId t name = some k) : entityId s name = some k := by
  obtain ⟨e, he, rfl⟩ := hk
  obtain ⟨e', he', hid, rfl⟩ := exists_of_entityId hname
  obtain rfl : e' = e := List.inj_on_of_nodup_map hkeyed.ids he' (h.entities.subset he) hid
  have hsome : (entityId s e'.name).isSome := by
    unfold entityId
    rw [Option.isSome_map, List.find?_isSome]
    exact ⟨e', he, by simp⟩
  obtain ⟨k, hk⟩ := Option.isSome_iff_exists.1 hsome
  rw [hk, ← h.entityId hk, hname]

theorem entityId_inj (hkeyed : WellKeyed E t) {name name' : String} {k : EntityId} (h : entityId t name = some k)
    (h' : entityId t name' = some k) : name = name' := by
  obtain ⟨e, he, hid, rfl⟩ := exists_of_entityId h
  obtain ⟨e', he', hid', rfl⟩ := exists_of_entityId h'
  rw [List.inj_on_of_nodup_map hkeyed.ids he he' (hid.trans hid'.symm)]

theorem WellKeyed.of_eq (h : WellKeyed E s) (he : t.entities = s.entities) (hr : t.entityRelations = s.entityRelations)
    (hd : s.drawn ≤ t.drawn) : WellKeyed E t where
  ids := he ▸ h.ids
  ends := by
    rw [he, hr]
    exact h.ends
  fresh := by
    intro i hi
    rw [he]
    exact h.fresh i (hd.trans hi)
  distinct := h.distinct

theorem wellKeyed_upsertEntity (h : WellKeyed E s) (name kind : String) : WellKeyed E (upsertEntity E s name kind).1 := by
  unfold upsertEntity
  dsimp only
  split
  · exact h
  · refine { ids := ?_, ends := ?_, fresh := ?_, distinct := h.distinct }
    · unfold Keyed
      rw [draw, List.map_append, List.nodup_append]
      refine ⟨h.ids, by simp, ?_⟩
      intro id hid id' hid' heq
      obtain ⟨e, he, rfl⟩ := List.mem_map.1 hid
      obtain rfl : id' = E.uuid s.drawn := by simpa using hid'
      exact h.fresh s.drawn le_rfl e he heq
    · intro x hx
      obtain ⟨⟨e, he, hid⟩, e', he', hid'⟩ := h.ends x hx
      exact ⟨⟨e, List.mem_append_left _ he, hid⟩, e', List.mem_append_left _ he', hid'⟩
    · intro i hi e he
      have hi : s.drawn < i := hi
      rcases List.mem_append.1 he with he | he
      · exact h.fresh i (by omega) e he
      · obtain rfl := List.mem_singleton.1 he
        intro heq
        have := h.distinct heq
        omega

theorem wellKeyed_linkWithValidity (h : WellKeyed E s) (k : EntityId) (validAt invalidAt : Option Time) :
    WellKeyed E (linkWithValidity s a k validAt invalidAt) := by
  unfold linkWithValidity
  split
  · exact h.of_eq rfl rfl (Nat.le_succ _)
  · exact h.of_eq rfl rfl (Nat.le_succ _)

theorem linkEntities_wellKeyed (acc : St × List (String × EntityId)) (l : List ExtractedEntity) (h : WellKeyed E acc.1) :
    WellKeyed E (l.foldl (linkEntity E a) acc).1 := by
  refine foldl_rest (fun _ (acc : St × List (String × EntityId)) => WellKeyed E acc.1) (fun e _ acc hacc => ?_) h
  exact wellKeyed_linkWithValidity (wellKeyed_upsertEntity hacc e.name e.kind) _ _ _

/-! ## The relation loop -/

/-- the row is one for the relation -/
structure RowOf (E : Env) (s : St) (r : ExtractedRelation) (row : EntityRelation) : Prop where
  subject : entityId s (normalizeEntityName E r.subject) = some row.subjectEntityId
  predicate : row.predicate = r.predicate
  object : entityId s (normalizeEntityName E r.object) = some row.objectEntityId
  validTo : row.validTo = r.invalidAt

theorem RowOf.extend {r : ExtractedRelation} {row : EntityRelation} (h : RowOf E s r row) (hst : Extends s t) :
    RowOf E t r row :=
  { h with subject := hst.entityId h.subject, object := hst.entityId h.object }

/-- `entityIdByName` knows the entities of the atom and no other name -/
def Covers (E : Env) (mem : NormalizedMemory) (ids : List (String × EntityId)) : Prop :=
  ∀ name, (ids.lookup name).isSome ↔ name ∈ mem.entities.map (normalizeEntityName E ·.name)

variable {ids : List (String × EntityId)} {validFrom : Time} {r : ExtractedRelation}

theorem writeRelation_cases (a : AtomId) (validFrom : Time) (hids : Covers E mem ids) (h : Agrees (s, ids)) (r : ExtractedRelation) :
    (Resolves E mem r ∧ ∃ row, RowOf E s r row ∧ writeRelation E a mem validFrom ids s r = insertRelation s row) ∨
      ¬ Resolves E mem r ∧ writeRelation E a mem validFrom ids s r = s := by
  unfold Resolves
  rw [← hids, ← hids]
  unfold writeRelation
  split
  next i j hi hj =>
    refine .inl ⟨⟨by rw [hi]; rfl, by rw [hj]; rfl⟩, _, ?_, rfl⟩
    exact { subject := h _ _ hi, predicate := rfl, object := h _ _ hj, validTo := rfl }
  next hnone =>
    refine .inr ⟨?_, rfl⟩
    intro hboth
    obtain ⟨i, hi⟩ := Option.isSome_iff_exists.1 hboth.1
    obtain ⟨j, hj⟩ := Option.isSome_iff_exists.1 hboth.2
    exact hnone i j hi hj

@[simp] theorem insertRelation_entities (row : EntityRelation) : (insertRelation s row).entities = s.entities := by
  unfold insertRelation
  dsimp only
  split <;> rfl

/-- one round: what it keeps and what it adds -/
theorem writeRelation_spec (a : AtomId) (validFrom : Time) (hids : Covers E mem ids) (h : Agrees (s, ids)) (r : ExtractedRelation) :
    Extends s (writeRelation E a mem validFrom ids s r) ∧
      (writeRelation E a mem validFrom ids s r).entities = s.entities ∧
      (WellKeyed E s → WellKeyed E (writeRelation E a mem validFrom ids s r)) ∧
      (Resolves E mem r → r.invalidAt = none → HoldsOpen E (writeRelation E a mem validFrom ids s r) r) ∧
      ∀ x ∈ (writeRelation E a mem validFrom ids s r).entityRelations,
        x ∈ s.entityRelations ∨ Resolves E mem r ∧ RowOf E s r x := by
  rcases writeRelation_cases a validFrom hids h r with ⟨hres, row, hrow, heq⟩ | ⟨hres, heq⟩
  · rw [heq]
    have hext := extends_insertRelation s row
    refine ⟨hext, insertRelation_entities row, ?_, ?_, ?_⟩
    · intro hkeyed
      obtain ⟨e, he, hid, -⟩ := exists_of_entityId hrow.subject
      obtain ⟨e', he', hid', -⟩ := exists_of_entityId hrow.object
      unfold insertRelation
      dsimp only
      split
      · exact hkeyed.of_eq rfl rfl (Nat.le_succ _)
      · refine { ids := hkeyed.ids, ends := ?_, distinct := hkeyed.distinct, fresh := ?_ }
        · intro x hx
          rcases List.mem_append.1 hx with hx | hx
          · exact hkeyed.ends x hx
          · obtain rfl := List.mem_singleton.1 hx
            exact ⟨⟨e, he, hid⟩, e', he', hid'⟩
        · exact fun i hi => hkeyed.fresh i ((Nat.le_succ _).trans hi)
    · intro _ hend
      refine ⟨_, _, hext.entityId hrow.subject, hext.entityId hrow.object, hrow.predicate ▸ ?_⟩
      exact openTriple_insertRelation s (hrow.validTo.trans hend)
    · intro x hx
      unfold insertRelation at hx
      dsimp only at hx
      split at hx
      · exact .inl hx
      · rcases List.mem_append.1 hx with hx | hx
        · exact .inl hx
        · exact .inr ⟨hres, List.mem_singleton.1 hx ▸ hrow⟩
  · rw [heq]
    exact ⟨Extends.refl s, rfl, id, fun h => absurd h hres, fun x hx => .inl hx⟩

theorem agrees_of_entities (h : Agrees (s, ids)) (he : t.entities = s.entities) : Agrees (t, ids) := by
  intro name k hk
  unfold entityId
  rw [he]
  exact h name k hk

theorem writeRelations_spec (a : AtomId) (validFrom : Time) (l : List ExtractedRelation) (hids : Covers E mem ids) (h : Agrees (s, ids)) :
    Extends s (l.foldl (writeRelation E a mem validFrom ids) s) ∧
      (WellKeyed E s → WellKeyed E (l.foldl (writeRelation E a mem validFrom ids) s)) ∧
      (∀ r ∈ l, Resolves E mem r → r.invalidAt = none →
        HoldsOpen E (l.foldl (writeRelation E a mem validFrom ids) s) r) ∧
      ∀ x ∈ (l.foldl (writeRelation E a mem validFrom ids) s).entityRelations,
        x ∈ s.entityRelations ∨ ∃ r ∈ l, Resolves E mem r ∧
          RowOf E (l.foldl (writeRelation E a mem validFrom ids) s) r x := by
  induction l generalizing s with
  | nil => exact ⟨Extends.refl s, id, by simp, fun x hx => .inl hx⟩
  | cons r l ih =>
    obtain ⟨hext, hent, hkeyed, hopen, hnew⟩ := writeRelation_spec a validFrom hids h r
    obtain ⟨hext', hkeyed', hopen', hnew'⟩ := ih (agrees_of_entities h hent)
    refine ⟨hext.trans hext', hkeyed' ∘ hkeyed, ?_, ?_⟩
    · exact List.forall_mem_cons.2 ⟨fun hres hend => hext'.holdsOpen (hopen hres hend), hopen'⟩
    · intro x hx
      rcases hnew' x hx with hx | ⟨r', hr', hrow⟩
      · rcases hnew x hx with hx | ⟨hres, hrow⟩
        · exact .inl hx
        · exact .inr ⟨r, List.mem_cons_self, hres, (hrow.extend hext).extend hext'⟩
      · exact .inr ⟨r', List.mem_cons_of_mem _ hr', hrow⟩

/-! ## One atom -/

/-- `ctx.capturedAtMs ?? Date.now()` reads the clock when no capture date is given -/
def clockRead (ctx : EmbedIndexContext) (s : St) : St := if ctx.capturedAtMs = none then tick s else s

/-- what `embedAndIndex` does behind the insert -/
def enrich (E : Env) (ctx : EmbedIndexContext) (mem : NormalizedMemory) (a : AtomId) (s : St) : St :=
  let linked := mem.entities.foldl (linkEntity E a) (s, [])
  let relationValidFrom := ctx.capturedAtMs.getD (E.now linked.1.clock)
  upsertVec E
    (mem.relations.foldl (writeRelation E a mem relationValidFrom linked.2) (clockRead ctx linked.1)) a

theorem embedAndIndex_eq (ctx : EmbedIndexContext) : embedAndIndex E s ctx mem =
    (insertWithCreateEvent E (clockRead ctx s) (insertInput ctx mem (E.now s.clock))).map fun r =>
      enrich E ctx mem r.2.id r.1 := by
  unfold embedAndIndex clockRead
  dsimp only
  split
  next hins =>
    rw [hins]
    rfl
  next hins =>
    rw [hins]
    rfl

/-- what a run leaves behind for an atom -/
structure Indexed (E : Env) (t : St) (mem : NormalizedMemory) : Prop where
  owner : (findHash t mem.finalHash).isSome
  entities : ∀ e ∈ mem.entities, Linked E (memoryIdOf E t mem.finalHash) t e
  relations : ∀ r ∈ mem.relations, Resolves E mem r → r.invalidAt = none → HoldsOpen E t r

/-- the relations of the later state are those of the earlier and what the atom asserts -/
def Explains (E : Env) (mem : NormalizedMemory) (s t : St) : Prop :=
  ∀ x ∈ t.entityRelations, x ∈ s.entityRelations ∨ ∃ r ∈ mem.relations, Resolves E mem r ∧ RowOf E t r x

theorem Extends.memoryIdOf (h : Extends s t) {hash : Hash} (howner : (findHash s hash).isSome) :
    memoryIdOf E t hash = memoryIdOf E s hash := by
  obtain ⟨m, hm⟩ := Option.isSome_iff_exists.1 howner
  obtain ⟨m', hm', hid⟩ := h.owner hash m hm
  unfold Distill.memoryIdOf
  rw [hm, hm']
  exact hid

theorem Extends.indexed (h : Extends s t) (hs : Indexed E s mem) : Indexed E t mem where
  owner := by
    obtain ⟨m, hm⟩ := Option.isSome_iff_exists.1 hs.owner
    obtain ⟨m', hm', -⟩ := h.owner _ m hm
    exact Option.isSome_iff_exists.2 ⟨m', hm'⟩
  entities := by
    intro e he
    rw [h.memoryIdOf hs.owner]
    exact h.linked (hs.entities e he)
  relations := fun r hr hres hend => h.holdsOpen (hs.relations r hr hres hend)

theorem find?_hash_updateRow (s : St) (a : AtomId) (now : Time) (hash : Hash) :
    findHash (updateRow s a fun m => { m with updatedAt := now }) hash =
      (findHash s hash).map fun m => if m.id = a then { m with updatedAt := now } else m := by
  unfold findHash updateRow
  rw [List.find?_map]
  congr 2
  funext m
  dsimp only [Function.comp]
  split <;> rfl

theorem extends_upsertVec (s : St) (a : AtomId) : Extends s (upsertVec E s a) := by
  unfold upsertVec
  split
  · exact Extends.refl s
  · refine { owner := ?_, entities := List.prefix_rfl, links := List.prefix_rfl, relations := List.prefix_rfl,
             erased := fun _ => rfl }
    intro hash m hm
    refine ⟨_, (find?_hash_updateRow _ a _ hash).trans (congrArg (Option.map _) hm), ?_⟩
    dsimp only
    split <;> rfl

theorem extends_inserted {input : InsertInput} : Extends s (inserted E s input) where
  owner := by
    intro hash m hm
    refine ⟨m, ?_, rfl⟩
    have hfound : s.memories.find? (·.hash = hash) = some m := hm
    unfold findHash
    rw [inserted_memories, List.find?_append, hfound]
    rfl
  entities := List.prefix_rfl
  links := List.prefix_rfl
  relations := List.prefix_rfl
  erased := by
    intro hash
    unfold isErasedHash inserted append
    dsimp only
    rw [List.any_append]
    simp [tick, draw]

theorem extends_tick (s : St) : Extends s (tick s) := extends_of_eq rfl rfl rfl rfl rfl

theorem extends_clockRead (ctx : EmbedIndexContext) (s : St) : Extends s (clockRead ctx s) := by
  unfold clockRead
  split
  · exact extends_tick s
  · exact Extends.refl s

theorem upsertVec_graph (s : St) (a : AtomId) : (upsertVec E s a).entities = s.entities ∧
    (upsertVec E s a).memoryEntities = s.memoryEntities ∧ (upsertVec E s a).entityRelations = s.entityRelations ∧
      (upsertVec E s a).drawn = s.drawn := by
  unfold upsertVec
  split
  · exact ⟨rfl, rfl, rfl, rfl⟩
  · exact ⟨rfl, rfl, rfl, rfl⟩

theorem clockRead_graph (ctx : EmbedIndexContext) (s : St) : (clockRead ctx s).entities = s.entities ∧
    (clockRead ctx s).entityRelations = s.entityRelations ∧ s.drawn ≤ (clockRead ctx s).drawn := by
  unfold clockRead
  split
  · exact ⟨rfl, rfl, le_rfl⟩
  · exact ⟨rfl, rfl, le_rfl⟩

theorem agrees_nil (s : St) : Agrees (s, []) := by
  intro name k hk
  cases hk

/-- the entity loop of one atom, from no names -/
theorem linked_spec (E : Env) (s : St) (mem : NormalizedMemory) (a : AtomId) :
    Extends s (mem.entities.foldl (linkEntity E a) (s, [])).1 ∧
      Agrees (mem.entities.foldl (linkEntity E a) (s, [])) ∧
      (∀ e ∈ mem.entities, Linked E a (mem.entities.foldl (linkEntity E a) (s, [])).1 e) ∧
      Covers E mem (mem.entities.foldl (linkEntity E a) (s, [])).2 := by
  obtain ⟨hext, hagrees, hlinked, hlookup⟩ := linkEntities_spec (E := E) (a := a) mem.entities (agrees_nil s)
  refine ⟨hext, hagrees, hlinked, fun name => (hlookup name).trans ?_⟩
  simp

theorem enrich_spec (ctx : EmbedIndexContext) (mem : NormalizedMemory) (a : AtomId) (s : St) :
    Extends s (enrich E ctx mem a s) ∧ (WellKeyed E s → WellKeyed E (enrich E ctx mem a s)) ∧
      (∀ e ∈ mem.entities, Linked E a (enrich E ctx mem a s) e) ∧
      (∀ r ∈ mem.relations, Resolves E mem r → r.invalidAt = none → HoldsOpen E (enrich E ctx mem a s) r) ∧
      Explains E mem s (enrich E ctx mem a s) := by
  obtain ⟨hext, hagrees, hlinked, hcovers⟩ := linked_spec E s mem a
  have hkeyed : WellKeyed E s → WellKeyed E (mem.entities.foldl (linkEntity E a) (s, [])).1 :=
    fun h => linkEntities_wellKeyed (s, []) mem.entities h
  have hrels : (mem.entities.foldl (linkEntity E a) (s, [])).1.entityRelations = s.entityRelations :=
    linked_relations mem.entities
  unfold enrich
  dsimp only
  generalize mem.entities.foldl (linkEntity E a) (s, []) = linked at *
  generalize ctx.capturedAtMs.getD (E.now linked.1.clock) = validFrom
  have htick : Extends linked.1 (clockRead ctx linked.1) := extends_clockRead ctx linked.1
  obtain ⟨hent, hrel, hdrawn⟩ := clockRead_graph ctx linked.1
  obtain ⟨hext', hkeyed', hopen, hnew⟩ := writeRelations_spec a validFrom mem.relations hcovers
    (agrees_of_entities hagrees hent)
  generalize mem.relations.foldl (writeRelation E a mem validFrom linked.2) (clockRead ctx linked.1) = written at *
  obtain ⟨hvent, -, hvrel, hvdrawn⟩ := upsertVec_graph (E := E) written a
  have hvec := extends_upsertVec (E := E) written a
  have hall := (htick.trans hext').trans hvec
  refine ⟨hext.trans hall, ?_, fun e he => hall.linked (hlinked e he), ?_, ?_⟩
  · exact fun h => (hkeyed' ((hkeyed h).of_eq hent hrel hdrawn)).of_eq hvent hvrel hvdrawn.ge
  · exact fun r hr hres hend => hvec.holdsOpen (hopen r hr hres hend)
  · intro x hx
    rw [hvrel] at hx
    rcases hnew x hx with hx | ⟨r, hr, hres, hrow⟩
    · exact .inl (hrels ▸ hrel ▸ hx)
    · exact .inr ⟨r, hr, hres, hrow.extend hvec⟩

theorem clockRead_findHash (ctx : EmbedIndexContext) (s : St) (hash : Hash) :
    findHash (clockRead ctx s) hash = findHash s hash := by
  unfold clockRead
  split <;> rfl

/-- the insert of stage 8: afterwards the hash has its owner, and the graph tables are as before -/
theorem insert_owner {ctx : EmbedIndexContext} {input : InsertInput} {r : St × Inserted}
    (h : insertWithCreateEvent E (clockRead ctx s) input = .ok r) :
    Extends s r.1 ∧ r.1.entityRelations = s.entityRelations ∧ (WellKeyed E s → WellKeyed E r.1) ∧
      r.2.id = memoryIdOf E s input.hash ∧ (findHash r.1 input.hash).isSome ∧
        r.2.id = memoryIdOf E r.1 input.hash := by
  have hclock := extends_clockRead ctx s
  obtain ⟨hent, hrel, hdrawn⟩ := clockRead_graph ctx s
  have hdrawn_eq : (clockRead ctx s).drawn = s.drawn := by
    unfold clockRead
    split <;> rfl
  rcases insertWithCreateEvent_ok h with ⟨m, hm, rfl⟩ | ⟨hnone, -, -, rfl⟩
  · have hid : memoryIdOf E (clockRead ctx s) input.hash = m.id := by
      unfold memoryIdOf
      rw [hm]
    refine ⟨hclock, hrel, fun hk => hk.of_eq hent hrel hdrawn, ?_, Option.isSome_iff_exists.2 ⟨m, hm⟩, hid.symm⟩
    unfold memoryIdOf
    rw [← clockRead_findHash ctx, hm]
  · have hstored := findHash_inserted (E := E) hnone
    refine ⟨hclock.trans extends_inserted, hrel, ?_, ?_, Option.isSome_iff_exists.2 ⟨_, hstored⟩, ?_⟩
    · intro hk
      exact hk.of_eq hent hrel (hdrawn.trans (Nat.le_add_right _ 2))
    · unfold memoryIdOf
      rw [← clockRead_findHash ctx, hnone, ← hdrawn_eq]
    · unfold memoryIdOf
      rw [hstored]
      rfl

/-- the first run of an atom -/
theorem embedAndIndex_first {ctx : EmbedIndexContext} (h : embedAndIndex E s ctx mem = .ok t) :
    Extends s t ∧ (WellKeyed E s → WellKeyed E t) ∧ Indexed E t mem ∧ Explains E mem s t ∧
      memoryIdOf E t mem.finalHash = memoryIdOf E s mem.finalHash := by
  rw [embedAndIndex_eq] at h
  cases hins : insertWithCreateEvent E (clockRead ctx s) (insertInput ctx mem (E.now s.clock)) with
  | error err =>
    rw [hins] at h
    cases h
  | ok r =>
    rw [hins] at h
    obtain rfl := Except.ok.inj h
    obtain ⟨hext, hrel, hkeyed, hid, howner, hid'⟩ := insert_owner hins
    change r.2.id = memoryIdOf E s mem.finalHash at hid
    change r.2.id = memoryIdOf E r.1 mem.finalHash at hid'
    obtain ⟨hext', hkeyed', hlinked, hopen, hexplains⟩ := enrich_spec (E := E) ctx mem r.2.id r.1
    have hsame : memoryIdOf E (enrich E ctx mem r.2.id r.1) mem.finalHash = r.2.id := (hext'.memoryIdOf howner).trans hid'.symm
    obtain ⟨m, hm⟩ := Option.isSome_iff_exists.1 howner
    obtain ⟨m', hm', -⟩ := hext'.owner _ m hm
    refine ⟨hext.trans hext', hkeyed' ∘ hkeyed, ?_, ?_, hsame.trans hid⟩
    · exact ⟨Option.isSome_iff_exists.2 ⟨m', hm'⟩, hsame.symm ▸ hlinked, hopen⟩
    · exact fun x hx => (hexplains x hx).imp_left fun hx => hrel ▸ hx

/-! ## One atom again -/

theorem upsertVec_unstamped (s : St) (a : AtomId) : unstamped (upsertVec E s a) = unstamped s := by
  unfold upsertVec
  split
  · rfl
  · unfold unstamped updateRow
    dsimp only
    rw [List.map_map]
    refine List.map_congr_left fun m _ => ?_
    dsimp only [Function.comp]
    split <;> rfl

theorem writeRelation_tables : (writeRelation E a mem validFrom ids s r).memories = s.memories ∧
    (writeRelation E a mem validFrom ids s r).memoryEntities = s.memoryEntities := by
  unfold writeRelation
  split
  · unfold insertRelation
    dsimp only
    split
    · exact ⟨rfl, rfl⟩
    · exact ⟨rfl, rfl⟩
  · exact ⟨rfl, rfl⟩

/-- the entities of an indexed atom are known: the loop writes no entity, and no link but those with an end -/
theorem linkEntity_again (h : Linked E a acc.1 e) : (linkEntity E a acc e).1.entities = acc.1.entities ∧
    ((linkEntity E a acc e).1.memoryEntities = acc.1.memoryEntities ↔ e.invalidAt = none) := by
  obtain ⟨k, hk, hopen⟩ := h
  have hlink : (linkEntity E a acc e).1 = linkWithValidity acc.1 a k e.validAt e.invalidAt := by
    unfold linkEntity
    rw [upsertEntity_known hk]
  rw [hlink]
  constructor
  · unfold linkWithValidity
    split <;> rfl
  · rw [linkWithValidity_eq_iff]
    exact and_iff_left_of_imp hopen

theorem holdsOpen_congr (he : t.entities = s.entities) (hr : t.entityRelations = s.entityRelations) :
    HoldsOpen E t r ↔ HoldsOpen E s r := by
  unfold HoldsOpen OpenTriple entityId
  rw [he, hr]

theorem writeRelation_again (hids : Covers E mem ids) (h : Agrees (s, ids)) (r : ExtractedRelation) :
    (writeRelation E a mem validFrom ids s r).entityRelations = s.entityRelations ↔
      (Resolves E mem r → HoldsOpen E s r) := by
  rcases writeRelation_cases a validFrom hids h r with ⟨hres, row, hrow, heq⟩ | ⟨hres, heq⟩
  · rw [heq, insertRelation_eq_iff]
    constructor
    · exact fun hopen _ => ⟨_, _, hrow.subject, hrow.object, hrow.predicate ▸ hopen⟩
    · intro hopen
      obtain ⟨i, j, hi, hj, hij⟩ := hopen hres
      obtain rfl := Option.some.inj (hi.symm.trans hrow.subject)
      obtain rfl := Option.some.inj (hj.symm.trans hrow.object)
      exact hrow.predicate ▸ hij
  · rw [heq]
    exact iff_of_true rfl fun h => absurd h hres

/-- the entity loop over an indexed atom -/
theorem linked_again (h : ∀ e ∈ mem.entities, Linked E a s e) :
    (mem.entities.foldl (linkEntity E a) (s, [])).1.entities = s.entities ∧
      ((mem.entities.foldl (linkEntity E a) (s, [])).1.memoryEntities = s.memoryEntities ↔
        ∀ e ∈ mem.entities, e.invalidAt = none) := by
  have hround : ∀ acc : St × List (String × EntityId), Extends s acc.1 → ∀ e ∈ mem.entities, Linked E a acc.1 e :=
    fun acc hext e he => hext.linked (h e he)
  constructor
  · have hkept : Extends s (mem.entities.foldl (linkEntity E a) (s, [])).1 ∧
        (mem.entities.foldl (linkEntity E a) (s, [])).1.entities = s.entities := by
      refine (foldl_rest (fun l (acc : St × List (String × EntityId)) => (∀ e ∈ l, e ∈ mem.entities) ∧
        Extends s acc.1 ∧ acc.1.entities = s.entities) (fun e l acc hacc => ?_) ⟨fun _ => id, Extends.refl s, rfl⟩).2
      obtain ⟨hl, hext, hent⟩ := hacc
      have he := hround acc hext e (hl e List.mem_cons_self)
      exact ⟨fun e he => hl e (List.mem_cons_of_mem _ he), hext.trans extends_linkEntity,
        (linkEntity_again he).1.trans hent⟩
    exact hkept.2
  · refine foldl_keeps_iff (g := fun acc : St × List (String × EntityId) => acc.1.memoryEntities)
      (fun acc => Extends s acc.1) (fun e : ExtractedEntity => e.invalidAt = none) ?_ ?_ (b := (s, [])) (Extends.refl s) rfl
    · exact fun acc hacc e _ => ⟨hacc.trans extends_linkEntity, (extends_linkEntity (a := a)).links⟩
    · exact fun acc hacc _ e he => (linkEntity_again (hround acc hacc e he)).2

/-- the relation loop over an indexed atom -/
theorem written_again (a : AtomId) (validFrom : Time) (hids : Covers E mem ids) (h : Agrees (s, ids)) :
    (mem.relations.foldl (writeRelation E a mem validFrom ids) s).entities = s.entities ∧
      (mem.relations.foldl (writeRelation E a mem validFrom ids) s).memoryEntities = s.memoryEntities ∧
      ((mem.relations.foldl (writeRelation E a mem validFrom ids) s).entityRelations = s.entityRelations ↔
        ∀ r ∈ mem.relations, Resolves E mem r → HoldsOpen E s r) := by
  have hstep : ∀ b : St, b.entities = s.entities → ∀ r, (writeRelation E a mem validFrom ids b r).entities = s.entities ∧
      b.entityRelations <+: (writeRelation E a mem validFrom ids b r).entityRelations := by
    intro b hb r
    obtain ⟨hext, hkept, -⟩ := writeRelation_spec a validFrom hids (agrees_of_entities h hb) r
    exact ⟨hkept.trans hb, hext.relations⟩
  refine ⟨?_, ?_, ?_⟩
  · exact foldl_rest (fun _ (b : St) => b.entities = s.entities) (fun r _ b hb => (hstep b hb r).1) rfl
  · exact foldl_rest (fun _ (b : St) => b.memoryEntities = s.memoryEntities)
      (fun _ _ _ hb => writeRelation_tables.2.trans hb) rfl
  · refine foldl_keeps_iff (g := St.entityRelations) (fun b => b.entities = s.entities)
      (fun r => Resolves E mem r → HoldsOpen E s r) (fun b hb r _ => hstep b hb r) ?_ (b := s) rfl rfl
    intro b hb hrows r _
    rw [writeRelation_again hids (agrees_of_entities h hb), holdsOpen_congr hb hrows]

theorem clockRead_tables (ctx : EmbedIndexContext) (s : St) : (clockRead ctx s).memories = s.memories ∧
    (clockRead ctx s).memoryEntities = s.memoryEntities := by
  unfold clockRead
  split
  · exact ⟨rfl, rfl⟩
  · exact ⟨rfl, rfl⟩

/-- behind the insert only the stamp of a memory changes -/
theorem enrich_unstamped (ctx : EmbedIndexContext) (mem : NormalizedMemory) (a : AtomId) (s : St) :
    unstamped (enrich E ctx mem a s) = unstamped s := by
  have hlinked : (mem.entities.foldl (linkEntity E a) (s, [])).1.memories = s.memories :=
    foldl_rest (fun _ (acc : St × List (String × EntityId)) => acc.1.memories = s.memories)
      (fun e _ acc hacc => (linkEntity_graphWrite E a acc e).memories.trans hacc) rfl
  unfold enrich
  dsimp only
  generalize mem.entities.foldl (linkEntity E a) (s, []) = linked at *
  have hwritten : (mem.relations.foldl (writeRelation E a mem (ctx.capturedAtMs.getD (E.now linked.1.clock)) linked.2)
      (clockRead ctx linked.1)).memories = (clockRead ctx linked.1).memories :=
    foldl_rest (fun _ (b : St) => b.memories = (clockRead ctx linked.1).memories)
      (fun _ _ _ hb => writeRelation_tables.1.trans hb) rfl
  rw [upsertVec_unstamped, unstamped, hwritten, (clockRead_tables ctx linked.1).1, hlinked, unstamped]

/-- what runs behind the insert, over an indexed atom -/
theorem enrich_again (ctx : EmbedIndexContext) (h : ∀ e ∈ mem.entities, Linked E a s e) :
    (enrich E ctx mem a s).entities = s.entities ∧
      ((enrich E ctx mem a s).memoryEntities = s.memoryEntities ↔ ∀ e ∈ mem.entities, e.invalidAt = none) ∧
      ((enrich E ctx mem a s).entityRelations = s.entityRelations ↔
        ∀ r ∈ mem.relations, Resolves E mem r → HoldsOpen E s r) := by
  obtain ⟨-, hagrees, -, hcovers⟩ := linked_spec E s mem a
  obtain ⟨hent, hlinks⟩ := linked_again h
  have hrels : (mem.entities.foldl (linkEntity E a) (s, [])).1.entityRelations = s.entityRelations :=
    linked_relations mem.entities
  unfold enrich
  dsimp only
  generalize mem.entities.foldl (linkEntity E a) (s, []) = linked at *
  generalize ctx.capturedAtMs.getD (E.now linked.1.clock) = validFrom
  obtain ⟨hcent, hcrel, -⟩ := clockRead_graph ctx linked.1
  obtain ⟨-, hclinks⟩ := clockRead_tables ctx linked.1
  obtain ⟨hwent, hwlinks, hwrels⟩ :=
    written_again a validFrom hcovers (agrees_of_entities hagrees hcent)
  generalize mem.relations.foldl (writeRelation E a mem validFrom linked.2) (clockRead ctx linked.1) = written at *
  obtain ⟨hvent, hvlinks, hvrel, -⟩ := upsertVec_graph (E := E) written a
  refine ⟨?_, ?_, ?_⟩
  · rw [hvent, hwent, hcent, hent]
  · rw [hvlinks, hwlinks, hclinks, hlinks]
  · rw [hvrel, ← hrels, ← hcrel, hwrels]
    simp only [holdsOpen_congr (hcent.trans hent) (hcrel.trans hrels)]

/-- the second run of an atom -/
def again (E : Env) (ctx : EmbedIndexContext) (s : St) (mem : NormalizedMemory) : St :=
  enrich E ctx mem (memoryIdOf E s mem.finalHash) (clockRead ctx s)

theorem embedAndIndex_again {ctx : EmbedIndexContext} (h : Indexed E s mem) :
    embedAndIndex E s ctx mem = .ok (again E ctx s mem) := by
  obtain ⟨m, hm⟩ := Option.isSome_iff_exists.1 h.owner
  have hfound : findHash (clockRead ctx s) (insertInput ctx mem (E.now s.clock)).hash = some m :=
    (clockRead_findHash ctx s _).trans hm
  have hid : memoryIdOf E s mem.finalHash = m.id := by
    unfold memoryIdOf
    rw [hm]
  rw [embedAndIndex_eq, insertWithCreateEvent, hfound, again, hid]
  rfl

theorem again_spec (ctx : EmbedIndexContext) (h : Indexed E s mem) :
    Extends s (again E ctx s mem) ∧ unstamped (again E ctx s mem) = unstamped s ∧
      (again E ctx s mem).entities = s.entities ∧
      ((again E ctx s mem).memoryEntities = s.memoryEntities ↔ ∀ e ∈ mem.entities, e.invalidAt = none) ∧
      ((again E ctx s mem).entityRelations = s.entityRelations ↔
        ∀ r ∈ mem.relations, Resolves E mem r → HoldsOpen E s r) := by
  have hclock := extends_clockRead ctx s
  obtain ⟨hcent, hcrel, -⟩ := clockRead_graph ctx s
  obtain ⟨hcmem, hclinks⟩ := clockRead_tables ctx s
  obtain ⟨hent, hlinks, hrels⟩ := enrich_again ctx fun e he => hclock.linked (h.entities e he)
  refine ⟨hclock.trans (enrich_spec ctx mem _ _).1, ?_, hent.trans hcent, ?_, ?_⟩
  · rw [again, enrich_unstamped, unstamped, hcmem, unstamped]
  · rw [again, ← hclinks, hlinks]
  · rw [again, ← hcrel, hrels]
    simp only [holdsOpen_congr hcent hcrel]

/-! ## The batch -/

variable {ctx : EmbedIndexContext} {batch : List BatchAtom}

theorem indexAtom_ok {acc r : St × List (Hash × AtomId)} {mem : BatchAtom} (h : indexAtom E ctx acc mem = .ok r) :
    embedAndIndex E acc.1 ctx mem.toNormalizedMemory = .ok r.1 ∧
      r.2 = (mem.contentHash, memoryIdOf E acc.1 mem.finalHash) :: acc.2 := by
  unfold indexAtom at h
  cases hrun : embedAndIndex E acc.1 ctx mem.toNormalizedMemory with
  | error err =>
    rw [hrun] at h
    cases h
  | ok t =>
    rw [hrun] at h
    obtain rfl := Except.ok.inj h
    exact ⟨rfl, rfl⟩

/-- the ids the links of the batch are resolved by -/
def batchIds (E : Env) (s : St) (batch : List BatchAtom) : List (Hash × AtomId) :=
  (batch.map fun mem => (mem.contentHash, memoryIdOf E s mem.finalHash)).reverse

/-- **First run.** Rows are only added; every atom is indexed; every new relation is asserted by an atom. -/
theorem run_first {acc r : St × List (Hash × AtomId)} (h : batch.foldlM (indexAtom E ctx) acc = .ok r) :
    Extends acc.1 r.1 ∧ (WellKeyed E acc.1 → WellKeyed E r.1) ∧
      (∀ mem ∈ batch, Indexed E r.1 mem.toNormalizedMemory) ∧ r.2 = batchIds E r.1 batch ++ acc.2 ∧
      ∀ x ∈ r.1.entityRelations, x ∈ acc.1.entityRelations ∨
        ∃ mem ∈ batch, ∃ rel ∈ mem.relations, Resolves E mem.toNormalizedMemory rel ∧ RowOf E r.1 rel x := by
  induction batch generalizing acc with
  | nil =>
    obtain rfl := Except.ok.inj h
    exact ⟨Extends.refl _, id, by simp, rfl, fun x hx => .inl hx⟩
  | cons mem batch ih =>
    rw [List.foldlM_cons] at h
    cases hstep : indexAtom E ctx acc mem with
    | error err =>
      rw [hstep] at h
      cases h
    | ok b =>
      rw [hstep] at h
      obtain ⟨hrun, hids⟩ := indexAtom_ok hstep
      obtain ⟨hext, hkeyed, hindexed, hexplains, hid⟩ := embedAndIndex_first hrun
      obtain ⟨hext', hkeyed', hindexed', hids', hnew⟩ := ih h
      refine ⟨hext.trans hext', hkeyed' ∘ hkeyed, ?_, ?_, ?_⟩
      · exact List.forall_mem_cons.2 ⟨hext'.indexed hindexed, hindexed'⟩
      · rw [hids', hids, ← hid, ← hext'.memoryIdOf hindexed.owner]
        simp [batchIds]
      · intro x hx
        rcases hnew x hx with hx | ⟨mem', hmem', hrest⟩
        · rcases hexplains x hx with hx | ⟨rel, hrel, hres, hrow⟩
          · exact .inl hx
          · exact .inr ⟨mem, List.mem_cons_self, rel, hrel, hres, hrow.extend hext'⟩
        · exact .inr ⟨mem', List.mem_cons_of_mem _ hmem', hrest⟩

/-- **Second run.** It returns, and writes what goes past the guards. -/
theorem run_again (ctx : EmbedIndexContext) (h : ∀ mem ∈ batch, Indexed E s mem.toNormalizedMemory) :
    ∃ r, batch.foldlM (indexAtom E ctx) (s, []) = .ok r ∧ r.2 = batchIds E s batch ∧ unstamped r.1 = unstamped s ∧
      (r.1.memoryEntities = s.memoryEntities ↔ ∀ mem ∈ batch, ∀ e ∈ mem.entities, e.invalidAt = none) ∧
      (r.1.entityRelations = s.entityRelations ↔
        ∀ mem ∈ batch, ∀ rel ∈ mem.relations, Resolves E mem.toNormalizedMemory rel → HoldsOpen E s rel) := by
  let next : St × List (Hash × AtomId) → BatchAtom → St × List (Hash × AtomId) := fun acc mem =>
    (again E ctx acc.1 mem.toNormalizedMemory, (mem.contentHash, memoryIdOf E acc.1 mem.finalHash) :: acc.2)
  let Kept : St × List (Hash × AtomId) → Prop := fun acc =>
    Extends s acc.1 ∧ acc.1.entities = s.entities ∧ unstamped acc.1 = unstamped s
  have hkept : Kept (s, []) := ⟨Extends.refl s, rfl, rfl⟩
  have hround : ∀ acc, Kept acc → ∀ mem ∈ batch, indexAtom E ctx acc mem = .ok (next acc mem) ∧ Kept (next acc mem) := by
    intro acc hacc mem hmem
    have hindexed := hacc.1.indexed (h mem hmem)
    obtain ⟨hext, hmemories, hent, -⟩ := again_spec ctx hindexed
    refine ⟨?_, hacc.1.trans hext, hent.trans hacc.2.1, hmemories.trans hacc.2.2⟩
    unfold indexAtom
    rw [embedAndIndex_again hindexed]
    rfl
  have hrun := foldlM_eq_foldl Kept hround hkept
  have hend : Kept (batch.foldl next (s, [])) :=
    (foldl_rest (fun l acc => (∀ mem ∈ l, mem ∈ batch) ∧ Kept acc)
      (fun mem l acc hacc => ⟨fun m hm => hacc.1 m (List.mem_cons_of_mem _ hm),
        (hround acc hacc.2 mem (hacc.1 mem List.mem_cons_self)).2⟩) ⟨fun _ => id, hkept⟩).2
  obtain ⟨hext, -, -, hids, -⟩ := run_first hrun
  refine ⟨_, hrun, ?_, hend.2.2, ?_, ?_⟩
  · rw [hids, List.append_nil, batchIds, batchIds]
    congr 1
    refine List.map_congr_left fun mem hmem => ?_
    rw [hext.memoryIdOf (h mem hmem).owner]
  · refine foldl_keeps_iff (g := fun acc : St × List (Hash × AtomId) => acc.1.memoryEntities) Kept
      (fun mem : BatchAtom => ∀ e ∈ mem.entities, e.invalidAt = none) ?_ ?_ hkept rfl
    · intro acc hacc mem hmem
      exact ⟨(hround acc hacc mem hmem).2, (again_spec ctx (hacc.1.indexed (h mem hmem))).1.links⟩
    · intro acc hacc _ mem hmem
      exact (again_spec ctx (hacc.1.indexed (h mem hmem))).2.2.2.1
  · refine foldl_keeps_iff (g := fun acc : St × List (Hash × AtomId) => acc.1.entityRelations) Kept
      (fun mem : BatchAtom => ∀ rel ∈ mem.relations, Resolves E mem.toNormalizedMemory rel → HoldsOpen E s rel)
      ?_ ?_ hkept rfl
    · intro acc hacc mem hmem
      exact ⟨(hround acc hacc mem hmem).2, (again_spec ctx (hacc.1.indexed (h mem hmem))).1.relations⟩
    · intro acc hacc hrows mem hmem
      rw [← forall_congr' fun rel => imp_congr_right fun _ => imp_congr_right fun _ => holdsOpen_congr hacc.2.1 hrows]
      exact (again_spec ctx (hacc.1.indexed (h mem hmem))).2.2.2.2

/-! ## The links between atoms -/

variable {links links' : List MemoryLink} {ids : List (Hash × AtomId)} {c : AtomLinkCandidate}

theorem insertLink_prefix (x y : AtomId) : links <+: insertLink links x y c := by
  unfold insertLink
  dsimp only
  split
  · exact List.prefix_rfl
  · split
    · exact List.prefix_rfl
    · exact List.prefix_append _ _

/-- nothing is written for a pair of one atom, nor for a pair that has its link of this type -/
theorem insertLink_eq_iff (x y : AtomId) : insertLink links x y c = links ↔
    x = y ∨ ∃ l ∈ links, l.memoryIdA = min x y ∧ l.memoryIdB = max x y ∧ l.linkType = c.linkType := by
  unfold insertLink
  dsimp only
  split
  next hxy => exact iff_of_true rfl (.inl hxy)
  next hxy =>
    split
    next hany => exact iff_of_true rfl (.inr (by simpa using hany))
    next hany =>
      refine iff_of_false (by simp) ?_
      intro hor
      exact hany (by simpa using hor.resolve_left hxy)

theorem insertLink_again (x y : AtomId) : insertLink (insertLink links x y c) x y c = insertLink links x y c := by
  rw [insertLink_eq_iff]
  by_cases hxy : x = y
  · exact .inl hxy
  · refine .inr ?_
    unfold insertLink
    rw [if_neg hxy]
    dsimp only
    split
    next hany => simpa using hany
    next => exact ⟨_, List.mem_append_right _ List.mem_cons_self, rfl, rfl, rfl⟩

/-- a candidate is one insert, or nothing -/
theorem resolveLink_cases (ids : List (Hash × AtomId)) (c : AtomLinkCandidate) :
    (∃ x y, ∀ links, resolveLink ids links c = insertLink links x y c) ∨ ∀ links, resolveLink ids links c = links := by
  unfold resolveLink
  split
  next x y _ _ => exact .inl ⟨x, y, fun _ => rfl⟩
  next => exact .inr fun _ => rfl

theorem resolveLink_prefix : links <+: resolveLink ids links c := by
  rcases resolveLink_cases ids c with ⟨x, y, h⟩ | h
  · rw [h]
    exact insertLink_prefix x y
  · rw [h]

theorem resolveLink_again : resolveLink ids (resolveLink ids links c) c = resolveLink ids links c := by
  rcases resolveLink_cases ids c with ⟨x, y, h⟩ | h
  · rw [h, h, insertLink_again]
  · rw [h]

/-- a candidate that is settled stays so -/
theorem resolveLink_settled (h : links <+: links') (hc : resolveLink ids links c = links) :
    resolveLink ids links' c = links' := by
  rcases resolveLink_cases ids c with ⟨x, y, hcase⟩ | hcase
  · rw [hcase, insertLink_eq_iff] at hc ⊢
    refine hc.imp_right ?_
    rintro ⟨l, hl, hrest⟩
    exact ⟨l, h.subset hl, hrest⟩
  · exact hcase links'

theorem resolveLinks_again (cs : List AtomLinkCandidate) (links : List MemoryLink) :
    cs.foldl (resolveLink ids) (cs.foldl (resolveLink ids) links) = cs.foldl (resolveLink ids) links := by
  have hsettled : ∀ c ∈ cs, resolveLink ids (cs.foldl (resolveLink ids) links) c = cs.foldl (resolveLink ids) links := by
    induction cs generalizing links with
    | nil => simp
    | cons c cs ih =>
      refine List.forall_mem_cons.2 ⟨?_, ih _⟩
      have hlater : resolveLink ids links c <+: cs.foldl (resolveLink ids) (resolveLink ids links c) :=
        foldl_prefix (g := fun l => l) (fun _ => True) (fun _ _ _ _ => ⟨trivial, resolveLink_prefix⟩) trivial
      exact resolveLink_settled hlater resolveLink_again
  generalize cs.foldl (resolveLink ids) links = rows at hsettled
  refine (foldl_keeps_iff (g := fun l => l) (fun _ => True) (fun c => resolveLink ids rows c = rows)
    (fun _ _ _ _ => ⟨trivial, resolveLink_prefix⟩) ?_ trivial rfl).2 hsettled
  intro l _ hl c _
  rw [hl]

/-! ## Twice -/

theorem survivors_extends (h : Extends s t) (batch : List BatchAtom) : survivors t batch = survivors s batch := by
  unfold survivors
  simp only [h.erased]

/-- the triple is open after the first run: it was, or an atom of the batch asserts it so -/
theorem holdsOpen_iff (h : Extends s t) (hs : WellKeyed E s) (ht : WellKeyed E t)
    (hindexed : ∀ mem ∈ batch, Indexed E t mem.toNormalizedMemory)
    (hnew : ∀ x ∈ t.entityRelations, x ∈ s.entityRelations ∨
      ∃ mem ∈ batch, ∃ rel ∈ mem.relations, Resolves E mem.toNormalizedMemory rel ∧ RowOf E t rel x)
    (r : ExtractedRelation) : HoldsOpen E t r ↔ HoldsOpen E s r ∨ AssertedOpen E batch r := by
  constructor
  · rintro ⟨i, j, hi, hj, x, hx, rfl, hp, rfl, hopen⟩
    rcases hnew x hx with hold | ⟨mem, hmem, rel, hrel, hres, hrow⟩
    · obtain ⟨hsubject, hobject⟩ := hs.ends x hold
      exact .inl ⟨_, _, entityId_before ht h hsubject hi, entityId_before ht h hobject hj, x, hold, rfl, hp, rfl, hopen⟩
    · refine .inr ⟨mem, hmem, rel, hrel, hres, hrow.validTo.symm.trans hopen, ?_, ?_, ?_⟩
      · exact entityId_inj ht hrow.subject hi
      · exact hrow.predicate.symm.trans hp
      · exact entityId_inj ht hrow.object hj
  · rintro (hold | ⟨mem, hmem, rel, hrel, hres, hend, hsame⟩)
    · exact h.holdsOpen hold
    · exact ((hindexed mem hmem).relations rel hrel hres hend).congr hsame

/-- **The second run of stage 8.** After a run that returned, the second run of the same batch returns, and the four
tables are as the first run left them exactly when nothing goes past the guards twice. -/
theorem reindex_idempotent (ctx : EmbedIndexContext) (batch : List BatchAtom) (atomLinks : List AtomLinkCandidate)
    {db db' : IndexDb} (hkeyed : WellKeyed E db.st) (h : embedBatch E ctx batch atomLinks db = .ok db') :
    ∃ db'', embedBatch E ctx batch atomLinks db' = .ok db'' ∧
      (SameTables db' db'' ↔ ∀ mem ∈ survivors db.st batch, Quiet E db.st (survivors db.st batch) mem) := by
  unfold embedBatch at h
  cases hfirst : (survivors db.st batch).foldlM (indexAtom E ctx) (db.st, []) with
  | error err =>
    rw [hfirst] at h
    cases h
  | ok r =>
    rw [hfirst] at h
    obtain rfl := Except.ok.inj h
    obtain ⟨hext, hkeyed', hindexed, hids, hnew⟩ := run_first hfirst
    rw [List.append_nil] at hids
    obtain ⟨r', hagain, hids', hmemories, hlinks, hrels⟩ := run_again ctx hindexed
    have hsame : r'.2 = r.2 := hids'.trans hids.symm
    refine ⟨⟨r'.1, atomLinks.foldl (resolveLink r'.2) (atomLinks.foldl (resolveLink r.2) db.memoryLinks)⟩, ?_, ?_⟩
    · unfold embedBatch
      rw [survivors_extends hext, hagain]
      rfl
    have hopen := holdsOpen_iff hext hkeyed (hkeyed' hkeyed) hindexed hnew
    constructor
    · intro htables mem hmem
      refine ⟨hlinks.1 htables.memoryEntities mem hmem, ?_⟩
      intro rel hrel hres _
      exact (hopen rel).1 (hrels.1 htables.entityRelations mem hmem rel hrel hres)
    · intro hquiet
      refine ⟨hmemories, hlinks.2 fun mem hmem => (hquiet mem hmem).entities, hrels.2 ?_, ?_⟩
      · intro mem hmem rel hrel hres
        by_cases hend : rel.invalidAt = none
        · exact (hindexed mem hmem).relations rel hrel hres hend
        · exact (hopen rel).2 ((hquiet mem hmem).relations rel hrel hres hend)
      · dsimp only
        rw [hsame]
        exact resolveLinks_again atomLinks db.memoryLinks

/-! ## A stated end -/

def indexEnv : Env where
  now n := n
  uuid n := n + 1
  stack := 0
  toLowerCase := id

/-- "Ada left the infra team in March": the team is one entity, with the end of the fact -/
def leftTeam : BatchAtom where
  type := .fact
  text := "Ada left infra"
  normalizedText := "ada left infra"
  finalHash := 7
  importance := 1
  confidence := 1
  contentHash := 8
  entities := [{ name := "infra", kind := "team", invalidAt := some 5 }]

/-- the same fact without an end, and a relation that states one while it is open -/
def joinedTeam : BatchAtom where
  type := .fact
  text := "Ada is on infra"
  normalizedText := "ada is on infra"
  finalHash := 9
  importance := 1
  confidence := 1
  contentHash := 10
  entities := [{ name := "infra", kind := "team" }, { name := "ada", kind := "person" }]
  relations := [{ subject := "ada", predicate := "member_of", object := "infra" },
    { subject := "ada", predicate := "member_of", object := "infra", invalidAt := some 5 }]

theorem ended_link_twice : ∃ db db', embedBatch indexEnv {} [leftTeam] [] ⟨{}, []⟩ = .ok db ∧
    embedBatch indexEnv {} [leftTeam] [] db = .ok db' ∧ db.st.memoryEntities.length = 1 ∧
      db'.st.memoryEntities.length = 2 ∧ ¬ SameTables db db' := by
  refine ⟨_, _, rfl, rfl, rfl, rfl, ?_⟩
  intro h
  exact absurd (congrArg List.length h.memoryEntities) (by decide)

theorem joinedTeam_idempotent : ∃ db db', embedBatch indexEnv {} [joinedTeam] [] ⟨{}, []⟩ = .ok db ∧
    embedBatch indexEnv {} [joinedTeam] [] db = .ok db' ∧ SameTables db db' := by
  have hkeyed : WellKeyed indexEnv {} :=
    { ids := List.nodup_nil, ends := by simp, fresh := by simp, distinct := fun i j h => Nat.succ.inj h }
  obtain ⟨db, hfirst⟩ : ∃ db, embedBatch indexEnv {} [joinedTeam] [] ⟨{}, []⟩ = .ok db := ⟨_, rfl⟩
  obtain ⟨db', hagain, hiff⟩ := @reindex_idempotent indexEnv {} [joinedTeam] [] ⟨{}, []⟩ db hkeyed hfirst
  refine ⟨db, db', hfirst, hagain, hiff.2 ?_⟩
  intro mem hmem
  obtain rfl : mem = joinedTeam := by simpa [survivors, isErasedHash] using hmem
  refine ⟨by decide, ?_⟩
  intro rel hrel _ hend
  refine .inr ⟨joinedTeam, hmem, { subject := "ada", predicate := "member_of", object := "infra" }, List.mem_cons_self,
    ⟨by decide, by decide⟩, rfl, ?_⟩
  rcases List.mem_pair.1 hrel with rfl | rfl
  · exact absurd rfl hend
  · exact ⟨rfl, rfl, rfl⟩

end AstramemLocal.Distill
