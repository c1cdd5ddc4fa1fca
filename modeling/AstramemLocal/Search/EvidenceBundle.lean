/-
Evidence bundling, `search/evidence-bundle.ts`: when the hits of a search come from too few sessions, memories that share
a session or an entity with them are appended. A candidate gets one link for a shared session and one for each batch of
the hits' entities in which it has any (`counted`), so entities of one batch count once. `bundle_ranks_iff` says exactly
when the memories appended are those that share the most anchors, and `shared_entities_count_once` is a graph in which
they are not.
-/
import AstramemLocal.Core.JsString
import AstramemLocal.Core.Ranking
import AstramemLocal.Core.Table
import AstramemLocal.Search.Explain
import AstramemLocal.Store.Schema
import Mathlib.Data.Finset.Card
import Mathlib.Data.List.Count
import Mathlib.Data.Prod.Lex

namespace AstramemLocal.Search

open AstramemLocal.Core AstramemLocal.Store

/-! ## Model -/

/-- a row of `memories` with the column the excerpt is taken from first -/
structure BundleRow extends Memory where
  evidenceSpan : Option String := none
deriving DecidableEq, Repr

/-- the two tables, with the primary key of the first and the foreign key of the second -/
structure EvidenceGraph where
  memories : List BundleRow
  memoryEntities : List MemoryEntity
  keyed : (memories.map (·.id)).Nodup
  foreignKey : ∀ link ∈ memoryEntities, link.memoryId ∈ memories.map (·.id)

/-- the order in which a query without ORDER BY returns its rows -/
structure RowOrder where
  order : {α : Type} → List α → List α
  perm : ∀ {α : Type} (rows : List α), (order rows).Perm rows

structure EvidenceBundlingOpts where
  maxExtra : ℤ
  minDistinctSessions : ℤ
  sameEntity : Bool
  sameSession : Bool
deriving DecidableEq, Repr

inductive BundleReason where
  | sameEntity | sameSession
deriving DecidableEq, Repr

/-- a hit on its way to the caller; `bundleReason` stands for `bundled: true` too -/
structure EvidenceHit where
  id : AtomId
  type : MemoryType
  text : String
  score : ℚ
  source : HitSource
  scope : MemoryScope
  importance : ℚ
  confidence : ℚ
  createdAt : Time
  captureSource : Option String := none
  evidence : Option JsString := none
  bundleReason : Option BundleReason := none
  signals : List ScoreSignal := []
  topSignal : Option String := none
deriving DecidableEq, Repr

/-- an entry of `candidates` -/
structure CandidateInfo where
  id : AtomId
  sharedCount : ℕ
  reason : BundleReason
deriving DecidableEq, Repr

def chunkInBatchSize : ℕ := 900

def batchesOf {α : Type} : ℕ → List α → List (List α)
  | 0, _ => []
  | n + 1, ids => if ids.isEmpty then [] else ids.take chunkInBatchSize :: batchesOf n (ids.drop chunkInBatchSize)

/-- the batches of `chunkedIn`, `CHUNK_IN_BATCH_SIZE` ids each -/
def batches {α : Type} (ids : List α) : List (List α) := batchesOf ids.length ids

def chunkedIn {α β : Type} (ids : List α) (runChunk : List α → List β) : List β := (batches ids).flatMap runChunk

def isEvidenceThin (sessionIds : List (Option SessionId)) (minDistinctSessions : ℤ) : Bool :=
  ((sessionIds.filterMap id).eraseDups.length : ℤ) < minDistinctSessions

section
variable (O : RowOrder) (g : EvidenceGraph)

/-- `session_id` of the anchors -/
def sessionRows (anchorIds : List AtomId) : List (Option SessionId) :=
  chunkedIn anchorIds fun batch => (O.order (g.memories.filter (·.id ∈ batch))).map (·.sessionId)

def anchorSessionIds (anchorIds : List AtomId) : List SessionId := ((sessionRows O g anchorIds).filterMap id).eraseDups

def sessionMates (anchorIds : List AtomId) : List AtomId :=
  chunkedIn (anchorSessionIds O g anchorIds) fun batch =>
    (O.order (g.memories.filter fun m => m.sessionId.any (· ∈ batch))).map (·.id)

/-- `SELECT DISTINCT entity_id FROM memory_entities WHERE memory_id IN ..` -/
def anchorEntityIds (anchorIds : List AtomId) : List EntityId :=
  chunkedIn anchorIds fun batch => ((O.order (g.memoryEntities.filter (·.memoryId ∈ batch))).map (·.entityId)).eraseDups

/-- `SELECT DISTINCT memory_id FROM memory_entities WHERE entity_id IN ..` -/
def entityMates (anchorIds : List AtomId) : List AtomId :=
  chunkedIn (anchorEntityIds O g anchorIds) fun batch =>
    ((O.order (g.memoryEntities.filter (·.entityId ∈ batch))).map (·.memoryId)).eraseDups

end

/-- pulled again: `same_entity` wins the reason -/
def CandidateInfo.again (reason : BundleReason) (c : CandidateInfo) : CandidateInfo :=
  { c with sharedCount := c.sharedCount + 1, reason := if reason = .sameEntity then .sameEntity else c.reason }

/-- one row of a pull -/
def bump (reason : BundleReason) (candidates : List CandidateInfo) (id : AtomId) : List CandidateInfo :=
  if id ∈ candidates.map (·.id) then updateWhere (·.id = id) (CandidateInfo.again reason) candidates
  else candidates ++ [⟨id, 1, reason⟩]

/-- a pull, without the anchors themselves -/
def pull (reason : BundleReason) (anchorIds : List AtomId) (rows : List AtomId) (candidates : List CandidateInfo) :
    List CandidateInfo := (rows.filter (· ∉ anchorIds)).foldl (bump reason) candidates

def candidatesFor (O : RowOrder) (g : EvidenceGraph) (anchorIds : List AtomId) (opts : EvidenceBundlingOpts) :
    List CandidateInfo :=
  pull .sameEntity anchorIds (if opts.sameEntity then entityMates O g anchorIds else [])
    (pull .sameSession anchorIds (if opts.sameSession then sessionMates O g anchorIds else []) [])

/-- most shared first, then by id -/
def byShared (a b : CandidateInfo) : Prop :=
  b.sharedCount < a.sharedCount ∨ (a.sharedCount = b.sharedCount ∧ a.id ≤ b.id)

instance : DecidableRel byShared := fun a b => by
  unfold byShared
  infer_instance

def evidenceExcerpt (row : BundleRow) : Option JsString :=
  (((row.evidenceSpan.filter (· ≠ "")).or row.evidence).filter (· ≠ "")).map fun s => (JsString.ofString s).take 500

def bundledHit (floorScore : ℚ) (row : BundleRow) (reason : BundleReason) : EvidenceHit where
  id := row.id
  type := row.type
  text := row.text
  score := floorScore
  source := .both
  scope := row.scope
  importance := row.importance
  confidence := row.confidence
  createdAt := row.createdAt
  captureSource := row.captureSource
  evidence := evidenceExcerpt row
  bundleReason := some reason
  signals := [⟨"evidence_bundle", 1, 1, floorScore⟩]
  topSignal := some "evidence_bundle"

/-- `admitted` is the validity clause and the filters of the search -/
def applyEvidenceBundling (O : RowOrder) (g : EvidenceGraph) (hits : List EvidenceHit) (admitted : BundleRow → Bool)
    (opts : EvidenceBundlingOpts) : List EvidenceHit :=
  if hits = [] ∨ opts.maxExtra ≤ 0 then hits
  else
    let anchorIds := hits.map (·.id)
    if ¬ isEvidenceThin (sessionRows O g anchorIds) opts.minDistinctSessions then hits
    else
      let ranked := cut byShared opts.maxExtra.toNat (candidatesFor O g anchorIds opts)
      let rows := O.order (g.memories.filter fun m => m.id ∈ ranked.map (·.id) ∧ admitted m)
      let floorScore := (hits.map (·.score)).min?.getD 0 * (1 / 2)
      hits ++ rows.filterMap fun row => (lookup (·.id) row.id ranked).map fun c => bundledHit floorScore row c.reason

/-! ## Batches -/

theorem batchesOf_flatten {α : Type} (n : ℕ) (ids : List α) (h : ids.length ≤ n) : (batchesOf n ids).flatten = ids := by
  induction n generalizing ids with
  | zero =>
    rw [List.eq_nil_of_length_eq_zero (Nat.le_zero.1 h)]
    rfl
  | succ n ih =>
    rw [batchesOf]
    split
    next hempty =>
      rw [List.isEmpty_iff.1 hempty]
      rfl
    next hne =>
      have hpos : 0 < ids.length := List.length_pos_iff.2 fun h => hne (List.isEmpty_iff.2 h)
      have hrest : (ids.drop chunkInBatchSize).length ≤ n := by
        rw [List.length_drop, chunkInBatchSize]
        omega
      rw [List.flatten_cons, ih _ hrest, List.take_append_drop]

theorem batches_flatten {α : Type} (ids : List α) : (batches ids).flatten = ids := batchesOf_flatten _ ids le_rfl

theorem exists_batch {β : Type} (ids : List β) {p : β → Prop} : (∃ batch ∈ batches ids, ∃ x ∈ batch, p x) ↔ ∃ x ∈ ids, p x := by
  constructor
  · rintro ⟨batch, hbatch, x, hx, hp⟩
    refine ⟨x, ?_, hp⟩
    rw [← batches_flatten ids]
    exact List.mem_flatten.2 ⟨batch, hbatch, hx⟩
  · rintro ⟨x, hx, hp⟩
    rw [← batches_flatten ids] at hx
    obtain ⟨batch, hbatch, hx⟩ := List.mem_flatten.1 hx
    exact ⟨batch, hbatch, x, hx, hp⟩

variable {α : Type} [DecidableEq α]

/-- what is pulled once a batch is pulled as often as there are batches that pull it -/
theorem count_chunkedIn {β : Type} {ids : List β} {f : List β → List α} (hf : ∀ batch, (f batch).Nodup) (x : α) :
    (chunkedIn ids f).count x = (batches ids).countP fun batch => x ∈ f batch := by
  unfold chunkedIn
  induction batches ids with
  | nil => rfl
  | cons batch rest ih =>
    rw [List.flatMap_cons, List.count_append, ih, List.countP_cons, (hf batch).count, Nat.add_comm]
    simp

/-- an id is in one batch only -/
theorem countP_batches {ids : List α} (hids : ids.Nodup) (x : α) :
    ((batches ids).countP fun batch => x ∈ batch) = if x ∈ ids then 1 else 0 := by
  have hcount : ∀ bs : List (List α), bs.flatten.Nodup →
      (bs.countP fun batch => x ∈ batch) = if x ∈ bs.flatten then 1 else 0 := by
    intro bs
    induction bs with
    | nil => intro _; rfl
    | cons batch rest ih =>
      intro hnodup
      rw [List.flatten_cons, List.nodup_append] at hnodup
      simp only [List.countP_cons, ih hnodup.2.1, List.flatten_cons, List.mem_append]
      by_cases hx : x ∈ batch
      · have hrest : x ∉ rest.flatten := fun hmem => hnodup.2.2 x hx x hmem rfl
        simp [hx, hrest]
      · simp [hx]
  rw [hcount _ (by rw [batches_flatten]; exact hids), batches_flatten]

/-! ## The table of candidates -/

/-- a candidate for every id pulled, with the number of times it was -/
structure Counts (rows : List AtomId) (candidates : List CandidateInfo) : Prop where
  ids : (candidates.map (·.id)).Nodup
  count : ∀ c ∈ candidates, c.sharedCount = rows.count c.id
  all : ∀ id, id ∈ candidates.map (·.id) ↔ id ∈ rows

variable {rows : List AtomId} {candidates : List CandidateInfo} {reason : BundleReason}

theorem again_ids (id : AtomId) :
    (updateWhere (·.id = id) (CandidateInfo.again reason) candidates).map (·.id) = candidates.map (·.id) :=
  updateWhere_keys fun _ => rfl

theorem Counts.bump (h : Counts rows candidates) (id : AtomId) : Counts (rows ++ [id]) (bump reason candidates id) := by
  unfold Search.bump
  split
  next hmem =>
    refine ⟨?_, ?_, ?_⟩
    · rw [again_ids]
      exact h.ids
    · intro c hc
      obtain ⟨old, hold, rfl⟩ := mem_updateWhere.1 hc
      have hcount := h.count old hold
      by_cases hid : old.id = id
      · simp [CandidateInfo.again, hid, hcount]
      · simp [hid, hcount, Ne.symm hid]
    · intro k
      rw [again_ids, h.all k, List.mem_append, List.mem_singleton]
      constructor
      · exact Or.inl
      · intro hk
        rcases hk with hk | rfl
        · exact hk
        · exact (h.all k).1 hmem
  next hnew =>
    have hfresh : id ∉ rows := fun hmem => hnew ((h.all id).2 hmem)
    refine ⟨?_, ?_, ?_⟩
    · rw [List.map_append, List.map_singleton, ← List.concat_eq_append, List.nodup_concat]
      exact ⟨hnew, h.ids⟩
    · intro c hc
      rcases List.mem_append.1 hc with hc | hc
      · have hne : id ≠ c.id := fun heq => hnew (heq ▸ List.mem_map.2 ⟨c, hc, rfl⟩)
        simp [h.count c hc, hne]
      · rw [List.mem_singleton.1 hc]
        simp [List.count_eq_zero.2 hfresh]
    · intro k
      simp only [List.map_append, List.map_singleton, List.mem_append, List.mem_singleton, h.all k]

theorem Counts.pull (h : Counts rows candidates) (anchorIds pulled : List AtomId) :
    Counts (rows ++ pulled.filter (· ∉ anchorIds)) (pull reason anchorIds pulled candidates) := by
  unfold Search.pull
  induction pulled.filter (· ∉ anchorIds) generalizing rows candidates with
  | nil => simpa using h
  | cons id rest ih =>
    have hrest : Counts (rows ++ [id] ++ rest) (rest.foldl (Search.bump reason) (Search.bump reason candidates id)) :=
      ih (h.bump id)
    rwa [List.append_assoc, List.singleton_append] at hrest

/-! ## Links and anchors -/

section
variable (g : EvidenceGraph) (anchorIds : List AtomId)

def linked (m : AtomId) (e : EntityId) : Bool := g.memoryEntities.any fun l => l.memoryId = m ∧ l.entityId = e

/-- an anchor comes from the session of the memory -/
def sharesSession (m : BundleRow) : Bool :=
  m.sessionId.isSome && g.memories.any fun h => h.id ∈ anchorIds ∧ h.sessionId = m.sessionId

/-- the entities the memory shares with the anchors -/
def sharedEntities (m : AtomId) : Finset EntityId :=
  ((g.memoryEntities.map (·.entityId)).toFinset).filter fun e => linked g m e ∧ ∃ a ∈ anchorIds, linked g a e

/-- the distinct anchors the memory shares with the hits: their session, and their entities -/
def sharedAnchors (opts : EvidenceBundlingOpts) (m : BundleRow) : ℕ :=
  (if opts.sameSession ∧ sharesSession g anchorIds m then 1 else 0) +
    if opts.sameEntity then (sharedEntities g anchorIds m.id).card else 0

/-- what the stage counts instead: the session, and the batches of entities -/
def counted (O : RowOrder) (opts : EvidenceBundlingOpts) (m : BundleRow) : ℕ :=
  (if opts.sameSession ∧ sharesSession g anchorIds m then 1 else 0) +
    if opts.sameEntity then (batches (anchorEntityIds O g anchorIds)).countP fun batch => batch.any (linked g m.id) else 0

end

variable {O : RowOrder} {g : EvidenceGraph} {anchorIds : List AtomId} {opts : EvidenceBundlingOpts} {m : BundleRow}

theorem linked_iff {m : AtomId} {e : EntityId} : linked g m e = true ↔ ∃ l ∈ g.memoryEntities, l.memoryId = m ∧ l.entityId = e := by
  simp [linked]

theorem mem_order {β : Type} {l : List β} {x : β} : x ∈ O.order l ↔ x ∈ l := (O.perm l).mem_iff

theorem mem_anchorSessionIds {s : SessionId} :
    s ∈ anchorSessionIds O g anchorIds ↔ ∃ h ∈ g.memories, h.id ∈ anchorIds ∧ h.sessionId = some s := by
  simp only [anchorSessionIds, sessionRows, chunkedIn, List.mem_eraseDups, List.mem_filterMap, List.mem_flatMap, List.mem_map,
    mem_order, List.mem_filter, decide_eq_true_eq, id]
  constructor
  · rintro ⟨_, ⟨batch, hbatch, h, ⟨hmem, hin⟩, rfl⟩, hs⟩
    have hid : ∃ x ∈ anchorIds, x = h.id := (exists_batch anchorIds).1 ⟨batch, hbatch, h.id, hin, rfl⟩
    obtain ⟨x, hx, rfl⟩ := hid
    exact ⟨h, hmem, hx, hs⟩
  · rintro ⟨h, hmem, hid, hs⟩
    obtain ⟨batch, hbatch, x, hx, rfl⟩ := (exists_batch (p := fun x => x = h.id) anchorIds).2 ⟨h.id, hid, rfl⟩
    exact ⟨h.sessionId, ⟨batch, hbatch, h, ⟨hmem, hx⟩, rfl⟩, hs⟩

theorem sharesSession_iff : sharesSession g anchorIds m = true ↔ ∃ s ∈ anchorSessionIds O g anchorIds, m.sessionId = some s := by
  simp only [sharesSession, Bool.and_eq_true, List.any_eq_true, decide_eq_true_eq, mem_anchorSessionIds, Option.isSome_iff_exists]
  constructor
  · rintro ⟨⟨s, hs⟩, h, hmem, hid, hsame⟩
    exact ⟨s, ⟨h, hmem, hid, hsame.trans hs⟩, hs⟩
  · rintro ⟨s, ⟨h, hmem, hid, hsession⟩, hs⟩
    exact ⟨⟨s, hs⟩, h, hmem, hid, hsession.trans hs.symm⟩

theorem mem_anchorEntityIds {e : EntityId} :
    e ∈ anchorEntityIds O g anchorIds ↔ ∃ a ∈ anchorIds, linked g a e = true := by
  simp only [anchorEntityIds, chunkedIn, List.mem_flatMap, List.mem_eraseDups, List.mem_map, mem_order, List.mem_filter,
    decide_eq_true_eq, linked_iff]
  constructor
  · rintro ⟨batch, hbatch, l, ⟨hl, hin⟩, rfl⟩
    obtain ⟨a, ha, rfl⟩ := (exists_batch (p := fun x => x = l.memoryId) anchorIds).1 ⟨batch, hbatch, l.memoryId, hin, rfl⟩
    exact ⟨l.memoryId, ha, l, hl, rfl, rfl⟩
  · rintro ⟨a, ha, l, hl, rfl, rfl⟩
    obtain ⟨batch, hbatch, x, hx, rfl⟩ := (exists_batch (p := fun x => x = l.memoryId) anchorIds).2 ⟨l.memoryId, ha, rfl⟩
    exact ⟨batch, hbatch, l, ⟨hl, hx⟩, rfl⟩

theorem memory_eq {m n : BundleRow} (hm : m ∈ g.memories) (hn : n ∈ g.memories) (hid : m.id = n.id) : m = n :=
  List.inj_on_of_nodup_map g.keyed hm hn hid

theorem selected_nodup (p : BundleRow → Bool) : ((O.order (g.memories.filter p)).map (·.id)).Nodup := by
  rw [((O.perm _).map _).nodup_iff]
  exact g.keyed.sublist (List.filter_sublist.map _)

theorem count_sessionMates (hm : m ∈ g.memories) :
    (sessionMates O g anchorIds).count m.id = if sharesSession g anchorIds m then 1 else 0 := by
  have hpulled : ∀ batch : List SessionId,
      (m.id ∈ (O.order (g.memories.filter fun n => n.sessionId.any (· ∈ batch))).map (·.id)) ↔
        ∃ s ∈ batch, m.sessionId = some s := by
    intro batch
    simp only [List.mem_map, mem_order, List.mem_filter, Option.any_eq_true, decide_eq_true_eq]
    constructor
    · rintro ⟨n, ⟨hn, s, hs, hin⟩, hid⟩
      exact ⟨s, hin, (memory_eq hn hm hid) ▸ hs⟩
    · rintro ⟨s, hin, hs⟩
      exact ⟨m, ⟨hm, s, hs, hin⟩, rfl⟩
  rw [sessionMates, count_chunkedIn fun _ => selected_nodup _]
  simp only [hpulled]
  cases hs : m.sessionId with
  | none =>
    have hnone : sharesSession g anchorIds m = false := by simp [sharesSession, hs]
    simp [hnone]
  | some s =>
    have hshares : sharesSession g anchorIds m = true ↔ s ∈ anchorSessionIds O g anchorIds := by
      rw [sharesSession_iff (O := O), hs]
      simp
    have hdistinct : (anchorSessionIds O g anchorIds).Nodup := eraseDups_nodup _ _ le_rfl
    have hcount := countP_batches hdistinct s
    simp only [← hshares] at hcount
    simpa using hcount

theorem count_entityMates (id : AtomId) :
    (entityMates O g anchorIds).count id =
      (batches (anchorEntityIds O g anchorIds)).countP fun batch => batch.any (linked g id) := by
  rw [entityMates, count_chunkedIn fun _ => eraseDups_nodup _ _ le_rfl]
  congr 1
  funext batch
  rw [Bool.eq_iff_iff]
  simp only [decide_eq_true_eq, List.mem_eraseDups, List.mem_map, mem_order, List.mem_filter, List.any_eq_true, linked_iff]
  constructor
  · rintro ⟨l, ⟨hl, hin⟩, hid⟩
    exact ⟨l.entityId, hin, l, hl, hid, rfl⟩
  · rintro ⟨e, he, l, hl, hid, rfl⟩
    exact ⟨l, ⟨hl, he⟩, hid⟩

/-- the rows of the two pulls, without the anchors -/
def pulledRows (O : RowOrder) (g : EvidenceGraph) (anchorIds : List AtomId) (opts : EvidenceBundlingOpts) : List AtomId :=
  (if opts.sameSession then sessionMates O g anchorIds else []).filter (· ∉ anchorIds) ++
    (if opts.sameEntity then entityMates O g anchorIds else []).filter (· ∉ anchorIds)

theorem candidatesFor_counts : Counts (pulledRows O g anchorIds opts) (candidatesFor O g anchorIds opts) := by
  have hempty : Counts [] [] := ⟨List.nodup_nil, fun c hc => (List.not_mem_nil hc).elim, fun _ => Iff.rfl⟩
  have hfirst : Counts ([] ++ (if opts.sameSession then sessionMates O g anchorIds else []).filter (· ∉ anchorIds))
      (pull .sameSession anchorIds (if opts.sameSession then sessionMates O g anchorIds else []) []) := hempty.pull _ _
  rw [List.nil_append] at hfirst
  exact hfirst.pull anchorIds _

theorem count_pulledRows (hm : m ∈ g.memories) (hanchor : m.id ∉ anchorIds) :
    (pulledRows O g anchorIds opts).count m.id = counted g anchorIds O opts m := by
  have hkept : ∀ rows : List AtomId, (rows.filter (· ∉ anchorIds)).count m.id = rows.count m.id :=
    fun rows => List.count_filter (decide_eq_true hanchor)
  rw [pulledRows, List.count_append, hkept, hkept, counted]
  congr 1
  · cases opts.sameSession with
    | false => simp
    | true => simpa using count_sessionMates hm
  · cases opts.sameEntity with
    | false => simp
    | true => simpa using count_entityMates m.id

theorem mem_pulledRows {id : AtomId} (h : id ∈ pulledRows O g anchorIds opts) :
    id ∉ anchorIds ∧ ∃ m ∈ g.memories, m.id = id := by
  rw [pulledRows, List.mem_append, List.mem_filter, List.mem_filter] at h
  rcases h with ⟨hmem, hout⟩ | ⟨hmem, hout⟩
  · refine ⟨of_decide_eq_true hout, ?_⟩
    split at hmem
    · obtain ⟨batch, -, hin⟩ := List.mem_flatMap.1 hmem
      obtain ⟨m, hm, hid⟩ := List.mem_map.1 hin
      exact ⟨m, (List.mem_filter.1 (mem_order.1 hm)).1, hid⟩
    · cases hmem
  · refine ⟨of_decide_eq_true hout, ?_⟩
    split at hmem
    · obtain ⟨batch, -, hin⟩ := List.mem_flatMap.1 hmem
      obtain ⟨l, hl, rfl⟩ := List.mem_map.1 (List.mem_eraseDups.1 hin)
      exact List.mem_map.1 (g.foreignKey l (List.mem_filter.1 (mem_order.1 hl)).1)
    · cases hmem

/-! ## The ranking -/

section
variable (O : RowOrder) (g : EvidenceGraph) (anchorIds : List AtomId) (opts : EvidenceBundlingOpts)

/-- a memory the pulls find -/
def Pulled (m : BundleRow) : Prop := m.id ∉ anchorIds ∧ 0 < counted g anchorIds O opts m

/-- more links, or as many and the smaller id -/
def Before (m n : BundleRow) : Prop :=
  counted g anchorIds O opts n < counted g anchorIds O opts m ∨
    (counted g anchorIds O opts m = counted g anchorIds O opts n ∧ m.id < n.id)

instance (m : BundleRow) : Decidable (Pulled O g anchorIds opts m) := inferInstanceAs (Decidable (_ ∧ _))

instance (m n : BundleRow) : Decidable (Before O g anchorIds opts m n) := inferInstanceAs (Decidable (_ ∨ _))

/-- how many candidates come first -/
def place (m : BundleRow) : ℕ := g.memories.countP fun n => Pulled O g anchorIds opts n ∧ Before O g anchorIds opts n m

end

instance : Std.Total byShared := ⟨fun a b => by unfold byShared; grind⟩

instance : IsTrans CandidateInfo byShared := ⟨fun a b c hab hbc => by unfold byShared at *; grind⟩

theorem candidate_iff {id n : ℕ} : (id, n) ∈ (candidatesFor O g anchorIds opts).map (fun c => (c.id, c.sharedCount)) ↔
    ∃ m ∈ g.memories, Pulled O g anchorIds opts m ∧ m.id = id ∧ counted g anchorIds O opts m = n := by
  have hcounts : Counts (pulledRows O g anchorIds opts) (candidatesFor O g anchorIds opts) := candidatesFor_counts
  rw [List.mem_map]
  constructor
  · rintro ⟨c, hc, heq⟩
    cases heq
    have hrow : c.id ∈ pulledRows O g anchorIds opts := (hcounts.all c.id).1 (List.mem_map.2 ⟨c, hc, rfl⟩)
    obtain ⟨hout, m, hm, hid⟩ := mem_pulledRows hrow
    have hcount : counted g anchorIds O opts m = c.sharedCount := by
      rw [hcounts.count c hc, ← hid, count_pulledRows hm (hid ▸ hout)]
    have hpos : 0 < counted g anchorIds O opts m := by
      rw [hcount, hcounts.count c hc]
      exact List.count_pos_iff.2 hrow
    exact ⟨m, hm, ⟨hid ▸ hout, hpos⟩, hid, hcount⟩
  · rintro ⟨m, hm, ⟨hout, hpos⟩, rfl, rfl⟩
    have hrow : m.id ∈ pulledRows O g anchorIds opts := by
      rw [← List.count_pos_iff, count_pulledRows hm hout]
      exact hpos
    obtain ⟨c, hc, hid⟩ := List.mem_map.1 ((hcounts.all m.id).2 hrow)
    refine ⟨c, hc, ?_⟩
    rw [hcounts.count c hc, hid, count_pulledRows hm hout]

/-- the candidates are the memories that are pulled, with what is counted for them -/
theorem candidates_perm (O : RowOrder) (g : EvidenceGraph) (anchorIds : List AtomId) (opts : EvidenceBundlingOpts) :
    ((candidatesFor O g anchorIds opts).map fun c => (c.id, c.sharedCount)).Perm
    ((g.memories.filter fun m => Pulled O g anchorIds opts m).map fun m => (m.id, counted g anchorIds O opts m)) := by
  have hcounts : Counts (pulledRows O g anchorIds opts) (candidatesFor O g anchorIds opts) := candidatesFor_counts
  rw [List.perm_ext_iff_of_nodup]
  · intro entry
    obtain ⟨id, n⟩ := entry
    rw [candidate_iff]
    simp [and_assoc]
  · apply List.Nodup.of_map Prod.fst
    rw [List.map_map]
    exact hcounts.ids
  · apply List.Nodup.of_map Prod.fst
    rw [List.map_map]
    exact g.keyed.sublist (List.filter_sublist.map _)

theorem countP_candidates (O : RowOrder) (g : EvidenceGraph) (anchorIds : List AtomId) (opts : EvidenceBundlingOpts)
    (q : ℕ × ℕ → Bool) :
    ((candidatesFor O g anchorIds opts).countP fun c => q (c.id, c.sharedCount)) =
      g.memories.countP fun m => Pulled O g anchorIds opts m ∧ q (m.id, counted g anchorIds O opts m) := by
  have hperm := (candidates_perm O g anchorIds opts).countP_eq q
  rw [List.countP_map, List.countP_map, List.countP_filter] at hperm
  refine hperm.trans ?_
  congr 1
  funext m
  simp [Bool.and_comm]

theorem mem_ranked {k : ℕ} (hm : m ∈ g.memories) :
    m.id ∈ (cut byShared k (candidatesFor O g anchorIds opts)).map (·.id) ↔
      Pulled O g anchorIds opts m ∧ place O g anchorIds opts m < k := by
  have hcounts : Counts (pulledRows O g anchorIds opts) (candidatesFor O g anchorIds opts) := candidatesFor_counts
  have hplace : ∀ c ∈ candidatesFor O g anchorIds opts, c.id = m.id → c.sharedCount = counted g anchorIds O opts m →
      (c ∈ cut byShared k (candidatesFor O g anchorIds opts) ↔ place O g anchorIds opts m < k) := by
    intro c hc hid hcount
    have hties : ∀ y ∈ candidatesFor O g anchorIds opts, byShared y c → byShared c y → y = c := by
      intro y hy hyc hcy
      refine List.inj_on_of_nodup_map hcounts.ids hy hc ?_
      unfold byShared at hyc hcy
      grind
    rw [mem_cut_iff (hcounts.ids.of_map _) hc hties]
    have hbefore := countP_candidates O g anchorIds opts fun p =>
      decide (counted g anchorIds O opts m < p.2 ∨ (p.2 = counted g anchorIds O opts m ∧ p.1 < m.id))
    have hfirst : (candidatesFor O g anchorIds opts).countP (fun y => decide (¬ byShared c y)) =
        place O g anchorIds opts m := by
      have hrival : (fun y => decide (¬ byShared c y)) = fun y : CandidateInfo =>
          decide (counted g anchorIds O opts m < y.sharedCount ∨
            (y.sharedCount = counted g anchorIds O opts m ∧ y.id < m.id)) := by
        funext y
        rw [decide_eq_decide, byShared, hid, hcount]
        grind
      rw [hrival, place, hbefore]
      congr 1
      funext n
      rw [decide_eq_decide, decide_eq_true_eq, Before]
    rw [hfirst]
  constructor
  · intro h
    obtain ⟨c, hc, hid⟩ := List.mem_map.1 h
    have hcmem := mem_of_mem_cut hc
    obtain ⟨n, hn, hpulled, hnid, hcount⟩ := candidate_iff.1 (List.mem_map.2 ⟨c, hcmem, rfl⟩)
    obtain rfl := memory_eq hn hm (hnid.trans hid)
    exact ⟨hpulled, (hplace c hcmem hid hcount.symm).1 hc⟩
  · rintro ⟨hpulled, hlt⟩
    obtain ⟨c, hc, heq⟩ := List.mem_map.1 (candidate_iff.2 ⟨m, hm, hpulled, rfl, rfl⟩)
    obtain ⟨hid, hcount⟩ := Prod.mk.inj heq
    exact List.mem_map.2 ⟨c, (hplace c hc hid hcount).2 hlt, hid⟩

/-! ## What is appended -/

section
variable (O : RowOrder) (g : EvidenceGraph) (hits : List EvidenceHit) (admitted : BundleRow → Bool)
  (opts : EvidenceBundlingOpts)

/-- there are hits, room for more, and the hits come from few sessions -/
def Fires : Prop :=
  hits ≠ [] ∧ 0 < opts.maxExtra ∧ isEvidenceThin (sessionRows O g (hits.map (·.id))) opts.minDistinctSessions = true

def extraRows : List BundleRow :=
  O.order (g.memories.filter fun m =>
    m.id ∈ (cut byShared opts.maxExtra.toNat (candidatesFor O g (hits.map (·.id)) opts)).map (·.id) ∧ admitted m)

def extras : List EvidenceHit :=
  (extraRows O g hits admitted opts).filterMap fun row =>
    (lookup (·.id) row.id (cut byShared opts.maxExtra.toNat (candidatesFor O g (hits.map (·.id)) opts))).map fun c =>
      bundledHit ((hits.map (·.score)).min?.getD 0 * (1 / 2)) row c.reason

end

variable {hits : List EvidenceHit} {admitted : BundleRow → Bool}

theorem apply_of_fires (h : Fires O g hits opts) :
    applyEvidenceBundling O g hits admitted opts = hits ++ extras O g hits admitted opts := by
  obtain ⟨hne, hroom, hthin⟩ := h
  have hgo : ¬ (hits = [] ∨ opts.maxExtra ≤ 0) := not_or.2 ⟨hne, not_le.2 hroom⟩
  simp only [applyEvidenceBundling, if_neg hgo, hthin, not_true_eq_false, if_false, extras, extraRows]

theorem apply_of_not_fires (h : ¬ Fires O g hits opts) : applyEvidenceBundling O g hits admitted opts = hits := by
  unfold applyEvidenceBundling
  split
  next => rfl
  next hgo =>
    obtain ⟨hne, hroom⟩ := not_or.1 hgo
    have hrich : ¬ isEvidenceThin (sessionRows O g (hits.map (·.id))) opts.minDistinctSessions = true :=
      fun hthin => h ⟨hne, not_le.1 hroom, hthin⟩
    simp only [if_pos hrich]

theorem mem_extraRows : m ∈ extraRows O g hits admitted opts ↔ m ∈ g.memories ∧ admitted m = true ∧
    Pulled O g (hits.map (·.id)) opts m ∧ place O g (hits.map (·.id)) opts m < opts.maxExtra.toNat := by
  rw [extraRows, mem_order, List.mem_filter, decide_eq_true_eq]
  constructor
  · rintro ⟨hm, hranked, hadmitted⟩
    exact ⟨hm, hadmitted, (mem_ranked hm).1 hranked⟩
  · rintro ⟨hm, hadmitted, hranked⟩
    exact ⟨hm, (mem_ranked hm).2 hranked, hadmitted⟩

/-- every row selected becomes a hit -/
theorem extras_ids : (extras O g hits admitted opts).map (·.id) = (extraRows O g hits admitted opts).map (·.id) := by
  have hfound : ∀ row ∈ extraRows O g hits admitted opts,
      ((lookup (·.id) row.id (cut byShared opts.maxExtra.toNat (candidatesFor O g (hits.map (·.id)) opts))).map fun c =>
        bundledHit ((hits.map (·.score)).min?.getD 0 * (1 / 2)) row c.reason).map (·.id) = some row.id := by
    intro row hrow
    rw [extraRows, mem_order, List.mem_filter, decide_eq_true_eq] at hrow
    obtain ⟨c, hc, hid⟩ := List.mem_map.1 hrow.2.1
    have hsome : (lookup (·.id) row.id
        (cut byShared opts.maxExtra.toNat (candidatesFor O g (hits.map (·.id)) opts))).isSome = true := by
      rw [lookup, List.find?_isSome]
      exact ⟨c, hc, decide_eq_true hid⟩
    obtain ⟨found, hlookup⟩ := Option.isSome_iff_exists.1 hsome
    rw [hlookup]
    rfl
  rw [extras, List.map_filterMap, List.filterMap_congr hfound]
  exact congrFun List.filterMap_eq_map _

theorem row_of_extra {e : EvidenceHit} (h : e ∈ extras O g hits admitted opts) :
    ∃ m ∈ extraRows O g hits admitted opts, m.id = e.id := by
  apply List.mem_map.1
  rw [← extras_ids]
  exact List.mem_map.2 ⟨e, h, rfl⟩

theorem extras_nodup : ((extras O g hits admitted opts).map (·.id)).Nodup := by
  rw [extras_ids]
  exact selected_nodup _

theorem mem_sharedEntities {id : AtomId} {e : EntityId} :
    e ∈ sharedEntities g anchorIds id ↔ linked g id e = true ∧ ∃ a ∈ anchorIds, linked g a e = true := by
  rw [sharedEntities, Finset.mem_filter, List.mem_toFinset, List.mem_map]
  constructor
  · exact And.right
  · intro h
    obtain ⟨l, hl, -, he⟩ := linked_iff.1 h.1
    exact ⟨⟨l, hl, he⟩, h⟩

/-- a link is counted exactly when an anchor is shared -/
theorem counted_pos_iff : 0 < counted g anchorIds O opts m ↔ 0 < sharedAnchors g anchorIds opts m := by
  have hentities : (0 < (batches (anchorEntityIds O g anchorIds)).countP fun batch => batch.any (linked g m.id)) ↔
      0 < (sharedEntities g anchorIds m.id).card := by
    rw [List.countP_pos_iff, Finset.card_pos]
    simp only [List.any_eq_true]
    rw [exists_batch]
    constructor
    · rintro ⟨e, he, hlinked⟩
      exact ⟨e, mem_sharedEntities.2 ⟨hlinked, mem_anchorEntityIds.1 he⟩⟩
    · rintro ⟨e, he⟩
      obtain ⟨hlinked, hanchor⟩ := mem_sharedEntities.1 he
      exact ⟨e, mem_anchorEntityIds.2 hanchor, hlinked⟩
  unfold counted sharedAnchors
  cases opts.sameEntity with
  | false => exact Iff.rfl
  | true =>
    simp only [if_true]
    omega

/-- the result is the hits and memories that share anchors with them, none left out that shares more than one appended -/
structure RanksByAnchors (g : EvidenceGraph) (hits : List EvidenceHit) (admitted : BundleRow → Bool)
    (opts : EvidenceBundlingOpts) (result : List EvidenceHit) : Prop where
  appended : ∃ added, result = hits ++ added ∧ (added.map (·.id)).Nodup ∧
    (∀ e ∈ added, e.id ∉ hits.map (·.id)) ∧
    (∀ e ∈ added, ∃ m ∈ g.memories, m.id = e.id ∧ admitted m = true ∧ 0 < sharedAnchors g (hits.map (·.id)) opts m) ∧
    ∀ m ∈ g.memories, m.id ∈ added.map (·.id) → ∀ c ∈ g.memories, c.id ∉ hits.map (·.id) → admitted c = true →
      c.id ∉ added.map (·.id) → sharedAnchors g (hits.map (·.id)) opts c ≤ sharedAnchors g (hits.map (·.id)) opts m

/-- **The ranking.** The memories appended are those that share the most anchors exactly when the stage does not fire, or
no admitted memory behind the first `maxExtra` candidates, by the links that are counted, shares more anchors than an
admitted one among them. -/
theorem bundle_ranks_iff (O : RowOrder) (g : EvidenceGraph) (hits : List EvidenceHit) (admitted : BundleRow → Bool)
    (opts : EvidenceBundlingOpts) :
    RanksByAnchors g hits admitted opts (applyEvidenceBundling O g hits admitted opts) ↔
      (Fires O g hits opts → ∀ m ∈ g.memories, ∀ c ∈ g.memories, admitted m = true → admitted c = true →
        Pulled O g (hits.map (·.id)) opts m → Pulled O g (hits.map (·.id)) opts c →
        (place O g (hits.map (·.id)) opts m : ℤ) < opts.maxExtra → opts.maxExtra ≤ place O g (hits.map (·.id)) opts c →
        sharedAnchors g (hits.map (·.id)) opts c ≤ sharedAnchors g (hits.map (·.id)) opts m) := by
  have hmem : ∀ m ∈ g.memories, (m.id ∈ (extras O g hits admitted opts).map (·.id) ↔ admitted m = true ∧
      Pulled O g (hits.map (·.id)) opts m ∧ place O g (hits.map (·.id)) opts m < opts.maxExtra.toNat) := by
    intro m hm
    rw [extras_ids, List.mem_map]
    constructor
    · rintro ⟨n, hn, hid⟩
      obtain ⟨hnmem, hrest⟩ := mem_extraRows.1 hn
      obtain rfl := memory_eq hnmem hm hid
      exact hrest
    · intro h
      exact ⟨m, mem_extraRows.2 ⟨hm, h⟩, rfl⟩
  by_cases hfires : Fires O g hits opts
  · rw [apply_of_fires hfires]
    constructor
    · intro h _ m hm c hc hadmitted hadmittedc hpulled hpulledc hin hout
      obtain ⟨added, heq, -, -, -, hbest⟩ := h.appended
      rw [← List.append_cancel_left heq] at hbest
      refine hbest m hm ((hmem m hm).2 ⟨hadmitted, hpulled, by omega⟩) c hc hpulledc.1 hadmittedc ?_
      intro hadded
      have hlt := ((hmem c hc).1 hadded).2.2
      omega
    · intro h
      refine ⟨extras O g hits admitted opts, rfl, extras_nodup, ?_, ?_, ?_⟩
      · intro e he hhit
        obtain ⟨m, hm, hmid⟩ := row_of_extra he
        exact (mem_extraRows.1 hm).2.2.1.1 (hmid ▸ hhit)
      · intro e he
        obtain ⟨m, hm, hmid⟩ := row_of_extra he
        obtain ⟨hmmem, hadmitted, hpulled, -⟩ := mem_extraRows.1 hm
        exact ⟨m, hmmem, hmid, hadmitted, counted_pos_iff.1 hpulled.2⟩
      · intro m hm hin c hc hhit hadmittedc hout
        obtain ⟨hadmitted, hpulled, hlt⟩ := (hmem m hm).1 hin
        by_cases hpulledc : Pulled O g (hits.map (·.id)) opts c
        · have hge : ¬ place O g (hits.map (·.id)) opts c < opts.maxExtra.toNat :=
            fun hlt => hout ((hmem c hc).2 ⟨hadmittedc, hpulledc, hlt⟩)
          exact h hfires m hm c hc hadmitted hadmittedc hpulled hpulledc (by omega) (by omega)
        · have hnone : ¬ 0 < counted g (hits.map (·.id)) O opts c := fun hpos => hpulledc ⟨hhit, hpos⟩
          rw [counted_pos_iff] at hnone
          omega
  · rw [apply_of_not_fires hfires]
    refine iff_of_true ⟨[], (List.append_nil hits).symm, List.nodup_nil, ?_, ?_, ?_⟩ (fun h => absurd h hfires)
    · intro e he
      cases he
    · intro e he
      cases he
    · intro m _ hin
      cases hin

def plainRow (id : AtomId) : BundleRow where
  rowid := id
  id := id
  type := .fact
  text := "fact"
  normalizedText := "fact"
  repo := none
  project := none
  branch := none
  agent := none
  sessionId := none
  importance := 1 / 2
  confidence := 1
  hash := id
  createdAt := 0
  updatedAt := 0
  sourceHash := none
  evidence := none
  validFrom := 0
  scope := .priv

/-- memory 1 names entity 10 and memory 2 entity 11; memory 3 shares the first with them, memory 4 both -/
def sharedGraph : EvidenceGraph where
  memories := [plainRow 1, plainRow 2, plainRow 3, plainRow 4]
  memoryEntities := [⟨1, 10, none, none⟩, ⟨2, 11, none, none⟩, ⟨3, 10, none, none⟩, ⟨4, 10, none, none⟩, ⟨4, 11, none, none⟩]
  keyed := by decide
  foreignKey := by decide

def plainHit (id : AtomId) : EvidenceHit := ⟨id, .fact, "fact", 1 / 2, .both, .priv, 1 / 2, 1, 0, none, none, none, [], none⟩

def tableOrder : RowOrder := ⟨fun rows => rows, fun rows => List.Perm.refl rows⟩

/-- With room for one memory the one with a single anchor is appended: both are counted once, and its id is smaller. -/
theorem shared_entities_count_once :
    ¬ RanksByAnchors sharedGraph [plainHit 1, plainHit 2] (fun _ => true) ⟨1, 2, true, true⟩
      (applyEvidenceBundling tableOrder sharedGraph [plainHit 1, plainHit 2] (fun _ => true) ⟨1, 2, true, true⟩) := by
  intro h
  obtain ⟨added, heq, -, -, -, hbest⟩ := h.appended
  have hids : added.map (·.id) = [3] := by
    have hresult := congrArg (List.map (·.id)) heq
    rw [List.map_append] at hresult
    have hall : (applyEvidenceBundling tableOrder sharedGraph [plainHit 1, plainHit 2] (fun _ => true)
        ⟨1, 2, true, true⟩).map (·.id) = [1, 2] ++ [3] := by decide +kernel
    exact (List.append_cancel_left (hall.symm.trans hresult)).symm
  rw [hids] at hbest
  have hle := hbest (plainRow 3) (by simp [sharedGraph]) (by decide) (plainRow 4) (by simp [sharedGraph]) (by decide) rfl (by decide)
  revert hle
  decide +kernel

end AstramemLocal.Search
