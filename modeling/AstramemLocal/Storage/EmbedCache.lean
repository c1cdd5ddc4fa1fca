/-
The table of cached embeddings and its counters (`src/storage/embed-cache.ts`): batched look-up, insertion, and eviction
of the rows that were used least recently. A statement that fails changes nothing and throws, which is `none` here. What a
row holds is followed through each of them (`Everywhere`), and an eviction leaves at most `maxEntries` rows
(`evictExcess_length`).
-/
import AstramemLocal.Core.Table
import Mathlib.Data.List.Sort

namespace AstramemLocal.Storage

open AstramemLocal.Core

variable {V : Type}

structure EmbedKey where
  contentHash : String
  model : String
  dim : ℕ
deriving DecidableEq

structure EmbedRow (V : Type) where
  key : EmbedKey
  vector : V
  createdAt : ℤ
  lastUsedAt : ℤ

structure EmbedStats where
  hits : ℕ
  misses : ℕ
  updatedAt : ℤ

/-- `embed_cache` in the order of its row ids, and the row of `embed_cache_stats` -/
structure EmbedCache (V : Type) where
  rows : List (EmbedRow V)
  /-- PRIMARY KEY (content_hash, model, dim) -/
  keyed : Keyed EmbedRow.key rows
  stats : Option EmbedStats

/-- the statements that fail -/
structure CacheFaults where
  select : Bool := false
  touch : Bool := false
  put : Bool := false
  evict : Bool := false
  stats : Bool := false

namespace EmbedCache

variable (cache : EmbedCache V)

/-! ## The statements -/

def hits (hashes : List String) (model : String) (dim : ℕ) : List (EmbedRow V) :=
  cache.rows.filter fun r => r.key.model = model ∧ r.key.dim = dim ∧ r.key.contentHash ∈ hashes

def touch (now : ℤ) (key : EmbedKey) : EmbedCache V where
  rows := updateWhere (·.key = key) (fun r => ⟨r.key, r.vector, r.createdAt, now⟩) cache.rows
  keyed := cache.keyed.updateWhere fun _ => rfl
  stats := cache.stats

/-- INSERT OR REPLACE -/
def insertOrReplace (row : EmbedRow V) : EmbedCache V where
  rows := deleteWhere (·.key = row.key) cache.rows ++ [row]
  keyed := cache.keyed.deleteWhere.insert fun _ hq => (mem_deleteWhere.1 hq).2
  stats := cache.stats

/-- ORDER BY last_used_at ASC LIMIT n -/
def oldest (n : ℕ) : List (EmbedRow V) := (cache.rows.insertionSort fun a b => a.lastUsedAt ≤ b.lastUsedAt).take n

def deleteRows (doomed : List (EmbedRow V)) : EmbedCache V where
  rows := deleteWhere (fun r => doomed.any (·.key = r.key) = true) cache.rows
  keyed := cache.keyed.deleteWhere
  stats := cache.stats

/-! ## The functions -/

def getCachedEmbeddings (faults : CacheFaults) (now : ℤ) (hashes : List String) (model : String) (dim : ℕ) :
    Option (List (String × V) × EmbedCache V) :=
  if faults.select then none
  else
    let rows := cache.hits hashes model dim
    if rows.isEmpty then some ([], cache)
    else if faults.touch then none
    else some (rows.map fun r => (r.key.contentHash, r.vector),
      rows.foldl (fun c r => c.touch now ⟨r.key.contentHash, model, dim⟩) cache)

def putCachedEmbeddings (faults : CacheFaults) (now : ℤ) (model : String) (dim : ℕ) (entries : List (String × V)) :
    Option (EmbedCache V) :=
  if entries.isEmpty then some cache
  else if faults.put then none
  else some (entries.foldl (fun c e => c.insertOrReplace ⟨⟨e.1, model, dim⟩, e.2, now, now⟩) cache)

def evictExcess (faults : CacheFaults) (maxEntries : ℕ) : Option (EmbedCache V) :=
  if faults.evict then none
  else
    let excess := cache.rows.length - maxEntries
    if excess = 0 then some cache else some (cache.deleteRows (cache.oldest excess))

def recordCacheStats (faults : CacheFaults) (now : ℤ) (hits misses : ℕ) : Option (EmbedCache V) :=
  if hits = 0 ∧ misses = 0 then some cache
  else if faults.stats then none
  else
    some { cache with stats := cache.stats.map fun s => ⟨s.hits + hits, s.misses + misses, now⟩ }

/-! ## What the rows hold -/

/-- every key stands beside a vector that fits it -/
def Everywhere (P : EmbedKey → V → Prop) : Prop := ∀ r ∈ cache.rows, P r.key r.vector

variable {cache} {P : EmbedKey → V → Prop} {faults : CacheFaults} {now : ℤ} {hashes : List String} {model : String} {dim : ℕ}

theorem Everywhere.touch (h : cache.Everywhere P) (now : ℤ) (key : EmbedKey) : (cache.touch now key).Everywhere P := by
  intro r hr
  obtain ⟨q, hq, rfl⟩ := mem_updateWhere.1 hr
  split
  · exact h q hq
  · exact h q hq

theorem Everywhere.insertOrReplace (h : cache.Everywhere P) {row : EmbedRow V} (hrow : P row.key row.vector) :
    (cache.insertOrReplace row).Everywhere P := by
  intro r hr
  rcases List.mem_append.1 hr with hr | hr
  · exact h r (mem_deleteWhere.1 hr).1
  · exact List.mem_singleton.1 hr ▸ hrow

theorem Everywhere.deleteRows (h : cache.Everywhere P) (doomed : List (EmbedRow V)) : (cache.deleteRows doomed).Everywhere P :=
  fun r hr => h r (mem_deleteWhere.1 hr).1

theorem mem_hits {r : EmbedRow V} :
    r ∈ cache.hits hashes model dim ↔ r ∈ cache.rows ∧ r.key.model = model ∧ r.key.dim = dim ∧ r.key.contentHash ∈ hashes := by
  simp [hits]

/-- a look-up that returns finds just the rows of the hashes, and leaves their number and what they hold -/
theorem getCachedEmbeddings_some {found : List (String × V)} {after : EmbedCache V}
    (h : cache.getCachedEmbeddings faults now hashes model dim = some (found, after)) :
    found = (cache.hits hashes model dim).map (fun r => (r.key.contentHash, r.vector)) ∧
      after.rows.length = cache.rows.length ∧ ∀ P, cache.Everywhere P → after.Everywhere P := by
  unfold getCachedEmbeddings at h
  split at h
  · cases h
  · dsimp only at h
    split at h
    next hnone =>
      cases h
      rw [List.isEmpty_iff.1 hnone]
      exact ⟨rfl, rfl, fun P hP => hP⟩
    next =>
      split at h
      · cases h
      · cases h
        have htouches : ∀ (rows : List (EmbedRow V)) (c : EmbedCache V),
            (rows.foldl (fun c r => c.touch now ⟨r.key.contentHash, model, dim⟩) c).rows.length = c.rows.length ∧
              ∀ P, c.Everywhere P → (rows.foldl (fun c r => c.touch now ⟨r.key.contentHash, model, dim⟩) c).Everywhere P := by
          intro rows
          induction rows with
          | nil => exact fun c => ⟨rfl, fun P hP => hP⟩
          | cons r rows ih =>
            intro c
            obtain ⟨hlength, hhold⟩ := ih (c.touch now ⟨r.key.contentHash, model, dim⟩)
            exact ⟨hlength.trans (List.length_map _), fun P hP => hhold P (hP.touch now _)⟩
        exact ⟨rfl, htouches _ cache⟩

theorem putCachedEmbeddings_holds {entries : List (String × V)} {after : EmbedCache V}
    (hentries : ∀ e ∈ entries, P ⟨e.1, model, dim⟩ e.2) (hcache : cache.Everywhere P)
    (h : cache.putCachedEmbeddings faults now model dim entries = some after) : after.Everywhere P := by
  unfold putCachedEmbeddings at h
  split at h
  · exact Option.some.inj h ▸ hcache
  · split at h
    · cases h
    next hnonempty _ =>
      cases h
      clear hnonempty
      induction entries generalizing cache with
      | nil => exact hcache
      | cons e entries ih =>
        rw [List.foldl_cons]
        apply ih (fun d hd => hentries d (List.mem_cons_of_mem e hd))
        exact hcache.insertOrReplace (hentries e List.mem_cons_self)

theorem putCachedEmbeddings_returns (hput : faults.put = false) (cache : EmbedCache V) (entries : List (String × V)) :
    ∃ after, cache.putCachedEmbeddings faults now model dim entries = some after := by
  unfold putCachedEmbeddings
  split
  · exact ⟨_, rfl⟩
  · rw [if_neg (by simp [hput])]
    exact ⟨_, rfl⟩

theorem evictExcess_returns (hevict : faults.evict = false) (cache : EmbedCache V) (maxEntries : ℕ) :
    ∃ after, cache.evictExcess faults maxEntries = some after := by
  unfold evictExcess
  rw [if_neg (by simp [hevict])]
  dsimp only
  split
  · exact ⟨_, rfl⟩
  · exact ⟨_, rfl⟩

theorem evictExcess_holds {maxEntries : ℕ} {after : EmbedCache V} (hcache : cache.Everywhere P)
    (h : cache.evictExcess faults maxEntries = some after) : after.Everywhere P := by
  unfold evictExcess at h
  split at h
  · cases h
  · dsimp only at h
    split at h
    · exact Option.some.inj h ▸ hcache
    · exact Option.some.inj h ▸ hcache.deleteRows _

theorem recordCacheStats_rows {hits misses : ℕ} {after : EmbedCache V}
    (h : cache.recordCacheStats faults now hits misses = some after) : after.rows = cache.rows := by
  unfold recordCacheStats at h
  split at h
  · exact Option.some.inj h ▸ rfl
  · split at h
    · cases h
    · exact Option.some.inj h ▸ rfl

/-! ## The number of rows -/

/-- the rows that stay are the ones behind the oldest -/
theorem deleteRows_oldest_perm (cache : EmbedCache V) (n : ℕ) : (cache.deleteRows (cache.oldest n)).rows.Perm
    ((cache.rows.insertionSort fun a b => a.lastUsedAt ≤ b.lastUsedAt).drop n) := by
  have hperm := List.perm_insertionSort (fun a b : EmbedRow V => a.lastUsedAt ≤ b.lastUsedAt) cache.rows
  have hkeyed : Keyed EmbedRow.key (cache.rows.insertionSort fun a b => a.lastUsedAt ≤ b.lastUsedAt) :=
    (hperm.map EmbedRow.key).nodup_iff.2 cache.keyed
  rw [← List.take_append_drop n (cache.rows.insertionSort fun a b => a.lastUsedAt ≤ b.lastUsedAt)] at hkeyed
  have hdelete := hkeyed.deleteWhere_front
  rw [List.take_append_drop] at hdelete
  have hrows := hperm.symm.filter fun r => ¬ (cache.oldest n).any (·.key = r.key) = true
  exact hrows.trans (List.Perm.of_eq hdelete)

theorem evictExcess_length {maxEntries : ℕ} {after : EmbedCache V} (h : cache.evictExcess faults maxEntries = some after) :
    after.rows.length ≤ maxEntries := by
  unfold evictExcess at h
  split at h
  · cases h
  · dsimp only at h
    split at h
    next hfits =>
      obtain rfl := Option.some.inj h
      omega
    next =>
      obtain rfl := Option.some.inj h
      rw [(deleteRows_oldest_perm cache _).length_eq, List.length_drop, List.length_insertionSort]
      omega

end EmbedCache

end AstramemLocal.Storage
