/-
`chunk-checkpoint.ts`: the per-chunk results of stages 4 and 5, kept across the retries of a distill job. A key is the
four parts joined by NUL, and the parts behind the job key hold none, so a key determines them (`CacheId.key_inj`). The
map holds one entry a key and at most `maxEntries` of them (`length_set_le`); setting an entry and clearing a job never
bring one back (`get_set_of_ne`, `get_of_clear`).
-/
import AstramemLocal.Core.Joined
import AstramemLocal.Core.Table
import Mathlib.Data.List.Infix

namespace AstramemLocal.Distill

open AstramemLocal.Core

/-! ## Keys -/

inductive ExtractProfile where
  | engineering | conversational
deriving DecidableEq, Repr

inductive Stage where
  | compact | extract
deriving DecidableEq, Repr

def Stage.text : Stage → String
  | .compact => "compact"
  | .extract => "extract"

/-- the `variant` arguments of the callers: none, pass A's profile, or pass B -/
inductive Variant where
  | none
  | profile (p : ExtractProfile)
  | specificsSweeper
deriving DecidableEq, Repr

def Variant.text : Variant → String
  | .none => ""
  | .profile .engineering => "engineering"
  | .profile .conversational => "conversational"
  | .specificsSweeper => "specifics-sweeper"

structure CacheId where
  jobKey : String
  stage : Stage
  index : ℕ
  variant : Variant
deriving DecidableEq, Repr

def nul : Char := Char.ofNat 0

def CacheId.key (k : CacheId) : String :=
  (String.singleton nul).intercalate [k.jobKey, k.stage.text, k.variant.text, k.index.repr]

theorem Stage.text_inj {s t : Stage} (h : s.text = t.text) : s = t := by
  cases s <;> cases t <;> first | rfl | exact absurd h (by decide)

theorem Variant.text_inj {v w : Variant} (h : v.text = w.text) : v = w := by
  rcases v with _ | (_ | _) | _ <;> rcases w with _ | (_ | _) | _ <;> first | rfl | exact absurd h (by decide)

theorem nul_notMem_stage (s : Stage) : nul ∉ s.text.toList := by
  cases s <;> decide

theorem nul_notMem_variant (v : Variant) : nul ∉ v.text.toList := by
  rcases v with _ | (_ | _) | _ <;> decide

theorem nul_notMem_index (n : ℕ) : nul ∉ n.repr.toList := by
  intro h
  exact absurd (natText_chars h) (by decide)

theorem CacheId.parts_free (k : CacheId) : ∀ part ∈ [k.stage.text, k.variant.text, k.index.repr], nul ∉ part.toList := by
  intro part hpart
  simp only [List.mem_cons, List.not_mem_nil, or_false] at hpart
  rcases hpart with rfl | rfl | rfl
  · exact nul_notMem_stage _
  · exact nul_notMem_variant _
  · exact nul_notMem_index _

theorem CacheId.key_inj {k k' : CacheId} (h : k.key = k'.key) : k = k' := by
  unfold CacheId.key at h
  obtain ⟨hjob, hrest⟩ := joined_inj (by simp) k.parts_free k'.parts_free h
  simp only [List.cons.injEq, and_true] at hrest
  obtain ⟨hstage, hvariant, hindex⟩ := hrest
  cases k
  cases k'
  simp only [CacheId.mk.injEq]
  exact ⟨hjob, Stage.text_inj hstage, natText_inj hindex, Variant.text_inj hvariant⟩

/-! ## The store -/

structure ChunkCheckpointStore (V : Type*) where
  /-- the `Map`, in insertion order -/
  cache : List (String × V)
  maxEntries : ℕ
  keyed : Keyed Prod.fst cache

namespace ChunkCheckpointStore

variable {V : Type*}

def empty (maxEntries : ℕ := 5000) : ChunkCheckpointStore V := ⟨[], maxEntries, List.nodup_nil⟩

def get (s : ChunkCheckpointStore V) (k : CacheId) : Option V := (lookup Prod.fst k.key s.cache).map Prod.snd

/-- the entries that make room for a new key: a full map loses its oldest -/
def evicted (s : ChunkCheckpointStore V) (k : CacheId) : List (String × V) :=
  if (s.get k).isNone ∧ s.maxEntries ≤ s.cache.length then s.cache.tail else s.cache

/-- a `Map` keeps the place of a key it has -/
def put (k : String) (v : V) (entries : List (String × V)) : List (String × V) :=
  if (lookup Prod.fst k entries).isSome then updateWhere (·.1 = k) (fun e => (e.1, v)) entries else entries ++ [(k, v)]

theorem keyed_evicted (s : ChunkCheckpointStore V) (k : CacheId) : Keyed Prod.fst (s.evicted k) := by
  unfold evicted
  split
  · exact s.keyed.sublist ((List.tail_sublist _).map _)
  · exact s.keyed

theorem keyed_put {k : String} {v : V} {entries : List (String × V)} (h : Keyed Prod.fst entries) :
    Keyed Prod.fst (put k v entries) := by
  unfold put
  split
  · exact h.updateWhere fun _ => rfl
  next hnone =>
    rw [Bool.not_eq_true, Option.isSome_eq_false_iff, Option.isNone_iff_eq_none, lookup_eq_none] at hnone
    exact h.insert hnone

def set (s : ChunkCheckpointStore V) (k : CacheId) (v : V) : ChunkCheckpointStore V where
  cache := put k.key v (s.evicted k)
  maxEntries := s.maxEntries
  keyed := keyed_put (s.keyed_evicted k)

def clear (s : ChunkCheckpointStore V) (jobKey : String) : ChunkCheckpointStore V where
  cache := deleteWhere (fun e => (jobKey.toList ++ [nul]) <+: e.1.toList) s.cache
  maxEntries := s.maxEntries
  keyed := s.keyed.deleteWhere

/-! ## What a store finds -/

theorem lookup_put {k k' : String} {v : V} {entries : List (String × V)} :
    lookup Prod.fst k' (put k v entries) = if k' = k then some (k, v) else lookup Prod.fst k' entries := by
  unfold put
  split
  next h =>
    rw [lookup_updateWhere (f := fun e => (e.1, v)) fun _ => rfl]
    obtain ⟨e, he⟩ := Option.isSome_iff_exists.1 h
    by_cases hk : k' = k
    · subst hk
      rw [if_pos rfl, he, Option.map_some, if_pos (lookup_mem he).2, (lookup_mem he).2]
    · rw [if_neg hk]
      cases hl : lookup Prod.fst k' entries with
      | none => rfl
      | some e' =>
        have hne : e'.1 ≠ k := fun h => hk ((lookup_mem hl).2.symm.trans h)
        rw [Option.map_some, if_neg hne]
  next h =>
    rw [Bool.not_eq_true, Option.isSome_eq_false_iff, Option.isNone_iff_eq_none] at h
    rw [lookup_insert]
    by_cases hk : k' = k
    · subst hk
      rw [if_pos rfl, h, if_pos rfl, Option.none_or]
    · rw [if_neg hk, if_neg (Ne.symm hk), Option.or_none]

theorem get_set_self (s : ChunkCheckpointStore V) (k : CacheId) (v : V) : (s.set k v).get k = some v := by
  simp only [get, set, lookup_put, if_pos, Option.map_some]

/-- an entry of a sublist is an entry of the table -/
theorem lookup_sublist {entries kept : List (String × V)} (h : Keyed Prod.fst entries) (hsub : kept.Sublist entries)
    {k : String} {e : String × V} (hl : lookup Prod.fst k kept = some e) : lookup Prod.fst k entries = some e := by
  obtain ⟨hmem, rfl⟩ := lookup_mem hl
  exact lookup_of_mem h (hsub.subset hmem)

/-- no other entry comes in -/
theorem get_set_of_ne {s : ChunkCheckpointStore V} {k k' : CacheId} {v w : V} (hk : k' ≠ k)
    (h : (s.set k v).get k' = some w) : s.get k' = some w := by
  have hkey : k'.key ≠ k.key := fun h => hk (CacheId.key_inj h)
  simp only [get, set, lookup_put, if_neg hkey] at h
  obtain ⟨e, he, rfl⟩ := Option.map_eq_some_iff.1 h
  have hsub : (s.evicted k).Sublist s.cache := by
    unfold evicted
    split
    · exact List.tail_sublist _
    · exact List.Sublist.refl _
  exact Option.map_eq_some_iff.2 ⟨e, lookup_sublist s.keyed hsub he, rfl⟩

theorem get_of_clear {s : ChunkCheckpointStore V} {jobKey : String} {k : CacheId} {v : V}
    (h : (s.clear jobKey).get k = some v) : s.get k = some v := by
  obtain ⟨e, he, rfl⟩ := Option.map_eq_some_iff.1 h
  exact Option.map_eq_some_iff.2 ⟨e, lookup_sublist s.keyed List.filter_sublist he, rfl⟩

theorem key_prefix (k : CacheId) : (k.jobKey.toList ++ [nul]) <+: k.key.toList := by
  refine ⟨((String.singleton nul).intercalate [k.stage.text, k.variant.text, k.index.repr]).toList, ?_⟩
  rw [CacheId.key, String.intercalate_cons_cons]
  simp

/-- a cleared job has no entry left, whatever the stage and the variant -/
theorem get_clear_self (s : ChunkCheckpointStore V) (k : CacheId) : (s.clear k.jobKey).get k = none := by
  rw [get, Option.map_eq_none_iff]
  unfold clear
  rw [lookup_deleteWhere s.keyed, Option.filter_eq_none_iff]
  intro e he
  rw [(lookup_mem he).2]
  simpa using key_prefix k

/-- the map is never larger than the cap (than one entry, for a cap of zero) -/
theorem length_set_le {s : ChunkCheckpointStore V} {k : CacheId} {v : V} (h : s.cache.length ≤ max 1 s.maxEntries) :
    (s.set k v).cache.length ≤ max 1 (s.set k v).maxEntries := by
  change (put k.key v (s.evicted k)).length ≤ max 1 s.maxEntries
  have hle : (s.evicted k).length ≤ s.cache.length := by
    unfold evicted
    split
    · rw [List.length_tail]
      omega
    · exact le_rfl
  unfold put
  split
  · rw [updateWhere, List.length_map]
    omega
  next hnone =>
    rw [List.length_append, List.length_singleton]
    unfold evicted at hnone ⊢
    split
    · rw [List.length_tail]
      omega
    next hroom =>
      rw [if_neg hroom] at hnone
      have hmiss : (s.get k).isNone := by
        rw [Bool.not_eq_true, Option.isSome_eq_false_iff, Option.isNone_iff_eq_none] at hnone
        rw [get, hnone]
        rfl
      have hlt : s.cache.length < s.maxEntries := by
        by_contra hfull
        exact hroom ⟨hmiss, by omega⟩
      omega

end ChunkCheckpointStore

end AstramemLocal.Distill
