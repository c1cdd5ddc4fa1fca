/-
Pairs of items that share a key, found through an index. `invertedIndex` collects the items of each key in a map, the keys
in the order of their first occurrence, and `sharedPairs` lists under each key of an admitted size the pairs of its items.
- `shares_of_mem`: who stands together in a pair shares its key, and the key is admitted;
- `exists_mem_sharedPairs`: two items that share an admitted key stand together in a pair.
-/
import AstramemLocal.Core.Firsts
import AstramemLocal.Core.ObjectMap

namespace AstramemLocal.Core

variable {κ α : Type*}

/-! ## Pairs of places -/

def itemPairs : List α → List (α × α)
  | [] => []
  | a :: rest => rest.map (fun b => (a, b)) ++ itemPairs rest

theorem mem_itemPairs_cons {a : α} {rest : List α} {p : α × α} :
    p ∈ itemPairs (a :: rest) ↔ (p.1 = a ∧ p.2 ∈ rest) ∨ p ∈ itemPairs rest := by
  rw [itemPairs, List.mem_append, List.mem_map]
  constructor
  · intro h
    rcases h with ⟨b, hb, rfl⟩ | h
    · exact .inl ⟨rfl, hb⟩
    · exact .inr h
  · intro h
    rcases h with ⟨rfl, hb⟩ | h
    · exact .inl ⟨p.2, hb, rfl⟩
    · exact .inr h

theorem mem_of_mem_itemPairs {l : List α} {p : α × α} (h : p ∈ itemPairs l) : p.1 ∈ l ∧ p.2 ∈ l := by
  induction l with
  | nil => cases h
  | cons a rest ih =>
    rcases mem_itemPairs_cons.1 h with ⟨rfl, hb⟩ | h
    · exact ⟨List.mem_cons_self, List.mem_cons_of_mem _ hb⟩
    · exact ⟨List.mem_cons_of_mem _ (ih h).1, List.mem_cons_of_mem _ (ih h).2⟩

theorem ne_of_mem_itemPairs {l : List α} (hnodup : l.Nodup) {p : α × α} (h : p ∈ itemPairs l) : p.1 ≠ p.2 := by
  induction l with
  | nil => cases h
  | cons a rest ih =>
    obtain ⟨hnew, hrest⟩ := List.nodup_cons.1 hnodup
    rcases mem_itemPairs_cons.1 h with ⟨rfl, hb⟩ | h
    · exact fun heq => hnew (heq ▸ hb)
    · exact ih hrest h

/-- two items of a list stand together in one order or the other -/
theorem itemPairs_total {l : List α} {a b : α} (ha : a ∈ l) (hb : b ∈ l) (hne : a ≠ b) :
    (a, b) ∈ itemPairs l ∨ (b, a) ∈ itemPairs l := by
  induction l with
  | nil => cases ha
  | cons c rest ih =>
    rw [mem_itemPairs_cons, mem_itemPairs_cons]
    rcases List.mem_cons.1 ha with rfl | hin
    · exact .inl (.inl ⟨rfl, List.mem_of_ne_of_mem hne.symm hb⟩)
    · rcases List.mem_cons.1 hb with rfl | hin'
      · exact .inr (.inl ⟨rfl, hin⟩)
      · exact (ih hin hin').imp .inr .inr

variable [DecidableEq κ]

/-! ## The index -/

/-- `map.get(key)?.push(item)`, or `map.set(key, [item])` -/
def enter (map : OwnMap κ (List α)) (entry : κ × α) : OwnMap κ (List α) :=
  OwnMap.set map entry.1 ((OwnMap.get map entry.1).getD [] ++ [entry.2])

def invertedIndex (entries : List (κ × α)) : OwnMap κ (List α) := entries.foldl enter []

/-- the items entered under a key -/
def postings (entries : List (κ × α)) (key : κ) : List α := (entries.filter (·.1 = key)).map Prod.snd

variable {entries : List (κ × α)} {map : OwnMap κ (List α)} {key : κ}

@[simp] theorem mem_postings {a : α} : a ∈ postings entries key ↔ (key, a) ∈ entries := by
  simp [postings]

theorem postings_concat (entry : κ × α) :
    postings (entries ++ [entry]) key = postings entries key ++ if entry.1 = key then [entry.2] else [] := by
  by_cases h : entry.1 = key
  · simp [postings, h]
  · simp [postings, h]

/-- what the map holds behind some entries: each key once, with all its items -/
structure Inverted (entries : List (κ × α)) (map : OwnMap κ (List α)) : Prop where
  keyed : Keyed Prod.fst map
  keys : ∀ key, key ∈ map.map Prod.fst ↔ key ∈ entries.map Prod.fst
  lists : ∀ e ∈ map, e.2 = postings entries e.1

theorem Inverted.enter (h : Inverted entries map) (entry : κ × α) : Inverted (entries ++ [entry]) (Core.enter map entry) := by
  unfold Core.enter
  cases hget : OwnMap.get map entry.1 with
  | none =>
    have hnew : entry.1 ∉ map.map Prod.fst := OwnMap.get_eq_none.1 hget
    rw [OwnMap.set_new hget]
    refine ⟨?_, ?_, ?_⟩
    · rw [← OwnMap.set_new hget]
      exact OwnMap.keyed_set h.keyed
    · intro key
      rw [List.map_append, List.map_append, List.mem_append, List.mem_append, h.keys]
      rfl
    · intro e he
      rw [postings_concat]
      rcases List.mem_append.1 he with he | he
      · have hne : entry.1 ≠ e.1 := fun heq => hnew (heq ▸ List.mem_map_of_mem he)
        rw [if_neg hne, List.append_nil]
        exact h.lists e he
      · have hnone : postings entries entry.1 = [] := by
          rw [List.eq_nil_iff_forall_not_mem]
          intro a ha
          exact hnew ((h.keys entry.1).2 (List.mem_map.2 ⟨_, mem_postings.1 ha, rfl⟩))
        rw [List.mem_singleton.1 he, if_pos rfl, hnone]
        rfl
  | some old =>
    have hold : (entry.1, old) ∈ map := OwnMap.mem_of_get hget
    refine ⟨OwnMap.keyed_set h.keyed, ?_, ?_⟩
    · intro key
      have hin : entry.1 ∈ entries.map Prod.fst := (h.keys entry.1).1 (List.mem_map_of_mem (f := Prod.fst) hold)
      rw [OwnMap.map_fst_set_own hget, h.keys, List.map_append, List.mem_append]
      constructor
      · exact .inl
      · intro hkey
        rcases hkey with hkey | hkey
        · exact hkey
        · exact List.mem_singleton.1 hkey ▸ hin
    · intro e he
      rw [OwnMap.set_own hget] at he
      obtain ⟨f, hf, rfl⟩ := List.mem_map.1 he
      rw [postings_concat]
      by_cases heq : f.1 = entry.1
      · rw [if_pos heq, if_pos rfl, ← h.lists _ hold]
        rfl
      · rw [if_neg heq, if_neg (Ne.symm heq), List.append_nil]
        exact h.lists f hf

theorem inverted_invertedIndex (entries : List (κ × α)) : Inverted entries (invertedIndex entries) := by
  induction entries using List.reverseRecOn with
  | nil => exact ⟨List.nodup_nil, fun _ => Iff.rfl, fun e he => by cases he⟩
  | append_singleton entries entry ih =>
    rw [invertedIndex, List.foldl_concat]
    exact ih.enter entry

/-! ## Pairs of items under a key -/

variable [DecidableEq α]

/-- the items of a key, each once -/
def holders (entries : List (κ × α)) (key : κ) : List α := firsts id (postings entries key)

@[simp] theorem mem_holders {a : α} : a ∈ holders entries key ↔ (key, a) ∈ entries := by
  have h : a ∈ (firsts id (postings entries key)).map id ↔ a ∈ (postings entries key).map id := mem_keys_firsts
  rw [List.map_id, List.map_id, mem_postings] at h
  exact h

theorem nodup_holders : (holders entries key).Nodup := by
  have h : ((firsts id (postings entries key)).map id).Nodup := nodup_firsts
  rwa [List.map_id] at h

/-- under each key with an admitted number of items the pairs of its items, key by key -/
def sharedPairs (admitted : ℕ → Bool) (map : OwnMap κ (List α)) : List (κ × α × α) :=
  map.flatMap fun e =>
    let unique := firsts id e.2
    if admitted unique.length then (itemPairs unique).map fun p => (e.1, p) else []

variable {admitted : ℕ → Bool} {a b : α}

theorem mem_sharedPairs : (key, a, b) ∈ sharedPairs admitted (invertedIndex entries) ↔
    admitted (holders entries key).length = true ∧ (a, b) ∈ itemPairs (holders entries key) := by
  have hindex := inverted_invertedIndex entries
  rw [sharedPairs, List.mem_flatMap]
  constructor
  · intro h
    obtain ⟨e, he, hmem⟩ := h
    rw [hindex.lists e he] at hmem
    change _ ∈ (if admitted (holders entries e.1).length then (itemPairs (holders entries e.1)).map fun p => (e.1, p) else [])
      at hmem
    split at hmem
    next hadmitted =>
      obtain ⟨p, hp, heq⟩ := List.mem_map.1 hmem
      obtain ⟨rfl, rfl⟩ := Prod.mk.inj heq
      exact ⟨hadmitted, hp⟩
    next => cases hmem
  · intro h
    obtain ⟨hadmitted, hpair⟩ := h
    have hentry : (key, a) ∈ entries := mem_holders.1 (mem_of_mem_itemPairs hpair).1
    obtain ⟨e, he, rfl⟩ := List.mem_map.1 ((hindex.keys key).2 (List.mem_map_of_mem (f := Prod.fst) hentry))
    refine ⟨e, he, ?_⟩
    rw [hindex.lists e he]
    change _ ∈ (if admitted (holders entries e.1).length then (itemPairs (holders entries e.1)).map fun p => (e.1, p) else [])
    rw [if_pos hadmitted]
    exact List.mem_map_of_mem hpair

/-- **Soundness of the index.** Who stands together in a pair shares its key, and the key is admitted. -/
theorem shares_of_mem (h : (key, a, b) ∈ sharedPairs admitted (invertedIndex entries)) :
    a ≠ b ∧ (key, a) ∈ entries ∧ (key, b) ∈ entries ∧ admitted (holders entries key).length = true := by
  obtain ⟨hadmitted, hpair⟩ := mem_sharedPairs.1 h
  obtain ⟨ha, hb⟩ := mem_of_mem_itemPairs hpair
  exact ⟨ne_of_mem_itemPairs nodup_holders hpair, mem_holders.1 ha, mem_holders.1 hb, hadmitted⟩

/-- **Completeness of the index.** Two items that share an admitted key stand together in a pair. -/
theorem exists_mem_sharedPairs (hne : a ≠ b) (ha : (key, a) ∈ entries) (hb : (key, b) ∈ entries)
    (hadmitted : admitted (holders entries key).length = true) :
    (key, a, b) ∈ sharedPairs admitted (invertedIndex entries) ∨ (key, b, a) ∈ sharedPairs admitted (invertedIndex entries) := by
  rw [mem_sharedPairs, mem_sharedPairs]
  exact (itemPairs_total (mem_holders.2 ha) (mem_holders.2 hb) hne).imp (fun h => ⟨hadmitted, h⟩) (fun h => ⟨hadmitted, h⟩)

end AstramemLocal.Core
