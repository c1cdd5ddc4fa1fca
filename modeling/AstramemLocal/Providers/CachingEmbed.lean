/-
The embedding provider with a cache in front (`src/providers/embed/cache.ts`): one look-up for the batch, one call of the
inner provider with the texts that were not found, each once, and the new vectors written back. The cache changes while the
inner provider answers, as other calls run (`meanwhile`). A vector is the same value in a row as in an answer.
- `embed_transparent`: a call returns the inner provider's vectors and keeps the cache faithful, whatever fails, and when it
  writes it leaves at most `maxEntries` rows;
- `run_faithful`, `run_bounded`: so do runs of batches, and a run without failing writes stays within the cap;
- `hits_leave_excess`: a batch that is found as a whole leaves a table above the cap as it is.
-/
import AstramemLocal.Storage.EmbedCache
import Mathlib.Data.List.Induction

namespace AstramemLocal.Providers

open AstramemLocal.Core AstramemLocal.Storage

variable {V ε : Type}

/-! ## The provider -/

structure EmbedProvider (V ε : Type) where
  model : String
  dim : ℕ
  embed : List String → Except ε (List V)

inductive EmbedError (ε : Type) where
  | inner (e : ε)
  | noVector (missTextIdx : Option ℕ) (hash : String)
deriving DecidableEq

def defaultMaxEntries : ℕ := 20000

structure CachingEmbedProvider (V ε : Type) where
  inner : EmbedProvider V ε
  contentHash : String → String
  maxEntries : ℕ := defaultMaxEntries

def cachedVector (cached : List (String × V)) (hash : String) : Option V := (lookup Prod.fst hash cached).map Prod.snd

/-- the batch after the look-up: `results` by position, and the texts that were not found -/
structure Plan (V : Type) where
  results : List (Option V)
  missTexts : List String
  missIndices : List ℕ
  /-- a `Map` from a hash to its place in `missTexts` -/
  missHashSeen : List (String × ℕ)

def planStep (contentHash : String → String) (cached : List (String × V)) (p : Plan V) (text : String) : Plan V :=
  let hash := contentHash text
  let i := p.results.length
  match cachedVector cached hash with
  | some hit => { p with results := p.results ++ [some hit] }
  | none =>
    if (lookup Prod.fst hash p.missHashSeen).isSome then
      { p with results := p.results ++ [none], missIndices := p.missIndices ++ [i] }
    else ⟨p.results ++ [none], p.missTexts ++ [text], p.missIndices ++ [i],
      p.missHashSeen ++ [(hash, p.missTexts.length)]⟩

def plan (contentHash : String → String) (cached : List (String × V)) (texts : List String) : Plan V :=
  texts.foldl (planStep contentHash cached) ⟨[], [], [], []⟩

def resolveMiss (hashes : List String) (p : Plan V) (missVectors : List V) (results : List (Option V)) (i : ℕ) :
    Except (EmbedError ε) (List (Option V)) :=
  let hash := hashes.getD i ""
  let missTextIdx := (lookup Prod.fst hash p.missHashSeen).map Prod.snd
  match missTextIdx.bind (missVectors[·]?) with
  | none => .error (.noVector missTextIdx hash)
  | some vec => .ok (results.set i (some vec))

def resolve (hashes : List String) (p : Plan V) (missVectors : List V) : Except (EmbedError ε) (List (Option V)) :=
  p.missIndices.foldlM (resolveMiss hashes p missVectors) p.results

def newEntries (p : Plan V) (missVectors : List V) : List (String × V) :=
  p.missHashSeen.filterMap fun seen => (missVectors[seen.2]?).map (seen.1, ·)

/-- what a call meets -/
structure Circumstances (V : Type) where
  faults : CacheFaults := {}
  readAt : ℤ
  putAt : ℤ
  statsAt : ℤ
  /-- what other calls do to the cache while the inner provider answers -/
  meanwhile : EmbedCache V → EmbedCache V := id

structure EmbedCall (V ε : Type) where
  result : Except (EmbedError ε) (List (Option V))
  innerCalls : List (List String)
  cache : EmbedCache V

namespace CachingEmbedProvider

variable (C : CachingEmbedProvider V ε) (w : Circumstances V)

/-- what is found, and the cache after the look-up; a look-up that fails finds nothing -/
def read (texts : List String) (cache : EmbedCache V) : List (String × V) × EmbedCache V :=
  (cache.getCachedEmbeddings w.faults w.readAt (texts.map C.contentHash) C.inner.model C.inner.dim).getD ([], cache)

/-- an eviction that fails leaves what was put, and without the put there is none -/
def store (entries : List (String × V)) (cache : EmbedCache V) : EmbedCache V :=
  match cache.putCachedEmbeddings w.faults w.putAt C.inner.model C.inner.dim entries with
  | none => cache
  | some put => (put.evictExcess w.faults C.maxEntries).getD put

def countStats (hits misses : ℕ) (cache : EmbedCache V) : EmbedCache V :=
  (cache.recordCacheStats w.faults w.statsAt hits misses).getD cache

def embed (texts : List String) (cache : EmbedCache V) : EmbedCall V ε :=
  if texts.isEmpty then ⟨.ok [], [], cache⟩
  else
    let (cached, cache) := C.read w texts cache
    let p := plan C.contentHash cached texts
    let count := countStats w (texts.length - p.missHashSeen.length) p.missHashSeen.length
    if p.missTexts.isEmpty then ⟨.ok p.results, [], count cache⟩
    else
      match C.inner.embed p.missTexts with
      | .error e => ⟨.error (.inner e), [p.missTexts], w.meanwhile cache⟩
      | .ok missVectors =>
        match resolve (texts.map C.contentHash) p missVectors with
        | .error e => ⟨.error e, [p.missTexts], w.meanwhile cache⟩
        | .ok results =>
          ⟨.ok results, [p.missTexts], count (C.store w (newEntries p missVectors) (w.meanwhile cache))⟩

end CachingEmbedProvider

/-! ## What is to be embedded -/

section
variable {contentHash : String → String} {cached : List (String × V)} {texts : List String} {p : Plan V}

/-- the plan of the texts that have been gone through -/
structure Planned (contentHash : String → String) (cached : List (String × V)) (texts : List String) (p : Plan V) : Prop where
  results : p.results = texts.map fun t => cachedVector cached (contentHash t)
  once : p.missTexts.Nodup
  missed : ∀ t, t ∈ p.missTexts ↔ t ∈ texts ∧ cachedVector cached (contentHash t) = none
  indices : ∀ i, i ∈ p.missIndices ↔ ∃ t, texts[i]? = some t ∧ cachedVector cached (contentHash t) = none
  seen : p.missHashSeen = p.missTexts.zipIdx.map fun e => (contentHash e.1, e.2)

/-- the place of a hash is that of its text -/
theorem Planned.seen_some (hinj : Function.Injective contentHash) (h : Planned contentHash cached texts p) {t : String} {e : String × ℕ}
    (hseen : lookup Prod.fst (contentHash t) p.missHashSeen = some e) : p.missTexts[e.2]? = some t := by
  obtain ⟨hmem, hkey⟩ := lookup_mem hseen
  rw [h.seen] at hmem
  obtain ⟨⟨u, i⟩, hu, rfl⟩ := List.mem_map.1 hmem
  obtain rfl := hinj hkey
  exact List.mem_zipIdx_iff_getElem?.1 hu

theorem Planned.seen_none (h : Planned contentHash cached texts p) {t : String}
    (hseen : lookup Prod.fst (contentHash t) p.missHashSeen = none) : t ∉ p.missTexts := by
  intro ht
  obtain ⟨i, hi⟩ := List.mem_iff_getElem?.1 ht
  have hmem : (contentHash t, i) ∈ p.missHashSeen := by
    rw [h.seen]
    exact List.mem_map.2 ⟨(t, i), List.mem_zipIdx_iff_getElem?.2 hi, rfl⟩
  exact lookup_eq_none.1 hseen _ hmem rfl

theorem getElem?_snoc {t u : String} {i : ℕ} :
    (texts ++ [t])[i]? = some u ↔ texts[i]? = some u ∨ i = texts.length ∧ t = u := by
  rcases lt_trichotomy i texts.length with hlt | rfl | hgt
  · rw [List.getElem?_append_left hlt]
    simp [hlt.ne]
  · simp
  · rw [List.getElem?_append_right hgt.le, List.getElem?_eq_none hgt.le, List.getElem?_eq_none (by simpa using by omega)]
    simp [hgt.ne']

theorem missedAt_snoc {q : String → Prop} {t : String} {i : ℕ} : (∃ u, (texts ++ [t])[i]? = some u ∧ q u) ↔
    (∃ u, texts[i]? = some u ∧ q u) ∨ i = texts.length ∧ q t := by
  constructor
  · intro h
    obtain ⟨u, hu, hq⟩ := h
    rcases getElem?_snoc.1 hu with hu | ⟨hi, rfl⟩
    · exact .inl ⟨u, hu, hq⟩
    · exact .inr ⟨hi, hq⟩
  · intro h
    rcases h with ⟨u, hu, hq⟩ | ⟨hi, hq⟩
    · exact ⟨u, getElem?_snoc.2 (.inl hu), hq⟩
    · exact ⟨t, getElem?_snoc.2 (.inr ⟨hi, rfl⟩), hq⟩

theorem missed_snoc {q : String → Prop} {t u : String} : u ∈ texts ++ [t] ∧ q u ↔ (u ∈ texts ∧ q u) ∨ u = t ∧ q t := by
  rw [List.mem_append, List.mem_singleton, or_and_right]
  apply or_congr_right
  apply and_congr_right
  rintro rfl
  exact Iff.rfl

/-- **A step of the loop.** -/
theorem planStep_planned (hinj : Function.Injective contentHash) (h : Planned contentHash cached texts p) (t : String) :
    Planned contentHash cached (texts ++ [t]) (planStep contentHash cached p t) := by
  have hlength : p.results.length = texts.length := by rw [h.results, List.length_map]
  unfold planStep
  dsimp only
  cases hhit : cachedVector cached (contentHash t) with
  | some hit =>
    refine ⟨?_, h.once, ?_, ?_, h.seen⟩
    · rw [h.results, List.map_append, List.map_singleton, hhit]
    · intro u
      rw [h.missed, missed_snoc (q := fun t => cachedVector cached (contentHash t) = none), hhit]
      simp
    · intro i
      rw [h.indices, missedAt_snoc (q := fun t => cachedVector cached (contentHash t) = none), hhit]
      simp
  | none =>
    have hresults : p.results ++ [none] = (texts ++ [t]).map fun t => cachedVector cached (contentHash t) := by
      rw [h.results, List.map_append, List.map_singleton, hhit]
    have hindices : ∀ i, i ∈ p.missIndices ++ [p.results.length] ↔
        ∃ u, (texts ++ [t])[i]? = some u ∧ cachedVector cached (contentHash u) = none := by
      intro i
      rw [List.mem_append, List.mem_singleton, h.indices, hlength,
        missedAt_snoc (q := fun t => cachedVector cached (contentHash t) = none), hhit]
      simp
    have hmissed : ∀ u, u ∈ p.missTexts ∨ u = t ↔ u ∈ texts ++ [t] ∧ cachedVector cached (contentHash u) = none := by
      intro u
      rw [h.missed, missed_snoc (q := fun t => cachedVector cached (contentHash t) = none), hhit]
      simp
    dsimp only
    cases hseen : lookup Prod.fst (contentHash t) p.missHashSeen with
    | some e =>
      -- a second occurrence: the text is there already
      have ht : t ∈ p.missTexts := List.mem_of_getElem? (h.seen_some hinj hseen)
      refine ⟨hresults, h.once, ?_, hindices, h.seen⟩
      intro u
      rw [← hmissed]
      exact ⟨.inl, fun hu => hu.elim id fun heq => heq ▸ ht⟩
    | none =>
      refine ⟨hresults, ?_, ?_, hindices, ?_⟩
      · exact h.once.append (List.nodup_singleton t) (List.disjoint_singleton.2 (h.seen_none hseen))
      · intro u
        rw [← hmissed]
        exact List.mem_append.trans (or_congr_right List.mem_singleton)
      · change p.missHashSeen ++ [(contentHash t, p.missTexts.length)] = (p.missTexts ++ [t]).zipIdx.map _
        rw [List.zipIdx_append, List.map_append, ← h.seen]
        simp

theorem plan_planned (hinj : Function.Injective contentHash) (cached : List (String × V)) (texts : List String) :
    Planned contentHash cached texts (plan contentHash cached texts) := by
  induction texts using List.reverseRecOn with
  | nil => exact ⟨rfl, List.nodup_nil, by simp [plan], by simp [plan], rfl⟩
  | append_singleton texts t ih =>
    rw [plan, List.foldl_append]
    exact planStep_planned hinj ih t

end

/-! ## What the vectors are -/

theorem foldlM_set {ε α : Type} {step : List α → ℕ → Except ε (List α)} {g : ℕ → α} {is : List ℕ}
    (hstep : ∀ i ∈ is, ∀ rs, step rs i = .ok (rs.set i (g i))) (rs : List α) :
    is.foldlM step rs = .ok (is.foldl (fun rs i => rs.set i (g i)) rs) := by
  induction is generalizing rs with
  | nil => rfl
  | cons i is ih =>
    rw [List.foldlM_cons, hstep i List.mem_cons_self]
    exact ih (fun j hj => hstep j (List.mem_cons_of_mem i hj)) _

theorem getElem?_foldl_set {α : Type} {g : ℕ → α} (is : List ℕ) (rs : List α) (j : ℕ) :
    (is.foldl (fun rs i => rs.set i (g i)) rs)[j]? = if j ∈ is then (rs[j]?).map fun _ => g j else rs[j]? := by
  induction is generalizing rs with
  | nil => simp
  | cons i is ih =>
    rw [List.foldl_cons, ih, List.getElem?_set]
    by_cases hij : i = j
    · subst hij
      by_cases hi : i < rs.length
      · simp [hi]
      · simp [hi]
    · have hji : j ≠ i := fun heq => hij heq.symm
      simp [hij, hji]

section
variable {contentHash : String → String} {cached : List (String × V)} {texts : List String} {p : Plan V} {vec : String → V}

/-- a position that was missed gets the vector of its text -/
theorem resolveMiss_planned (hinj : Function.Injective contentHash) (h : Planned contentHash cached texts p) {i : ℕ}
    (hi : i ∈ p.missIndices) (rs : List (Option V)) :
    resolveMiss (texts.map contentHash) p (p.missTexts.map vec) rs i =
      (.ok (rs.set i ((texts[i]?).map vec)) : Except (EmbedError ε) _) := by
  obtain ⟨t, ht, hmiss⟩ := (h.indices i).1 hi
  have hmem : t ∈ p.missTexts := (h.missed t).2 ⟨List.mem_of_getElem? ht, hmiss⟩
  have hhash : (texts.map contentHash).getD i "" = contentHash t := by
    rw [List.getD_eq_getElem?_getD, List.getElem?_map, ht]
    rfl
  unfold resolveMiss
  rw [hhash]
  cases hseen : lookup Prod.fst (contentHash t) p.missHashSeen with
  | none => exact absurd hmem (h.seen_none hseen)
  | some e =>
    dsimp only
    rw [hseen, Option.map_some, Option.bind_some, List.getElem?_map, h.seen_some hinj hseen, ht]
    rfl

/-- every position gets the vector of its text -/
theorem resolve_planned (hinj : Function.Injective contentHash) (h : Planned contentHash cached texts p)
    (hcached : ∀ t v, cachedVector cached (contentHash t) = some v → v = vec t) :
    resolve (texts.map contentHash) p (p.missTexts.map vec) = (.ok (texts.map (some ∘ vec)) : Except (EmbedError ε) _) := by
  rw [resolve, foldlM_set fun i hi rs => resolveMiss_planned hinj h hi rs]
  congr 1
  apply List.ext_getElem?
  intro j
  rw [getElem?_foldl_set, h.results, List.getElem?_map, List.getElem?_map]
  cases ht : texts[j]? with
  | none => simp
  | some t =>
    cases hhit : cachedVector cached (contentHash t) with
    | none =>
      rw [if_pos ((h.indices j).2 ⟨t, ht, hhit⟩)]
      simp
    | some v =>
      have hj : j ∉ p.missIndices := by
        intro hj
        obtain ⟨u, hu, hmiss⟩ := (h.indices j).1 hj
        obtain rfl := Option.some.inj (ht.symm.trans hu)
        cases hhit.symm.trans hmiss
      rw [if_neg hj]
      simp [hhit, hcached t v hhit]

/-- a batch that is found as a whole -/
theorem results_planned (h : Planned contentHash cached texts p) (hnone : p.missTexts = [])
    (hcached : ∀ t v, cachedVector cached (contentHash t) = some v → v = vec t) : p.results = texts.map (some ∘ vec) := by
  rw [h.results]
  apply List.map_congr_left
  intro t ht
  cases hhit : cachedVector cached (contentHash t) with
  | none => exact absurd ((h.missed t).2 ⟨ht, hhit⟩) (hnone ▸ List.not_mem_nil)
  | some v => rw [hcached t v hhit, Function.comp_apply]

/-- what is written back is the vector of a text under its hash -/
theorem newEntries_planned (h : Planned contentHash cached texts p) {e : String × V}
    (he : e ∈ newEntries p (p.missTexts.map vec)) : ∃ t, e = (contentHash t, vec t) := by
  obtain ⟨seen, hseen, hvec⟩ := List.mem_filterMap.1 he
  rw [h.seen] at hseen
  obtain ⟨⟨t, i⟩, ht, rfl⟩ := List.mem_map.1 hseen
  rw [List.getElem?_map, List.mem_zipIdx_iff_getElem?.1 ht] at hvec
  exact ⟨t, (Option.some.inj hvec).symm⟩

end

/-! ## Transparency -/

namespace CachingEmbedProvider

variable {C : CachingEmbedProvider V ε} {w : Circumstances V} {vec : String → V} {texts : List String} {cache : EmbedCache V}

/-- the inner provider gives each text its own vector, whatever the batch -/
def Pointwise (C : CachingEmbedProvider V ε) (vec : String → V) : Prop :=
  ∀ ts vectors, C.inner.embed ts = .ok vectors → vectors = ts.map vec

/-- a row of this model and dimension holds the vector of the text of its hash -/
def Holds (C : CachingEmbedProvider V ε) (vec : String → V) (key : EmbedKey) (v : V) : Prop :=
  key.model = C.inner.model → key.dim = C.inner.dim → ∀ t, C.contentHash t = key.contentHash → v = vec t

def Faithful (C : CachingEmbedProvider V ε) (vec : String → V) (cache : EmbedCache V) : Prop := cache.Everywhere (C.Holds vec)

def Cached (C : CachingEmbedProvider V ε) (cache : EmbedCache V) (t : String) : Prop :=
  ∃ r ∈ cache.rows, r.key = ⟨C.contentHash t, C.inner.model, C.inner.dim⟩

/-- the look-up throws -/
def ReadFails (C : CachingEmbedProvider V ε) (w : Circumstances V) (texts : List String) (cache : EmbedCache V) : Prop :=
  cache.getCachedEmbeddings w.faults w.readAt (texts.map C.contentHash) C.inner.model C.inner.dim = none

theorem read_after (C : CachingEmbedProvider V ε) (w : Circumstances V) (texts : List String) (cache : EmbedCache V) :
    (C.read w texts cache).2.rows.length = cache.rows.length ∧
      ∀ P, cache.Everywhere P → (C.read w texts cache).2.Everywhere P := by
  unfold read
  cases h : cache.getCachedEmbeddings w.faults w.readAt (texts.map C.contentHash) C.inner.model C.inner.dim with
  | none => exact ⟨rfl, fun P hP => hP⟩
  | some found => exact (EmbedCache.getCachedEmbeddings_some h).2

theorem read_vector (hcache : C.Faithful vec cache) {t : String} {v : V}
    (h : cachedVector (C.read w texts cache).1 (C.contentHash t) = some v) : v = vec t := by
  obtain ⟨e, he, rfl⟩ := Option.map_eq_some_iff.1 h
  obtain ⟨hmem, hkey⟩ := lookup_mem he
  unfold read at hmem
  cases hread : cache.getCachedEmbeddings w.faults w.readAt (texts.map C.contentHash) C.inner.model C.inner.dim with
  | none =>
    rw [hread] at hmem
    cases hmem
  | some found =>
    rw [hread, Option.getD_some, (EmbedCache.getCachedEmbeddings_some hread).1] at hmem
    obtain ⟨r, hr, rfl⟩ := List.mem_map.1 hmem
    obtain ⟨hrow, hmodel, hdim, _⟩ := EmbedCache.mem_hits.1 hr
    exact hcache r hrow hmodel hdim t hkey.symm

theorem read_none {t : String} (ht : t ∈ texts) :
    cachedVector (C.read w texts cache).1 (C.contentHash t) = none ↔ C.ReadFails w texts cache ∨ ¬ C.Cached cache t := by
  rw [cachedVector, Option.map_eq_none_iff, lookup_eq_none, ReadFails, read]
  cases hread : cache.getCachedEmbeddings w.faults w.readAt (texts.map C.contentHash) C.inner.model C.inner.dim with
  | none => simp
  | some found =>
    rw [Option.getD_some, (EmbedCache.getCachedEmbeddings_some hread).1, or_iff_right (by simp)]
    constructor
    · intro hfound hcached
      obtain ⟨r, hr, hkey⟩ := hcached
      have hhit : r ∈ cache.hits (texts.map C.contentHash) C.inner.model C.inner.dim :=
        EmbedCache.mem_hits.2 ⟨hr, by rw [hkey], by rw [hkey], by rw [hkey]; exact List.mem_map_of_mem ht⟩
      exact hfound _ (List.mem_map_of_mem hhit) (by rw [hkey])
    · intro hcached e he hkey
      obtain ⟨r, hr, rfl⟩ := List.mem_map.1 he
      obtain ⟨hrow, hmodel, hdim, _⟩ := EmbedCache.mem_hits.1 hr
      refine hcached ⟨r, hrow, ?_⟩
      rw [← hmodel, ← hdim, ← hkey]

theorem countStats_rows (w : Circumstances V) (hits misses : ℕ) (cache : EmbedCache V) :
    (countStats w hits misses cache).rows = cache.rows := by
  unfold countStats
  cases h : cache.recordCacheStats w.faults w.statsAt hits misses with
  | none => rfl
  | some after => exact EmbedCache.recordCacheStats_rows h

theorem Faithful.of_rows {after : EmbedCache V} (h : C.Faithful vec cache) (hrows : after.rows = cache.rows) :
    C.Faithful vec after := by
  intro r hr
  exact h r (hrows ▸ hr)

theorem store_faithful (hinj : Function.Injective C.contentHash) {entries : List (String × V)}
    (hentries : ∀ e ∈ entries, ∃ t, e = (C.contentHash t, vec t)) (hcache : C.Faithful vec cache) :
    C.Faithful vec (C.store w entries cache) := by
  have hholds : ∀ e ∈ entries, C.Holds vec ⟨e.1, C.inner.model, C.inner.dim⟩ e.2 := by
    intro e he _ _ u hu
    obtain ⟨t, rfl⟩ := hentries e he
    rw [hinj hu]
  unfold store
  split
  · exact hcache
  next put hput =>
    have hfaithful := EmbedCache.putCachedEmbeddings_holds hholds hcache hput
    cases hevict : put.evictExcess w.faults C.maxEntries with
    | none => exact hfaithful
    | some after => exact EmbedCache.evictExcess_holds hfaithful hevict

theorem store_length {entries : List (String × V)} (hput : w.faults.put = false) (hevict : w.faults.evict = false) :
    (C.store w entries cache).rows.length ≤ C.maxEntries := by
  obtain ⟨put, hputs⟩ := EmbedCache.putCachedEmbeddings_returns hput cache entries
  obtain ⟨after, hevicts⟩ := EmbedCache.evictExcess_returns hevict put C.maxEntries
  unfold store
  rw [hputs]
  dsimp only
  rw [hevicts]
  exact EmbedCache.evictExcess_length hevicts

/-- what a call has to do with the cache: `missed` are the texts that were not found -/
structure Transparent (C : CachingEmbedProvider V ε) (w : Circumstances V) (vec : String → V) (texts : List String)
    (cache : EmbedCache V) (missed : List String) (call : EmbedCall V ε) : Prop where
  once : missed.Nodup
  /-- the distinct texts that are not cached, and all of them when the look-up fails -/
  mem_missed : ∀ t, t ∈ missed ↔ t ∈ texts ∧ (C.ReadFails w texts cache ∨ ¬ C.Cached cache t)
  innerCalls : call.innerCalls = if missed = [] then [] else [missed]
  /-- an error is the inner provider's own -/
  result : call.result = .ok (texts.map (some ∘ vec)) ∨
    missed ≠ [] ∧ ∃ e, C.inner.embed missed = .error e ∧ call.result = .error (.inner e)
  faithful : C.Faithful vec call.cache
  evicted : missed ≠ [] → call.result = .ok (texts.map (some ∘ vec)) → w.faults.put = false → w.faults.evict = false →
    call.cache.rows.length ≤ C.maxEntries
  untouched : missed = [] → call.cache.rows.length = cache.rows.length

/-- the call, by what the batch comes to -/
theorem embed_eq (hne : texts.isEmpty = false) (hinj : Function.Injective C.contentHash) (hinner : C.Pointwise vec)
    (hcache : C.Faithful vec cache) {p : Plan V} (hp : p = plan C.contentHash (C.read w texts cache).1 texts) :
    C.embed w texts cache =
      if p.missTexts.isEmpty then ⟨.ok (texts.map (some ∘ vec)), [],
        countStats w (texts.length - p.missHashSeen.length) p.missHashSeen.length (C.read w texts cache).2⟩
      else match C.inner.embed p.missTexts with
        | .error e => ⟨.error (.inner e), [p.missTexts], w.meanwhile (C.read w texts cache).2⟩
        | .ok _ => ⟨.ok (texts.map (some ∘ vec)), [p.missTexts],
            countStats w (texts.length - p.missHashSeen.length) p.missHashSeen.length
              (C.store w (newEntries p (p.missTexts.map vec)) (w.meanwhile (C.read w texts cache).2))⟩ := by
  have hplanned := plan_planned hinj (C.read w texts cache).1 texts
  rw [← hp] at hplanned
  have hvector : ∀ t v, cachedVector (C.read w texts cache).1 (C.contentHash t) = some v → v = vec t :=
    fun t v => read_vector hcache
  unfold embed
  rw [hne, if_neg Bool.false_ne_true]
  dsimp only
  rw [← hp]
  split
  next hnone => rw [results_planned hplanned (List.isEmpty_iff.1 hnone) hvector]
  next =>
    cases hvectors : C.inner.embed p.missTexts with
    | error e => rfl
    | ok missVectors =>
      obtain rfl := hinner _ _ hvectors
      dsimp only
      rw [resolve_planned hinj hplanned hvector]

/-- **The cache is transparent.** -/
theorem embed_transparent (hinj : Function.Injective C.contentHash) (hinner : C.Pointwise vec)
    (hmeanwhile : ∀ c, C.Faithful vec c → C.Faithful vec (w.meanwhile c)) (texts : List String)
    (hcache : C.Faithful vec cache) : ∃ missed, C.Transparent w vec texts cache missed (C.embed w texts cache) := by
  cases hne : texts.isEmpty with
  | true =>
    obtain rfl := List.isEmpty_iff.1 hne
    exact ⟨[], List.nodup_nil, by simp, rfl, .inl rfl, hcache, fun h => absurd rfl h, fun _ => rfl⟩
  | false =>
    obtain ⟨hlength, hafter⟩ := read_after C w texts cache
    have hplanned := plan_planned hinj (C.read w texts cache).1 texts
    have hcall := embed_eq (w := w) hne hinj hinner hcache rfl
    generalize plan C.contentHash (C.read w texts cache).1 texts = p at hplanned hcall
    have hmissed : ∀ t, t ∈ p.missTexts ↔ t ∈ texts ∧ (C.ReadFails w texts cache ∨ ¬ C.Cached cache t) := by
      intro t
      rw [hplanned.missed]
      exact and_congr_right read_none
    have hread : C.Faithful vec (w.meanwhile (C.read w texts cache).2) := hmeanwhile _ (hafter _ hcache)
    refine ⟨p.missTexts, ?_⟩
    by_cases hnone : p.missTexts = []
    · rw [if_pos (List.isEmpty_iff.2 hnone)] at hcall
      rw [hcall]
      refine ⟨hplanned.once, hmissed, (if_pos hnone).symm, .inl rfl, ?_, fun hsome => absurd hnone hsome, ?_⟩
      · exact Faithful.of_rows (hafter _ hcache) (countStats_rows w _ _ _)
      · intro _
        rw [countStats_rows]
        exact hlength
    · rw [if_neg fun hempty => hnone (List.isEmpty_iff.1 hempty)] at hcall
      cases hvectors : C.inner.embed p.missTexts with
      | error e =>
        rw [hvectors] at hcall
        rw [hcall]
        refine ⟨hplanned.once, hmissed, (if_neg hnone).symm, .inr ⟨hnone, e, hvectors, rfl⟩, hread, ?_,
          fun hsome => absurd hsome hnone⟩
        intro _ hresult
        cases hresult
      | ok missVectors =>
        rw [hvectors] at hcall
        rw [hcall]
        have hstored : C.Faithful vec (C.store w (newEntries p (p.missTexts.map vec)) (w.meanwhile (C.read w texts cache).2)) :=
          store_faithful hinj (fun e he => newEntries_planned hplanned he) hread
        refine ⟨hplanned.once, hmissed, (if_neg hnone).symm, .inl rfl, ?_, ?_, fun hsome => absurd hsome hnone⟩
        · exact Faithful.of_rows hstored (countStats_rows w _ _ _)
        · intro _ _ hput hevict
          rw [countStats_rows]
          exact store_length hput hevict

/-! ## Runs -/

/-- the cache after a run of batches -/
def run (C : CachingEmbedProvider V ε) (calls : List (Circumstances V × List String)) (cache : EmbedCache V) : EmbedCache V :=
  calls.foldl (fun cache call => (C.embed call.1 call.2 cache).cache) cache

/-- **A run.** A faithful cache stays faithful, whatever fails, so every call of a run is transparent. -/
theorem run_faithful (hinj : Function.Injective C.contentHash) (hinner : C.Pointwise vec)
    (calls : List (Circumstances V × List String))
    (hmeanwhile : ∀ call ∈ calls, ∀ c, C.Faithful vec c → C.Faithful vec (call.1.meanwhile c))
    (hcache : C.Faithful vec cache) : C.Faithful vec (C.run calls cache) := by
  induction calls generalizing cache with
  | nil => exact hcache
  | cons call calls ih =>
    obtain ⟨missed, h⟩ := embed_transparent hinj hinner (hmeanwhile call List.mem_cons_self) call.2 hcache
    exact ih (fun later hlater => hmeanwhile later (List.mem_cons_of_mem call hlater)) h.faithful

/-- **A run from a table within the cap stays there**, when the inner provider answers and no write fails. -/
theorem run_bounded (hinj : Function.Injective C.contentHash) (hinner : C.Pointwise vec)
    (hanswers : ∀ ts, ∃ vectors, C.inner.embed ts = .ok vectors) (calls : List (Circumstances V × List String))
    (hmeanwhile : ∀ call ∈ calls, ∀ c, C.Faithful vec c → C.Faithful vec (call.1.meanwhile c))
    (hwrites : ∀ call ∈ calls, call.1.faults.put = false ∧ call.1.faults.evict = false) (hcache : C.Faithful vec cache)
    (hcap : cache.rows.length ≤ C.maxEntries) : (C.run calls cache).rows.length ≤ C.maxEntries := by
  induction calls generalizing cache with
  | nil => exact hcap
  | cons call calls ih =>
    obtain ⟨missed, h⟩ := embed_transparent hinj hinner (hmeanwhile call List.mem_cons_self) call.2 hcache
    obtain ⟨hput, hevict⟩ := hwrites call List.mem_cons_self
    apply ih (fun later hlater => hmeanwhile later (List.mem_cons_of_mem call hlater))
      (fun later hlater => hwrites later (List.mem_cons_of_mem call hlater)) h.faithful
    by_cases hnone : missed = []
    · rw [h.untouched hnone]
      exact hcap
    · refine h.evicted hnone (h.result.resolve_right ?_) hput hevict
      intro hfailed
      obtain ⟨_, e, he, _⟩ := hfailed
      obtain ⟨vectors, hvectors⟩ := hanswers missed
      cases he.symm.trans hvectors

/-! ## A table above its cap -/

/-- a text's vector is its length -/
def lengths : CachingEmbedProvider ℕ String := ⟨⟨"lengths", 1, fun ts => .ok (ts.map String.length)⟩, id, 1⟩

def lengthRow (t : String) : EmbedRow ℕ := ⟨⟨t, "lengths", 1⟩, t.length, 0, 0⟩

def overfull : EmbedCache ℕ where
  rows := [lengthRow "a", lengthRow "bc"]
  keyed := by decide
  stats := none

def calm : Circumstances ℕ := { readAt := 1, putAt := 1, statsAt := 1 }

theorem lengths_pointwise : lengths.Pointwise String.length := by
  intro ts vectors h
  exact (Except.ok.inj h).symm

theorem overfull_faithful : lengths.Faithful String.length overfull := by
  intro r hr _ _ t ht
  rcases List.mem_pair.1 hr with rfl | rfl
  · exact congrArg String.length ht.symm
  · exact congrArg String.length ht.symm

theorem embed_transparent_lengths :
    ∃ missed, lengths.Transparent calm String.length ["bc", "d", "bc"] overfull missed (lengths.embed calm ["bc", "d", "bc"] overfull) :=
  embed_transparent Function.injective_id lengths_pointwise (fun _ h => h) ["bc", "d", "bc"] overfull_faithful

/-- **A batch of hits evicts nothing.** -/
theorem hits_leave_excess : Function.Injective lengths.contentHash ∧ lengths.Pointwise String.length ∧
    lengths.Faithful String.length overfull ∧ calm.faults = {} ∧
    ¬ (lengths.embed calm ["a"] overfull).cache.rows.length ≤ lengths.maxEntries :=
  ⟨Function.injective_id, lengths_pointwise, overfull_faithful, rfl, by decide⟩

end CachingEmbedProvider

end AstramemLocal.Providers
