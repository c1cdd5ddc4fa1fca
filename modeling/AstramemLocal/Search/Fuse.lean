/-
Score fusion, `search/fuse.ts`: the BM25 and vector candidates of a query, normalised leg by leg, weighed together with
importance, freshness, usefulness and three bonuses into one ranked list. Numbers are exact rationals, `exp` is
Math.exp.
- `mem_fuseHits`: the fused hits are the candidates, each with the score that `fuseScores` gives its own signals.
- `fuseHits_sorted`: they come in descending order of score.
- `normalizeScores_unit`: normalised scores lie in [0, 1], in either mode.
-/
import Mathlib.Algebra.Order.Field.Rat
import Mathlib.Algebra.Order.Archimedean.Basic
import Mathlib.Data.List.Basic
import Mathlib.Data.List.Sort
import Mathlib.Data.Rat.Floor
import Mathlib.Tactic.Common
import Mathlib.Tactic.Linarith

namespace AstramemLocal.Search

/-! ## Model -/

inductive NormalizationMode where
  | minmax
  | winsorized
deriving DecidableEq, Repr

/-- the weights of `Config['search']`; one that is omitted is 0, an omitted `normalization` is `minmax` -/
structure Weights where
  alpha : ℚ
  beta : ℚ
  gamma : ℚ
  delta : ℚ
  epsilon : ℚ
  zeta : ℚ
  eta : ℚ
  theta : ℚ
  normalization : NormalizationMode
deriving DecidableEq, Repr

/-- a `Map<string, α>` -/
abbrev IdMap (α : Type) := String → Option α

/-- `new Map(entries)`: of two entries with one key the later stands -/
def mapOf {α : Type} (entries : List (String × α)) : IdMap α := fun id => entries.reverse.lookup id

def percentileOfSorted (sortedAsc : List ℚ) (p : ℚ) : ℚ :=
  let n := sortedAsc.length
  if n = 1 then sortedAsc.getD 0 0
  else
    let idx := p * (n - 1)
    let lo := ⌊idx⌋.toNat
    let hi := ⌈idx⌉.toNat
    if lo = hi then sortedAsc.getD lo 0
    else sortedAsc.getD lo 0 + (sortedAsc.getD hi 0 - sortedAsc.getD lo 0) * (idx - lo)

def winsorize (scores : List ℚ) : List ℚ :=
  let sorted := scores.insertionSort (· ≤ ·)
  let lo := percentileOfSorted sorted (5 / 100)
  let hi := percentileOfSorted sorted (95 / 100)
  scores.map fun s => min hi (max lo s)

def normalizeScores (scores : List ℚ) (mode : NormalizationMode) : List ℚ :=
  if scores = [] then []
  else
    let source := if mode = .winsorized then winsorize scores else scores
    let low := source.min?.getD 0
    let range := source.max?.getD 0 - low
    if range = 0 then scores.map fun _ => 1 else source.map fun s => (s - low) / range

/-- the components of one hit; a bonus or usefulness that is not there is `undefined` -/
structure FuseInput where
  normBm25 : ℚ
  normCosine : ℚ
  importance : ℚ
  freshness : ℚ
  usefulness : Option ℚ
  entityBonus : Option ℚ
  agentBonus : Option ℚ
  uncontestedBonus : Option ℚ
deriving DecidableEq, Repr

def Weights.sum (w : Weights) : ℚ :=
  w.alpha + w.beta + w.gamma + w.delta + w.epsilon + w.zeta + w.eta + w.theta

def fuseScores (w : Weights) (input : FuseInput) : ℚ :=
  let raw := w.alpha * input.normBm25 + w.beta * input.normCosine + w.gamma * input.importance +
    w.delta * input.freshness + w.epsilon * input.usefulness.getD (1 / 2) + w.zeta * input.entityBonus.getD 0 +
    w.eta * input.agentBonus.getD 0 + w.theta * input.uncontestedBonus.getD 1
  if w.sum = 0 then 0 else min 1 (raw / w.sum)

structure Meta where
  importance : ℚ
  createdAt : ℤ
deriving DecidableEq, Repr

inductive HitSource where
  | fts
  | vec
  | both
deriving DecidableEq, Repr

structure FusedHit where
  id : String
  score : ℚ
  source : HitSource
deriving DecidableEq, Repr

def dayMs : ℚ := 24 * 60 * 60 * 1000

/-- the scores of one leg, normalised over that leg -/
def normMap (mode : NormalizationMode) (hits : List (String × ℚ)) : IdMap ℚ :=
  mapOf ((hits.map (·.1)).zip (normalizeScores (hits.map (·.2)) mode))

/-- SQLite's bm25() is negative, lower is better: negated -/
def negated (ftsHits : List (String × ℚ)) : List (String × ℚ) := ftsHits.map fun h => (h.1, -h.2)

/-- what a fusion reads beside the candidates of its two legs -/
structure FuseContext where
  metas : IdMap Meta
  weights : Weights
  nowMs : ℤ
  freshnessDecayDays : ℚ
  usefulness : Option (IdMap ℚ)
  entityBonus : Option (IdMap ℚ)
  agentBonus : Option (IdMap ℚ)
  uncontested : Option (IdMap ℚ)

section

variable (exp : ℚ → ℚ) (ctx : FuseContext)

def FuseContext.importanceOf (id : String) : ℚ := ((ctx.metas id).map (·.importance)).getD (1 / 2)

def FuseContext.ageDays (id : String) : ℚ :=
  (ctx.nowMs - ((ctx.metas id).map (·.createdAt)).getD ctx.nowMs) / dayMs

/-- the components `fuseHits` hands to `fuseScores` -/
def fuseInput (ftsHits vecHits : List (String × ℚ)) (id : String) : FuseInput where
  normBm25 := (normMap ctx.weights.normalization (negated ftsHits) id).getD 0
  normCosine := (normMap ctx.weights.normalization vecHits id).getD 0
  importance := ctx.importanceOf id
  freshness := min 1 (exp (-ctx.ageDays id / (ctx.freshnessDecayDays * dayMs / dayMs)))
  usefulness := ctx.usefulness.bind (· id)
  entityBonus := ctx.entityBonus.bind (· id)
  agentBonus := ctx.agentBonus.bind (· id)
  uncontestedBonus := ctx.uncontested.bind (· id)

/-- the union of the ids, in the order they are first seen -/
def candidateIds (ftsHits vecHits : List (String × ℚ)) : List String :=
  (ftsHits.map (·.1) ++ vecHits.map (·.1)).eraseDups

def hitSource (ftsHits vecHits : List (String × ℚ)) (id : String) : HitSource :=
  if id ∈ ftsHits.map (·.1) ∧ id ∈ vecHits.map (·.1) then .both else if id ∈ ftsHits.map (·.1) then .fts else .vec

/-- `sort((a, b) => b.score - a.score)`, which is stable -/
def sortByScore (hits : List FusedHit) : List FusedHit := hits.insertionSort fun a b => b.score ≤ a.score

def fusedHit (ftsHits vecHits : List (String × ℚ)) (id : String) : FusedHit :=
  ⟨id, fuseScores ctx.weights (fuseInput exp ctx ftsHits vecHits id), hitSource ftsHits vecHits id⟩

def fuseHits (ftsHits vecHits : List (String × ℚ)) : List FusedHit :=
  sortByScore ((candidateIds ftsHits vecHits).map (fusedHit exp ctx ftsHits vecHits))

end

/-! ## Normalised scores -/

theorem mem_of_mapOf {α : Type} {entries : List (String × α)} {id : String} {a : α} (h : mapOf entries id = some a) :
    (id, a) ∈ entries := by
  obtain ⟨before, after, heq, -⟩ := List.lookup_eq_some_iff.1 h
  rw [← List.mem_reverse, heq]
  exact List.mem_append_right before List.mem_cons_self

theorem mapOf_eq_none {α : Type} {entries : List (String × α)} {id : String} :
    mapOf entries id = none ↔ id ∉ entries.map (·.1) := by
  unfold mapOf
  rw [List.lookup_eq_none_iff]
  constructor
  · intro h hid
    obtain ⟨entry, hentry, rfl⟩ := List.mem_map.1 hid
    simpa using h entry (List.mem_reverse.2 hentry)
  · intro h entry hentry
    rw [bne_iff_ne]
    rintro rfl
    exact h (List.mem_map_of_mem (List.mem_reverse.1 hentry))

/-- a leg says nothing about an id it did not find -/
theorem normMap_of_not_mem (mode : NormalizationMode) {hits : List (String × ℚ)} {id : String}
    (h : id ∉ hits.map (·.1)) : normMap mode hits id = none := by
  refine Option.eq_none_iff_forall_ne_some.2 fun x hx => h ?_
  exact (List.of_mem_zip (mem_of_mapOf hx)).1

theorem le_of_mem_min {l : List ℚ} {a : ℚ} (h : a ∈ l) : l.min?.getD 0 ≤ a := by
  cases hmin : l.min? with
  | none =>
    rw [List.min?_eq_none_iff.1 hmin] at h
    cases h
  | some m => exact (List.min?_eq_some_iff.1 hmin).2 a h

theorem le_of_mem_max {l : List ℚ} {a : ℚ} (h : a ∈ l) : a ≤ l.max?.getD 0 := by
  cases hmax : l.max? with
  | none =>
    rw [List.max?_eq_none_iff.1 hmax] at h
    cases h
  | some m => exact (List.max?_eq_some_iff.1 hmax).2 a h

theorem normalizeScores_unit {scores : List ℚ} {mode : NormalizationMode} {x : ℚ} (h : x ∈ normalizeScores scores mode) :
    0 ≤ x ∧ x ≤ 1 := by
  unfold normalizeScores at h
  by_cases hnil : scores = []
  · rw [if_pos hnil] at h
    cases h
  · rw [if_neg hnil] at h
    simp only at h
    generalize (if mode = .winsorized then winsorize scores else scores) = source at h
    by_cases hrange : source.max?.getD 0 - source.min?.getD 0 = 0
    · rw [if_pos hrange] at h
      obtain ⟨-, -, rfl⟩ := List.mem_map.1 h
      exact ⟨zero_le_one, le_refl 1⟩
    · rw [if_neg hrange] at h
      obtain ⟨s, hs, rfl⟩ := List.mem_map.1 h
      have hlow := le_of_mem_min hs
      have hhigh := le_of_mem_max hs
      have hpos : 0 < source.max?.getD 0 - source.min?.getD 0 := lt_of_le_of_ne (by linarith) (Ne.symm hrange)
      exact ⟨div_nonneg (by linarith) hpos.le, (div_le_one hpos).2 (by linarith)⟩

/-- a leg adds a number in [0, 1], 0 for an id it did not find -/
theorem normMap_unit (mode : NormalizationMode) (hits : List (String × ℚ)) (id : String) :
    0 ≤ (normMap mode hits id).getD 0 ∧ (normMap mode hits id).getD 0 ≤ 1 := by
  cases hx : normMap mode hits id with
  | none => exact ⟨le_refl 0, zero_le_one⟩
  | some x => exact normalizeScores_unit (List.of_mem_zip (mem_of_mapOf hx)).2

/-! ## Fused hits -/

section

variable {exp : ℚ → ℚ} {ctx : FuseContext} {ftsHits vecHits : List (String × ℚ)} {hit : FusedHit} {id : String}

theorem mem_sortByScore {hits : List FusedHit} : hit ∈ sortByScore hits ↔ hit ∈ hits := List.mem_insertionSort _

theorem sortByScore_sorted (hits : List FusedHit) : (sortByScore hits).Pairwise fun a b => b.score ≤ a.score :=
  List.pairwise_insertionSort _ hits

theorem mem_candidateIds : id ∈ candidateIds ftsHits vecHits ↔ id ∈ ftsHits.map (·.1) ∨ id ∈ vecHits.map (·.1) := by
  rw [candidateIds, List.mem_eraseDups, List.mem_append]

theorem eraseDups_nodup {α : Type} [DecidableEq α] (n : ℕ) : ∀ ids : List α, ids.length ≤ n → ids.eraseDups.Nodup := by
  induction n with
  | zero =>
    intro ids hlength
    rw [List.eq_nil_of_length_eq_zero (Nat.le_zero.1 hlength)]
    exact List.nodup_nil
  | succ n ih =>
    intro ids hlength
    cases ids with
    | nil => exact List.nodup_nil
    | cons id ids =>
      have hfilter := List.length_filter_le (fun b => !b == id) ids
      rw [List.length_cons] at hlength
      rw [List.eraseDups_cons, List.nodup_cons]
      refine ⟨fun hmem => ?_, ih _ (by omega)⟩
      simpa using (List.mem_filter.1 (List.mem_eraseDups.1 hmem)).2

theorem candidateIds_nodup (ftsHits vecHits : List (String × ℚ)) : (candidateIds ftsHits vecHits).Nodup :=
  eraseDups_nodup _ _ (le_refl _)

theorem fuseHits_ids : ((fuseHits exp ctx ftsHits vecHits).map (·.id)).Perm (candidateIds ftsHits vecHits) := by
  have hids : (candidateIds ftsHits vecHits).map (fun id => (fusedHit exp ctx ftsHits vecHits id).id) =
      candidateIds ftsHits vecHits := List.map_id _
  refine ((List.perm_insertionSort _ _).map _).trans ?_
  rw [List.map_map]
  exact List.Perm.of_eq hids

theorem mem_fuseHits : hit ∈ fuseHits exp ctx ftsHits vecHits ↔
    ∃ id ∈ candidateIds ftsHits vecHits, fusedHit exp ctx ftsHits vecHits id = hit := by
  rw [fuseHits, mem_sortByScore, List.mem_map]

theorem fuseHits_sorted : (fuseHits exp ctx ftsHits vecHits).Pairwise fun a b => b.score ≤ a.score :=
  sortByScore_sorted _

end

end AstramemLocal.Search
