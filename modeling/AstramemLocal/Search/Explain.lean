/-
What `search()` tells about its scores. The debug path recomputes the components of every fused hit and reports six
weights; the search path attaches an explanation with up to eight signals. Both take the score itself from `fuseHits`.

- `debug_ranking`: the debug path lists the hits of the search path, in its order and with its scores.
- `debug_explains_iff`: with weights that are not negative, the reported components and weights add up to the score, on
  every candidate set, exactly when η and θ are 0 and the winsorized mode has no leg to change; with candidates created
  after now, exactly when moreover δ is 0.
- `winsorized_not_explained`: a candidate set on which they do not.
-/
import AstramemLocal.Search.Fuse
import Mathlib.Algebra.BigOperators.Group.List.Basic
import Mathlib.Tactic.FieldSimp
import Mathlib.Tactic.Ring

namespace AstramemLocal.Search

/-! ## Model -/

/-- what `search()` holds when it comes to fuse: the candidates that passed the entity filter, and what it looked up
about them -/
structure Gathered where
  ftsHits : List (String × ℚ)
  vecHits : List (String × ℚ)
  metas : IdMap Meta
  usefulness : IdMap ℚ
  /-- the ids `entityBonusForQuery` returns -/
  entityLinked : List String
  /-- the ids `agentBonusForFilter` returns; none unless an agent is given in mode `boost` -/
  agentMatches : Option (List String)
  /-- the losers of open contradictions -/
  contested : List String
  nowMs : ℤ
  /-- the row passes the validity clause and the filters, so `memMap` has it -/
  admitted : String → Bool
  limit : ℕ

/-- a map that gives `value` to the ids of a list -/
def constMap (value : ℚ) (ids : List String) : IdMap ℚ := fun id => if id ∈ ids then some value else none

def Gathered.context (w : Weights) (g : Gathered) : FuseContext where
  metas := g.metas
  weights := w
  nowMs := g.nowMs
  freshnessDecayDays := 30
  usefulness := some g.usefulness
  entityBonus := if 0 < w.zeta then some (constMap 1 g.entityLinked) else none
  agentBonus := if 0 < w.eta then g.agentMatches.map (constMap 1) else none
  uncontested := if g.contested = [] then none else some (constMap 0 g.contested)

/-- the loop over the ranking: ids without a row are passed over, and it ends once `limit` hits are there -/
def Gathered.shown (g : Gathered) (ranking : List FusedHit) : List FusedHit :=
  (ranking.filter fun h => g.admitted h.id).take (max g.limit 1)

structure LegScore where
  raw : Option ℚ
  normalized : ℚ
deriving DecidableEq, Repr

structure DebugWeights where
  alpha : ℚ
  beta : ℚ
  gamma : ℚ
  delta : ℚ
  epsilon : ℚ
  zeta : ℚ
deriving DecidableEq, Repr

structure SearchDebugHit where
  id : String
  source : HitSource
  bm25 : LegScore
  cosine : LegScore
  importance : ℚ
  freshness : ℚ
  usefulness : ℚ
  entityBonus : ℚ
  weights : DebugWeights
  score : ℚ
deriving DecidableEq, Repr

structure ScoreSignal where
  name : String
  raw : ℚ
  weight : ℚ
  final : ℚ
deriving DecidableEq, Repr

structure SearchHit where
  id : String
  score : ℚ
  source : HitSource
  signals : List ScoreSignal
deriving DecidableEq, Repr

/-- the weights the debug path adds up -/
def Weights.reported (w : Weights) : ℚ := w.alpha + w.beta + w.gamma + w.delta + w.epsilon + w.zeta

/-- a sum of weights to divide by -/
def divisor (sum : ℚ) : ℚ := if sum = 0 then 1 else sum

def Weights.effective (w : Weights) : DebugWeights :=
  let weightSum := divisor w.reported
  ⟨w.alpha / weightSum, w.beta / weightSum, w.gamma / weightSum, w.delta / weightSum, w.epsilon / weightSum,
    w.zeta / weightSum⟩

section

variable (exp : ℚ → ℚ) (w : Weights) (g : Gathered)

/-- both recomputations normalise without the configured mode -/
def normBm25Map : IdMap ℚ := normMap .minmax (negated g.ftsHits)

def normCosineMap : IdMap ℚ := normMap .minmax g.vecHits

def debugHit (hit : FusedHit) : SearchDebugHit where
  id := hit.id
  source := hit.source
  bm25 := ⟨mapOf g.ftsHits hit.id, (normBm25Map g hit.id).getD 0⟩
  cosine := ⟨mapOf g.vecHits hit.id, (normCosineMap g hit.id).getD 0⟩
  importance := (g.context w).importanceOf hit.id
  freshness := exp (-(g.context w).ageDays hit.id / 30)
  usefulness := (g.usefulness hit.id).getD (1 / 2)
  entityBonus := ((g.context w).entityBonus.bind (· hit.id)).getD 0
  weights := w.effective
  score := hit.score

/-- one signal of an explanation -/
def signal (name : String) (raw final weight : ℚ) : ScoreSignal := ⟨name, raw, weight, final * weight⟩

/-- `buildExplanation`, without a reranker and without decomposition -/
def buildExplanation (id : String) : List ScoreSignal :=
  let weightSum := divisor w.sum
  let ctx := g.context w
  let usefulness := (g.usefulness id).getD (1 / 2)
  let freshness := min 1 (exp (-ctx.ageDays id / 30))
  ((mapOf (negated g.ftsHits) id).map fun raw => signal "bm25" raw ((normBm25Map g id).getD 0) (w.alpha / weightSum)).toList ++
  ((mapOf g.vecHits id).map fun raw => signal "cosine" raw ((normCosineMap g id).getD 0) (w.beta / weightSum)).toList ++
  [signal "importance" (ctx.importanceOf id) (ctx.importanceOf id) (w.gamma / weightSum),
    signal "freshness" freshness freshness (w.delta / weightSum),
    signal "usefulness" usefulness usefulness (w.epsilon / weightSum)] ++
  (ctx.entityBonus.map fun m => signal "entity_bonus" ((m id).getD 0) ((m id).getD 0) (w.zeta / weightSum)).toList ++
  (ctx.agentBonus.map fun m => signal "agent_bonus" ((m id).getD 0) ((m id).getD 0) (w.eta / weightSum)).toList ++
  (if 0 < w.theta then
    let raw := (ctx.uncontested.bind (· id)).getD 1
    [signal "correction_freshness" raw raw (w.theta / weightSum)]
  else [])

def searchHit (hit : FusedHit) : SearchHit := ⟨hit.id, hit.score, hit.source, buildExplanation exp w g hit.id⟩

/-- the primary ranking -/
def fused : List FusedHit := fuseHits exp (g.context w) g.ftsHits g.vecHits

/-- `search(.., { debug: true })` -/
def searchDebug : List SearchDebugHit := (g.shown (fused exp w g)).map (debugHit exp w g)

/-- `search(..)` with every optional stage off -/
def search : List SearchHit := (g.shown (fused exp w g)).map (searchHit exp w g)

end

/-- `Σ weights.* × component`, from what the debug hit reports -/
def SearchDebugHit.weightedSum (h : SearchDebugHit) : ℚ :=
  h.weights.alpha * h.bm25.normalized + h.weights.beta * h.cosine.normalized + h.weights.gamma * h.importance +
    h.weights.delta * h.freshness + h.weights.epsilon * h.usefulness + h.weights.zeta * h.entityBonus

def SearchHit.signalSum (h : SearchHit) : ℚ := (h.signals.map (·.final)).sum

/-- the debug path ranks and scores as the search path does, and both say how each score comes about -/
structure Explained (exp : ℚ → ℚ) (w : Weights) (g : Gathered) : Prop where
  ranking : (searchDebug exp w g).map (fun h => (h.id, h.score)) = (search exp w g).map fun h => (h.id, h.score)
  debug : ∀ h ∈ searchDebug exp w g, h.score = h.weightedSum
  signals : ∀ h ∈ search exp w g, h.score = h.signalSum

/-! ## Scores and their parts -/

/-- what is used of Math.exp -/
structure Exponential (exp : ℚ → ℚ) : Prop where
  le_one : ∀ x ≤ 0, exp x ≤ 1
  grows : 1 < exp 1

/-- no weight is negative -/
structure Weights.Nonneg (w : Weights) : Prop where
  alpha : 0 ≤ w.alpha
  beta : 0 ≤ w.beta
  gamma : 0 ≤ w.gamma
  delta : 0 ≤ w.delta
  epsilon : 0 ≤ w.epsilon
  zeta : 0 ≤ w.zeta
  eta : 0 ≤ w.eta
  theta : 0 ≤ w.theta

/-- importance and usefulness are at most 1 -/
structure Gathered.Bounded (g : Gathered) : Prop where
  importance : ∀ id m, g.metas id = some m → m.importance ≤ 1
  usefulness : ∀ id u, g.usefulness id = some u → u ≤ 1

/-- no candidate is created after now -/
def Gathered.Past (g : Gathered) : Prop := ∀ id m, g.metas id = some m → m.createdAt ≤ g.nowMs

/-- nothing that counts is left out of the debug output: η and θ are off, and the winsorized mode has no leg to change -/
def Weights.Told (w : Weights) : Prop :=
  w.eta = 0 ∧ w.theta = 0 ∧ (w.normalization = .winsorized → w.alpha = 0 ∧ w.beta = 0)

instance (w : Weights) : Decidable w.Told := by
  unfold Weights.Told
  infer_instance

section

variable {exp : ℚ → ℚ} {w : Weights} {g : Gathered} {hit : FusedHit} {id : String}

/-- **The ranking.** It is one list, projected twice. -/
theorem debug_ranking : (searchDebug exp w g).map (fun h => (h.id, h.score)) =
    (search exp w g).map fun h => (h.id, h.score) := by
  simp only [searchDebug, search, List.map_map]
  rfl

/-- the six reported terms, undivided -/
def reportedSum (exp : ℚ → ℚ) (w : Weights) (g : Gathered) (id : String) : ℚ :=
  w.alpha * (normBm25Map g id).getD 0 + w.beta * (normCosineMap g id).getD 0 + w.gamma * (g.context w).importanceOf id +
    w.delta * exp (-(g.context w).ageDays id / 30) + w.epsilon * (g.usefulness id).getD (1 / 2) +
    w.zeta * ((g.context w).entityBonus.bind (· id)).getD 0

theorem debugHit_weightedSum : (debugHit exp w g hit).weightedSum = reportedSum exp w g hit.id / divisor w.reported := by
  simp only [SearchDebugHit.weightedSum, debugHit, Weights.effective, reportedSum]
  ring

/-- the score of a candidate, written out -/
theorem fusedHit_formula : (fusedHit exp (g.context w) g.ftsHits g.vecHits id).score =
    if w.sum = 0 then 0 else min 1 ((w.alpha * (normMap w.normalization (negated g.ftsHits) id).getD 0 +
      w.beta * (normMap w.normalization g.vecHits id).getD 0 + w.gamma * (g.context w).importanceOf id +
      w.delta * min 1 (exp (-(g.context w).ageDays id / (30 * dayMs / dayMs))) +
      w.epsilon * (g.usefulness id).getD (1 / 2) + w.zeta * ((g.context w).entityBonus.bind (· id)).getD 0 +
      w.eta * ((g.context w).agentBonus.bind (· id)).getD 0 +
      w.theta * ((g.context w).uncontested.bind (· id)).getD 1) / w.sum) := rfl

/-- with everything told, the fused score is built from the reported terms -/
theorem fusedHit_score (h : w.Told)
    (hfresh : w.delta * min 1 (exp (-(g.context w).ageDays id / 30)) = w.delta * exp (-(g.context w).ageDays id / 30)) :
    (fusedHit exp (g.context w) g.ftsHits g.vecHits id).score =
      if w.reported = 0 then 0 else min 1 (reportedSum exp w g id / w.reported) := by
  obtain ⟨heta, htheta, hmode⟩ := h
  have hsum : w.sum = w.reported := by
    unfold Weights.sum Weights.reported
    rw [heta, htheta]
    ring
  have hdays : (30 : ℚ) * dayMs / dayMs = 30 := by
    unfold dayMs
    norm_num
  -- the mode matters to a leg that weighs something only
  have hleg : ∀ (weight : ℚ) (hits : List (String × ℚ)), (w.normalization = .winsorized → weight = 0) →
      weight * (normMap w.normalization hits id).getD 0 = weight * (normMap .minmax hits id).getD 0 := by
    intro weight hits hzero
    cases hn : w.normalization with
    | minmax => rfl
    | winsorized => rw [hzero hn, zero_mul, zero_mul]
  rw [fusedHit_formula, hsum, hleg _ _ fun hn => (hmode hn).1, hleg _ _ fun hn => (hmode hn).2, hdays, hfresh, heta, htheta, zero_mul, zero_mul,
    add_zero, add_zero]
  rfl

theorem importanceOf_le (w : Weights) (id : String) (hg : g.Bounded) : (g.context w).importanceOf id ≤ 1 := by
  unfold FuseContext.importanceOf
  cases hm : (g.context w).metas id with
  | none => norm_num
  | some m => exact hg.importance id m hm

theorem usefulness_le (id : String) (hg : g.Bounded) : (g.usefulness id).getD (1 / 2) ≤ 1 := by
  cases hu : g.usefulness id with
  | none => norm_num
  | some u => exact hg.usefulness id u hu

theorem constMap_one_le (ids : List String) : (constMap 1 ids id).getD 0 ≤ 1 := by
  unfold constMap
  split
  · exact le_refl 1
  · exact zero_le_one

theorem entityBonus_le (w : Weights) (g : Gathered) (id : String) : ((g.context w).entityBonus.bind (· id)).getD 0 ≤ 1 := by
  simp only [Gathered.context]
  split
  · exact constMap_one_le g.entityLinked
  · exact zero_le_one

/-- an age is not negative when nothing is created after now -/
theorem freshness_le (hexp : Exponential exp) (hg : g.Past) : exp (-(g.context w).ageDays id / 30) ≤ 1 := by
  have hage : 0 ≤ (g.context w).ageDays id := by
    unfold FuseContext.ageDays
    refine div_nonneg ?_ (by norm_num [dayMs])
    cases hm : (g.context w).metas id with
    | none => simp
    | some m =>
      have hpast : (m.createdAt : ℚ) ≤ ((g.context w).nowMs : ℚ) := by exact_mod_cast hg id m hm
      simpa using hpast
  exact hexp.le_one _ (by linarith)

/-- the reported terms never exceed the weights they are reported with -/
theorem reportedSum_le (hw : w.Nonneg) (hg : g.Bounded)
    (hfresh : w.delta * exp (-(g.context w).ageDays id / 30) ≤ w.delta) : reportedSum exp w g id ≤ w.reported := by
  have hterm : ∀ {weight x : ℚ}, 0 ≤ weight → x ≤ 1 → weight * x ≤ weight := fun h0 h1 => mul_le_of_le_one_right h0 h1
  have halpha := hterm hw.alpha (normMap_unit .minmax (negated g.ftsHits) id).2
  have hbeta := hterm hw.beta (normMap_unit .minmax g.vecHits id).2
  have hgamma := hterm hw.gamma (importanceOf_le w id hg)
  have hepsilon := hterm hw.epsilon (usefulness_le id hg)
  have hzeta := hterm hw.zeta (entityBonus_le w g id)
  unfold reportedSum Weights.reported normBm25Map normCosineMap
  linarith

theorem Weights.Nonneg.reported_eq_zero (hw : w.Nonneg) (h : w.reported = 0) :
    w.alpha = 0 ∧ w.beta = 0 ∧ w.gamma = 0 ∧ w.delta = 0 ∧ w.epsilon = 0 ∧ w.zeta = 0 := by
  obtain ⟨ha, hb, hc, hd, he, hz, -, -⟩ := hw
  unfold Weights.reported at h
  refine ⟨?_, ?_, ?_, ?_, ?_, ?_⟩ <;> linarith

/-- the cap at 1 is never met, and nothing is divided by 0 -/
theorem score_eq (hw : w.Nonneg) (h : w.Told) (hg : g.Bounded)
    (hfresh : w.delta * min 1 (exp (-(g.context w).ageDays id / 30)) = w.delta * exp (-(g.context w).ageDays id / 30)) :
    (fusedHit exp (g.context w) g.ftsHits g.vecHits id).score = reportedSum exp w g id / divisor w.reported := by
  rw [fusedHit_score h hfresh]
  by_cases hzero : w.reported = 0
  · obtain ⟨ha, hb, hc, hd, he, hz⟩ := hw.reported_eq_zero hzero
    rw [if_pos hzero, reportedSum, ha, hb, hc, hd, he, hz]
    simp
  · have hpos : 0 < w.reported := by
      refine lt_of_le_of_ne ?_ (Ne.symm hzero)
      obtain ⟨ha, hb, hc, hd, he, hz, -, -⟩ := hw
      unfold Weights.reported
      linarith
    have hle : w.delta * exp (-(g.context w).ageDays id / 30) ≤ w.delta := by
      rw [← hfresh]
      exact mul_le_of_le_one_right hw.delta (min_le_left _ _)
    have hcap : reportedSum exp w g id / w.reported ≤ 1 := (div_le_one hpos).2 (reportedSum_le hw hg hle)
    rw [if_neg hzero, min_eq_right hcap, divisor, if_neg hzero]

theorem optional_final {α : Type} (o : Option α) (f : α → ScoreSignal) :
    ((o.map f).toList.map (·.final)).sum = (o.map fun a => (f a).final).getD 0 := by
  cases o <;> simp

/-- a leg's signal is there when the leg found the id, and would add 0 otherwise -/
theorem leg_final (id name : String) (hits : List (String × ℚ)) (weight : ℚ) :
    (((mapOf hits id).map fun raw => signal name raw ((normMap .minmax hits id).getD 0) weight).toList.map (·.final)).sum =
      (normMap .minmax hits id).getD 0 * weight := by
  rw [optional_final]
  cases hid : mapOf hits id with
  | none =>
    rw [normMap_of_not_mem .minmax (mapOf_eq_none.1 hid)]
    simp
  | some raw => rfl

theorem bonus_final (id name : String) (bonus : Option (IdMap ℚ)) (weight : ℚ) :
    ((bonus.map fun m => signal name ((m id).getD 0) ((m id).getD 0) weight).toList.map (·.final)).sum =
      (bonus.bind (· id)).getD 0 * weight := by
  rw [optional_final]
  cases bonus with
  | none => simp
  | some m => rfl

/-- **The explanation.** Its signals add up to the eight terms, freshness capped. -/
theorem searchHit_signalSum : (searchHit exp w g hit).signalSum =
    (w.alpha * (normBm25Map g hit.id).getD 0 + w.beta * (normCosineMap g hit.id).getD 0 +
      w.gamma * (g.context w).importanceOf hit.id + w.delta * min 1 (exp (-(g.context w).ageDays hit.id / 30)) +
      w.epsilon * (g.usefulness hit.id).getD (1 / 2) + w.zeta * ((g.context w).entityBonus.bind (· hit.id)).getD 0 +
      w.eta * ((g.context w).agentBonus.bind (· hit.id)).getD 0 +
      (if 0 < w.theta then w.theta else 0) * ((g.context w).uncontested.bind (· hit.id)).getD 1) / divisor w.sum := by
  have htheta : ∀ raw : ℚ, (((if 0 < w.theta then [signal "correction_freshness" raw raw (w.theta / divisor w.sum)] else []) :
      List ScoreSignal).map (·.final)).sum = (if 0 < w.theta then w.theta else 0) * raw / divisor w.sum := by
    intro raw
    split
    · simp only [signal, List.map_cons, List.map_nil, List.sum_cons, List.sum_nil, add_zero]
      ring
    · simp
  have hbm25 := leg_final hit.id "bm25" (negated g.ftsHits) (w.alpha / divisor w.sum)
  have hcosine := leg_final hit.id "cosine" g.vecHits (w.beta / divisor w.sum)
  simp only [SearchHit.signalSum, searchHit, buildExplanation, List.map_append, List.sum_append, normBm25Map,
    normCosineMap] at hbm25 hcosine ⊢
  rw [hbm25, hcosine, bonus_final, bonus_final, htheta]
  simp only [signal, List.map_cons, List.map_nil, List.sum_cons, List.sum_nil]
  ring

/-- **Told.** Whatever the candidates, what is reported adds up. -/
theorem explained_of_told (hexp : Exponential exp) (hw : w.Nonneg) (h : w.Told) (hg : g.Bounded)
    (hpast : g.Past ∨ w.delta = 0) : Explained exp w g := by
  have hfresh : ∀ id, w.delta * min 1 (exp (-(g.context w).ageDays id / 30)) =
      w.delta * exp (-(g.context w).ageDays id / 30) := by
    intro id
    rcases hpast with hpast | hdelta
    · rw [min_eq_right (freshness_le hexp hpast)]
    · rw [hdelta, zero_mul, zero_mul]
  -- a shown hit is a fused one, with the score of its id
  have hscore : ∀ hit ∈ g.shown (fused exp w g), hit.score = reportedSum exp w g hit.id / divisor w.reported := by
    intro hit hmem
    obtain ⟨id, -, rfl⟩ := mem_fuseHits.1 (List.mem_filter.1 (List.mem_of_mem_take hmem)).1
    exact score_eq hw h hg (hfresh id)
  have hsum : w.sum = w.reported := by
    unfold Weights.sum Weights.reported
    rw [h.1, h.2.1]
    ring
  refine ⟨debug_ranking, fun d hd => ?_, fun d hd => ?_⟩
  · obtain ⟨hit, hmem, rfl⟩ := List.mem_map.1 hd
    rw [debugHit_weightedSum]
    exact hscore hit hmem
  · obtain ⟨hit, hmem, rfl⟩ := List.mem_map.1 hd
    rw [searchHit_signalSum, h.1, h.2.1, hfresh, hsum]
    simp only [lt_irrefl, if_false, zero_mul, add_zero]
    exact hscore hit hmem

/-! ## What is left out counts -/

/-- the eight terms of the fused score, undivided -/
def fullSum (exp : ℚ → ℚ) (w : Weights) (g : Gathered) (id : String) : ℚ :=
  w.alpha * (normMap w.normalization (negated g.ftsHits) id).getD 0 +
    w.beta * (normMap w.normalization g.vecHits id).getD 0 + w.gamma * (g.context w).importanceOf id +
    w.delta * min 1 (exp (-(g.context w).ageDays id / 30)) + w.epsilon * (g.usefulness id).getD (1 / 2) +
    w.zeta * ((g.context w).entityBonus.bind (· id)).getD 0 + w.eta * ((g.context w).agentBonus.bind (· id)).getD 0 +
    w.theta * ((g.context w).uncontested.bind (· id)).getD 1

theorem Weights.Nonneg.sum_nonneg (hw : w.Nonneg) : 0 ≤ w.sum := by
  obtain ⟨ha, hb, hc, hd, he, hz, heta, htheta⟩ := hw
  unfold Weights.sum
  linarith

theorem agentBonus_le (w : Weights) (g : Gathered) (id : String) : ((g.context w).agentBonus.bind (· id)).getD 0 ≤ 1 := by
  simp only [Gathered.context]
  split
  · cases g.agentMatches with
    | none => exact zero_le_one
    | some ids => exact constMap_one_le ids
  · exact zero_le_one

theorem uncontested_le (w : Weights) (g : Gathered) (id : String) : ((g.context w).uncontested.bind (· id)).getD 1 ≤ 1 := by
  simp only [Gathered.context]
  split
  · exact le_refl 1
  · simp only [Option.bind_some, constMap]
    split
    · exact zero_le_one
    · exact le_refl 1

/-- components of at most 1 do not reach the cap -/
theorem score_full (hw : w.Nonneg) (hg : g.Bounded) (hsum : w.sum ≠ 0) :
    (fusedHit exp (g.context w) g.ftsHits g.vecHits id).score = fullSum exp w g id / w.sum := by
  have hpos : 0 < w.sum := lt_of_le_of_ne hw.sum_nonneg (Ne.symm hsum)
  have hdays : (30 : ℚ) * dayMs / dayMs = 30 := by
    unfold dayMs
    norm_num
  have hterm : ∀ {weight x : ℚ}, 0 ≤ weight → x ≤ 1 → weight * x ≤ weight := fun h0 h1 => mul_le_of_le_one_right h0 h1
  have hle : fullSum exp w g id ≤ w.sum := by
    have halpha := hterm hw.alpha (normMap_unit w.normalization (negated g.ftsHits) id).2
    have hbeta := hterm hw.beta (normMap_unit w.normalization g.vecHits id).2
    have hgamma := hterm hw.gamma (importanceOf_le w id hg)
    have hdelta := hterm hw.delta (min_le_left 1 (exp (-(g.context w).ageDays id / 30)))
    have hepsilon := hterm hw.epsilon (usefulness_le id hg)
    have hzeta := hterm hw.zeta (entityBonus_le w g id)
    have heta := hterm hw.eta (agentBonus_le w g id)
    have htheta := hterm hw.theta (uncontested_le w g id)
    unfold fullSum Weights.sum
    linarith
  rw [fusedHit_formula, hdays, if_neg hsum]
  exact min_eq_right ((div_le_one hpos).2 hle)

/-- what an explained candidate set says about a candidate that is shown -/
theorem Explained.equation (h : Explained exp w g) (hw : w.Nonneg) (hg : g.Bounded) (hsum : w.sum ≠ 0)
    (hid : id ∈ candidateIds g.ftsHits g.vecHits) (hadmitted : g.admitted id = true)
    (hlimit : (candidateIds g.ftsHits g.vecHits).length ≤ g.limit) :
    fullSum exp w g id / w.sum = reportedSum exp w g id / divisor w.reported := by
  have hfused : fusedHit exp (g.context w) g.ftsHits g.vecHits id ∈ fused exp w g := mem_fuseHits.2 ⟨id, hid, rfl⟩
  have hlength : (fused exp w g).length = (candidateIds g.ftsHits g.vecHits).length := by
    rw [fused, fuseHits, sortByScore, List.length_insertionSort, List.length_map]
  have hshown : fusedHit exp (g.context w) g.ftsHits g.vecHits id ∈ g.shown (fused exp w g) := by
    rw [Gathered.shown, List.take_of_length_le]
    · exact List.mem_filter.2 ⟨hfused, hadmitted⟩
    · have hfilter := List.length_filter_le (fun h => g.admitted h.id) (fused exp w g)
      omega
  have hdebug := h.debug _ (List.mem_map_of_mem hshown)
  rw [debugHit_weightedSum] at hdebug
  exact (score_full hw hg hsum).symm.trans hdebug

/-- candidates created at one time, with nothing else known about them -/
def probe (ftsHits vecHits : List (String × ℚ)) (boosted contested : List String) (createdAt : ℤ) : Gathered where
  ftsHits := ftsHits
  vecHits := vecHits
  metas := fun _ => some ⟨1 / 2, createdAt⟩
  usefulness := fun _ => none
  entityLinked := []
  agentMatches := some boosted
  contested := contested
  nowMs := 0
  admitted := fun _ => true
  limit := 10

/-- four scores whose third the winsorized mode moves -/
def fourHits (sign : ℚ) : List (String × ℚ) := [("a", 0), ("b", 0), ("x", sign / 2), ("d", sign)]

theorem probe_bounded (ftsHits vecHits : List (String × ℚ)) (boosted contested : List String) (createdAt : ℤ) :
    (probe ftsHits vecHits boosted contested createdAt).Bounded where
  importance id m hm := by
    obtain rfl := Option.some.inj hm
    norm_num
  usefulness id u hu := by cases hu

theorem probe_past (ftsHits vecHits : List (String × ℚ)) (boosted contested : List String) :
    (probe ftsHits vecHits boosted contested 0).Past := by
  intro id m hm
  obtain rfl := Option.some.inj hm
  exact le_refl 0

theorem probe_entity (ftsHits vecHits : List (String × ℚ)) (boosted contested : List String) (createdAt : ℤ) :
    (((probe ftsHits vecHits boosted contested createdAt).context w).entityBonus.bind (· id)).getD 0 = 0 := by
  simp only [Gathered.context, probe]
  split <;> rfl

theorem probe_agent (heta : 0 < w.eta) (ftsHits vecHits : List (String × ℚ)) (boosted contested : List String)
    (createdAt : ℤ) : (((probe ftsHits vecHits boosted contested createdAt).context w).agentBonus.bind (· id)).getD 0 =
      (constMap 1 boosted id).getD 0 := by
  simp only [Gathered.context, probe, if_pos heta]
  rfl

/-- the six reported terms of a probe -/
theorem reportedSum_probe (ftsHits vecHits : List (String × ℚ)) (boosted contested : List String) (createdAt : ℤ) :
    reportedSum exp w (probe ftsHits vecHits boosted contested createdAt) id =
      w.alpha * (normMap .minmax (negated ftsHits) id).getD 0 + w.beta * (normMap .minmax vecHits id).getD 0 +
        w.gamma * (1 / 2) + w.delta * exp (-((0 - createdAt) / dayMs) / 30) + w.epsilon * (1 / 2) := by
  rw [reportedSum, probe_entity, mul_zero, add_zero]
  rfl

/-- the eight terms of a probe -/
theorem fullSum_probe (ftsHits vecHits : List (String × ℚ)) (boosted contested : List String) (createdAt : ℤ) :
    fullSum exp w (probe ftsHits vecHits boosted contested createdAt) id =
      w.alpha * (normMap w.normalization (negated ftsHits) id).getD 0 +
        w.beta * (normMap w.normalization vecHits id).getD 0 + w.gamma * (1 / 2) +
        w.delta * min 1 (exp (-((0 - createdAt) / dayMs) / 30)) + w.epsilon * (1 / 2) +
        w.eta * (((probe ftsHits vecHits boosted contested createdAt).context w).agentBonus.bind (· id)).getD 0 +
        w.theta * (((probe ftsHits vecHits boosted contested createdAt).context w).uncontested.bind (· id)).getD 1 := by
  rw [fullSum, probe_entity, mul_zero, add_zero]
  rfl

/-- every candidate set of the past is explained -/
def ExplainsPast (exp : ℚ → ℚ) (w : Weights) : Prop := ∀ g : Gathered, g.Bounded → g.Past → Explained exp w g

/-- what a probe in the past says about the candidate `x` -/
theorem probe_equation (hw : w.Nonneg) (hsum : w.sum ≠ 0) (hall : ExplainsPast exp w) {ftsHits vecHits : List (String × ℚ)}
    (hid : "x" ∈ candidateIds ftsHits vecHits) (hlimit : (candidateIds ftsHits vecHits).length ≤ 10)
    (boosted contested : List String) :
    fullSum exp w (probe ftsHits vecHits boosted contested 0) "x" / w.sum =
      reportedSum exp w (probe ftsHits vecHits boosted contested 0) "x" / divisor w.reported :=
  (hall _ (probe_bounded ..) (probe_past _ _ _ _)).equation hw (probe_bounded ..) hsum hid rfl hlimit

/-- two probes that report the same score the same -/
theorem probes_agree (hw : w.Nonneg) (hsum : w.sum ≠ 0) (hall : ExplainsPast exp w) (boosted contested : List String) :
    fullSum exp w (probe [("x", -1)] [] boosted contested 0) "x" = fullSum exp w (probe [("x", -1)] [] [] [] 0) "x" := by
  have hone := probe_equation hw hsum hall (by decide : "x" ∈ candidateIds [("x", -1)] []) (by decide) boosted contested
  have hother := probe_equation hw hsum hall (by decide : "x" ∈ candidateIds [("x", -1)] []) (by decide) [] []
  rw [reportedSum_probe, ← reportedSum_probe _ _ [] [], ← hother] at hone
  exact (div_left_inj' hsum).1 hone

theorem eta_eq_zero (hw : w.Nonneg) (hsum : w.sum ≠ 0) (hall : ExplainsPast exp w) : w.eta = 0 := by
  by_contra hne
  have heta : 0 < w.eta := lt_of_le_of_ne hw.eta (Ne.symm hne)
  -- the hit with an agent match and without
  have hagree := probes_agree hw hsum hall ["x"] []
  rw [fullSum_probe, fullSum_probe, probe_agent heta, probe_agent heta] at hagree
  have hmatch : (constMap 1 ["x"] "x").getD 0 = 1 := rfl
  have hnone : (constMap 1 [] "x").getD 0 = 0 := rfl
  rw [hmatch, hnone] at hagree
  change _ + w.theta * 1 = _ + w.theta * 1 at hagree
  linarith

theorem theta_eq_zero (hw : w.Nonneg) (hsum : w.sum ≠ 0) (hall : ExplainsPast exp w) : w.theta = 0 := by
  have heta := eta_eq_zero hw hsum hall
  -- the hit contested and uncontested
  have hagree := probes_agree hw hsum hall [] ["x"]
  rw [fullSum_probe, fullSum_probe, heta, zero_mul, zero_mul] at hagree
  change _ + w.theta * 0 = _ + w.theta * 1 at hagree
  linarith

/-- with η and θ off, a probe in the past compares the two modes leg by leg -/
theorem modes_agree (hexp : Exponential exp) (hw : w.Nonneg) (hsum : w.sum ≠ 0) (hall : ExplainsPast exp w)
    {ftsHits vecHits : List (String × ℚ)} (hid : "x" ∈ candidateIds ftsHits vecHits)
    (hlimit : (candidateIds ftsHits vecHits).length ≤ 10) :
    w.alpha * (normMap w.normalization (negated ftsHits) "x").getD 0 +
        w.beta * (normMap w.normalization vecHits "x").getD 0 =
      w.alpha * (normMap .minmax (negated ftsHits) "x").getD 0 + w.beta * (normMap .minmax vecHits "x").getD 0 := by
  have heta := eta_eq_zero hw hsum hall
  have htheta := theta_eq_zero hw hsum hall
  have hreported : w.sum = w.reported := by
    unfold Weights.sum Weights.reported
    rw [heta, htheta]
    ring
  have hfresh : exp (-((0 - ((0 : ℤ) : ℚ)) / dayMs) / 30) ≤ 1 := hexp.le_one _ (by simp)
  have heq := probe_equation hw hsum hall hid hlimit [] []
  rw [divisor, ← hreported, if_neg hsum, div_left_inj' hsum, fullSum_probe, reportedSum_probe, heta, htheta,
    min_eq_right hfresh] at heq
  linarith

theorem told_of_explainsPast (hexp : Exponential exp) (hw : w.Nonneg) (hsum : w.sum ≠ 0) (hall : ExplainsPast exp w) :
    w.Told := by
  refine ⟨eta_eq_zero hw hsum hall, theta_eq_zero hw hsum hall, fun hmode => ?_⟩
  have hbm25 := modes_agree hexp hw hsum hall (by decide : "x" ∈ candidateIds (fourHits (-1)) []) (by decide)
  have hcosine := modes_agree hexp hw hsum hall (by decide : "x" ∈ candidateIds [] (fourHits 1)) (by decide)
  have hwinsorized : ∀ hits, hits = negated (fourHits (-1)) ∨ hits = fourHits 1 →
      (normMap .winsorized hits "x").getD 0 = 20 / 37 ∧ (normMap .minmax hits "x").getD 0 = 1 / 2 := by
    rintro hits (rfl | rfl)
    · decide +kernel
    · decide +kernel
  have habsent : ∀ mode, (normMap mode [] "x").getD 0 = 0 := fun mode => rfl
  obtain ⟨hw1, hm1⟩ := hwinsorized _ (.inl rfl)
  obtain ⟨hw2, hm2⟩ := hwinsorized _ (.inr rfl)
  rw [hmode, hw1, hm1, habsent, habsent] at hbm25
  rw [hmode, hw2, hm2, show negated [] = [] from rfl, habsent, habsent] at hcosine
  constructor
  · linarith
  · linarith

/-- a hit created thirty days after now -/
theorem delta_eq_zero (hexp : Exponential exp) (hw : w.Nonneg) (hsum : w.sum ≠ 0) (h : w.Told)
    (hall : ∀ g : Gathered, g.Bounded → Explained exp w g) : w.delta = 0 := by
  have hreported : w.sum = w.reported := by
    unfold Weights.sum Weights.reported
    rw [h.1, h.2.1]
    ring
  have heq := (hall (probe [("x", -1)] [] [] [] 2592000000) (probe_bounded ..)).equation hw (probe_bounded ..) hsum
    (by decide : "x" ∈ candidateIds [("x", -1)] []) rfl (by decide)
  have hone : (normMap w.normalization (negated [("x", -1)]) "x").getD 0 = (normMap .minmax (negated [("x", -1)]) "x").getD 0 := by
    cases w.normalization with
    | minmax => rfl
    | winsorized => decide +kernel
  have hage : -((0 - ((2592000000 : ℤ) : ℚ)) / dayMs) / 30 = 1 := by norm_num [dayMs]
  have habsent : ∀ mode, (normMap mode [] "x").getD 0 = 0 := fun mode => rfl
  rw [divisor, ← hreported, if_neg hsum, div_left_inj' hsum, fullSum_probe, reportedSum_probe, h.1, h.2.1, hage, hone,
    habsent, habsent, min_eq_left hexp.grows.le] at heq
  have hterm : w.delta * (exp 1 - 1) = 0 := by linarith
  rcases mul_eq_zero.1 hterm with hdelta | hgrows
  · exact hdelta
  · have := hexp.grows
    linarith

end

/-- **When the debug output explains the scores.** Among weights that are not negative: on all candidate sets without a
candidate created after now, exactly when η = θ = 0 and no leg weighs in the winsorized mode; on all candidate sets,
exactly when moreover δ = 0. -/
theorem debug_explains_iff (exp : ℚ → ℚ) (hexp : Exponential exp) (w : Weights) (hw : w.Nonneg) :
    ((∀ g : Gathered, g.Bounded → g.Past → Explained exp w g) ↔ w.Told) ∧
      ((∀ g : Gathered, g.Bounded → Explained exp w g) ↔ w.Told ∧ w.delta = 0) := by
  by_cases hsum : w.sum = 0
  · -- with no weights at all every score is 0
    have hzero : w.eta = 0 ∧ w.theta = 0 ∧ w.reported = 0 := by
      obtain ⟨ha, hb, hc, hd, he, hz, heta, htheta⟩ := hw
      unfold Weights.sum at hsum
      unfold Weights.reported
      exact ⟨by linarith, by linarith, by linarith⟩
    obtain ⟨ha, hb, -, hd, -, -⟩ := hw.reported_eq_zero hzero.2.2
    have htold : w.Told := ⟨hzero.1, hzero.2.1, fun _ => ⟨ha, hb⟩⟩
    exact ⟨iff_of_true (fun g hg hpast => explained_of_told hexp hw htold hg (.inl hpast)) htold,
      iff_of_true (fun g hg => explained_of_told hexp hw htold hg (.inr hd)) ⟨htold, hd⟩⟩
  · refine ⟨⟨fun hall => told_of_explainsPast hexp hw hsum hall, fun htold g hg hpast => ?_⟩, fun hall => ?_, fun h g hg => ?_⟩
    · exact explained_of_told hexp hw htold hg (.inl hpast)
    · have htold := told_of_explainsPast hexp hw hsum fun g hg _ => hall g hg
      exact ⟨htold, delta_eq_zero hexp hw hsum htold hall⟩
    · exact explained_of_told hexp hw h.1 hg (.inr h.2)

/-! ### Witnesses -/

/-- the default weights of `config.search` -/
def defaultWeights (mode : NormalizationMode) : Weights := ⟨4 / 10, 4 / 10, 1 / 10, 1 / 10, 1 / 10, 0, 0, 0, mode⟩

theorem defaultWeights_nonneg (mode : NormalizationMode) : (defaultWeights mode).Nonneg := by
  constructor <;> norm_num [defaultWeights]

/-- three terms of the exponential series -/
def sampleExp (x : ℚ) : ℚ := if 0 ≤ x then 1 + x + x * x / 2 else 1 / (1 - x + x * x / 2)

theorem sampleExp_exponential : Exponential sampleExp where
  le_one x hx := by
    unfold sampleExp
    split
    next h =>
      obtain rfl := le_antisymm hx h
      norm_num
    next h =>
      have hsquare := mul_self_nonneg x
      exact (div_le_one (by linarith)).2 (by linarith)
  grows := by norm_num [sampleExp]

theorem minmax_explained : (∀ g : Gathered, g.Bounded → g.Past → Explained sampleExp (defaultWeights .minmax) g) ∧
    ¬ ∀ g : Gathered, g.Bounded → g.Past → Explained sampleExp (defaultWeights .winsorized) g :=
  ⟨(debug_explains_iff sampleExp sampleExp_exponential _ (defaultWeights_nonneg .minmax)).1.2 (by decide),
    fun h => absurd ((debug_explains_iff sampleExp sampleExp_exponential _ (defaultWeights_nonneg .winsorized)).1.1 h)
      (by decide +kernel)⟩

/-- The default weights in the winsorized mode: of four hits of one leg the third has its score normalised to 20/37 when
it is fused and to 1/2 when it is reported. -/
theorem winsorized_not_explained :
    ¬ Explained sampleExp (defaultWeights .winsorized) (probe (fourHits (-1)) [] [] [] 0) := by
  intro h
  have heq := h.equation (defaultWeights_nonneg .winsorized) (probe_bounded ..) (by norm_num [defaultWeights, Weights.sum])
    (by decide : "x" ∈ candidateIds (fourHits (-1)) []) rfl (by decide)
  have hfused : (normMap .winsorized (negated (fourHits (-1))) "x").getD 0 = 20 / 37 := by decide +kernel
  have htold : (normMap .minmax (negated (fourHits (-1))) "x").getD 0 = 1 / 2 := by decide +kernel
  have habsent : ∀ mode, (normMap mode [] "x").getD 0 = 0 := fun mode => rfl
  rw [fullSum_probe, reportedSum_probe, htold, habsent, show (defaultWeights .winsorized).normalization = .winsorized from rfl,
    hfused, habsent] at heq
  norm_num [defaultWeights, Weights.sum, Weights.reported, divisor, sampleExp] at heq

end AstramemLocal.Search
