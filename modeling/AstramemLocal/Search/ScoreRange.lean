/-
The range of the fused scores. A score is a convex combination of components in [0, 1] (`fuseScores_unit`), and every
division of `fuseHits` sits behind a test of its divisor or has a constant one: `fuseHits?`, the same program with
divisions that fail on zero, never fails (`score_range`).
-/
import AstramemLocal.Search.Fuse

namespace AstramemLocal.Search

/-! ## The program with checked divisions -/

def div? (a b : ℚ) : Option ℚ := if b = 0 then none else some (a / b)

def normalizeScores? (scores : List ℚ) (mode : NormalizationMode) : Option (List ℚ) :=
  if scores = [] then some []
  else
    let source := if mode = .winsorized then winsorize scores else scores
    let low := source.min?.getD 0
    let range := source.max?.getD 0 - low
    if range = 0 then some (scores.map fun _ => 1) else source.mapM fun s => div? (s - low) range

/-- the weighted sum of the components -/
def rawScore (w : Weights) (input : FuseInput) : ℚ :=
  w.alpha * input.normBm25 + w.beta * input.normCosine + w.gamma * input.importance + w.delta * input.freshness +
    w.epsilon * input.usefulness.getD (1 / 2) + w.zeta * input.entityBonus.getD 0 + w.eta * input.agentBonus.getD 0 +
    w.theta * input.uncontestedBonus.getD 1

def fuseScores? (w : Weights) (input : FuseInput) : Option ℚ :=
  if w.sum = 0 then some 0 else (div? (rawScore w input) w.sum).map (min 1)

section

variable (exp : ℚ → ℚ) (ctx : FuseContext)

def freshness? (id : String) : Option ℚ := do
  let ageDays ← div? (ctx.nowMs - ((ctx.metas id).map (·.createdAt)).getD ctx.nowMs) dayMs
  let halfLife ← div? (ctx.freshnessDecayDays * dayMs) dayMs
  let exponent ← div? (-ageDays) halfLife
  pure (min 1 (exp exponent))

def fusedHit? (normBm25 normCosine : IdMap ℚ) (ftsHits vecHits : List (String × ℚ)) (id : String) :
    Option FusedHit := do
  let freshness ← freshness? exp ctx id
  let score ← fuseScores? ctx.weights
    { normBm25 := (normBm25 id).getD 0
      normCosine := (normCosine id).getD 0
      importance := ctx.importanceOf id
      freshness
      usefulness := ctx.usefulness.bind (· id)
      entityBonus := ctx.entityBonus.bind (· id)
      agentBonus := ctx.agentBonus.bind (· id)
      uncontestedBonus := ctx.uncontested.bind (· id) }
  pure ⟨id, score, hitSource ftsHits vecHits id⟩

def fuseHits? (ftsHits vecHits : List (String × ℚ)) : Option (List FusedHit) := do
  let bm25 ← normalizeScores? ((negated ftsHits).map (·.2)) ctx.weights.normalization
  let cosine ← normalizeScores? (vecHits.map (·.2)) ctx.weights.normalization
  let normBm25 := mapOf (((negated ftsHits).map (·.1)).zip bm25)
  let normCosine := mapOf ((vecHits.map (·.1)).zip cosine)
  let results ← (candidateIds ftsHits vecHits).mapM (fusedHit? exp ctx normBm25 normCosine ftsHits vecHits)
  pure (sortByScore results)

end

/-! ## No division fails -/

theorem div?_of_ne {a b : ℚ} (h : b ≠ 0) : div? a b = some (a / b) := if_neg h

theorem mapM_some {α β : Type} {f : α → Option β} {g : α → β} {l : List α} (h : ∀ a ∈ l, f a = some (g a)) :
    l.mapM f = some (l.map g) := by
  induction l with
  | nil => rfl
  | cons a l ih =>
    rw [List.mapM_cons, h a List.mem_cons_self, ih fun b hb => h b (List.mem_cons_of_mem _ hb)]
    rfl

theorem normalizeScores?_eq (scores : List ℚ) (mode : NormalizationMode) :
    normalizeScores? scores mode = some (normalizeScores scores mode) := by
  unfold normalizeScores? normalizeScores
  split
  · rfl
  · dsimp only
    generalize (if mode = .winsorized then winsorize scores else scores) = source
    split
    · rfl
    next hrange => exact mapM_some fun s _ => div?_of_ne hrange

theorem fuseScores?_eq (w : Weights) (input : FuseInput) : fuseScores? w input = some (fuseScores w input) := by
  unfold fuseScores? fuseScores
  split
  · rfl
  next hsum =>
    rw [div?_of_ne hsum]
    rfl

theorem dayMs_ne : dayMs ≠ 0 := by decide +kernel

theorem freshness?_eq {exp : ℚ → ℚ} {ctx : FuseContext} (hdecay : ctx.freshnessDecayDays ≠ 0) (id : String) :
    freshness? exp ctx id = some (min 1 (exp (-ctx.ageDays id / (ctx.freshnessDecayDays * dayMs / dayMs)))) := by
  have hhalf : ctx.freshnessDecayDays * dayMs / dayMs ≠ 0 := by
    rw [mul_div_cancel_right₀ _ dayMs_ne]
    exact hdecay
  unfold freshness?
  rw [div?_of_ne dayMs_ne, div?_of_ne dayMs_ne]
  simp only [Option.bind_eq_bind, Option.bind_some]
  rw [div?_of_ne hhalf]
  rfl

theorem fuseHits?_eq {exp : ℚ → ℚ} {ctx : FuseContext} (hdecay : ctx.freshnessDecayDays ≠ 0)
    (ftsHits vecHits : List (String × ℚ)) : fuseHits? exp ctx ftsHits vecHits = some (fuseHits exp ctx ftsHits vecHits) := by
  have hhit : ∀ id ∈ candidateIds ftsHits vecHits,
      fusedHit? exp ctx (normMap ctx.weights.normalization (negated ftsHits)) (normMap ctx.weights.normalization vecHits)
        ftsHits vecHits id = some (fusedHit exp ctx ftsHits vecHits id) := by
    intro id _
    unfold fusedHit?
    rw [freshness?_eq hdecay]
    simp only [Option.bind_eq_bind, Option.bind_some]
    rw [fuseScores?_eq]
    rfl
  unfold fuseHits?
  rw [normalizeScores?_eq, normalizeScores?_eq]
  simp only [Option.bind_eq_bind, Option.bind_some]
  exact congrArg (·.bind fun results => some (sortByScore results)) (mapM_some hhit)

/-! ## The range -/

structure NonnegWeights (w : Weights) : Prop where
  alpha : 0 ≤ w.alpha
  beta : 0 ≤ w.beta
  gamma : 0 ≤ w.gamma
  delta : 0 ≤ w.delta
  epsilon : 0 ≤ w.epsilon
  zeta : 0 ≤ w.zeta
  eta : 0 ≤ w.eta
  theta : 0 ≤ w.theta

def InUnit (x : ℚ) : Prop := 0 ≤ x ∧ x ≤ 1

/-- what `fuseHits` is given lies in [0, 1], and the half-life is not zero: every caller leaves it at 30 days -/
structure UnitComponents (exp : ℚ → ℚ) (ctx : FuseContext) : Prop where
  importance : ∀ id m, ctx.metas id = some m → InUnit m.importance
  usefulness : ∀ id u, ctx.usefulness.bind (· id) = some u → InUnit u
  entityBonus : ∀ id b, ctx.entityBonus.bind (· id) = some b → InUnit b
  agentBonus : ∀ id b, ctx.agentBonus.bind (· id) = some b → InUnit b
  uncontested : ∀ id b, ctx.uncontested.bind (· id) = some b → InUnit b
  exp : ∀ x, 0 ≤ exp x
  halfLife : ctx.freshnessDecayDays ≠ 0

theorem inUnit_getD {o : Option ℚ} {d : ℚ} (h : ∀ x, o = some x → InUnit x) (hd : InUnit d) : InUnit (o.getD d) := by
  cases o with
  | none => exact hd
  | some x => exact h x rfl

/-- a component adds between nothing and its whole weight -/
theorem weighted_unit {w x : ℚ} (hw : 0 ≤ w) (hx : InUnit x) : 0 ≤ w * x ∧ w * x ≤ w :=
  ⟨mul_nonneg hw hx.1, mul_le_of_le_one_right hw hx.2⟩

/-- **Convexity.** Components in [0, 1] give a score in [0, 1], which the clamp leaves alone. -/
theorem fuseScores_unit {w : Weights} {input : FuseInput} (hw : NonnegWeights w) (hbm25 : InUnit input.normBm25)
    (hcosine : InUnit input.normCosine) (himportance : InUnit input.importance) (hfreshness : InUnit input.freshness)
    (huseful : ∀ x, input.usefulness = some x → InUnit x) (hentity : ∀ x, input.entityBonus = some x → InUnit x)
    (hagent : ∀ x, input.agentBonus = some x → InUnit x) (hfree : ∀ x, input.uncontestedBonus = some x → InUnit x) :
    InUnit (fuseScores w input) ∧ fuseScores w input = rawScore w input / w.sum := by
  obtain ⟨h1, h1'⟩ := weighted_unit hw.alpha hbm25
  obtain ⟨h2, h2'⟩ := weighted_unit hw.beta hcosine
  obtain ⟨h3, h3'⟩ := weighted_unit hw.gamma himportance
  obtain ⟨h4, h4'⟩ := weighted_unit hw.delta hfreshness
  obtain ⟨h5, h5'⟩ := weighted_unit hw.epsilon (inUnit_getD huseful (d := 1 / 2) ⟨by norm_num, by norm_num⟩)
  obtain ⟨h6, h6'⟩ := weighted_unit hw.zeta (inUnit_getD hentity (d := 0) ⟨le_rfl, zero_le_one⟩)
  obtain ⟨h7, h7'⟩ := weighted_unit hw.eta (inUnit_getD hagent (d := 0) ⟨le_rfl, zero_le_one⟩)
  obtain ⟨h8, h8'⟩ := weighted_unit hw.theta (inUnit_getD hfree (d := 1) ⟨zero_le_one, le_rfl⟩)
  have hraw : 0 ≤ rawScore w input := by
    unfold rawScore
    linarith
  have hsum : rawScore w input ≤ w.sum := by
    unfold rawScore Weights.sum
    linarith
  have hquotient : InUnit (rawScore w input / w.sum) :=
    ⟨div_nonneg hraw (hraw.trans hsum), div_le_one_of_le₀ hsum (hraw.trans hsum)⟩
  have hscore : fuseScores w input = rawScore w input / w.sum := by
    unfold fuseScores
    split
    next hzero => rw [hzero, div_zero]
    next => exact min_eq_right hquotient.2
  exact ⟨hscore ▸ hquotient, hscore⟩

theorem fusedHit_unit {exp : ℚ → ℚ} {ctx : FuseContext} (hw : NonnegWeights ctx.weights) (hunit : UnitComponents exp ctx)
    (ftsHits vecHits : List (String × ℚ)) (id : String) : InUnit (fusedHit exp ctx ftsHits vecHits id).score := by
  have himportance : InUnit (ctx.importanceOf id) := by
    refine inUnit_getD (fun x hx => ?_) ⟨by norm_num, by norm_num⟩
    obtain ⟨m, hm, rfl⟩ := Option.map_eq_some_iff.1 hx
    exact hunit.importance id m hm
  refine (fuseScores_unit hw ?_ ?_ himportance ?_ (hunit.usefulness id) (hunit.entityBonus id) (hunit.agentBonus id)
    (hunit.uncontested id)).1
  · exact normMap_unit _ _ _
  · exact normMap_unit _ _ _
  · exact ⟨le_min zero_le_one (hunit.exp _), min_le_left _ _⟩

/-- **Score range.** For every candidate set, nonnegative weights and components in [0, 1], in either mode: no division
meets a zero, every score lies in [0, 1], and the list is sorted with each id once. -/
theorem score_range (exp : ℚ → ℚ) (ctx : FuseContext) (ftsHits vecHits : List (String × ℚ))
    (hw : NonnegWeights ctx.weights) (hunit : UnitComponents exp ctx) :
    fuseHits? exp ctx ftsHits vecHits = some (fuseHits exp ctx ftsHits vecHits) ∧
      (∀ hit ∈ fuseHits exp ctx ftsHits vecHits, 0 ≤ hit.score ∧ hit.score ≤ 1) ∧
      (fuseHits exp ctx ftsHits vecHits).Pairwise (fun a b => b.score ≤ a.score) ∧
      ((fuseHits exp ctx ftsHits vecHits).map (·.id)).Nodup := by
  refine ⟨fuseHits?_eq hunit.halfLife ftsHits vecHits, ?_, fuseHits_sorted, ?_⟩
  · intro hit hhit
    obtain ⟨id, -, rfl⟩ := mem_fuseHits.1 hhit
    exact fusedHit_unit hw hunit ftsHits vecHits id
  · exact fuseHits_ids.nodup_iff.2 (candidateIds_nodup ftsHits vecHits)

/-- nothing known of any id, weights that are all zero but one -/
def bareContext : FuseContext where
  metas _ := none
  weights := ⟨0, 0, 1, 0, 0, 0, 0, 0, .winsorized⟩
  nowMs := 0
  freshnessDecayDays := 30
  usefulness := none
  entityBonus := none
  agentBonus := none
  uncontested := none

theorem bareContext_range :
    fuseHits? (fun _ => 1) bareContext [("a", -2), ("b", -2)] [("a", 1)] =
        some (fuseHits (fun _ => 1) bareContext [("a", -2), ("b", -2)] [("a", 1)]) ∧
      (∀ hit ∈ fuseHits (fun _ => 1) bareContext [("a", -2), ("b", -2)] [("a", 1)], 0 ≤ hit.score ∧ hit.score ≤ 1) := by
  have hw : NonnegWeights bareContext.weights := by constructor <;> decide +kernel
  have hunit : UnitComponents (fun _ => 1) bareContext :=
    { importance := by simp [bareContext], usefulness := by simp [bareContext], entityBonus := by simp [bareContext],
      agentBonus := by simp [bareContext], uncontested := by simp [bareContext], exp := fun _ => zero_le_one,
      halfLife := by decide +kernel }
  obtain ⟨hdivisions, hrange, -⟩ := score_range (fun _ => 1) bareContext [("a", -2), ("b", -2)] [("a", 1)] hw hunit
  exact ⟨hdivisions, hrange⟩

end AstramemLocal.Search
