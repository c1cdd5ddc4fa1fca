/-
The injection policy: which memories a prompt is given and within what budget (`decideInjection` of
`src/recall/policy.ts`, over `selectPack` of `src/recall/pack.ts`). Numbers are exact rationals, `exp` is Math.exp.

- `injection_within_budget`: what is injected is the greedy prefix of the ranked candidates that clears the threshold, and
  the budget is neither above the requested one nor larger for a longer prompt, as long as the floor lies below it.
- `requested_lt_shrink_iff`: when a long prompt gets more than was requested.
- `design_departs`: the candidates are the newest 500, smalltalk is given nothing, and a policy that is off has no threshold.
-/
import AstramemLocal.Core.EventLines
import AstramemLocal.Core.GreedyPrefix
import AstramemLocal.Core.Ranking
import AstramemLocal.Core.Regex
import AstramemLocal.Recall.Surfaces
import AstramemLocal.Store.Usefulness
import Mathlib.Algebra.Order.Field.Rat
import Mathlib.Algebra.Order.Ring.Rat
import Mathlib.Data.Rat.Floor
import Mathlib.Tactic.Linarith

namespace AstramemLocal.Recall

open AstramemLocal.Core AstramemLocal.Store AstramemLocal.MemoryTool

/-! ## Packs -/

structure PackMemory where
  id : AtomId
  type : MemoryType
  text : String
  score : ℚ
deriving DecidableEq, Repr

/-- `DEFAULT_TYPE_WEIGHTS`, 0.4 for any other type -/
def typeWeight : MemoryType → ℚ
  | .decision => 1
  | .lesson => 9 / 10
  | .fact => 7 / 10
  | .command => 6 / 10
  | _ => 4 / 10

/-- `RECENCY_HALF_LIFE_DAYS` -/
def recencyHalfLifeDays : ℚ := 30

/-- four characters to a token, rounded up -/
def estimateTokens (text : String) : ℕ := ((codeUnits text).length + 3) / 4

def scored (exp : ℚ → ℚ) (now : Time) (r : Memory) : PackMemory :=
  let ageDays : ℚ := (now - r.createdAt : ℤ) / (24 * 60 * 60 * 1000)
  let recency := exp (-ageDays / recencyHalfLifeDays)
  { id := r.id, type := r.type, text := r.text, score := typeWeight r.type * recency * r.importance }

/-- the candidates by descending score, of equal ones the newer first -/
def ranked (exp : ℚ → ℚ) (db : St) (opts : PackOptions) (now : Time) : List PackMemory :=
  ((packCandidates db opts).map (scored exp now)).insertionSort (byScore PackMemory.score)

def tokens (m : PackMemory) : ℚ := estimateTokens m.text

def selectPack (exp : ℚ → ℚ) (db : St) (opts : PackOptions) (budget : ℚ) (now : Time) : List PackMemory :=
  greedy tokens budget (ranked exp db opts now)

/-- `TYPE_HEADINGS[type] ?? type` -/
def typeHeading : MemoryType → String
  | .decision => "Decisions"
  | .fact => "Facts"
  | .lesson => "Lessons"
  | .command => "Commands"
  | .todo => "Todos"
  | .note => "Notes"
  | .event => "Events"
  | type => typeName type

def renderPack (idText : AtomId → JsString) (memories : List PackMemory) : JsString :=
  let lit := JsString.ofString
  let item := fun m : PackMemory => lit "- " ++ JsString.collapseSpace (lit m.text) ++ lit " `(" ++ idText m.id ++ lit ")`"
  if memories = [] then []
  else
    let sections := (memories.map (·.type)).eraseDups.flatMap fun type =>
      (lit "\n## " ++ lit (typeHeading type)) :: (memories.filter (·.type = type)).map item
    [JsString.newline].intercalate (lit "# Repo memory pack" :: sections)

/-! ## The policy -/

structure PolicyConfig where
  enabled : Bool
  minScore : ℚ
  minPromptChars : ℚ

/-- `config.recallPack` -/
structure RecallPackConfig where
  budgetTokens : Option ℚ
  policy : PolicyConfig

structure PolicyInput extends PackOptions where
  prompt : JsString
  budgetTokens : Option ℚ := none
  now : Time

inductive Reason where
  | injected | noEligibleMemories | promptTooShort | smalltalk | belowMinScore | policyDisabled
deriving DecidableEq, Repr

structure PolicyDecision where
  inject : Bool
  reason : Reason
  memories : List PackMemory
  pack : JsString
  budgetTokens : ℚ

section Patterns
open Re

/-- `MEMORY_REFERENCE_RE` -/
def memoryReferenceRe : RegExp :=
  compile true (.wordBoundary ++ .group 1 (lit "remember" ||| lit "recall" ||| lit "last time" ||| lit "previously" |||
    lit "we decided" ||| lit "as before" ||| lit "earlier session" |||
    (lit "what did " ++ .group 2 (lit "i" ||| lit "we"))) ++ .wordBoundary)

/-- `SMALLTALK_RE` -/
def smalltalkRe : RegExp :=
  compile true (.atStart ++ star space ++ .group 1 (lit "hi" ||| lit "hey" ||| lit "hello" |||
    (lit "thank" ++ opt (lit "s")) ||| lit "thank you" ||| (lit "ok" ++ opt (.group 2 (lit "ay"))) ||| lit "yes" |||
    lit "no" ||| lit "cool" ||| lit "nice" ||| lit "lol" |||
    (lit "good " ++ .group 3 (lit "morning" ||| lit "evening" ||| lit "night")) ||| lit "how are you") ++
    star space ++ star (cls (listed "!.?")) ++ star space ++ .atEnd)

end Patterns

/-- `PROMPT_SHRINK_START_CHARS` -/
def promptShrinkStartChars : ℕ := 4000

/-- `PROMPT_SHRINK_FLOOR_TOKENS` -/
def promptShrinkFloorTokens : ℚ := 300

/-- `Math.round` -/
def mathRound (x : ℚ) : ℤ := ⌊x + 1 / 2⌋

/-- what is left of the budget at a prompt of that length -/
def shrinkFactor (promptChars : ℕ) : ℚ :=
  let excess : ℚ := promptChars - promptShrinkStartChars
  max 0 (1 - excess / 16000)

def shrinkBudgetForPrompt (baseBudget : ℚ) (promptChars : ℕ) : ℚ :=
  if promptChars ≤ promptShrinkStartChars then baseBudget
  else max promptShrinkFloorTokens (mathRound (baseBudget * shrinkFactor promptChars))

/-- `DEFAULT_BUDGET_TOKENS` -/
def defaultBudgetTokens : ℚ := 1500

/-- `input.budgetTokens ?? config.recallPack.budgetTokens ?? DEFAULT_BUDGET_TOKENS` -/
def requestedBudget (config : RecallPackConfig) (input : PolicyInput) : ℚ :=
  (input.budgetTokens.orElse fun _ => config.budgetTokens).getD defaultBudgetTokens

/-- the gate a prompt is stopped at; one that refers to memory passes -/
def gate (policy : PolicyConfig) (prompt : JsString) : Option Reason :=
  if memoryReferenceRe.test prompt then none
  else if smalltalkRe.test prompt then some .smalltalk
  else if (prompt.trim.length : ℚ) < policy.minPromptChars then some .promptTooShort
  else none

/-- the call that `record` makes -/
def record (input : PolicyInput) (memories : List PackMemory) : Option RecordRecallServedInput :=
  if memories = [] then none
  else some { query := some ("pack:" ++ input.repo), atomIds := memories.map (·.id),
              scores := some (memories.map (·.score)), surface := .rest, mode := some "pack-policy" }

variable (exp : ℚ → ℚ) (idText : AtomId → JsString)

/-- the decision, with the served memories it records -/
def decideInjection (db : St) (config : RecallPackConfig) (input : PolicyInput) :
    PolicyDecision × Option RecordRecallServedInput :=
  let policyCfg := config.policy
  let baseBudget := requestedBudget config input
  let skip := fun (reason : Reason) (budgetTokens : ℚ) =>
    ((⟨false, reason, [], [], budgetTokens⟩ : PolicyDecision), (none : Option RecordRecallServedInput))
  if policyCfg.enabled then
    match gate policyCfg input.prompt with
    | some reason => skip reason baseBudget
    | none =>
      let budget := shrinkBudgetForPrompt baseBudget input.prompt.length
      let candidates := selectPack exp db input.toPackOptions budget input.now
      if candidates = [] then skip .noEligibleMemories budget
      else
        let confident := candidates.filter (policyCfg.minScore ≤ ·.score)
        if confident = [] then skip .belowMinScore budget
        else (⟨true, .injected, confident, renderPack idText confident, budget⟩, record input confident)
  else
    let memories := selectPack exp db input.toPackOptions baseBudget input.now
    (⟨memories ≠ [], if memories ≠ [] then .injected else .noEligibleMemories, memories, renderPack idText memories,
      baseBudget⟩, record input memories)

/-! ## The budget -/

/-- the requested budget is a whole number of tokens from the floor on, or the prompt is short -/
def FloorBelow (requested : ℚ) (promptChars : ℕ) : Prop :=
  promptChars ≤ promptShrinkStartChars ∨ promptShrinkFloorTokens ≤ requested ∧ ∃ n : ℤ, requested = n

variable {requested : ℚ} {m n : ℕ}

theorem shrinkFactor_antitone (h : m ≤ n) : shrinkFactor n ≤ shrinkFactor m := by
  have hcast : (m : ℚ) ≤ n := by exact_mod_cast h
  unfold shrinkFactor
  apply max_le_max le_rfl
  linarith

theorem shrinkFactor_le_one (h : promptShrinkStartChars ≤ n) : shrinkFactor n ≤ 1 := by
  have hcast : (promptShrinkStartChars : ℚ) ≤ n := by exact_mod_cast h
  unfold shrinkFactor
  apply max_le zero_le_one
  linarith

theorem mathRound_mono {x y : ℚ} (h : x ≤ y) : mathRound x ≤ mathRound y := Int.floor_mono (by linarith)

theorem mathRound_int (k : ℤ) : mathRound k = k := by
  rw [mathRound, Int.floor_intCast_add]
  norm_num

theorem shrink_short (h : n ≤ promptShrinkStartChars) : shrinkBudgetForPrompt requested n = requested := if_pos h

theorem shrink_long (h : ¬ n ≤ promptShrinkStartChars) : shrinkBudgetForPrompt requested n =
    max promptShrinkFloorTokens (mathRound (requested * shrinkFactor n)) := if_neg h

/-- **A long prompt gets more than was requested** exactly if the floor, or the rounding, lies above it. -/
theorem requested_lt_shrink_iff : requested < shrinkBudgetForPrompt requested n ↔ promptShrinkStartChars < n ∧
    (requested < promptShrinkFloorTokens ∨ requested < mathRound (requested * shrinkFactor n)) := by
  by_cases h : n ≤ promptShrinkStartChars
  · rw [shrink_short h]
    exact iff_of_false (lt_irrefl _) fun hlong => absurd hlong.1 (not_lt.2 h)
  · rw [shrink_long h, lt_max_iff]
    exact (and_iff_right (not_le.1 h)).symm

theorem shrink_le (h : FloorBelow requested n) : shrinkBudgetForPrompt requested n ≤ requested := by
  by_contra hlt
  obtain ⟨hlong, hover⟩ := requested_lt_shrink_iff.1 (not_le.1 hlt)
  obtain hshort | ⟨hfloor, k, rfl⟩ := h
  · exact absurd hlong (not_lt.2 hshort)
  · rcases hover with hover | hover
    · exact absurd hover (not_lt.2 hfloor)
    · have hnonneg : (0 : ℚ) ≤ k := le_trans (by norm_num [promptShrinkFloorTokens]) hfloor
      have hround : mathRound (k * shrinkFactor n) ≤ mathRound k :=
        mathRound_mono (mul_le_of_le_one_right hnonneg (shrinkFactor_le_one hlong.le))
      rw [mathRound_int] at hround
      exact absurd hover (not_lt.2 (by exact_mod_cast hround))

/-- a longer prompt gets no larger budget -/
theorem shrink_antitone (hmn : m ≤ n) (h : FloorBelow requested n) :
    shrinkBudgetForPrompt requested n ≤ shrinkBudgetForPrompt requested m := by
  by_cases hm : m ≤ promptShrinkStartChars
  · rw [shrink_short hm]
    exact shrink_le h
  · have hn : ¬ n ≤ promptShrinkStartChars := fun hn => hm (hmn.trans hn)
    rw [shrink_long hm, shrink_long hn]
    have hfloor := (h.resolve_left hn).1
    have hnonneg : 0 ≤ requested := le_trans (by norm_num [promptShrinkFloorTokens]) hfloor
    apply max_le_max le_rfl
    exact_mod_cast mathRound_mono (mul_le_mul_of_nonneg_left (shrinkFactor_antitone hmn) hnonneg)

/-! ## The decision -/

/-- the prompt is stopped at a gate -/
def Gated (config : RecallPackConfig) (input : PolicyInput) : Prop :=
  config.policy.enabled = true ∧ gate config.policy input.prompt ≠ none

instance (config : RecallPackConfig) (input : PolicyInput) : Decidable (Gated config input) := by
  unfold Gated
  infer_instance

/-- the memory clears the threshold; a policy that is off has none -/
def clears (policy : PolicyConfig) (m : PackMemory) : Bool := !policy.enabled || policy.minScore ≤ m.score

variable {exp idText} {db : St} {config : RecallPackConfig} {input : PolicyInput}

theorem decideInjection_budget (h : ¬ Gated config input) : (decideInjection exp idText db config input).1.budgetTokens =
    if config.policy.enabled then shrinkBudgetForPrompt (requestedBudget config input) input.prompt.length
    else requestedBudget config input := by
  unfold decideInjection
  cases henabled : config.policy.enabled with
  | false => simp [henabled]
  | true =>
    have hgate : gate config.policy input.prompt = none := by
      by_contra hne
      exact h ⟨henabled, hne⟩
    simp only [henabled, hgate, if_true]
    split_ifs <;> rfl

theorem decideInjection_gated (h : Gated config input) :
    (decideInjection exp idText db config input).1.budgetTokens = requestedBudget config input ∧
      (decideInjection exp idText db config input).1.memories = [] := by
  obtain ⟨reason, hreason⟩ := Option.ne_none_iff_exists'.1 h.2
  unfold decideInjection
  simp [h.1, hreason]

theorem decideInjection_memories (h : ¬ Gated config input) :
    (decideInjection exp idText db config input).1.memories =
      (selectPack exp db input.toPackOptions (decideInjection exp idText db config input).1.budgetTokens input.now).filter
        (clears config.policy) := by
  rw [decideInjection_budget h]
  unfold decideInjection
  cases henabled : config.policy.enabled with
  | false =>
    have hclears : clears config.policy = fun _ => true := by
      funext m
      simp [clears, henabled]
    simp [henabled, hclears]
  | true =>
    have hgate : gate config.policy input.prompt = none := by
      by_contra hne
      exact h ⟨henabled, hne⟩
    have hclears : clears config.policy = fun m => decide (config.policy.minScore ≤ m.score) := by
      funext m
      simp [clears, henabled]
    simp only [henabled, hgate, if_true, hclears]
    split_ifs with hnone hconfident
    · rw [hnone]
      rfl
    · exact hconfident.symm
    · rfl

theorem tokens_nonneg (m : PackMemory) : 0 ≤ tokens m := by
  unfold tokens
  exact_mod_cast Nat.zero_le _

variable (exp idText db config input) in
/-- what a decision owes to the requested budget and the ranked candidates -/
structure InjectionWithinBudget : Prop where
  budget_le : FloorBelow (requestedBudget config input) input.prompt.length →
    (decideInjection exp idText db config input).1.budgetTokens ≤ requestedBudget config input
  budget_antitone : ∀ longer : JsString, input.prompt.length ≤ longer.length →
    FloorBelow (requestedBudget config input) longer.length → ¬ Gated config input →
    ¬ Gated config { input with prompt := longer } →
    (decideInjection exp idText db config { input with prompt := longer }).1.budgetTokens ≤
      (decideInjection exp idText db config input).1.budgetTokens
  ranking : (ranked exp db input.toPackOptions input.now).Perm
      ((packCandidates db input.toPackOptions).map (scored exp input.now)) ∧
    (ranked exp db input.toPackOptions input.now).Pairwise fun a b => b.score ≤ a.score
  memories : ∃ pack, IsGreedyPrefix tokens (decideInjection exp idText db config input).1.budgetTokens
      (ranked exp db input.toPackOptions input.now) pack ∧
    (decideInjection exp idText db config input).1.memories =
      if Gated config input then [] else pack.filter (clears config.policy)
  tokens_le : (decideInjection exp idText db config input).1.memories = [] ∨
    totalCost tokens (decideInjection exp idText db config input).1.memories ≤
      (decideInjection exp idText db config input).1.budgetTokens ∨
    ∃ best, (decideInjection exp idText db config input).1.memories = [best] ∧
      (decideInjection exp idText db config input).1.budgetTokens < tokens best ∧
      (ranked exp db input.toPackOptions input.now).head? = some best

/-- a filtered greedy prefix stays within the budget, but for the first item alone -/
theorem filtered_within {budget : ℚ} {items pack : List PackMemory} (h : IsGreedyPrefix tokens budget items pack)
    (p : PackMemory → Bool) : pack.filter p = [] ∨ totalCost tokens (pack.filter p) ≤ budget ∨
      ∃ best, pack.filter p = [best] ∧ budget < tokens best ∧ items.head? = some best := by
  obtain rfl | hle | ⟨best, rfl, hover⟩ := h.within
  · exact .inl rfl
  · exact .inr (.inl ((totalCost_le_of_sublist tokens_nonneg List.filter_sublist).trans hle))
  · obtain ⟨rest, rfl⟩ := h.isPrefix
    cases hp : p best with
    | false => exact .inl (by simp [hp])
    | true => exact .inr (.inr ⟨best, by simp [hp], hover, rfl⟩)

/-- **Injection within the budget.** -/
theorem injection_within_budget (exp : ℚ → ℚ) (idText : AtomId → JsString) (db : St) (config : RecallPackConfig)
    (input : PolicyInput) : InjectionWithinBudget exp idText db config input where
  budget_le h := by
    by_cases hgated : Gated config input
    · exact (decideInjection_gated hgated).1.le
    · rw [decideInjection_budget hgated]
      split_ifs
      · exact shrink_le h
      · exact le_rfl
  budget_antitone longer hlength hfloor hgated hlonger := by
    rw [decideInjection_budget hgated, decideInjection_budget hlonger]
    split_ifs
    · exact shrink_antitone hlength hfloor
    · exact le_rfl
  ranking := ⟨List.perm_insertionSort _ _, List.pairwise_insertionSort _ _⟩
  memories := by
    refine ⟨_, isGreedyPrefix_greedy tokens_nonneg _, ?_⟩
    split_ifs with hgated
    · exact (decideInjection_gated hgated).2
    · exact decideInjection_memories hgated
  tokens_le := by
    by_cases hgated : Gated config input
    · exact .inl (decideInjection_gated hgated).2
    · have hgreedy := @isGreedyPrefix_greedy _ _ _ _ _ (decideInjection exp idText db config input).1.budgetTokens _
        tokens_nonneg (ranked exp db input.toPackOptions input.now)
      rw [decideInjection_memories hgated]
      exact filtered_within hgreedy (clears config.policy)

/-! ## What the policy leaves out by design -/

/-- a note without a weight of its own -/
def plainNote (id : AtomId) (createdAt : Time) (importance : ℚ) : Memory :=
  { rowid := id, id := id, type := .decision, text := "keep tabs", normalizedText := "keep tabs", repo := none,
    project := some "p", branch := none, agent := none, sessionId := none, importance, confidence := 1, hash := id,
    createdAt, updatedAt := createdAt, sourceHash := none, evidence := none, validFrom := 0, scope := .priv }

def onePolicy (enabled : Bool) : RecallPackConfig := { budgetTokens := some 1500, policy := ⟨enabled, 1 / 2, 12⟩ }

def askedAt (prompt : String) : PolicyInput := { repo := "p", prompt := JsString.ofString prompt, now := 0 }

theorem packCandidates_sorted {rows : List Memory} {opts : PackOptions} (hproject : ∀ m ∈ rows,
    m.project = some (opts.project.getD opts.repo) ∧ m.validTo = none) (hbranch : opts.branch = none)
    (hsorted : rows.Pairwise fun a b => newerFirst a b = true) :
    packCandidates { memories := rows } opts = rows.take candidateLimit := by
  unfold packCandidates firstCandidates
  dsimp only
  have hall : (rows.filter fun m => m.project = some (opts.project.getD opts.repo) ∧ m.validTo = none ∧
      opts.branch.all fun branch => m.branch = some branch) = rows := by
    apply List.filter_eq_self.2
    intro m hm
    obtain ⟨hp, hv⟩ := hproject m hm
    simp [hp, hv, hbranch]
  rw [hall, List.Pairwise.insertionSort_eq hsorted]

/-- what is injected is a candidate and clears the threshold -/
theorem mem_injected {m : PackMemory} (h : m ∈ (decideInjection exp idText db config input).1.memories) :
    (∃ r ∈ packCandidates db input.toPackOptions, scored exp input.now r = m) ∧ clears config.policy m = true := by
  by_cases hgated : Gated config input
  · rw [(decideInjection_gated hgated).2] at h
    cases h
  · rw [decideInjection_memories hgated] at h
    obtain ⟨hpack, hclears⟩ := List.mem_filter.1 h
    have hranked := (isGreedyPrefix_greedy tokens_nonneg _).isPrefix.subset hpack
    exact ⟨List.mem_map.1 ((List.mem_insertionSort _).1 hranked), hclears⟩

/-- 500 memories without importance, the newest first -/
def newer : List Memory := (List.range candidateLimit).map fun i => plainNote (i + 2) (-i) 0

/-- one of importance 1 that is older than all of them -/
def oldest : Memory := plainNote 1 (-1000) 1

theorem packCandidates_crowded (opts : PackOptions) (hproject : opts.project.getD opts.repo = "p") (hbranch : opts.branch = none) :
    packCandidates { memories := newer ++ [oldest] } opts = newer := by
  have hlength : newer.length = candidateLimit := by simp [newer]
  rw [packCandidates_sorted _ hbranch, ← hlength, List.take_left]
  · rw [List.pairwise_append]
    refine ⟨?_, List.pairwise_singleton _ _, ?_⟩
    · rw [newer, List.pairwise_map]
      apply List.pairwise_lt_range.imp
      intro i j hij
      simp [newerFirst, plainNote]
      omega
    · intro a ha b hb
      obtain ⟨i, hi, rfl⟩ := List.mem_map.1 ha
      rw [List.mem_singleton.1 hb]
      have hlt : i < 500 := List.mem_range.1 hi
      simp [newerFirst, plainNote, oldest]
      exact .inl (hlt.trans (by decide))
  · intro m hm
    rcases List.mem_append.1 hm with hm | hm
    · obtain ⟨i, -, rfl⟩ := List.mem_map.1 hm
      exact ⟨congrArg some hproject.symm, rfl⟩
    · rw [List.mem_singleton.1 hm]
      exact ⟨congrArg some hproject.symm, rfl⟩

theorem score_newer {r : Memory} (h : r ∈ newer) : (scored exp 0 r).score = 0 := by
  obtain ⟨i, -, rfl⟩ := List.mem_map.1 h
  exact mul_zero _

/-- Not all current memories are ranked: behind 500 newer ones without any score the only one that clears the threshold is
not injected. Smalltalk is given nothing although a memory clears it, and with the policy off one that does not is
injected. -/
theorem design_departs :
    ((decideInjection (1 + ·) (fun _ => []) { memories := newer ++ [oldest] } (onePolicy true)
        (askedAt "recall the plan")).1.memories = [] ∧
      clears (onePolicy true).policy (scored (1 + ·) 0 oldest) = true ∧ tokens (scored (1 + ·) 0 oldest) ≤ 1500 ∧
      ∀ r ∈ newer, (scored (1 + ·) 0 r).score < (scored (1 + ·) 0 oldest).score) ∧
    ((decideInjection (1 + ·) (fun _ => []) { memories := [plainNote 1 0 1] } (onePolicy true)
        (askedAt "thanks!")).1.memories = [] ∧ clears (onePolicy true).policy (scored (1 + ·) 0 (plainNote 1 0 1)) = true) ∧
    (decideInjection (1 + ·) (fun _ => []) { memories := [plainNote 1 0 0] } (onePolicy false)
      (askedAt "thanks!")).1.memories = [scored (1 + ·) 0 (plainNote 1 0 0)] ∧
      ¬ (onePolicy false).policy.minScore ≤ (scored (1 + ·) 0 (plainNote 1 0 0)).score := by
  refine ⟨⟨?_, by decide +kernel, by decide +kernel, ?_⟩, ⟨by decide +kernel, by decide +kernel⟩, by decide +kernel,
    by decide +kernel⟩
  · apply List.eq_nil_iff_forall_not_mem.2
    intro m hm
    obtain ⟨⟨r, hr, rfl⟩, hclears⟩ := mem_injected hm
    rw [packCandidates_crowded _ rfl rfl] at hr
    have hscore : (scored (1 + ·) (askedAt "recall the plan").now r).score = 0 := score_newer hr
    simp only [clears, hscore] at hclears
    exact absurd hclears (by decide +kernel)
  · intro r hr
    rw [score_newer hr]
    decide +kernel

end AstramemLocal.Recall
