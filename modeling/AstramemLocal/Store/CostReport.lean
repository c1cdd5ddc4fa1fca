/-
The cost report (`costReport` of `src/storage/cost-events.ts`), over exact rationals. One pass over the events prices each
of them and adds the same amount to a bucket of three breakdowns: by slice, by model and by agent role. The breakdowns are
plain objects, so a key that every object inherits finds a value that is no bucket: adding to a function leaves NaN in the
report, and adding to `__proto__` leaves nothing in the report and NaN on `Object.prototype`.

- `conservation_iff`: the report is made, and its totals and counts agree in every breakdown, exactly when no key of a priced
  event and no model of an unpriced one is a name that every object inherits.
- `constructor_lost`: an event with the agent role `constructor`.
-/
import AstramemLocal.Core.ObjectMap
import AstramemLocal.Ingest.SpoolGuard
import AstramemLocal.Store.CostEvents
import AstramemLocal.Store.PriceVersions
import Mathlib.Algebra.Order.Field.Rat
import Mathlib.Data.List.Sort
import Mathlib.Tactic.Linarith

namespace AstramemLocal.Store

open AstramemLocal.Core AstramemLocal.Ingest

/-! ## Slices -/

structure WorkflowStateWindow where
  sliceId : String
  startedAtMs : ℤ
  endedAtMs : Option ℤ
deriving DecidableEq, Repr

inductive SliceAttribution where
  | slice (sliceId : String)
  | unattributed
  | ambiguous (candidates : ℕ)
deriving DecidableEq, Repr

def attributeSlice (windows : List WorkflowStateWindow) (atMs nowMs : ℤ) : SliceAttribution :=
  match windows.filter fun w => w.startedAtMs ≤ atMs ∧ atMs ≤ w.endedAtMs.getD nowMs with
  | [] => .unattributed
  | [w] => .slice w.sliceId
  | candidates => .ambiguous candidates.length

/-! ## Report -/

inductive CostRowStatus where
  | priced
  | unknownUsage
  | partialUsage
  | unpriced
deriving DecidableEq, Repr

/-- the costs are set when the status is `priced` -/
structure PricedCostRow where
  row : CostEventRow
  status : CostRowStatus
  inputCostUsd : Option ℚ := none
  outputCostUsd : Option ℚ := none
  cacheReadCostUsd : Option ℚ := none
  cacheWriteCostUsd : Option ℚ := none
  totalCostUsd : Option ℚ := none
  slice : SliceAttribution
  longContextWarning : Bool
deriving DecidableEq, Repr

/-- `none` is NaN -/
structure CostReportBucket where
  usd : Option ℚ
  count : Option ℕ
deriving DecidableEq, Repr

abbrev Buckets := OwnMap String CostReportBucket

/-- what the pass has accumulated; `polluted` says that `Object.prototype` has got members `usd` and `count`, and a count of
`unpricedModels` is `none` where it is a string or NaN -/
structure CostReport where
  rows : List PricedCostRow := []
  totalUsd : ℚ := 0
  bySlice : Buckets := []
  byModel : Buckets := []
  byAgentRole : Buckets := []
  cacheReadCostUsd : ℚ := 0
  cacheWriteCostUsd : ℚ := 0
  cacheReadTokenSum : ℤ := 0
  nonCacheInputTokenSum : ℤ := 0
  sawAnyCacheData : Bool := false
  truncatedCount : ℕ := 0
  unknownUsageCount : ℕ := 0
  partialUsageCount : ℕ := 0
  unpricedModels : OwnMap String (Option ℕ) := []
  longContextWarningCount : ℕ := 0
  polluted : Bool := false
deriving DecidableEq, Repr

def CostReport.hitRatio (report : CostReport) : Option ℚ :=
  if report.sawAnyCacheData ∧ 0 < report.cacheReadTokenSum + report.nonCacheInputTokenSum then
    some (report.cacheReadTokenSum / (report.cacheReadTokenSum + report.nonCacheInputTokenSum))
  else none

def longContextInputTokenThreshold : ℤ := 200000

def bucketKeyForSlice (p : PricedCostRow) : String :=
  match p.slice with
  | .slice sliceId => sliceId
  | .ambiguous candidates => s!"ambiguous ({candidates} candidates)"
  | .unattributed => "unattributed"

def bucketKeyForModel (p : PricedCostRow) : String := p.row.facts.model.getD "(unknown model)"

def bucketKeyForAgentRole (p : PricedCostRow) : String :=
  match p.row.facts.agentRole.filter (· ≠ "") with
  | some agentRole => agentRole
  | none => if p.row.facts.source = .proxy then "role unknown (proxy-only capture)" else "role unknown"

/-- the members an addition to `__proto__` leaves on every object -/
def pollutedKeys : List String := ["usd", "count"]

/-- the map and whether `Object.prototype` is polluted after it; `none` where a member is written to NaN, which throws -/
def addToBucket (polluted : Bool) (map : Buckets) (key : String) (usd : ℚ) : Option (Bool × Buckets) :=
  match map.get key with
  | some existing => some (polluted, map.set key ⟨existing.usd.map (· + usd), existing.count.map (· + 1)⟩)
  | none =>
    if key = "__proto__" then some (true, map)
    else if key ∈ objectPrototypeKeys then some (polluted, map.set key ⟨none, none⟩)
    else if polluted ∧ key ∈ pollutedKeys then none
    else some (polluted, map.set key ⟨some usd, some 1⟩)

/-- `unpricedModels[modelKey] = (unpricedModels[modelKey] ?? 0) + 1` -/
def countUnpriced (polluted : Bool) (map : OwnMap String (Option ℕ)) (key : String) : OwnMap String (Option ℕ) :=
  match map.get key with
  | some count => map.set key (count.map (· + 1))
  | none =>
    if key = "__proto__" then map
    else if key ∈ objectPrototypeKeys ∨ polluted ∧ key ∈ pollutedKeys then map.set key none
    else map.set key (some 1)

/-- ORDER BY captured_at -/
def listCostEvents (ledger : CostLedger) (sinceMs : Option ℤ) : List CostEventRow :=
  (ledger.rows.filter fun r => sinceMs.getD 0 ≤ r.facts.capturedAtMs).insertionSort
    fun a b => a.facts.capturedAtMs ≤ b.facts.capturedAtMs

section
variable (prices : PriceTable) (windows : List WorkflowStateWindow) (nowMs : ℤ)

/-- `row.model ? findPriceVersion(..) : null` -/
def priceOf (facts : CostEventInput) : Option PriceVersionRow :=
  (facts.model.filter (· ≠ "")).bind fun model =>
    findPriceVersion prices { provider := facts.provider, model, atMs := facts.capturedAtMs }

/-- the row of an event with its costs, at a price -/
def pricedRow (row : CostEventRow) (slice : SliceAttribution) (longContextWarning : Bool) (input output : ℤ)
    (price : PriceVersionRow) : PricedCostRow :=
  let cacheRead := row.facts.cacheReadInputTokens.getD 0
  let cacheWrite := row.facts.cacheCreationInputTokens.getD 0
  let inputCostUsd := input * price.inputRate
  let outputCostUsd := output * price.outputRate
  let cacheReadCost := cacheRead * price.inputRate * price.cacheReadMultiplier
  let cacheWriteCost := cacheWrite * price.inputRate * price.cacheWriteMultiplier
  { row, status := .priced, inputCostUsd := some inputCostUsd, outputCostUsd := some outputCostUsd
    cacheReadCostUsd := some cacheReadCost, cacheWriteCostUsd := some cacheWriteCost
    totalCostUsd := some (inputCostUsd + outputCostUsd + cacheReadCost + cacheWriteCost), slice, longContextWarning }

/-- the row the pass makes of an event -/
def costRow (row : CostEventRow) : PricedCostRow :=
  let slice := attributeSlice windows row.facts.capturedAtMs nowMs
  let longContextWarning := decide (longContextInputTokenThreshold ≤ row.facts.inputTokens.getD 0)
  match row.facts.inputTokens, row.facts.outputTokens with
  | none, none => { row, status := .unknownUsage, slice, longContextWarning }
  | none, some _ | some _, none => { row, status := .partialUsage, slice, longContextWarning }
  | some input, some output =>
    match priceOf prices row.facts with
    | none => { row, status := .unpriced, slice, longContextWarning }
    | some price => pricedRow row slice longContextWarning input output price

/-- what the pass adds for a priced row; `none` where it throws -/
def addPriced (report : CostReport) (p : PricedCostRow) : Option CostReport := do
  let usd := p.totalCostUsd.getD 0
  let facts := p.row.facts
  let cached := facts.cacheReadInputTokens.isSome || facts.cacheCreationInputTokens.isSome
  let (polluted, bySlice) ← addToBucket report.polluted report.bySlice (bucketKeyForSlice p) usd
  let (polluted, byModel) ← addToBucket polluted report.byModel (bucketKeyForModel p) usd
  let (polluted, byAgentRole) ← addToBucket polluted report.byAgentRole (bucketKeyForAgentRole p) usd
  return { report with
    totalUsd := report.totalUsd + usd
    cacheReadCostUsd := report.cacheReadCostUsd + p.cacheReadCostUsd.getD 0
    cacheWriteCostUsd := report.cacheWriteCostUsd + p.cacheWriteCostUsd.getD 0
    cacheReadTokenSum :=
      if cached then report.cacheReadTokenSum + facts.cacheReadInputTokens.getD 0 else report.cacheReadTokenSum
    nonCacheInputTokenSum :=
      if cached then report.nonCacheInputTokenSum + facts.inputTokens.getD 0 else report.nonCacheInputTokenSum
    sawAnyCacheData := report.sawAnyCacheData || cached
    bySlice, byModel, byAgentRole, polluted }

/-- one round of the pass -/
def costStep (report : CostReport) (row : CostEventRow) : Option CostReport :=
  let p := costRow prices windows nowMs row
  let report := { report with
    rows := report.rows ++ [p]
    truncatedCount := if row.facts.truncated then report.truncatedCount + 1 else report.truncatedCount
    longContextWarningCount :=
      if p.longContextWarning then report.longContextWarningCount + 1 else report.longContextWarningCount }
  match p.status with
  | .unknownUsage => some { report with unknownUsageCount := report.unknownUsageCount + 1 }
  | .partialUsage => some { report with partialUsageCount := report.partialUsageCount + 1 }
  | .unpriced =>
    some { report with
      unpricedModels := countUnpriced report.polluted report.unpricedModels (bucketKeyForModel p) }
  | .priced => addPriced report p

/-- a process that has made no report before -/
def costReport (ledger : CostLedger) (sinceMs : Option ℤ) : Option CostReport :=
  (listCostEvents ledger sinceMs).foldlM (costStep prices windows nowMs) {}

end

namespace CostReport

/-! ## Counting under a key -/

/-- what counting one more under a key does to the own properties of a map -/
inductive Bumps {V : Type} (field : V → Option ℕ) (map : OwnMap String V) (key : String) : OwnMap String V → Prop where
  | own {old value : V} (hget : map.get key = some old) (hvalue : field value = (field old).map (· + 1)) :
      Bumps field map key (map.set key value)
  /-- the write goes to the prototype -/
  | proto (hget : map.get key = none) (hkey : key = "__proto__") : Bumps field map key map
  | inherited {value : V} (hget : map.get key = none) (hkey : key ≠ "__proto__") (hvalue : field value = none) :
      Bumps field map key (map.set key value)
  | fresh {value : V} (hget : map.get key = none) (hkey : key ∉ objectPrototypeKeys) (hvalue : field value = some 1) :
      Bumps field map key (map.set key value)

variable {polluted polluted' : Bool} {map map' : Buckets} {key : String} {usd : ℚ}

theorem addToBucket_bumps (h : addToBucket polluted map key usd = some (polluted', map')) :
    Bumps CostReportBucket.count map key map' := by
  unfold addToBucket at h
  cases hget : map.get key with
  | some existing =>
    rw [hget] at h
    cases h
    exact .own hget rfl
  | none =>
    rw [hget] at h
    simp only at h
    split_ifs at h with hproto hkeys hthrows
    · cases h
      exact .proto hget hproto
    · cases h
      exact .inherited hget hproto rfl
    · cases h
      exact .fresh hget hkeys rfl

theorem countUnpriced_bumps (polluted : Bool) (counts : OwnMap String (Option ℕ)) (key : String) :
    Bumps id counts key (countUnpriced polluted counts key) := by
  unfold countUnpriced
  cases hget : counts.get key with
  | some count => exact .own hget rfl
  | none =>
    simp only
    split_ifs with hproto hkeys
    · exact .proto hget hproto
    · exact .inherited hget hproto rfl
    · exact .fresh hget (fun hmem => hkeys (.inl hmem)) rfl

/-- A map in which every one of `keys` has been counted. Where its counts have a sum, that misses the keys that went to the
prototype, and no other key was an inherited one. -/
structure Tally {V : Type} (field : V → Option ℕ) (keys : List String) (map : OwnMap String V) : Prop where
  keyed : Keyed Prod.fst map
  broken : ∀ e ∈ map, e.1 ∈ objectPrototypeKeys → field e.2 = none
  missing : ∀ n, map.total field = some n →
    (∀ k ∈ keys, k ∈ objectPrototypeKeys → k = "__proto__") ∧ n + keys.count "__proto__" = keys.length

theorem Tally.nil {V : Type} (field : V → Option ℕ) : Tally field [] [] := by
  refine ⟨List.nodup_nil, by simp, ?_⟩
  intro n hn
  cases hn
  exact ⟨by simp, rfl⟩

/-- a sum before the write, and a key that is counted in full -/
theorem Tally.next {V : Type} {field : V → Option ℕ} {keys : List String} {map : OwnMap String V} (h : Tally field keys map)
    {n : ℕ} (hn : map.total field = some n) (hkey : key ∉ objectPrototypeKeys) :
    (∀ k ∈ keys ++ [key], k ∈ objectPrototypeKeys → k = "__proto__") ∧
      n + 1 + (keys ++ [key]).count "__proto__" = (keys ++ [key]).length := by
  obtain ⟨hkeys, hcount⟩ := h.missing n hn
  have hother : key ≠ "__proto__" := by
    rintro rfl
    exact hkey (by decide)
  refine ⟨?_, ?_⟩
  · intro k hk hinherited
    rcases List.mem_append.1 hk with hk | hk
    · exact hkeys k hk hinherited
    · rw [List.mem_singleton.1 hk] at hinherited
      exact absurd hinherited hkey
  · rw [List.count_append, List.count_singleton, List.length_append, List.length_singleton]
    simp only [beq_iff_eq, hother, if_false]
    omega

/-- **Step.** -/
theorem Tally.bump {V : Type} {field : V → Option ℕ} {keys : List String} {map map' : OwnMap String V}
    (h : Tally field keys map) (hbump : Bumps field map key map') : Tally field (keys ++ [key]) map' := by
  cases hbump with
  | own hget hvalue =>
    rename_i old value
    have hown := OwnMap.mem_of_get hget
    refine ⟨OwnMap.keyed_set h.keyed, ?_, ?_⟩
    · intro e he hinherited
      rcases OwnMap.mem_set_cases he with rfl | he
      · rw [hvalue, h.broken _ hown hinherited]
        rfl
      · exact h.broken e he hinherited
    · intro n hn
      rw [OwnMap.total_set_own h.keyed hget hvalue, Option.map_eq_some_iff] at hn
      obtain ⟨m, hm, rfl⟩ := hn
      apply h.next hm
      intro hinherited
      rw [OwnMap.total_none hown (h.broken _ hown hinherited)] at hm
      cases hm
  | proto hget hkey =>
    subst hkey
    refine ⟨h.keyed, h.broken, ?_⟩
    intro n hn
    obtain ⟨hkeys, hcount⟩ := h.missing n hn
    refine ⟨?_, ?_⟩
    · intro k hk hinherited
      rcases List.mem_append.1 hk with hk | hk
      · exact hkeys k hk hinherited
      · exact List.mem_singleton.1 hk
    · rw [List.count_append, List.count_singleton_self, List.length_append, List.length_singleton]
      omega
  | inherited hget hkey hvalue =>
    refine ⟨OwnMap.keyed_set h.keyed, ?_, ?_⟩
    · intro e he hinherited
      rcases OwnMap.mem_set_cases he with rfl | he
      · exact hvalue
      · exact h.broken e he hinherited
    · intro n hn
      rw [OwnMap.total_set_new hget, hvalue, Option.map₂_none_right] at hn
      cases hn
  | fresh hget hkey hvalue =>
    refine ⟨OwnMap.keyed_set h.keyed, ?_, ?_⟩
    · intro e he hinherited
      rcases OwnMap.mem_set_cases he with rfl | he
      · exact absurd hinherited hkey
      · exact h.broken e he hinherited
    · intro n hn
      rw [OwnMap.total_set_new hget, hvalue] at hn
      cases hm : map.total field with
      | none =>
        rw [hm] at hn
        cases hn
      | some m =>
        rw [hm] at hn
        cases hn
        exact h.next hm hkey

/-- a sum that counts every key leaves no inherited key -/
theorem Tally.plain {V : Type} {field : V → Option ℕ} {keys : List String} {map : OwnMap String V}
    (h : Tally field keys map) (hsum : map.total field = some keys.length) : ∀ k ∈ keys, k ∉ objectPrototypeKeys := by
  obtain ⟨hkeys, hcount⟩ := h.missing _ hsum
  intro k hk hinherited
  obtain rfl := hkeys k hk hinherited
  have hpos := List.count_pos_iff.2 hk
  omega

/-! ## The property -/

/-- the rows of a status -/
def ofStatus (report : CostReport) (status : CostRowStatus) : List PricedCostRow :=
  report.rows.filter fun p => p.status = status

/-- a breakdown sums to the total, and counts every priced row -/
structure Breakdown (report : CostReport) (map : Buckets) : Prop where
  usd : map.total CostReportBucket.usd = some report.totalUsd
  count : map.total CostReportBucket.count = some (report.ofStatus .priced).length

structure Conserves (events : List CostEventRow) (report : CostReport) : Prop where
  bySlice : report.Breakdown report.bySlice
  byModel : report.Breakdown report.byModel
  byAgentRole : report.Breakdown report.byAgentRole
  /-- every event has one row, and so one status; the counts of the report are those of the statuses -/
  rows : report.rows.map (·.row) = events
  unknownUsage : report.unknownUsageCount = (report.ofStatus .unknownUsage).length
  partialUsage : report.partialUsageCount = (report.ofStatus .partialUsage).length
  unpriced : report.unpricedModels.total id = some (report.ofStatus .unpriced).length

/-- no key of the row is a name that every object inherits -/
def Plain (p : PricedCostRow) : Prop :=
  match p.status with
  | .priced => bucketKeyForSlice p ∉ objectPrototypeKeys ∧ bucketKeyForModel p ∉ objectPrototypeKeys ∧
      bucketKeyForAgentRole p ∉ objectPrototypeKeys
  | .unpriced => bucketKeyForModel p ∉ objectPrototypeKeys
  | .unknownUsage | .partialUsage => True

/-- the keys that the rows of a status have been counted under -/
def keysOf (report : CostReport) (status : CostRowStatus) (key : PricedCostRow → String) : List String :=
  (report.ofStatus status).map key

structure Tallied (report : CostReport) : Prop where
  bySlice : Tally CostReportBucket.count (report.keysOf .priced bucketKeyForSlice) report.bySlice
  byModel : Tally CostReportBucket.count (report.keysOf .priced bucketKeyForModel) report.byModel
  byAgentRole : Tally CostReportBucket.count (report.keysOf .priced bucketKeyForAgentRole) report.byAgentRole
  unpriced : Tally id (report.keysOf .unpriced bucketKeyForModel) report.unpricedModels

variable {prices : PriceTable} {windows : List WorkflowStateWindow} {nowMs : ℤ} {report next : CostReport}
  {row : CostEventRow} {p : PricedCostRow} {status : CostRowStatus} {rows : List PricedCostRow}

theorem ofStatus_append (status : CostRowStatus) (h : next.rows = report.rows ++ [p]) :
    next.ofStatus status = report.ofStatus status ++ if p.status = status then [p] else [] := by
  unfold ofStatus
  rw [h, List.filter_append]
  congr 1
  by_cases hstatus : p.status = status <;> simp [hstatus]

theorem ofStatus_same (status : CostRowStatus) (h : next.rows = report.rows ++ [p]) (hstatus : p.status ≠ status) :
    next.ofStatus status = report.ofStatus status := by
  rw [ofStatus_append _ h, if_neg hstatus, List.append_nil]

theorem ofStatus_new (h : next.rows = report.rows ++ [p]) (hstatus : p.status = status) :
    (next.ofStatus status).length = (report.ofStatus status).length + 1 := by
  rw [ofStatus_append _ h, if_pos hstatus, List.length_append]
  rfl

theorem keysOf_append (h : next.rows = report.rows ++ [p]) (status : CostRowStatus) (key : PricedCostRow → String) :
    next.keysOf status key = report.keysOf status key ++ if p.status = status then [key p] else [] := by
  unfold keysOf
  rw [ofStatus_append _ h, List.map_append]
  split_ifs <;> rfl

/-- what a priced row changes: the total and the three breakdowns, under its keys -/
theorem addPriced_some (h : addPriced report p = some next) :
    next.rows = report.rows ∧ next.unpricedModels = report.unpricedModels ∧
      Bumps CostReportBucket.count report.bySlice (bucketKeyForSlice p) next.bySlice ∧
      Bumps CostReportBucket.count report.byModel (bucketKeyForModel p) next.byModel ∧
      Bumps CostReportBucket.count report.byAgentRole (bucketKeyForAgentRole p) next.byAgentRole := by
  simp only [addPriced, bind, Option.bind_eq_some_iff, Prod.exists, pure, Option.some.injEq] at h
  obtain ⟨_, bySlice, hslice, _, byModel, hmodel, _, byAgentRole, hrole, rfl⟩ := h
  exact ⟨rfl, rfl, addToBucket_bumps hslice, addToBucket_bumps hmodel, addToBucket_bumps hrole⟩

theorem costStep_rows (h : costStep prices windows nowMs report row = some next) :
    next.rows = report.rows ++ [costRow prices windows nowMs row] := by
  simp only [costStep] at h
  split at h
  · cases h
    rfl
  · cases h
    rfl
  · cases h
    rfl
  · exact (addPriced_some h).1

theorem Tallied.step (h : Tallied report) (hstep : costStep prices windows nowMs report row = some next) :
    Tallied next := by
  have hrows := costStep_rows hstep
  have hkeys := keysOf_append hrows
  simp only [costStep] at hstep
  split at hstep
  next hstatus =>
    cases hstep
    refine ⟨?_, ?_, ?_, ?_⟩ <;> rw [hkeys, hstatus, if_neg (by decide), List.append_nil]
    exacts [h.bySlice, h.byModel, h.byAgentRole, h.unpriced]
  next hstatus =>
    cases hstep
    refine ⟨?_, ?_, ?_, ?_⟩ <;> rw [hkeys, hstatus, if_neg (by decide), List.append_nil]
    exacts [h.bySlice, h.byModel, h.byAgentRole, h.unpriced]
  next hstatus =>
    cases hstep
    refine ⟨?_, ?_, ?_, ?_⟩
    · rw [hkeys, hstatus, if_neg (by decide), List.append_nil]
      exact h.bySlice
    · rw [hkeys, hstatus, if_neg (by decide), List.append_nil]
      exact h.byModel
    · rw [hkeys, hstatus, if_neg (by decide), List.append_nil]
      exact h.byAgentRole
    · rw [hkeys, hstatus, if_pos rfl]
      exact h.unpriced.bump (countUnpriced_bumps _ _ _)
  next hstatus =>
    obtain ⟨-, hunpriced, hslice, hmodel, hrole⟩ := addPriced_some hstep
    refine ⟨?_, ?_, ?_, ?_⟩
    · rw [hkeys, hstatus, if_pos rfl]
      exact h.bySlice.bump hslice
    · rw [hkeys, hstatus, if_pos rfl]
      exact h.byModel.bump hmodel
    · rw [hkeys, hstatus, if_pos rfl]
      exact h.byAgentRole.bump hrole
    · rw [hkeys, hstatus, if_neg (by decide), List.append_nil, hunpriced]
      exact h.unpriced

/-- an addition under a name of its own adds to both sums -/
theorem addToBucket_plain (usd : ℚ) (hkeyed : Keyed Prod.fst map) (hkey : key ∉ objectPrototypeKeys) {sum : ℚ} {n : ℕ}
    (husd : map.total CostReportBucket.usd = some sum) (hcount : map.total CostReportBucket.count = some n) :
    ∃ map', addToBucket false map key usd = some (false, map') ∧
      map'.total CostReportBucket.usd = some (sum + usd) ∧ map'.total CostReportBucket.count = some (n + 1) := by
  have hproto : key ≠ "__proto__" := by
    rintro rfl
    exact hkey (by decide)
  unfold addToBucket
  cases hget : map.get key with
  | some existing =>
    refine ⟨_, rfl, ?_, ?_⟩
    · rw [OwnMap.total_set_own hkeyed hget rfl, husd]
      rfl
    · rw [OwnMap.total_set_own hkeyed hget rfl, hcount]
      rfl
  | none =>
    simp only [hproto, hkey, if_false, Bool.false_eq_true, false_and]
    refine ⟨_, rfl, ?_, ?_⟩
    · rw [OwnMap.total_set_new hget, husd]
      rfl
    · rw [OwnMap.total_set_new hget, hcount]
      rfl

theorem countUnpriced_plain {counts : OwnMap String (Option ℕ)} (hkeyed : Keyed Prod.fst counts)
    (hkey : key ∉ objectPrototypeKeys) {n : ℕ} (hcount : counts.total id = some n) :
    (countUnpriced false counts key).total id = some (n + 1) := by
  have hproto : key ≠ "__proto__" := by
    rintro rfl
    exact hkey (by decide)
  unfold countUnpriced
  cases hget : counts.get key with
  | some count =>
    have hvalue : id (count.map (· + 1)) = (id count).map (· + 1) := rfl
    have htotal := OwnMap.total_set_own hkeyed hget hvalue
    rw [hcount] at htotal
    exact htotal
  | none =>
    simp only [hproto, hkey, if_false, Bool.false_eq_true, false_and, or_self]
    rw [OwnMap.total_set_new hget, hcount]
    rfl

/-- the sums so far, in a process whose `Object.prototype` is as it was -/
structure Balanced (report : CostReport) : Prop where
  clean : report.polluted = false
  tallied : report.Tallied
  bySlice : report.Breakdown report.bySlice
  byModel : report.Breakdown report.byModel
  byAgentRole : report.Breakdown report.byAgentRole
  unknownUsage : report.unknownUsageCount = (report.ofStatus .unknownUsage).length
  partialUsage : report.partialUsageCount = (report.ofStatus .partialUsage).length
  unpriced : report.unpricedModels.total id = some (report.ofStatus .unpriced).length

/-- a breakdown is left alone where no priced row is added -/
theorem Breakdown.keep {map : Buckets} (h : report.Breakdown map) (htotal : next.totalUsd = report.totalUsd)
    (hpriced : next.ofStatus .priced = report.ofStatus .priced) : next.Breakdown map :=
  ⟨htotal ▸ h.usd, hpriced ▸ h.count⟩

/-- a row of another status leaves the sums of the priced rows alone -/
theorem Balanced.other (h : Balanced report) (htallied : next.Tallied) (hrows : next.rows = report.rows ++ [p])
    (hstatus : p.status ≠ .priced) (hpolluted : next.polluted = report.polluted) (htotal : next.totalUsd = report.totalUsd)
    (hslice : next.bySlice = report.bySlice) (hmodel : next.byModel = report.byModel)
    (hrole : next.byAgentRole = report.byAgentRole)
    (hunknown : next.unknownUsageCount = (next.ofStatus .unknownUsage).length)
    (hincomplete : next.partialUsageCount = (next.ofStatus .partialUsage).length)
    (hunpriced : next.unpricedModels.total id = some (next.ofStatus .unpriced).length) : Balanced next := by
  have hpriced := ofStatus_same .priced hrows hstatus
  refine ⟨hpolluted.trans h.clean, htallied, ?_, ?_, ?_, hunknown, hincomplete, hunpriced⟩
  · rw [hslice]
    exact h.bySlice.keep htotal hpriced
  · rw [hmodel]
    exact h.byModel.keep htotal hpriced
  · rw [hrole]
    exact h.byAgentRole.keep htotal hpriced

theorem Balanced.step (h : Balanced report) (hplain : Plain (costRow prices windows nowMs row)) :
    ∃ next, costStep prices windows nowMs report row = some next ∧ Balanced next := by
  suffices hsuff : ∃ next, costStep prices windows nowMs report row = some next ∧
      (next.rows = report.rows ++ [costRow prices windows nowMs row] → next.Tallied → Balanced next) by
    obtain ⟨next, hnext, hbalanced⟩ := hsuff
    exact ⟨next, hnext, hbalanced (costStep_rows hnext) (h.tallied.step hnext)⟩
  unfold Plain at hplain
  simp only [costStep]
  split at hplain
  next hstatus =>
    obtain ⟨hslice, hmodel, hrole⟩ := hplain
    rw [hstatus]
    set p := costRow prices windows nowMs row
    obtain ⟨bySlice, hsliceAdd, hsliceUsd, hsliceCount⟩ := addToBucket_plain (p.totalCostUsd.getD 0)
      h.tallied.bySlice.keyed hslice h.bySlice.usd h.bySlice.count
    obtain ⟨byModel, hmodelAdd, hmodelUsd, hmodelCount⟩ := addToBucket_plain (p.totalCostUsd.getD 0)
      h.tallied.byModel.keyed hmodel h.byModel.usd h.byModel.count
    obtain ⟨byAgentRole, hroleAdd, hroleUsd, hroleCount⟩ := addToBucket_plain (p.totalCostUsd.getD 0)
      h.tallied.byAgentRole.keyed hrole h.byAgentRole.usd h.byAgentRole.count
    simp only [addPriced, h.clean, hsliceAdd, hmodelAdd, hroleAdd, bind, Option.bind_some, pure]
    refine ⟨_, rfl, fun hrows htallied => ?_⟩
    have hpriced := ofStatus_new hrows hstatus
    have hother : ∀ status, CostRowStatus.priced ≠ status → p.status ≠ status := fun _ hne => hstatus ▸ hne
    refine ⟨rfl, htallied, ⟨hsliceUsd, ?_⟩, ⟨hmodelUsd, ?_⟩, ⟨hroleUsd, ?_⟩, ?_, ?_, ?_⟩
    · rw [hpriced]
      exact hsliceCount
    · rw [hpriced]
      exact hmodelCount
    · rw [hpriced]
      exact hroleCount
    · rw [ofStatus_same _ hrows (hother _ (by decide))]
      exact h.unknownUsage
    · rw [ofStatus_same _ hrows (hother _ (by decide))]
      exact h.partialUsage
    · rw [ofStatus_same _ hrows (hother _ (by decide))]
      exact h.unpriced
  next hstatus =>
    rw [hstatus]
    refine ⟨_, rfl, fun hrows htallied => ?_⟩
    refine h.other htallied hrows (by rw [hstatus]; decide) rfl rfl rfl rfl rfl ?_ ?_ ?_
    · rw [ofStatus_same _ hrows (by rw [hstatus]; decide)]
      exact h.unknownUsage
    · rw [ofStatus_same _ hrows (by rw [hstatus]; decide)]
      exact h.partialUsage
    · rw [ofStatus_new hrows hstatus, h.clean]
      exact countUnpriced_plain h.tallied.unpriced.keyed hplain h.unpriced
  next hstatus =>
    rw [hstatus]
    refine ⟨_, rfl, fun hrows htallied => ?_⟩
    refine h.other htallied hrows (by rw [hstatus]; decide) rfl rfl rfl rfl rfl ?_ ?_ ?_
    · rw [ofStatus_new hrows hstatus, ← h.unknownUsage]
    · rw [ofStatus_same _ hrows (by rw [hstatus]; decide)]
      exact h.partialUsage
    · rw [ofStatus_same _ hrows (by rw [hstatus]; decide)]
      exact h.unpriced
  next hstatus =>
    rw [hstatus]
    refine ⟨_, rfl, fun hrows htallied => ?_⟩
    refine h.other htallied hrows (by rw [hstatus]; decide) rfl rfl rfl rfl rfl ?_ ?_ ?_
    · rw [ofStatus_same _ hrows (by rw [hstatus]; decide)]
      exact h.unknownUsage
    · rw [ofStatus_new hrows hstatus, ← h.partialUsage]
    · rw [ofStatus_same _ hrows (by rw [hstatus]; decide)]
      exact h.unpriced

/-! ## The pass -/

theorem tallied_empty : Tallied {} := ⟨Tally.nil _, Tally.nil _, Tally.nil _, Tally.nil _⟩

theorem balanced_empty : Balanced {} :=
  ⟨rfl, tallied_empty, ⟨rfl, rfl⟩, ⟨rfl, rfl⟩, ⟨rfl, rfl⟩, rfl, rfl, rfl⟩

theorem pass_rows {events : List CostEventRow} (h : events.foldlM (costStep prices windows nowMs) report = some next) :
    next.rows = report.rows ++ events.map (costRow prices windows nowMs) := by
  induction events generalizing report with
  | nil =>
    cases h
    simp
  | cons row events ih =>
    simp only [List.foldlM_cons, bind, Option.bind_eq_some_iff] at h
    obtain ⟨mid, hmid, hrest⟩ := h
    rw [ih hrest, costStep_rows hmid, List.map_cons, List.append_assoc]
    rfl

theorem pass_balanced {events : List CostEventRow} (h : Balanced report)
    (hplain : ∀ row ∈ events, Plain (costRow prices windows nowMs row)) :
    ∃ next, events.foldlM (costStep prices windows nowMs) report = some next ∧ Balanced next := by
  induction events generalizing report with
  | nil => exact ⟨report, rfl, h⟩
  | cons row events ih =>
    obtain ⟨mid, hmid, hbalanced⟩ := h.step (hplain row List.mem_cons_self)
    obtain ⟨next, hnext, hdone⟩ := ih hbalanced fun r hr => hplain r (List.mem_cons_of_mem row hr)
    refine ⟨next, ?_, hdone⟩
    rw [List.foldlM_cons, hmid]
    exact hnext

theorem costRow_row : (costRow prices windows nowMs row).row = row := by
  unfold costRow pricedRow
  split
  · rfl
  · rfl
  · rfl
  · split <;> rfl

theorem conservation_iff (prices : PriceTable) (windows : List WorkflowStateWindow) (nowMs : ℤ) (ledger : CostLedger)
    (sinceMs : Option ℤ) :
    (∃ report, costReport prices windows nowMs ledger sinceMs = some report ∧
      report.Conserves (listCostEvents ledger sinceMs)) ↔
    ∀ row ∈ listCostEvents ledger sinceMs, Plain (costRow prices windows nowMs row) := by
  constructor
  · rintro ⟨report, hreport, hconserves⟩ row hrow
    have hrows : report.rows = (listCostEvents ledger sinceMs).map (costRow prices windows nowMs) := by
      simpa using pass_rows hreport
    have htallied : Tallied report :=
      foldlM_some (fun _ => Tallied) (fun _ _ _ _ h hstep => h.step hstep) tallied_empty hreport
    have hmem : costRow prices windows nowMs row ∈ report.rows := hrows ▸ List.mem_map_of_mem hrow
    have hkeyed : ∀ status key, (costRow prices windows nowMs row).status = status →
        key (costRow prices windows nowMs row) ∈ report.keysOf status key := by
      intro status key hstatus
      exact List.mem_map_of_mem (List.mem_filter.2 ⟨hmem, decide_eq_true hstatus⟩)
    have hlength : ∀ status key, (report.keysOf status key).length = (report.ofStatus status).length := by
      intro status key
      exact List.length_map _
    unfold Plain
    split
    next hstatus =>
      refine ⟨?_, ?_, ?_⟩
      · exact htallied.bySlice.plain (by rw [hlength]; exact hconserves.bySlice.count) _ (hkeyed _ _ hstatus)
      · exact htallied.byModel.plain (by rw [hlength]; exact hconserves.byModel.count) _ (hkeyed _ _ hstatus)
      · exact htallied.byAgentRole.plain (by rw [hlength]; exact hconserves.byAgentRole.count) _ (hkeyed _ _ hstatus)
    next hstatus => exact htallied.unpriced.plain (by rw [hlength]; exact hconserves.unpriced) _ (hkeyed _ _ hstatus)
    next => trivial
    next => trivial
  · intro hplain
    obtain ⟨report, hreport, h⟩ := pass_balanced balanced_empty hplain
    refine ⟨report, hreport, h.bySlice, h.byModel, h.byAgentRole, ?_, h.unknownUsage, h.partialUsage, h.unpriced⟩
    have hrows : report.rows = (listCostEvents ledger sinceMs).map (costRow prices windows nowMs) := by
      simpa using pass_rows hreport
    rw [hrows, List.map_map]
    refine (List.map_congr_left fun row _ => ?_).trans (List.map_id _)
    exact costRow_row

/-- an event of an agent with this role -/
def eventOf (agentRole : String) : CostEventRow where
  id := 1
  facts :=
    { source := .otel, capturedAtMs := 1, provider := "anthropic", model := some "claude-sonnet-5"
      inputTokens := some 3, outputTokens := some 4, cacheReadInputTokens := none, cacheCreationInputTokens := none
      stopReason := none, truncated := false, sessionKey := "s", agentRole := some agentRole }
  dedupKey := "k"
  createdAt := 1

/-- the report's sum over the agent roles is NaN -/
theorem constructor_lost :
    ¬ ∃ report, costReport (addPriceVersions [Prices.standardPrice 0 none 2]) [] 0 ⟨[eventOf "constructor"], 2⟩ none =
        some report ∧ report.Conserves (listCostEvents ⟨[eventOf "constructor"], 2⟩ none) := by
  rintro ⟨report, hreport, h⟩
  have hnan : (costReport (addPriceVersions [Prices.standardPrice 0 none 2]) [] 0 ⟨[eventOf "constructor"], 2⟩ none).map
      (fun r => r.byAgentRole.total CostReportBucket.usd) = some none := by decide +kernel
  rw [hreport, Option.map_some, h.byAgentRole.usd] at hnan
  cases hnan

end CostReport

end AstramemLocal.Store
