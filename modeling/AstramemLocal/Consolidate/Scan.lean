/-
The pair scan of `src/consolidate/consolidate.ts`: `processPair`, the classification of one candidate pair. The
statements of a pair are separate transactions, so where one throws the earlier ones stay: an `Outcome` carries the desk
beside the error. Similarities are floating-point numbers, so `cosine` is a parameter.
-/
import AstramemLocal.Consolidate.CommandGuard
import AstramemLocal.Consolidate.Containment
import AstramemLocal.Consolidate.Proposals

namespace AstramemLocal.Consolidate

open AstramemLocal.Store

/-! ## The run and its options -/

/-- a row the loader selects; `derived_from` is selected and never read -/
structure AtomRow where
  id : AtomId
  rowid : ℕ
  repo : Option String
  type : MemoryType
  text : String
  importance : ℚ
  createdAt : Time
deriving DecidableEq, Repr

def AtomRow.surface (a : AtomRow) : CommandSurface := ⟨a.type, a.text⟩

inductive JudgeVerdictLabel where
  | agrees | refines | contradicts | unrelated
deriving DecidableEq, Repr

structure JudgeVerdict where
  verdict : JudgeVerdictLabel
  confidence : ℚ
deriving DecidableEq, Repr

inductive JudgeMode where
  | dryRun | enabled
deriving DecidableEq, Repr

/-- `ResolvedContradictionDetection`, without the provider: its verdicts are inputs -/
structure ContradictionDetection where
  mode : JudgeMode
  minSimilarity : ℚ
  minConfidence : ℚ
  maxPerRun : ℕ
  maxWallClockMs : ℤ
deriving DecidableEq, Repr

/-- `ResolvedDupJudge`, with what the provider is called -/
structure DupJudge where
  mode : JudgeMode
  minConfidence : ℚ
  batchSize : ℕ
  maxPerRun : ℕ
  maxWallClockMs : ℤ
  provider : String
  model : String
deriving DecidableEq, Repr

inductive CandidateSelection where
  | full | knn
deriving DecidableEq, Repr

/-- the options of a run once resolved; the defaults are the code's -/
structure Options where
  mergeThreshold : ℚ := 92 / 100
  proposeThreshold : ℚ := 85 / 100
  maxGroupSize : ℕ := 500
  autoMergeContained : Bool := true
  autoAcceptThreshold : Option ℚ := none
  contradictionDetection : Option ContradictionDetection := none
  dupJudge : Option DupJudge := none
  candidateSelection : CandidateSelection := .full
  knnK : ℕ := 30
  maxCandidatePairsPerRun : Option ℕ := none
deriving DecidableEq, Repr

def resolveAutoAcceptThreshold (raw : Option ℚ) (proposeThreshold : ℚ) : Option ℚ :=
  raw.filter fun t => proposeThreshold ≤ t ∧ t ≤ 1

/-- `mode: 'off'` is `none` -/
def resolveContradictionDetection (raw : Option ContradictionDetection) (hasProvider : Bool) (mergeThreshold : ℚ) :
    Option ContradictionDetection :=
  raw.filter fun c => (0 ≤ c.minSimilarity ∧ c.minSimilarity < mergeThreshold) ∧
    (0 ≤ c.minConfidence ∧ c.minConfidence ≤ 1) ∧ hasProvider

def resolveDupJudge (raw : Option DupJudge) (hasProvider : Bool) : Option DupJudge :=
  raw.filter fun j => (0 ≤ j.minConfidence ∧ j.minConfidence ≤ 1) ∧ 1 ≤ j.batchSize ∧ hasProvider

inductive MergeReason where
  | similarity | contained
deriving DecidableEq, Repr

/-- a pair of the summary, with what the run says of it -/
structure Reported where
  winner : AtomId
  loser : AtomId
  similarity : ℚ
deriving DecidableEq, Repr

/-- `ConsolidateSummary`, without the elapsed time -/
structure Summary where
  groupsScanned : ℕ := 0
  groupsSkipped : List (Option String × MemoryType × ℕ) := []
  merged : List (Reported × MergeReason) := []
  proposed : List Reported := []
  autoAcceptedProposals : List ProposalId := []
  staleRejectedProposals : List ProposalId := []
  autoAccepted : List (Reported × ProposalId) := []
  contradictionsPreviewed : List (Reported × JudgeVerdict) := []
  contradictionsProposed : List (Reported × ProposalId) := []
  contradictionCapReached : Bool := false
  contradictionWallClockCapReached : Bool := false
  setupBudgetExceeded : Bool := false
  preemptedForHigherPriority : Bool := false
  resumeCursorUpdated : Bool := false
  judgeCallsExecuted : ℕ := 0
  judgeCallsNearThreshold : ℕ := 0
  dupJudgeVerdictsPreviewed : List (ProposalId × ℚ × DupVerdictLabel × ℚ) := []
  /-- `true` is `action: 'merged'` -/
  dupJudgeResolved : List (ProposalId × DupVerdictLabel × ℚ × Bool) := []
  dupJudgeCallsExecuted : ℕ := 0
  dupJudgeCapReached : Bool := false
  dupJudgeWallClockCapReached : Bool := false
  commandGuardBlocked : List Reported := []
  dupJudgeCommandGuardBlocked : ℕ := 0
deriving DecidableEq, Repr

/-- what one call of `runConsolidation` holds in memory while it scans; `judgeCallsExecuted` and
`judgeCallsNearThreshold` of the summary are its two counters, copied at the end -/
structure Run where
  invalidatedThisRun : List AtomId := []
  summary : Summary := {}
deriving DecidableEq, Repr

def Run.noting (r : Run) (f : Summary → Summary) : Run := { r with summary := f r.summary }

structure Outcome where
  desk : Desk
  run : Run
  thrown : Option ProposalError := none

/-! ## One pair -/

/-- `NEAR_MERGE_THRESHOLD_MIN` -/
def nearMergeThresholdMin : ℚ := 90 / 100

/-- `EXCERPT_MAX_CHARS`, in code units -/
def excerptMaxChars : ℕ := 280

def excerpt (text : String) : Core.JsString :=
  let units := Core.JsString.ofString text
  if excerptMaxChars < units.length then units.take excerptMaxChars ++ Core.JsString.ofString "..." else units

/-- usefulness, then importance, then recency -/
def pickWinner (usefulness : AtomId → Option ℚ) (a b : AtomRow) : AtomRow × AtomRow :=
  let ua := (usefulness a.id).getD (1 / 2)
  let ub := (usefulness b.id).getD (1 / 2)
  if ua < ub ∨ ub = ua ∧ (a.importance < b.importance ∨ b.importance = a.importance ∧ a.createdAt < b.createdAt) then
    (b, a)
  else (a, b)

/-- the containing text wins; equal texts keep the pick -/
def containedPick (c : Containment) (a b : AtomRow) (pick : AtomRow × AtomRow) : AtomRow × AtomRow :=
  match c with
  | .aContainsB => (a, b)
  | .bContainsA => (b, a)
  | .equal => pick

/-- what the scan of a pair reads beside the two rows: the embeddings of its group, the usefulness scores of the run,
the judge's answer, and the time since the sweep of the judge began -/
structure PairInput (V : Type) where
  vecs : AtomId → Option V
  usefulness : AtomId → Option ℚ
  verdict : JudgeVerdict
  elapsed : ℤ

variable (E : Env) (T : TextTables) (o : Options) (d : Desk) (r : Run)

/-- a merge tier that needs no proposal. A pair the command guard blocks becomes a pending proposal instead. -/
def mergeTier (a b : AtomRow) (pick : AtomRow × AtomRow) (sim : ℚ) (reason : MergeReason) : Outcome :=
  let reported : Reported := ⟨pick.1.id, pick.2.id, sim⟩
  if commandGuardBlocksMerge a.surface b.surface then
    let r := r.noting fun s => { s with commandGuardBlocked := s.commandGuardBlocked ++ [reported] }
    match insertProposal E d .merge pick.1.id pick.2.id sim (some .commandGuard) with
    | .error e => ⟨d, r, some e⟩
    | .ok (d, none) => ⟨d, r, none⟩
    | .ok (d, some _) => ⟨d, r.noting fun s => { s with proposed := s.proposed ++ [reported] }, none⟩
  else
    match mergeAsSupersede E d pick.1.id pick.2.id none .consolidationAuto with
    | .error e => ⟨d, r, some (.lifecycle e)⟩
    | .ok d =>
      ⟨d, { r with
        invalidatedThisRun := r.invalidatedThisRun ++ [pick.2.id]
        summary := { r.summary with merged := r.summary.merged ++ [(reported, reason)] } }, none⟩

/-- the propose tier: the row is inserted first and accepted by a second transaction -/
def proposeTier (pick : AtomRow × AtomRow) (sim : ℚ) : Outcome :=
  let reported : Reported := ⟨pick.1.id, pick.2.id, sim⟩
  match insertProposal E d .merge pick.1.id pick.2.id sim none with
  | .error e => ⟨d, r, some e⟩
  | .ok (d, none) => ⟨d, r, none⟩
  | .ok (d, some id) =>
    match o.autoAcceptThreshold.filter (· ≤ sim) with
    | none => ⟨d, r.noting fun s => { s with proposed := s.proposed ++ [reported] }, none⟩
    | some threshold =>
      match accept E d id (some ⟨threshold, sim⟩) { correctionSource := .consolidationAuto } with
      | .error e => ⟨d, r, some e⟩
      | .ok d =>
        ⟨d, { r with
          invalidatedThisRun := r.invalidatedThisRun ++ [pick.2.id]
          summary := { r.summary with autoAccepted := r.summary.autoAccepted ++ [(reported, id)] } }, none⟩

/-- everything below the judge -/
def classifyPair (usefulness : AtomId → Option ℚ) (a b : AtomRow) (sim : ℚ) : Outcome :=
  if sim < o.proposeThreshold then ⟨d, r, none⟩
  else
    let pick := pickWinner usefulness a b
    match (if o.autoMergeContained then containment T a.text b.text else none) with
    | some c => mergeTier E d r a b (containedPick c a b pick) sim .contained
    | none =>
      if o.mergeThreshold ≤ sim then mergeTier E d r a b pick sim .similarity
      else proposeTier E o d r pick sim

/-- a confident 'contradicts': the newer atom is the correction -/
def contradictionTier (c : ContradictionDetection) (a b : AtomRow) (sim : ℚ) (verdict : JudgeVerdict) : Outcome :=
  let pick := if b.createdAt ≤ a.createdAt then (a, b) else (b, a)
  let reported : Reported := ⟨pick.1.id, pick.2.id, sim⟩
  match c.mode with
  | .dryRun =>
    ⟨d, r.noting fun s => { s with contradictionsPreviewed := s.contradictionsPreviewed ++ [(reported, verdict)] }, none⟩
  | .enabled =>
    match insertProposal E d .contradiction pick.1.id pick.2.id sim
      (some (.contradiction verdict.confidence (excerpt pick.1.text) (excerpt pick.2.text))) with
    | .error e => ⟨d, r, some e⟩
    | .ok (d, none) => ⟨d, r, none⟩
    | .ok (d, some id) =>
      ⟨d, r.noting fun s => { s with contradictionsProposed := s.contradictionsProposed ++ [(reported, id)] }, none⟩

/-- a judge call is counted when it is made -/
def countJudgeCall (sim : ℚ) (s : Summary) : Summary :=
  { s with
    judgeCallsExecuted := s.judgeCallsExecuted + 1
    judgeCallsNearThreshold := s.judgeCallsNearThreshold + if nearMergeThresholdMin ≤ sim then 1 else 0 }

/-- the contradiction judge stands ahead of the propose threshold; a spent cap falls through -/
def judgePair (c : ContradictionDetection) (usefulness : AtomId → Option ℚ) (a b : AtomRow) (sim : ℚ)
    (verdict : JudgeVerdict) (elapsed : ℤ) : Outcome :=
  if c.maxPerRun ≤ r.summary.judgeCallsExecuted then
    classifyPair E T o d (r.noting fun s => { s with contradictionCapReached := true }) usefulness a b sim
  else if c.maxWallClockMs ≤ elapsed then
    classifyPair E T o d (r.noting fun s => { s with contradictionWallClockCapReached := true }) usefulness a b sim
  else
    let r := r.noting (countJudgeCall sim)
    if verdict.verdict = .contradicts ∧ c.minConfidence ≤ verdict.confidence then
      contradictionTier E d r c a b sim verdict
    else if verdict.verdict = .unrelated then ⟨d, r, none⟩
    else classifyPair E T o d r usefulness a b sim

/-- `processPair`. What it reads before the judge answers is the run's own, so the whole of it is one step of the
database. -/
def processPair {V : Type} (cosine : V → V → ℚ) (x : PairInput V) (a b : AtomRow) : Outcome :=
  if a.id ∈ r.invalidatedThisRun ∨ b.id ∈ r.invalidatedThisRun then ⟨d, r, none⟩
  else
    match x.vecs a.id, x.vecs b.id with
    | some va, some vb =>
      let sim := cosine va vb
      match o.contradictionDetection.filter fun c => c.minSimilarity ≤ sim ∧ sim < o.mergeThreshold with
      | some c => judgePair E T o d r c x.usefulness a b sim x.verdict x.elapsed
      | none => classifyPair E T o d r x.usefulness a b sim
    | _, _ => ⟨d, r, none⟩

end AstramemLocal.Consolidate
