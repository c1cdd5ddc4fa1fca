/-
The two sweeps of `src/consolidate/consolidate.ts` over the pending proposals: `sweepContainedProposals`, before the
scan, and `runDupJudgeSweep`, behind it. Both select their rows first and swallow what a transaction throws.
-/
import AstramemLocal.Consolidate.Scan

namespace AstramemLocal.Consolidate

open AstramemLocal.Store

variable (E : Env) (T : TextTables)

/-- `UPDATE consolidation_proposals SET .. WHERE id = ? AND status = 'pending'` -/
def updatePending (d : Desk) (id : ProposalId) (f : ConsolidationProposal → ConsolidationProposal) : Desk :=
  { d with proposals := Core.updateWhere (fun p => p.id = id ∧ p.status = .pending) f d.proposals }

/-- `annotateCommandGuardBlocked` -/
def annotateCommandGuardBlocked (d : Desk) (id : ProposalId) (metadata : ProposalMetadata) : Desk :=
  updatePending d id fun p => { p with metadataJson := some metadata }

/-! ## The containment sweep -/

/-- a pending proposal joined with its two memories, as both are at the SELECT -/
structure SweepRow where
  proposal : ConsolidationProposal
  winner : Memory
  loser : Memory
deriving DecidableEq, Repr

def sweepRow? (d : Desk) (p : ConsolidationProposal) : Option SweepRow :=
  if p.status ≠ .pending then none
  else
    match findRow d.store p.winnerId, findRow d.store p.loserId with
    | some w, some l => some ⟨p, w, l⟩
    | _, _ => none

def sweepRows (d : Desk) : List SweepRow := d.proposals.filterMap (sweepRow? d)

structure Swept where
  desk : Desk
  accepted : List ProposalId := []
  staleRejected : List ProposalId := []
  guardBlocked : List Reported := []

def resolveRow (d : Desk) (id : ProposalId) (status : ProposalStatus) : Desk :=
  let now := E.now d.store.clock
  updatePending { d with store := tick d.store } id fun p => { p with status, resolvedAt := some now }

def SweepRow.guarded (r : SweepRow) : Bool :=
  commandGuardBlocksMerge ⟨r.winner.type, r.winner.text⟩ ⟨r.loser.type, r.loser.text⟩

/-- one round of the loop of `sweepContainedProposals` -/
def sweepOne (acc : Swept) (r : SweepRow) : Swept :=
  let id := r.proposal.id
  if r.loser.validTo ≠ none ∨ r.winner.validTo ≠ none then
    if r.loser.supersededBy = some r.proposal.winnerId then
      -- the work is done already
      { acc with desk := resolveRow E acc.desk id .accepted, accepted := acc.accepted ++ [id] }
    else { acc with desk := resolveRow E acc.desk id .rejected, staleRejected := acc.staleRejected ++ [id] }
  else if (containment T r.winner.text r.loser.text).all (· = .bContainsA) then acc
  else if r.guarded then
    { acc with
      desk := annotateCommandGuardBlocked acc.desk id .commandGuardSweep
      guardBlocked := acc.guardBlocked ++ [⟨r.proposal.winnerId, r.proposal.loserId, r.proposal.similarity⟩] }
  else
    match accept E acc.desk id none { correctionSource := .consolidationAuto } with
    | .error _ => acc
    | .ok desk => { acc with desk, accepted := acc.accepted ++ [id] }

def sweepContainedProposals (d : Desk) : Swept := (sweepRows d).foldl (sweepOne E T) { desk := d }

/-! ## The dup-judge sweep -/

structure DupVerdict where
  verdict : DupVerdictLabel
  confidence : ℚ
deriving DecidableEq, Repr

/-- the pending merge proposals of the propose band, oldest first -/
def dupJudgeRows (d : Desk) (proposeThreshold mergeThreshold : ℚ) : List SweepRow :=
  ((sweepRows d).filter fun r =>
    r.proposal.kind = .merge ∧ proposeThreshold ≤ r.proposal.similarity ∧ r.proposal.similarity < mergeThreshold).insertionSort
      fun p q => p.proposal.createdAt ≤ q.proposal.createdAt

structure DupSwept where
  desk : Desk
  verdictsPreviewed : List (ProposalId × ℚ × DupVerdictLabel × ℚ) := []
  resolved : List (ProposalId × DupVerdictLabel × ℚ × Bool) := []
  callsExecuted : ℕ := 0
  capReached : Bool := false
  wallClockCapReached : Bool := false
  guardBlocked : ℕ := 0

/-- one proposal with its verdict, where the batch has one -/
def dupJudgeOne (j : DupJudge) (acc : DupSwept) (r : SweepRow) (v : DupVerdict) : DupSwept :=
  let id := r.proposal.id
  let metadata : ProposalMetadata := .dupJudge v.verdict v.confidence j.provider j.model
  match j.mode with
  | .dryRun =>
    { acc with verdictsPreviewed := acc.verdictsPreviewed ++ [(id, r.proposal.similarity, v.verdict, v.confidence)] }
  | .enabled =>
    if r.guarded then
      { acc with
        desk := annotateCommandGuardBlocked acc.desk id (.commandGuardJudge v.verdict v.confidence)
        guardBlocked := acc.guardBlocked + 1 }
    else if v.verdict = .unclearLeavePending ∨ v.confidence < j.minConfidence then acc
    else if v.verdict = .sameFactMerge then
      match accept E acc.desk id none { correctionSource := .consolidationAuto, metadata := some metadata } with
      | .error _ => acc
      | .ok desk => { acc with desk, resolved := acc.resolved ++ [(id, v.verdict, v.confidence, true)] }
    else
      match reject E acc.desk id (some metadata) with
      | .error _ => acc
      | .ok desk => { acc with desk, resolved := acc.resolved ++ [(id, v.verdict, v.confidence, false)] }

/-- what comes from outside at a batch: the time since the sweep began, and the judge's verdicts by the index of the
proposal in the whole sweep; a call that failed has none -/
structure BatchAnswer where
  elapsed : ℤ
  verdicts : ℕ → Option DupVerdict

/-- one batch of numbered rows, behind `shouldStop` -/
def dupJudgeBatch (j : DupJudge) (acc : DupSwept) (batch : List (SweepRow × ℕ)) (answer : BatchAnswer) : DupSwept :=
  batch.foldl (fun acc row =>
    match answer.verdicts row.2 with
    | none => acc
    | some v => dupJudgeOne E j acc row.1 v) { acc with callsExecuted := acc.callsExecuted + 1 }

/-- `rows.slice(batchStart, batchStart + batchSize)` for every `batchStart`; as many rounds as rows are enough -/
def batchesOf {α : Type} (size : ℕ) : ℕ → List α → List (List α)
  | 0, _ => []
  | _, [] => []
  | rounds + 1, row :: rows => (row :: rows).take size :: batchesOf size rounds ((row :: rows).drop size)

/-- the loop over the batches; `answers` is read at the number of the call -/
def dupJudgeBatches (j : DupJudge) (answers : ℕ → BatchAnswer) : DupSwept → List (List (SweepRow × ℕ)) → DupSwept
  | acc, [] => acc
  | acc, batch :: batches =>
    if j.maxPerRun ≤ acc.callsExecuted then { acc with capReached := true }
    else if j.maxWallClockMs ≤ (answers acc.callsExecuted).elapsed then { acc with wallClockCapReached := true }
    else dupJudgeBatches j answers (dupJudgeBatch E j acc batch (answers acc.callsExecuted)) batches

def runDupJudgeSweep (j : DupJudge) (proposeThreshold mergeThreshold : ℚ) (answers : ℕ → BatchAnswer) (d : Desk) :
    DupSwept :=
  let rows := (dupJudgeRows d proposeThreshold mergeThreshold).zipIdx
  dupJudgeBatches E j answers { desk := d } (batchesOf j.batchSize rows.length rows)

end AstramemLocal.Consolidate
