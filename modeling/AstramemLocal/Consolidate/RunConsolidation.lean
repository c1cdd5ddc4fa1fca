/-
`runConsolidation` of `src/consolidate/consolidate.ts`, one whole call with nothing between its steps: the containment
sweep, the loading, the scan of the groups in cursor order, the cursor, the dup-judge sweep. Where the clock or a waiting
job cuts it short is part of its input.
-/
import AstramemLocal.Consolidate.Sweeps
import AstramemLocal.Consolidate.Cursor

namespace AstramemLocal.Consolidate

open AstramemLocal.Store

/-- why a group was not scanned to its end: while its embedding map was built, or behind a pair -/
inductive GroupStop where
  | setupBudget | setupPreempted
  | pairPreempted (pair : ℕ)
deriving DecidableEq, Repr

def GroupStop.pair? : GroupStop → Option ℕ
  | .pairPreempted n => some n
  | _ => none

/-- what a call reads beside the database. Groups and pairs are numbered in the order of the scan. -/
structure RunInput (V : Type) where
  /-- `ASTRA_SKIP_CONSOLIDATE` -/
  skip : Bool := false
  pageSize : ℕ := 500
  /-- the pages loaded before the budget was spent or, with `true`, a job preempted the load -/
  loadStop : Option (ℕ × Bool) := none
  groupStop : ℕ → Option GroupStop := fun _ => none
  vecs : AtomId → Option V
  usefulness : AtomId → Option ℚ := fun _ => none
  search : V → ℕ → List AtomId := fun _ _ => []
  verdict : ℕ → ℕ → JudgeVerdict := fun _ _ => ⟨.unrelated, 0⟩
  elapsed : ℕ → ℕ → ℤ := fun _ _ => 0
  answers : ℕ → BatchAnswer := fun _ => ⟨0, fun _ => none⟩

structure Consolidated where
  desk : Desk
  cursor : CursorRow
  summary : Summary
  thrown : Option ProposalError := none

variable (E : Env) (T : TextTables) (o : Options) {V : Type} (cosine : V → V → ℚ) (input : RunInput V)

def pairInput (gi n : ℕ) : PairInput V := ⟨input.vecs, input.usefulness, input.verdict gi n, input.elapsed gi n⟩

/-- the loop over the pairs of the group `gi`, at the pair `n`; the answer says how many pairs it has processed and
whether it was preempted -/
def scanPairs (gi : ℕ) (preemptAt : Option ℕ) : ℕ → Outcome → List Pair → Outcome × ℕ × Bool
  | n, out, [] => (out, n, false)
  | n, out, p :: pairs =>
    let out := processPair E T o out.desk out.run cosine (pairInput input gi n) p.1 p.2
    if out.thrown.isSome then (out, n + 1, false)
    else if preemptAt = some n then (out, n + 1, true)
    else scanPairs gi preemptAt (n + 1) out pairs

def candidatePairs (group : List AtomRow) : List Pair :=
  match o.candidateSelection with
  | .full => buildFullPairs group
  | .knn => buildKnnCandidatePairs input.search o.knnK input.vecs group

structure Scanned where
  out : Outcome
  /-- `pairsProcessedThisRun` -/
  processed : ℕ := 0
  /-- `ceilingHitAtGroupIndex` -/
  stoppedAt : Option ℕ := none

def Scanned.noting (st : Scanned) (f : Summary → Summary) : Scanned :=
  { st with out := { st.out with run := st.out.run.noting f } }

/-- the loop over the groups, at the group `gi` -/
def scanGroups : ℕ → Scanned → List GroupEntry → Scanned
  | _, st, [] => st
  | gi, st, g :: groups =>
    if o.candidateSelection = .full ∧ o.maxGroupSize < g.atoms.length then
      scanGroups (gi + 1) (st.noting fun s =>
        { s with groupsSkipped := s.groupsSkipped ++
          [((g.atoms.head?.bind (·.repo)), g.key.2, g.atoms.length)] }) groups
    else
      let st := st.noting fun s => { s with groupsScanned := s.groupsScanned + 1 }
      match input.groupStop gi with
      | some .setupBudget =>
        { st.noting fun s => { s with setupBudgetExceeded := true } with stoppedAt := some gi }
      | some .setupPreempted =>
        { st.noting fun s => { s with preemptedForHigherPriority := true } with stoppedAt := some gi }
      | stop =>
        let (out, n, preempted) :=
          scanPairs E T o cosine input gi (stop.bind (·.pair?)) 0 st.out (candidatePairs o input g.atoms)
        let st := { st with out, processed := st.processed + n }
        if out.thrown.isSome then st
        else if preempted then
          { st.noting fun s => { s with preemptedForHigherPriority := true } with stoppedAt := some gi }
        else if o.maxCandidatePairsPerRun.any (· ≤ st.processed) then { st with stoppedAt := some gi }
        else scanGroups (gi + 1) st groups

/-- the summary behind the containment sweep and the loading -/
def setupSummary (swept : Swept) : Summary :=
  { autoAcceptedProposals := swept.accepted
    staleRejectedProposals := swept.staleRejected
    commandGuardBlocked := swept.guardBlocked
    setupBudgetExceeded := input.loadStop.any (!·.2)
    preemptedForHigherPriority := input.loadStop.any (·.2) }

/-- the dup-judge sweep, where it is on, with what it adds to the summary -/
def finishRun (answers : ℕ → BatchAnswer) (d : Desk) (cursor : CursorRow) (s : Summary) : Consolidated :=
  match o.dupJudge with
  | none => ⟨d, cursor, s, none⟩
  | some j =>
    let swept := runDupJudgeSweep E j o.proposeThreshold o.mergeThreshold answers d
    ⟨swept.desk, cursor,
      { s with
        dupJudgeVerdictsPreviewed := swept.verdictsPreviewed
        dupJudgeResolved := swept.resolved
        dupJudgeCallsExecuted := swept.callsExecuted
        dupJudgeCapReached := swept.capReached
        dupJudgeWallClockCapReached := swept.wallClockCapReached
        dupJudgeCommandGuardBlocked := swept.guardBlocked }, none⟩

def runConsolidation (d : Desk) (cursor : CursorRow) : Consolidated :=
  if input.skip then ⟨d, cursor, {}, none⟩
  else
    let swept := if o.autoMergeContained then sweepContainedProposals E T d else { desk := d }
    let ceilingActive := o.maxCandidatePairsPerRun.isSome
    let atoms := loadAtomsSetupBounded swept.desk.store input.pageSize (input.loadStop.map (·.1))
    let order := groupOrder ceilingActive cursor (groupAtoms atoms)
    let start : Scanned := { out := ⟨swept.desk, { summary := setupSummary input swept }, none⟩ }
    let st := if input.loadStop.isSome then start else scanGroups E T o cosine input 0 start order
    match st.out.thrown with
    | some e => ⟨st.out.desk, cursor, st.out.run.summary, some e⟩
    | none =>
      finishRun E o input.answers st.out.desk (nextCursor ceilingActive cursor order st.stoppedAt)
        { st.out.run.summary with resumeCursorUpdated := st.stoppedAt.isSome }

end AstramemLocal.Consolidate
