/-
`src/consolidate/proposals.ts`: the queue of consolidation proposals and the merge that accepting one runs. A `Desk` is
the database with what consolidation adds to it. `accept` and `reject` are one transaction each: they throw and leave
the desk as it was, or resolve one pending row (`accept_ok`, `reject_ok`).
-/
import AstramemLocal.Core.JsString
import AstramemLocal.Core.Table
import AstramemLocal.Store.MemoryEvents
import Mathlib.Data.List.Sort

namespace AstramemLocal.Consolidate

open AstramemLocal.Store

abbrev ProposalId := ℕ

inductive ProposalKind where
  | merge | contradiction
deriving DecidableEq, Repr

inductive ProposalStatus where
  | pending | accepted | rejected
deriving DecidableEq, Repr

def ProposalStatus.text : ProposalStatus → String
  | .pending => "pending"
  | .accepted => "accepted"
  | .rejected => "rejected"

inductive DupVerdictLabel where
  | sameFactMerge | distinctKeepSeparate | unclearLeavePending
deriving DecidableEq, Repr

/-- the objects the code writes into `metadata_json` -/
inductive ProposalMetadata where
  | contradiction (confidence : ℚ) (winnerExcerpt loserExcerpt : Core.JsString)
  /-- `command_guard_blocked`, from the pair scan -/
  | commandGuard
  /-- the same with `source: 'containment-sweep'` -/
  | commandGuardSweep
  /-- the same with the verdict the dup-judge was refused -/
  | commandGuardJudge (verdict : DupVerdictLabel) (confidence : ℚ)
  /-- `resolved_by: 'dup-judge'` -/
  | dupJudge (verdict : DupVerdictLabel) (confidence : ℚ) (provider model : String)
deriving DecidableEq, Repr

/-- a row of `consolidation_proposals` -/
structure ConsolidationProposal where
  id : ProposalId
  kind : ProposalKind
  winnerId : AtomId
  loserId : AtomId
  similarity : ℚ
  status : ProposalStatus
  createdAt : Time
  resolvedAt : Option Time
  metadataJson : Option ProposalMetadata
deriving DecidableEq, Repr

/-- the database, with the column `memories.derived_from` (NULL reads as the empty list), the key `bulk_accepted` of
the payload at each seq, and the proposals in the order of their INSERTs -/
structure Desk where
  store : St
  derivedFrom : AtomId → List AtomId := fun _ => []
  bulkAccepted : ℕ → Bool := fun _ => false
  proposals : List ConsolidationProposal := []

inductive ProposalError where
  | proposalNotFound (id : ProposalId)
  | proposalAlreadyResolved (id : ProposalId) (status : ProposalStatus)
  | lifecycle (e : LifecycleError)
  /-- the PRIMARY KEY of an INSERT -/
  | primaryKey (id : ProposalId)
deriving DecidableEq, Repr

variable (E : Env)

/-! ## Merging -/

/-- `mergeAsSupersede`: one transaction -/
def mergeAsSupersede (d : Desk) (winnerId loserId : AtomId) (provenance : Option SupersedeProvenance)
    (correctionSource : CorrectionSource) : Except LifecycleError Desk :=
  match supersede E d.store loserId winnerId provenance correctionSource with
  | .error e => .error e
  | .ok s =>
    let lineage := d.derivedFrom winnerId
    let lineage := if loserId ∈ lineage then lineage else lineage ++ [loserId]
    .ok { d with
      store := updateRow (tick s) winnerId fun m => { m with updatedAt := E.now s.clock }
      derivedFrom := Function.update d.derivedFrom winnerId lineage }

/-! ## The queue -/

/-- `ProposalRepo.get` -/
def get (d : Desk) (id : ProposalId) : Option ConsolidationProposal := Core.lookup (·.id) id d.proposals

/-- `UPDATE consolidation_proposals SET .. WHERE id = ?` -/
def updateProposal (d : Desk) (id : ProposalId) (f : ConsolidationProposal → ConsolidationProposal) : Desk :=
  { d with proposals := Core.updateWhere (·.id = id) f d.proposals }

def mustBePending (d : Desk) (id : ProposalId) : Except ProposalError ConsolidationProposal :=
  match get d id with
  | none => .error (.proposalNotFound id)
  | some p => if p.status ≠ .pending then .error (.proposalAlreadyResolved id p.status) else .ok p

/-- without `metadata` the column keeps what it holds -/
def resolve (d : Desk) (id : ProposalId) (status : ProposalStatus) (metadata : Option ProposalMetadata) : Desk :=
  let now := E.now d.store.clock
  updateProposal { d with store := tick d.store } id fun p =>
    { p with status, resolvedAt := some now, metadataJson := metadata.or p.metadataJson }

/-- the last 'supersede' event of the loser is marked -/
def markBulkAccepted (d : Desk) (loserId : AtomId) : Desk :=
  match (d.store.memoryEvents.filter fun e => e.atomId = loserId ∧ e.eventType = .supersede).getLast? with
  | none => d
  | some e => { d with bulkAccepted := Function.update d.bulkAccepted e.seq true }

structure AcceptOpts where
  bulkAccepted : Bool := false
  correctionSource : CorrectionSource := .external
  metadata : Option ProposalMetadata := none
deriving DecidableEq, Repr

/-- the code answers with the row as it is then, `get` of the new desk -/
def accept (d : Desk) (id : ProposalId) (provenance : Option SupersedeProvenance) (opts : AcceptOpts) :
    Except ProposalError Desk :=
  match mustBePending d id with
  | .error e => .error e
  | .ok p =>
    match mergeAsSupersede E d p.winnerId p.loserId provenance opts.correctionSource with
    | .error e => .error (.lifecycle e)
    | .ok d => .ok (resolve E (if opts.bulkAccepted then markBulkAccepted d p.loserId else d) p.id .accepted opts.metadata)

def reject (d : Desk) (id : ProposalId) (metadata : Option ProposalMetadata) : Except ProposalError Desk :=
  match mustBePending d id with
  | .error e => .error e
  | .ok p => .ok (resolve E d p.id .rejected metadata)

/-- the unordered pair of a row, as the unique index keys it -/
def ConsolidationProposal.pair (p : ConsolidationProposal) : ℕ × ℕ := (min p.winnerId p.loserId, max p.winnerId p.loserId)

/-- `WHERE NOT EXISTS`: a pending row of either kind for the unordered pair -/
def pairPending (d : Desk) (winnerId loserId : AtomId) : Bool :=
  d.proposals.any fun p => p.status = .pending ∧ p.pair = (min winnerId loserId, max winnerId loserId)

/-- the three `INSERT .. SELECT .. WHERE NOT EXISTS` statements; the answer is the id of the new row, if there is one -/
def insertProposal (d : Desk) (kind : ProposalKind) (winnerId loserId : AtomId) (similarity : ℚ)
    (metadata : Option ProposalMetadata) : Except ProposalError (Desk × Option ProposalId) :=
  let id := E.uuid d.store.drawn
  let now := E.now d.store.clock
  let d := { d with store := tick (draw d.store) }
  if pairPending d winnerId loserId then .ok (d, none)
  else if (get d id).isSome then .error (.primaryKey id)
  else
    .ok ({ d with proposals := d.proposals ++
      [⟨id, kind, winnerId, loserId, similarity, .pending, now, none, metadata⟩] }, some id)

/-! ## Reading the queue -/

/-- `proposalConfidence` -/
def proposalConfidence (p : ConsolidationProposal) : ℚ :=
  match p.kind with
  | .merge => p.similarity
  | .contradiction =>
    match p.metadataJson with
    | some (.contradiction confidence _ _) => confidence
    -- an object without `confidence` reads as 0, as NULL does; the guard's and the judge's own confidence stands under
    -- another key or belongs to a merge row
    | some (.dupJudge _ confidence _ _) => confidence
    | _ => 0

structure ProposalListOptions where
  limit : Option ℕ := none
  offset : Option ℕ := none
  minConfidence : Option ℚ := none
deriving DecidableEq, Repr

/-- `ORDER BY created_at ASC`: rows of one millisecond come in the order of their INSERTs -/
def list (d : Desk) (status : Option ProposalStatus) (kind : Option ProposalKind) (opts : ProposalListOptions) :
    List ConsolidationProposal :=
  let rows := (d.proposals.filter fun p => status.all (p.status = ·) ∧ kind.all (p.kind = ·)).insertionSort
    fun p q => p.createdAt ≤ q.createdAt
  let rows := rows.filter fun p => opts.minConfidence.all (· ≤ proposalConfidence p)
  let rows := rows.drop (opts.offset.getD 0)
  match opts.limit with
  | none => rows
  | some limit => rows.take limit

def count (d : Desk) (status : Option ProposalStatus) (kind : Option ProposalKind) (minConfidence : Option ℚ) : ℕ :=
  (list d status kind { minConfidence }).length

end AstramemLocal.Consolidate
