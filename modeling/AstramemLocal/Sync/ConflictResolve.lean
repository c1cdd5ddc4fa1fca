/-
`src/sync/conflict-resolve.ts`: the projection of one atom, recomputed from its events. `recomputeProjection` and
`chainLoserToWinner` call each other; the first argument of `recomputeProjection` is the number of nested calls left
before the call stack is exhausted (`none`: it was).
-/
import AstramemLocal.Store.Schema
import Mathlib.Data.Prod.Lex
import Mathlib.Data.List.MinMax
import Mathlib.Data.List.Sort

namespace AstramemLocal.Sync

open AstramemLocal.Store

/-- the canonical tie-break key (created_at, event_id), compared by its first component, then by its second -/
def TieKey := Time ×ₗ EventId

instance : LinearOrder TieKey := @Prod.Lex.instLinearOrder ℤ ℕ Int.instLinearOrder Nat.instLinearOrder

def tieKey (e : EventRecord) : TieKey := toLex (e.createdAt, e.eventId)

theorem tieKey_le {e f : EventRecord} :
    tieKey e ≤ tieKey f ↔ e.createdAt < f.createdAt ∨ e.createdAt = f.createdAt ∧ e.eventId ≤ f.eventId :=
  Prod.Lex.toLex_le_toLex

theorem tieKey_lt {e f : EventRecord} :
    tieKey e < tieKey f ↔ e.createdAt < f.createdAt ∨ e.createdAt = f.createdAt ∧ e.eventId < f.eventId :=
  Prod.Lex.toLex_lt_toLex

theorem tieKey_id {e f : EventRecord} (h : tieKey e = tieKey f) : e.eventId = f.eventId :=
  congrArg (fun k : TieKey => (ofLex k : Time × EventId).2) h

/-- `WHERE atom_id = ? ORDER BY created_at ASC, event_id ASC` -/
def loadEvents (s : St) (atomId : AtomId) : List EventRecord :=
  ((records s).filter (·.atomId = atomId)).insertionSort fun e f => tieKey e ≤ tieKey f

def rowExists (s : St) (atomId : AtomId) : Bool := (findRow s atomId).isSome

def hardDeleteAtom (s : St) (atomId : AtomId) : St :=
  match findRow s atomId with
  | none => s
  | some row => deleteRow (deleteVec s row.rowid) atomId

/-- `none` for a payload that does not parse and for one without `superseded_by` -/
def supersedeTarget (e : EventRecord) : Option AtomId := e.payloadJson.bind (·.supersededBy)

/-- a supersede event with its target -/
structure Resolvable extends EventRecord where
  target : AtomId
deriving DecidableEq, Repr

def resolve (e : EventRecord) : Option Resolvable := (supersedeTarget e).map fun target => { e with target }

/-- the first of the events with the greatest tie-break key -/
def maxByTieBreak (events : List Resolvable) : Option Resolvable := events.argmax fun e => tieKey e.toEventRecord

def conflictMerge : String := "conflict_merge"

/-- `chainLoserToWinner`'s query for a synthetic event that is already there -/
def chained (s : St) (loserAtomId winnerAtomId : AtomId) : Bool :=
  s.memoryEvents.any fun e => e.atomId = loserAtomId ∧ e.eventType = .supersede ∧
    e.payloadJson.bind (·.supersededBy) = some winnerAtomId ∧ e.payloadJson.bind (·.reason) = some conflictMerge

def mergePayload (winnerAtomId : AtomId) : Payload :=
  { supersededBy := some winnerAtomId, reason := some conflictMerge }

def chainLoserToWinner (E : Env) (recompute : St → AtomId → Option St) (s : St) (loserAtomId winnerAtomId : AtomId)
    (at_ : Time) : Option St :=
  let s := if chained s loserAtomId winnerAtomId then s
    else append E s .supersede loserAtomId (some (mergePayload winnerAtomId)) none at_
  recompute s loserAtomId

def recomputeProjection (E : Env) : ℕ → St → AtomId → Option St
  | 0, _, _ => none
  | n + 1, s, atomId =>
    let events := loadEvents s atomId
    if events.any (·.eventType = .eraseRequest) then some (hardDeleteAtom s atomId)
    else if ¬ rowExists s atomId then some s
    else
      let supersedes := events.filter (·.eventType = .supersede)
      let invalidates := events.filter (·.eventType = .invalidate)
      if supersedes = [] ∧ invalidates = [] then some s
      else
        let now := E.now s.clock
        let s := tick s
        if supersedes ≠ [] then
          let resolvable := supersedes.filterMap resolve
          match maxByTieBreak resolvable with
          -- every target is unresolvable: the projection stays as it is
          | none => some s
          | some winner =>
            -- the least `created_at` of all supersedes, resolvable or not
            let validTo := (supersedes.map (·.createdAt)).min?
            let s := updateRow s atomId fun m =>
              { m with validTo, supersededBy := some winner.target, updatedAt := now }
            let losers := resolvable.filter fun r => r.eventId ≠ winner.eventId ∧ r.target ≠ winner.target
            losers.foldlM (fun s loser =>
              chainLoserToWinner E (recomputeProjection E n) s loser.target winner.target
                (max loser.createdAt now)) s
        else
          let validTo := (invalidates.map (·.createdAt)).min?
          some (updateRow s atomId fun m => { m with validTo, updatedAt := now })

end AstramemLocal.Sync
