/-
The tables of the tag backfills, and runs with a limit. A backfill scans the rows it selects in the order of `created_at`
and writes those it can fix. `Rules` says what it selects, fixes and writes, and `Follows` that its runs do just that;
`Follows.settles` is then what a sequence of runs with one limit comes to, by `Core/Worklist`.
-/
import AstramemLocal.Core.Table
import AstramemLocal.Core.Worklist
import AstramemLocal.Store.Schema
import Mathlib.Data.List.Sort
import Mathlib.Algebra.Order.Ring.Int

namespace AstramemLocal.TagHygiene

open AstramemLocal.Store AstramemLocal.Core

/-! ## Tables -/

structure SessionRow where
  id : SessionId
  repo : Option String
  project : Option String
  cwd : Option String
deriving DecidableEq, Repr

structure TagDb where
  /-- in the order of the rowids -/
  memories : List Memory
  sessions : List SessionRow
  /-- `Date.now()` calls so far -/
  clock : ℕ := 0
  /-- PRIMARY KEY -/
  keyed : Keyed (·.id) memories

/-- `ORDER BY created_at ASC` -/
def byCreation (memories : List Memory) : List Memory := memories.insertionSort fun a b => a.createdAt ≤ b.createdAt

def findSession (sessions : List SessionRow) (id : SessionId) : Option SessionRow := lookup (·.id) id sessions

/-- `UPDATE memories SET .., updated_at = ? WHERE id = ?` -/
def TagDb.updateMemory (now : ℕ → Time) (db : TagDb) (id : AtomId) (f : Memory → Memory) (hf : ∀ m, (f m).id = m.id) :
    TagDb where
  memories := updateWhere (·.id = id) (fun m => { f m with updatedAt := now db.clock }) db.memories
  sessions := db.sessions
  clock := db.clock + 1
  keyed := db.keyed.updateWhere hf

/-! ## Runs -/

/-- a run as it is seen from outside; `ρ` is what an UPDATE writes -/
structure Run (ρ : Type) where
  db : TagDb
  /-- the UPDATEs on `memories`, in order -/
  updates : List (AtomId × ρ)
  /-- the UPDATEs on `sessions`, in order -/
  sessionUpdates : List SessionId := []
  /-- how many rows the result says are changed, or to be changed, -/
  applied : ℕ
  /-- and which -/
  reported : List (AtomId × ρ)
  /-- the sessions it says are changed, or to be changed -/
  reportedSessions : ℕ := 0

section
variable {ρ : Type} (run : Bool → Option ℕ → TagDb → Run ρ) (selects : Memory → Bool) (limit : ℕ) (db : TagDb)

/-- the tables behind `n` runs with the limit; the first argument of a run is `dryRun` -/
def after (n : ℕ) : TagDb := (fun db => (run false (some limit) db).db)^[n] db

/-- the rows the next run writes -/
def writes (n : ℕ) : List AtomId := (run false (some limit) (after run limit db n)).updates.map Prod.fst

/-- the rows a run without a limit would write -/
def wouldWrite (n : ℕ) : List AtomId := (run false none (after run limit db n)).updates.map Prod.fst

/-- what repeating runs with one limit comes to -/
structure Settles : Prop where
  counted : ∀ n dryRun, (run dryRun (some limit) (after run limit db n)).applied = (writes run limit db n).length
  stops : ∃ n, writes run limit db n = []
  /-- what is left when a run writes nothing stands behind as many rows that are selected and cannot be fixed -/
  blocked : ∀ n, writes run limit db n = [] → ∀ a ∈ wouldWrite run limit db n, ∃ before m rest,
    byCreation (after run limit db n).memories = before ++ m :: rest ∧ m.id = a ∧
      limit ≤ before.countP fun r => selects r ∧ r.id ∉ wouldWrite run limit db n
  /-- with fewer such rows nothing is left -/
  few : ∀ n, writes run limit db n = [] →
    (after run limit db n).memories.countP (fun r => selects r ∧ r.id ∉ wouldWrite run limit db n) < limit →
      wouldWrite run limit db n = []
  /-- nothing but what a run without a limit would have written at the start is written, or left -/
  left : ∀ n a, a ∈ wouldWrite run limit db n ↔ a ∈ wouldWrite run limit db 0 ∧ ∀ m < n, a ∉ writes run limit db m
  once : (∀ n, (writes run limit db n).Nodup) ∧ ∀ m n, m < n → ∀ a ∈ writes run limit db m, a ∉ writes run limit db n
  selected : ∀ n, ∀ a ∈ writes run limit db n, ∃ r ∈ db.memories, r.id = a ∧ selects r = true
  untouched : ∀ n, ∀ r ∈ db.memories, (∀ m < n, r.id ∉ writes run limit db m) → r ∈ (after run limit db n).memories
  /-- a dry run changes nothing and reports what the real one writes -/
  dry : ∀ n, (run true (some limit) (after run limit db n)).db = after run limit db n ∧
    (run true (some limit) (after run limit db n)).updates = [] ∧
    (run true (some limit) (after run limit db n)).reported = (run false (some limit) (after run limit db n)).updates

/-- the sessions the next run writes -/
def sessionWrites (n : ℕ) : List SessionId := (run false (some limit) (after run limit db n)).sessionUpdates

/-- and for the sessions -/
structure SettlesSessions : Prop where
  left : ∀ n, wouldWrite run limit db n = [] → (run false none (after run limit db n)).sessionUpdates = []
  once : (∀ n, (sessionWrites run limit db n).Nodup) ∧
    ∀ m n, m < n → ∀ k ∈ sessionWrites run limit db m, k ∉ sessionWrites run limit db n
  /-- a session is written only with one of its own rows -/
  selected : ∀ n, ∀ k ∈ sessionWrites run limit db n, ∃ r ∈ db.memories,
    r.sessionId = some k ∧ selects r = true ∧ r.id ∈ writes run limit db n
  dry : ∀ n, (run true (some limit) (after run limit db n)).sessionUpdates = [] ∧
    (run true (some limit) (after run limit db n)).reportedSessions = (sessionWrites run limit db n).length

end

/-! ## Rules -/

/-- what a backfill selects, what it makes of a row, and what it writes to it -/
structure Rules (ρ : Type) where
  selects : Memory → Bool
  fix : List SessionRow → Memory → Option ρ
  write : ρ → Memory → Memory
  write_id : ∀ v m, (write v m).id = m.id
  write_createdAt : ∀ v m, (write v m).createdAt = m.createdAt
  /-- a row is fixed once -/
  fix_write : ∀ sessions m v, fix sessions m = some v → ∀ t, fix sessions { write v m with updatedAt := t } = none

variable {ρ : Type} (R : Rules ρ) (now : ℕ → Time)

namespace Rules

def scannedRows (db : TagDb) (limit : Option ℕ) : List Memory := takeLimit limit ((byCreation db.memories).filter R.selects)

def proposal (sessions : List SessionRow) (m : Memory) : Option (AtomId × ρ) := (R.fix sessions m).map fun v => (m.id, v)

/-- the rows to write, with what to write -/
def proposals (db : TagDb) (limit : Option ℕ) : List (AtomId × ρ) :=
  (R.scannedRows db limit).filterMap (R.proposal db.sessions)

def stamp (db : TagDb) (update : AtomId × ρ) : TagDb :=
  db.updateMemory now update.1 (R.write update.2) (R.write_id update.2)

def stampAll (db : TagDb) (updates : List (AtomId × ρ)) : TagDb := updates.foldl (R.stamp now) db

/-- the rows as a worklist -/
def worklist (db : TagDb) : Worklist AtomId where
  selected a := (lookup (·.id) a db.memories).any R.selects
  due a := (lookup (·.id) a db.memories).any fun m => (R.fix db.sessions m).isSome

end Rules

/-- the runs do what the rules say -/
structure Follows (run : Bool → Option ℕ → TagDb → Run ρ) : Prop where
  updates : ∀ limit db, limit ≠ some 0 → (run false limit db).updates = R.proposals db limit
  memories : ∀ limit db, limit ≠ some 0 →
    (run false limit db).db.memories = (R.stampAll now db (R.proposals db limit)).memories
  sessions : ∀ limit db m, limit ≠ some 0 → R.fix (run false limit db).db.sessions m = R.fix db.sessions m
  dry : ∀ limit db, limit ≠ some 0 → (run true limit db).db = db ∧ (run true limit db).updates = [] ∧
    (run true limit db).reported = R.proposals db limit
  applied : ∀ dryRun limit db, limit ≠ some 0 → (run dryRun limit db).applied = (R.proposals db limit).length

/-! ## Writes -/

variable {R now} {db : TagDb} {updates : List (AtomId × ρ)} {a : AtomId}

/-- an update leaves the order of the scan alone -/
theorem keys_updateMemory {f : Memory → Memory} {hf : ∀ m, (f m).id = m.id} (hcreated : ∀ m, (f m).createdAt = m.createdAt) :
    (byCreation (db.updateMemory now a f hf).memories).map (·.id) = (byCreation db.memories).map (·.id) := by
  have hsame : ∀ m : Memory, (if m.id = a then { f m with updatedAt := now db.clock } else m).createdAt = m.createdAt := by
    intro m
    split
    · exact hcreated m
    · rfl
  have hsort : byCreation (db.updateMemory now a f hf).memories =
      (byCreation db.memories).map fun m => if m.id = a then { f m with updatedAt := now db.clock } else m := by
    refine (List.map_insertionSort _ _ _ db.memories ?_).symm
    intro m _ m' _
    rw [hsame, hsame]
  rw [hsort, List.map_map]
  refine List.map_congr_left fun m _ => ?_
  simp only [Function.comp_apply]
  split
  · exact hf m
  · rfl

theorem keys_stampAll (updates : List (AtomId × ρ)) (db : TagDb) :
    (byCreation (R.stampAll now db updates).memories).map (·.id) = (byCreation db.memories).map (·.id) := by
  induction updates generalizing db with
  | nil => rfl
  | cons u updates ih => exact (ih (R.stamp now db u)).trans (keys_updateMemory (R.write_createdAt u.2))

@[simp] theorem stampAll_sessions (updates : List (AtomId × ρ)) (db : TagDb) :
    (R.stampAll now db updates).sessions = db.sessions := by
  induction updates generalizing db with
  | nil => rfl
  | cons u updates ih => exact ih (R.stamp now db u)

theorem stampAll_concat (db : TagDb) (updates : List (AtomId × ρ)) (u : AtomId × ρ) :
    R.stampAll now db (updates ++ [u]) = R.stamp now (R.stampAll now db updates) u := List.foldl_concat _ _ _ _

theorem lookup_stamp (u : AtomId × ρ) : lookup (·.id) a (R.stamp now db u).memories =
    (lookup (·.id) a db.memories).map fun m =>
      if m.id = u.1 then { R.write u.2 m with updatedAt := now db.clock } else m :=
  lookup_updateWhere (R.write_id u.2)

/-- a row without an update is left alone -/
theorem lookup_stampAll_other (db : TagDb) (h : a ∉ updates.map Prod.fst) :
    lookup (·.id) a (R.stampAll now db updates).memories = lookup (·.id) a db.memories := by
  induction updates generalizing db with
  | nil => rfl
  | cons u updates ih =>
    rw [List.map_cons, List.mem_cons, not_or] at h
    refine (ih (R.stamp now db u) h.2).trans ?_
    rw [lookup_stamp]
    cases hfound : lookup (fun m : Memory => m.id) a db.memories with
    | none => rfl
    | some m =>
      have hid : m.id = a := (lookup_mem hfound).2
      rw [Option.map_some, if_neg (by rw [hid]; exact h.1)]

/-- a row with one update is written once -/
theorem lookup_stampAll {v : ρ} {m : Memory} (hnodup : (updates.map Prod.fst).Nodup) (hu : (a, v) ∈ updates)
    (hm : lookup (·.id) a db.memories = some m) :
    ∃ t, lookup (·.id) a (R.stampAll now db updates).memories = some { R.write v m with updatedAt := t } := by
  induction updates generalizing db with
  | nil => cases hu
  | cons u updates ih =>
    rw [List.map_cons, List.nodup_cons] at hnodup
    have hid : m.id = a := (lookup_mem hm).2
    rcases List.mem_cons.1 hu with rfl | hu
    · refine ⟨now db.clock, (lookup_stampAll_other (R.stamp now db (a, v)) hnodup.1).trans ?_⟩
      rw [lookup_stamp, hm, Option.map_some, if_pos hid]
    · have hother : a ≠ u.1 := fun heq => hnodup.1 (List.mem_map.2 ⟨(a, v), hu, heq⟩)
      apply ih hnodup.2 hu
      rw [lookup_stamp, hm, Option.map_some, if_neg (by rw [hid]; exact hother)]

/-! ## Loops -/

/-- what the loop of a backfill has done behind some rows: the tables, the UPDATEs, the rows reported and their number -/
structure Rules.Scans (R : Rules ρ) (now : ℕ → Time) (dryRun : Bool) (start : TagDb) (rows : List Memory) (db : TagDb)
    (updates reported : List (AtomId × ρ)) (applied : ℕ) : Prop where
  db : db = if dryRun then start else R.stampAll now start (rows.filterMap (R.proposal start.sessions))
  updates : updates = if dryRun then [] else rows.filterMap (R.proposal start.sessions)
  reported : reported = rows.filterMap (R.proposal start.sessions)
  applied : applied = (rows.filterMap (R.proposal start.sessions)).length

section
variable {dryRun : Bool} {start : TagDb} {rows : List Memory} {reported : List (AtomId × ρ)} {applied : ℕ}
  {row : Memory}

theorem Rules.Scans.nil : R.Scans now dryRun start [] start [] [] 0 :=
  ⟨by cases dryRun <;> rfl, by cases dryRun <;> rfl, rfl, rfl⟩

theorem Rules.Scans.sessions (h : R.Scans now dryRun start rows db updates reported applied) :
    db.sessions = start.sessions := by
  rw [h.db]
  split
  · rfl
  · exact stampAll_sessions _ start

/-- a row that cannot be fixed is passed over, -/
theorem Rules.Scans.skip (h : R.Scans now dryRun start rows db updates reported applied)
    (hfix : R.fix start.sessions row = none) : R.Scans now dryRun start (rows ++ [row]) db updates reported applied := by
  have hproposal : R.proposal start.sessions row = none := by rw [Rules.proposal, hfix, Option.map_none]
  have hrows : (rows ++ [row]).filterMap (R.proposal start.sessions) = rows.filterMap (R.proposal start.sessions) := by
    rw [List.filterMap_append, List.filterMap_cons_none hproposal, List.filterMap_nil, List.append_nil]
  refine ⟨?_, ?_, ?_, ?_⟩
  · rw [hrows]
    exact h.db
  · rw [hrows]
    exact h.updates
  · rw [hrows]
    exact h.reported
  · rw [hrows]
    exact h.applied

/-- and another is written, and reported -/
theorem Rules.Scans.write {v : ρ} (h : R.Scans now dryRun start rows db updates reported applied)
    (hfix : R.fix start.sessions row = some v) :
    R.Scans now dryRun start (rows ++ [row]) (if dryRun then db else R.stamp now db (row.id, v))
      (if dryRun then updates else updates ++ [(row.id, v)]) (reported ++ [(row.id, v)]) (applied + 1) := by
  have hproposal : R.proposal start.sessions row = some (row.id, v) := by rw [Rules.proposal, hfix, Option.map_some]
  have hrows : (rows ++ [row]).filterMap (R.proposal start.sessions) =
      rows.filterMap (R.proposal start.sessions) ++ [(row.id, v)] := by
    rw [List.filterMap_append, List.filterMap_cons_some hproposal, List.filterMap_nil]
  refine ⟨?_, ?_, ?_, ?_⟩
  · rw [hrows, stampAll_concat, h.db]
    cases dryRun <;> rfl
  · rw [hrows, h.updates]
    cases dryRun <;> rfl
  · rw [hrows, h.reported]
  · rw [hrows, h.applied, List.length_append]
    rfl

end

/-! ## The worklist -/

theorem byCreation_perm (memories : List Memory) : (byCreation memories).Perm memories := List.perm_insertionSort _ memories

theorem nodup_keys (db : TagDb) : ((byCreation db.memories).map (·.id)).Nodup :=
  ((byCreation_perm db.memories).map _).nodup_iff.2 db.keyed

theorem mem_byCreation {m : Memory} : m ∈ byCreation db.memories ↔ m ∈ db.memories := List.mem_insertionSort _

theorem worklist_selected (db : TagDb) (a : AtomId) :
    (R.worklist db).selected a = (lookup (·.id) a db.memories).any R.selects := rfl

theorem worklist_due (db : TagDb) (a : AtomId) :
    (R.worklist db).due a = (lookup (·.id) a db.memories).any fun m => (R.fix db.sessions m).isSome := rfl

theorem selected_eq {m : Memory} (hm : m ∈ db.memories) : (R.worklist db).selected m.id = R.selects m := by
  have hfound : lookup (·.id) m.id db.memories = some m := lookup_of_mem db.keyed hm
  rw [worklist_selected, hfound, Option.any_some]

theorem due_eq {m : Memory} (hm : m ∈ db.memories) : (R.worklist db).due m.id = (R.fix db.sessions m).isSome := by
  have hfound : lookup (·.id) m.id db.memories = some m := lookup_of_mem db.keyed hm
  rw [worklist_due, hfound, Option.any_some]

theorem map_takeLimit {α β : Type} (f : α → β) (limit : Option ℕ) (l : List α) :
    (takeLimit limit l).map f = takeLimit limit (l.map f) := by
  cases limit with
  | none => rfl
  | some n => exact List.map_take

theorem scannedRows_sublist (limit : Option ℕ) :
    (R.scannedRows db limit).Sublist ((byCreation db.memories).filter R.selects) := by
  unfold Rules.scannedRows
  cases limit with
  | none => exact List.Sublist.refl _
  | some n => exact List.take_sublist n _

theorem mem_scannedRows {limit : Option ℕ} {m : Memory} (h : m ∈ R.scannedRows db limit) :
    m ∈ db.memories ∧ R.selects m = true := by
  obtain ⟨hmem, hselects⟩ := List.mem_filter.1 ((scannedRows_sublist limit).subset h)
  exact ⟨mem_byCreation.1 hmem, hselects⟩

theorem scannedRows_ids (limit : Option ℕ) :
    (R.scannedRows db limit).map (·.id) = (R.worklist db).scanned limit ((byCreation db.memories).map (·.id)) := by
  unfold Rules.scannedRows Worklist.scanned
  rw [map_takeLimit, List.filter_map]
  congr 2
  refine List.filter_congr fun m hm => ?_
  exact (selected_eq (mem_byCreation.1 hm)).symm

theorem proposals_filter {rows : List Memory} (hrows : rows ⊆ db.memories) :
    (rows.filterMap (R.proposal db.sessions)).map Prod.fst = (rows.map (·.id)).filter (R.worklist db).due := by
  induction rows with
  | nil => rfl
  | cons m rows ih =>
    have ih' := ih fun r hr => hrows (List.mem_cons_of_mem m hr)
    have hdue : (R.worklist db).due m.id = (R.fix db.sessions m).isSome := due_eq (hrows List.mem_cons_self)
    cases hfix : R.fix db.sessions m with
    | none =>
      rw [hfix] at hdue
      have hnone : R.proposal db.sessions m = none := by rw [Rules.proposal, hfix, Option.map_none]
      rw [List.filterMap_cons_none hnone, List.map_cons, List.filter_cons_of_neg (by simp [hdue]), ih']
    | some v =>
      rw [hfix] at hdue
      have hsome : R.proposal db.sessions m = some (m.id, v) := by rw [Rules.proposal, hfix, Option.map_some]
      rw [List.filterMap_cons_some hsome, List.map_cons, List.map_cons, List.filter_cons_of_pos (by simp [hdue]), ih']

/-- the rows to write are those the worklist says -/
theorem proposals_ids (limit : Option ℕ) :
    (R.proposals db limit).map Prod.fst = (R.worklist db).written limit ((byCreation db.memories).map (·.id)) := by
  rw [Worklist.written, ← scannedRows_ids]
  exact proposals_filter fun m hm => (mem_scannedRows hm).1

theorem nodup_proposals (limit : Option ℕ) : ((R.proposals db limit).map Prod.fst).Nodup := by
  rw [proposals_ids, Worklist.written, ← scannedRows_ids]
  exact ((nodup_keys db).sublist (((scannedRows_sublist limit).trans List.filter_sublist).map _)).filter _

/-- what is proposed for a row is what the rules make of it -/
theorem mem_proposals {limit : Option ℕ} {v : ρ} (h : (a, v) ∈ R.proposals db limit) :
    ∃ m ∈ db.memories, m.id = a ∧ R.selects m = true ∧ R.fix db.sessions m = some v := by
  obtain ⟨m, hm, hproposal⟩ := List.mem_filterMap.1 h
  obtain ⟨w, hfix, heq⟩ := Option.map_eq_some_iff.1 hproposal
  obtain ⟨rfl, rfl⟩ := Prod.mk.inj heq
  obtain ⟨hmem, hselects⟩ := mem_scannedRows hm
  exact ⟨m, hmem, rfl, hselects, hfix⟩

/-! ## Runs that follow the rules -/

section
variable {run : Bool → Option ℕ → TagDb → Run ρ} {limit : ℕ}

/-- a run is a pass over the worklist -/
theorem Follows.pass (h : Follows R now run) {limit : Option ℕ} (hlimit : limit ≠ some 0) (db : TagDb) :
    Worklist.Pass ((byCreation db.memories).map (·.id)) limit (R.worklist db) (R.worklist (run false limit db).db) where
  others a ha := by
    rw [← proposals_ids] at ha
    have hsame : lookup (·.id) a (run false limit db).db.memories = lookup (·.id) a db.memories := by
      rw [h.memories limit db hlimit]
      exact lookup_stampAll_other db ha
    rw [worklist_selected, worklist_selected, worklist_due, worklist_due, hsame]
    simp only [h.sessions _ _ _ hlimit, and_self]
  done a ha := by
    rw [← proposals_ids] at ha
    obtain ⟨⟨a, v⟩, hu, rfl⟩ := List.mem_map.1 ha
    obtain ⟨m, hm, rfl, -, hfix⟩ := mem_proposals hu
    obtain ⟨t, hfound⟩ : ∃ t, lookup (·.id) m.id (R.stampAll now db (R.proposals db limit)).memories =
        some { R.write v m with updatedAt := t } :=
      lookup_stampAll (nodup_proposals limit) hu (lookup_of_mem db.keyed hm)
    rw [worklist_due, h.memories limit db hlimit, hfound, Option.any_some, h.sessions _ _ _ hlimit, R.fix_write _ m v hfix t]
    rfl

theorem after_succ (n : ℕ) : after run limit db (n + 1) = (run false (some limit) (after run limit db n)).db :=
  Function.iterate_succ_apply' _ n db

theorem some_ne_zero (hlimit : 1 ≤ limit) : some limit ≠ some 0 := by
  simpa using Nat.one_le_iff_ne_zero.1 hlimit

variable (hlimit : 1 ≤ limit)
include hlimit

theorem Follows.keys_after (h : Follows R now run) (n : ℕ) :
    (byCreation (after run limit db n).memories).map (·.id) = (byCreation db.memories).map (·.id) := by
  induction n with
  | zero => rfl
  | succ n ih =>
    rw [after_succ, byCreation, h.memories _ _ (some_ne_zero hlimit)]
    exact (keys_stampAll _ _).trans ih

theorem Follows.writes_eq (h : Follows R now run) (n : ℕ) : writes run limit db n =
    (R.worklist (after run limit db n)).written (some limit) ((byCreation db.memories).map (·.id)) := by
  rw [writes, h.updates _ _ (some_ne_zero hlimit), proposals_ids, h.keys_after hlimit]

theorem Follows.wouldWrite_eq (h : Follows R now run) (n : ℕ) : wouldWrite run limit db n =
    (R.worklist (after run limit db n)).left ((byCreation db.memories).map (·.id)) := by
  rw [wouldWrite, h.updates none _ (by simp), proposals_ids, h.keys_after hlimit]

theorem Follows.passes (h : Follows R now run) : Worklist.Passes ((byCreation db.memories).map (·.id)) (some limit)
    fun n => R.worklist (after run limit db n) := by
  intro n
  have hpass := h.pass (some_ne_zero hlimit) (after run limit db n)
  rw [h.keys_after hlimit, ← after_succ] at hpass
  exact hpass

theorem Follows.untouched (h : Follows R now run) (n : ℕ) {r : Memory} (hr : r ∈ db.memories)
    (hnever : ∀ m < n, r.id ∉ writes run limit db m) : r ∈ (after run limit db n).memories := by
  have hfound : lookup (·.id) r.id (after run limit db n).memories = some r := by
    induction n with
    | zero => exact lookup_of_mem db.keyed hr
    | succ n ih =>
      have hlast : r.id ∉ (R.proposals (after run limit db n) (some limit)).map Prod.fst := by
        rw [← h.updates _ _ (some_ne_zero hlimit)]
        exact hnever n (Nat.lt_succ_self n)
      rw [after_succ, h.memories _ _ (some_ne_zero hlimit), lookup_stampAll_other _ hlast]
      exact ih fun m hm => hnever m (Nat.lt_succ_of_lt hm)
  exact (lookup_mem hfound).1

theorem Follows.blocked (h : Follows R now run) {n : ℕ} (hdone : writes run limit db n = [])
    (ha : a ∈ wouldWrite run limit db n) : ∃ before m rest,
      byCreation (after run limit db n).memories = before ++ m :: rest ∧ m.id = a ∧
        limit ≤ before.countP fun r => R.selects r ∧ r.id ∉ wouldWrite run limit db n := by
  have hkeys : (byCreation (after run limit db n).memories).map (·.id) = (byCreation db.memories).map (·.id) :=
    h.keys_after hlimit n
  have hleft := ha
  rw [h.wouldWrite_eq hlimit, ← hkeys] at hleft
  obtain ⟨m, hm, rfl⟩ := List.mem_map.1 (Worklist.mem_left.1 hleft).1
  obtain ⟨before, rest, hsplit⟩ := List.append_of_mem hm
  refine ⟨before, m, rest, hsplit, rfl, ?_⟩
  rw [h.writes_eq hlimit, ← hkeys] at hdone
  have hkeysplit : (byCreation (after run limit db n).memories).map (·.id) =
      before.map (·.id) ++ m.id :: rest.map (·.id) := by
    rw [hsplit, List.map_append, List.map_cons]
  refine (Worklist.blocked hdone hkeysplit hleft).trans ?_
  rw [List.countP_map]
  apply List.countP_mono_left
  intro r hr hrstuck
  have hmem : r ∈ (after run limit db n).memories := mem_byCreation.1 (hsplit ▸ List.mem_append_left _ hr)
  simp only [Function.comp_apply, Worklist.stuck, Bool.and_eq_true, Bool.not_eq_true'] at hrstuck
  rw [decide_eq_true_eq]
  refine ⟨selected_eq hmem ▸ hrstuck.1, ?_⟩
  rw [h.wouldWrite_eq hlimit]
  intro hin
  rw [(Worklist.mem_left.1 hin).2.2] at hrstuck
  cases hrstuck.2

/-- **Repeated runs.** What runs with one limit come to, where they follow the rules -/
theorem Follows.settles (h : Follows R now run) : Settles run R.selects limit db where
  counted n dryRun := by
    rw [writes, h.updates _ _ (some_ne_zero hlimit), List.length_map]
    exact h.applied dryRun (some limit) _ (some_ne_zero hlimit)
  stops := by
    have hpasses : Worklist.Passes ((byCreation db.memories).map (·.id)) (some limit)
        fun n => R.worklist (after run limit db n) := h.passes hlimit
    obtain ⟨n, -, hdone⟩ := hpasses.stops
    exact ⟨n, (h.writes_eq hlimit n).trans hdone⟩
  blocked n hdone a ha := h.blocked hlimit hdone ha
  few n hdone hfew := by
    rw [List.eq_nil_iff_forall_not_mem]
    intro a ha
    obtain ⟨before, m, rest, hsplit, -, hmany⟩ := h.blocked hlimit hdone ha
    have hle : before.countP (fun r => R.selects r ∧ r.id ∉ wouldWrite run limit db n) ≤
        (after run limit db n).memories.countP fun r => R.selects r ∧ r.id ∉ wouldWrite run limit db n := by
      rw [← (byCreation_perm (after run limit db n).memories).countP_eq, hsplit]
      exact (List.sublist_append_left before _).countP_le
    exact absurd hmany (by omega)
  left n a := by
    simp only [h.wouldWrite_eq hlimit, h.writes_eq hlimit]
    exact (h.passes hlimit).left_iff n
  once := by
    constructor
    · intro n
      rw [writes, h.updates _ _ (some_ne_zero hlimit)]
      exact nodup_proposals _
    · intro m n hmn a ha
      rw [h.writes_eq hlimit] at ha ⊢
      exact (h.passes hlimit).once hmn ha
  selected n a ha := by
    rw [h.writes_eq hlimit] at ha
    have hselected := (h.passes hlimit).selected ha
    obtain ⟨r, hr, rfl⟩ := List.mem_map.1 (Worklist.mem_written ha).1
    exact ⟨r, mem_byCreation.1 hr, rfl, (selected_eq (mem_byCreation.1 hr)).symm.trans hselected⟩
  untouched n r hr hnever := h.untouched hlimit n hr hnever
  dry n := by
    obtain ⟨hdb, hupdates, hreported⟩ := h.dry (some limit) (after run limit db n) (some_ne_zero hlimit)
    exact ⟨hdb, hupdates, hreported.trans (h.updates _ _ (some_ne_zero hlimit)).symm⟩

end

end AstramemLocal.TagHygiene
