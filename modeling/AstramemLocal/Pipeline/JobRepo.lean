/-
The jobs table and `JobRepo` (`src/pipeline/job-repo.ts`). Each function is one statement, or one transaction, on the
table; `Date.now()` is an argument. The `.changes` counts that only reach a log line are left out.
-/
import AstramemLocal.Core.Runs
import AstramemLocal.Core.Table
import AstramemLocal.Store.Schema
import Mathlib.Data.List.Sort

namespace AstramemLocal.Pipeline

open AstramemLocal.Core AstramemLocal.Store

/-! ## Rows -/

abbrev JobId := ℕ

inductive JobState where
  | pending | running | completed | failed | poison | paused
deriving DecidableEq, Repr

inductive JobKind where
  | distill | reembed | cleanup | distillEvents | consolidate | transcribe
deriving DecidableEq, Repr

def JobKind.name : JobKind → String
  | .distill => "distill"
  | .reembed => "reembed"
  | .cleanup => "cleanup"
  | .distillEvents => "distill-events"
  | .consolidate => "consolidate"
  | .transcribe => "transcribe"

structure Job where
  id : JobId
  kind : JobKind
  payloadJson : String := ""
  state : JobState := .pending
  attempts : ℕ := 0
  lastError : Option String := none
  priority : ℕ := 3
  createdAt : Time
  updatedAt : Time
deriving DecidableEq, Repr

/-- `JOB_PRIORITY` -/
def jobPriority : JobKind → ℕ
  | .distill => 1
  | .distillEvents => 1
  | .reembed => 2
  | .transcribe => 2
  | .consolidate => 3
  | .cleanup => 5

/-- `DEFAULT_JOB_PRIORITY`, also the default of the column -/
def defaultJobPriority : ℕ := 3

/-- `LOCAL_SQLITE_KINDS` -/
def localSqliteKinds : List JobKind := [.cleanup]

/-- `AGING_STEP_MS` -/
def agingStepMs : ℤ := 120000

/-- `POISON_JOB_RETENTION_DAYS` -/
def poisonJobRetentionDays : ℤ := 90

/-- `MAX_ATTEMPTS` of `worker.ts`, and the default of `recoverOrphans` -/
def maxAttempts : ℕ := 3

def dayMs : ℤ := 24 * 60 * 60 * 1000

/-! ## Statements -/

/-- the row an INSERT that names no other column leaves -/
def freshJob (id : JobId) (kind : JobKind) (payloadJson : String) (priority : ℕ) (now : Time) : Job :=
  { id, kind, payloadJson, priority, createdAt := now, updatedAt := now }

/-- a second row under one `id` throws -/
def insertJob (job : Job) (jobs : List Job) : List Job :=
  if job.id ∈ jobs.map (·.id) then jobs else jobs ++ [job]

def enqueue (id : JobId) (kind : JobKind) (payloadJson : String) (now : Time) (jobs : List Job) : List Job :=
  insertJob (freshJob id kind payloadJson (jobPriority kind) now) jobs

def get (id : JobId) (jobs : List Job) : Option Job := lookup (·.id) id jobs

/-- `_transition` -/
def transition (id : JobId) (state : JobState) (now : Time) (jobs : List Job) : List Job :=
  updateWhere (·.id = id) (fun j => { j with state, updatedAt := now }) jobs

def complete (id : JobId) := transition id .completed
def requeueForRetry (id : JobId) := transition id .pending
def markPoison (id : JobId) := transition id .poison
def pause (id : JobId) := transition id .paused

def fail (id : JobId) (error : String) (now : Time) (jobs : List Job) : List Job :=
  updateWhere (·.id = id)
    (fun j => { j with state := .failed, lastError := some error, attempts := j.attempts + 1, updatedAt := now }) jobs

def setLastError (id : JobId) (note : String) (now : Time) (jobs : List Job) : List Job :=
  updateWhere (·.id = id) (fun j => { j with lastError := some note, updatedAt := now }) jobs

/-- `EFFECTIVE_PRIORITY_SQL` -/
def effectivePriority (now : Time) (j : Job) : ℤ := j.priority - (now - j.createdAt).tdiv agingStepMs

/-- `ORDER BY` effective priority, `created_at`, `LIMIT 1` -/
def firstOf (now : Time) (jobs : List Job) : Option Job :=
  jobs.foldl
    (fun best j =>
      match best with
      | none => some j
      | some b =>
        if effectivePriority now j < effectivePriority now b ∨
            (effectivePriority now j = effectivePriority now b ∧ j.createdAt < b.createdAt) then some j else some b)
    none

def candidate (preferKinds : List JobKind) (now : Time) (jobs : List Job) : Option Job :=
  let pending := jobs.filter (·.state = .pending)
  (firstOf now (pending.filter (·.kind ∈ preferKinds))).or (firstOf now pending)

/-- the claimed row, if any, and the table after the transaction -/
def claimPending (preferKinds : List JobKind) (now : Time) (jobs : List Job) : Option Job × List Job :=
  match candidate preferKinds now jobs with
  | none => (none, jobs)
  | some job =>
    if jobs.any fun j => j.id = job.id ∧ j.state = .pending then
      (some { job with state := .running, updatedAt := now },
        updateWhere (fun j => j.id = job.id ∧ j.state = .pending)
          (fun j => { j with state := .running, updatedAt := now }) jobs)
    else (none, jobs)

/-! ### The statements of `recoverOrphans` -/

def poisonedConsolidateNote : String :=
  "boot recovery: running consolidate job poisoned, not requeued " ++
    "(issue #387 — the unbounded pairwise-scan setup can freeze the event loop on " ++
    "every restart if simply requeued); re-enqueue manually once safe"

def poisonConsolidate (now : Time) (jobs : List Job) : List Job :=
  updateWhere (fun j => j.state = .running ∧ j.kind = .consolidate)
    (fun j => { j with state := .poison, updatedAt := now, lastError := some poisonedConsolidateNote }) jobs

def requeueRunning (now : Time) (jobs : List Job) : List Job :=
  updateWhere (fun j => j.state = .running ∧ j.kind ≠ .consolidate)
    (fun j => { j with state := .pending, updatedAt := now }) jobs

def requeueFailed (maxAttempts : ℕ) (now : Time) (jobs : List Job) : List Job :=
  updateWhere (fun j => j.state = .failed ∧ j.attempts < maxAttempts)
    (fun j => { j with state := .pending, updatedAt := now }) jobs

def recoverOrphans (maxAttempts : ℕ) (now : Time) (jobs : List Job) : List Job :=
  requeueFailed maxAttempts now (requeueRunning now (poisonConsolidate now jobs))

/-! ### Operator and retention -/

def requeuePaused (now : Time) (jobs : List Job) : List Job :=
  updateWhere (·.state = .paused) (fun j => { j with state := .pending, updatedAt := now }) jobs

/-- one of the two DELETEs of `purgeOld`: rows in `state` last written more than `days` ago -/
def purgeState (state : JobState) (days : ℤ) (now : Time) (jobs : List Job) : List Job :=
  deleteWhere (fun j => j.state = state ∧ j.updatedAt < now - days * dayMs) jobs

def purgeOld (completedDays poisonDays : ℤ) (now : Time) (jobs : List Job) : List Job :=
  purgeState .poison poisonDays now (purgeState .completed completedDays now jobs)

def listPoison (jobs : List Job) : List Job :=
  (jobs.filter (·.state = .poison)).insertionSort fun a b => a.updatedAt ≤ b.updatedAt

def purgePoisonByIds (ids : List JobId) (jobs : List Job) : List Job :=
  deleteWhere (fun j => j.state = .poison ∧ j.id ∈ ids) jobs

/-! ## What the statements do to a row -/

variable {jobs : List Job} {a b : JobId} {now : Time} {j job : Job}

theorem get_mem (h : get a jobs = some j) : j ∈ jobs ∧ j.id = a := lookup_mem h

theorem get_of_mem (h : Keyed (·.id) jobs) (hj : j ∈ jobs) : get j.id jobs = some j := lookup_of_mem h hj

theorem get_updateWhere {p : Job → Prop} [DecidablePred p] {f : Job → Job} (hf : ∀ j, (f j).id = j.id) :
    get b (updateWhere p f jobs) = (get b jobs).map fun j => if p j then f j else j :=
  lookup_updateWhere hf

theorem get_updateWhere_id {f : Job → Job} (hf : ∀ j, (f j).id = j.id) :
    get b (updateWhere (·.id = a) f jobs) = if b = a then (get b jobs).map f else get b jobs := by
  rw [get_updateWhere hf]
  cases hg : get b jobs with
  | none => simp
  | some j =>
    obtain ⟨-, rfl⟩ := get_mem hg
    by_cases hab : j.id = a
    · simp [hab]
    · simp [hab]

theorem get_transition {state : JobState} : get b (transition a state now jobs) =
    if b = a then (get b jobs).map fun j => { j with state, updatedAt := now } else get b jobs :=
  get_updateWhere_id fun _ => rfl

theorem get_fail {error : String} : get b (fail a error now jobs) =
    if b = a then (get b jobs).map fun j =>
      { j with state := .failed, lastError := some error, attempts := j.attempts + 1, updatedAt := now }
    else get b jobs :=
  get_updateWhere_id fun _ => rfl

theorem get_setLastError {note : String} : get b (setLastError a note now jobs) =
    if b = a then (get b jobs).map fun j => { j with lastError := some note, updatedAt := now } else get b jobs :=
  get_updateWhere_id fun _ => rfl

theorem get_insertJob : get b (insertJob job jobs) = (get b jobs).or (if job.id = b then some job else none) := by
  unfold insertJob
  split
  · rename_i hmem
    cases hg : get b jobs with
    | some j => rfl
    | none =>
      have hne : job.id ≠ b := by
        rintro rfl
        obtain ⟨j, hj, hid⟩ := List.mem_map.1 hmem
        exact lookup_eq_none.1 hg j hj hid
      simp [hne]
  · exact lookup_insert

theorem keyed_insertJob (h : Keyed (·.id) jobs) : Keyed (·.id) (insertJob job jobs) := by
  unfold insertJob
  split
  · exact h
  · rename_i hmem
    refine h.insert fun q hq hid => hmem ?_
    exact List.mem_map.2 ⟨q, hq, hid⟩

theorem firstOf_mem (h : firstOf now jobs = some j) : j ∈ jobs := by
  have hend : (∀ r ∈ ([] : List Job), r ∈ jobs) ∧ ∀ b ∈ firstOf now jobs, b ∈ jobs := by
    refine foldl_rest (fun rest best => (∀ r ∈ rest, r ∈ jobs) ∧ ∀ b ∈ best, b ∈ jobs) ?_ ⟨fun r hr => hr, by simp⟩
    intro a l best hI
    refine ⟨fun r hr => hI.1 r (List.mem_cons_of_mem _ hr), ?_⟩
    have ha : a ∈ jobs := hI.1 a List.mem_cons_self
    cases best with
    | none => simpa using ha
    | some b =>
      have hb : b ∈ jobs := hI.2 b rfl
      dsimp only
      split_ifs
      · simpa using ha
      · simpa using hb
  exact hend.2 j h

theorem candidate_spec {kinds : List JobKind} (h : candidate kinds now jobs = some j) :
    j ∈ jobs ∧ j.state = .pending := by
  have hj : j ∈ jobs.filter (·.state = .pending) := by
    unfold candidate at h
    rcases Option.or_eq_some_iff.1 h with h | ⟨-, h⟩
    · exact List.mem_of_mem_filter (firstOf_mem h)
    · exact firstOf_mem h
  simpa using hj

/-- a claim takes a pending row and leaves every other row alone -/
theorem claimPending_some {kinds : List JobKind} {after : List Job} (hkeyed : Keyed (·.id) jobs)
    (h : claimPending kinds now jobs = (some job, after)) :
    ∃ j, get job.id jobs = some j ∧ j.state = .pending ∧ job = { j with state := .running, updatedAt := now } ∧
      Keyed (·.id) after ∧ ∀ b, get b after = if b = job.id then some job else get b jobs := by
  unfold claimPending at h
  split at h
  · cases h
  · rename_i j hj
    obtain ⟨hmem, hpending⟩ := candidate_spec hj
    rw [if_pos (List.any_eq_true.2 ⟨j, hmem, by simp [hpending]⟩)] at h
    simp only [Prod.mk.injEq, Option.some.injEq] at h
    obtain ⟨rfl, rfl⟩ := h
    have hget : get j.id jobs = some j := get_of_mem hkeyed hmem
    refine ⟨j, hget, hpending, rfl, hkeyed.updateWhere fun _ => rfl, ?_⟩
    intro b
    rw [get_updateWhere (by intro _; rfl)]
    by_cases hb : b = j.id
    · subst hb
      simp [hget, hpending]
    · have hother : ∀ r, get b jobs = some r → ¬ (r.id = j.id ∧ r.state = .pending) := by
        intro r hr hrj
        exact hb ((get_mem hr).2 ▸ hrj.1)
      cases hg : get b jobs with
      | none => simp [hb]
      | some r => simp [hb, hother r hg]

end AstramemLocal.Pipeline
