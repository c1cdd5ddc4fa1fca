/-
The worker (`src/pipeline/worker.ts`), boot recovery (`src/cli/serve.ts`) and the operator's queue commands
(`queue requeue`, `queue purge`, `budget --reset`) on one jobs table.

A tick is synchronous except where it awaits its handler. From a claim to that point, and again once the handler has
settled, it has the thread of its process: no other lane, timer or request runs. `Pc` is the database call it makes
next. The process can die before each call, and the operator's commands, which are other processes, write between any
two of them. Delays are not modelled: an armed timer can fire at any later time.
-/
import AstramemLocal.Pipeline.JobRepo

namespace AstramemLocal.Pipeline

open AstramemLocal.Core AstramemLocal.Store

/-! ## Ticks -/

structure Env where
  /-- the kinds of the `HandlerRegistry` -/
  registered : List JobKind
  /-- the error `JSON.parse` throws on a payload, as text -/
  parseError : String → Option String

/-- what `DistillBudgetPausedError.is`, `ProviderQuotaBreakerOpenError.is` and `classifyError` say of a thrown error -/
inductive ErrorClass where
  | budgetPaused | quotaBreakerOpen | deterministic | transient
deriving DecidableEq, Repr

structure Thrown where
  cls : ErrorClass
  message : String
deriving DecidableEq, Repr

/-- the database call a tick makes next -/
inductive Pc where
  /-- no handler, or a bad payload: `fail` -/
  | refused (errMsg : String)
  /-- then `get`, and `markPoison` or `requeueForRetry` -/
  | refusedFailed
  /-- none: `handler.handle` is awaited -/
  | handling
  | complete
  /-- `recordHandlerRun`, still in the `try` block -/
  | recordSuccess
  /-- the `catch` block: `setLastError` or `fail` -/
  | caught (err : Thrown)
  | pause
  | recordPaused
  | markPoison
  | recordPoisoned
  | recordTransient
  /-- `get`, and `markPoison` or `setTimeout` -/
  | settleTransient
deriving DecidableEq, Repr

structure LaneId where
  worker : ℕ
  lane : ℕ
deriving DecidableEq, Repr

structure Tick where
  lane : LaneId
  /-- the row as `claimPending` returned it -/
  job : Job
  pc : Pc
deriving DecidableEq, Repr

def noHandlerMessage (kind : JobKind) : String := "No handler registered for job kind '" ++ kind.name ++ "'"

def badPayloadMessage (e : String) : String := "Failed to parse payload_json: " ++ e

/-- a tick after its claim -/
def dispatch (E : Env) (job : Job) : Pc :=
  if job.kind ∉ E.registered then .refused (noHandlerMessage job.kind)
  else
    match E.parseError job.payloadJson with
    | some e => .refused (badPayloadMessage e)
    | none => .handling

def exhausted (id : JobId) (jobs : List Job) : Bool := (get id jobs).any fun updated => maxAttempts ≤ updated.attempts

/-- the table after the call -/
def Tick.write (t : Tick) (now : Time) (jobs : List Job) : List Job :=
  match t.pc with
  | .refused errMsg => fail t.job.id errMsg now jobs
  | .refusedFailed =>
    if exhausted t.job.id jobs then Pipeline.markPoison t.job.id now jobs else requeueForRetry t.job.id now jobs
  | .handling => jobs
  | .complete => Pipeline.complete t.job.id now jobs
  | .caught err =>
    match err.cls with
    | .budgetPaused | .quotaBreakerOpen => setLastError t.job.id err.message now jobs
    | .deterministic | .transient => fail t.job.id err.message now jobs
  | .pause => Pipeline.pause t.job.id now jobs
  | .markPoison => Pipeline.markPoison t.job.id now jobs
  | .settleTransient => if exhausted t.job.id jobs then Pipeline.markPoison t.job.id now jobs else jobs
  | .recordSuccess | .recordPaused | .recordPoisoned | .recordTransient => jobs

/-- where the tick goes on after the call; `none` ends it -/
def Tick.next (t : Tick) : Option Pc :=
  match t.pc with
  | .refused _ => some .refusedFailed
  | .handling => some .handling
  | .complete => some .recordSuccess
  | .caught err =>
    match err.cls with
    | .budgetPaused | .quotaBreakerOpen => some .pause
    | .deterministic => some .markPoison
    | .transient => some .recordTransient
  | .pause => some .recordPaused
  | .markPoison => some .recordPoisoned
  | .recordTransient => some .settleTransient
  | .refusedFailed | .recordSuccess | .recordPaused | .recordPoisoned | .settleTransient => none

/-- where it goes on when the call throws: to the `catch` block from the `try` block, to `onUncaught` from elsewhere -/
def Tick.throws (t : Tick) (err : Thrown) : Option Pc :=
  match t.pc with
  | .complete | .recordSuccess => some (.caught err)
  | _ => none

/-- whether the call is followed by `setTimeout(() => requeueForRetry(job.id))` -/
def Tick.arms (t : Tick) (jobs : List Job) : Bool := t.pc = .settleTransient ∧ exhausted t.job.id jobs = false

/-! ## Processes -/

structure WorkerHandle where
  concurrency : ℕ
  stopped : Bool := false
deriving DecidableEq, Repr

/-- `raw` is `config.pipeline.concurrency` after `Math.trunc`, `none` where that is no finite number -/
def resolveWorkerConcurrency (raw : Option ℤ) : ℕ :=
  match raw with
  | none => 1
  | some n => (min 8 (max 1 (if n = 0 then 1 else n))).toNat

inductive Phase where
  /-- before the boot's queue write of that number -/
  | booting (written : ℕ)
  | up
deriving DecidableEq, Repr

structure Queue where
  jobs : List Job := []
  phase : Phase := .booting 0
  workers : List WorkerHandle := []
  ticks : List Tick := []
  /-- the armed retry timers -/
  timers : List JobId := []
  /-- what `queue requeue` commands have listed and not yet written -/
  listed : List JobId := []
deriving DecidableEq, Repr

/-- the tick that has the thread -/
def thread (q : Queue) : Option Tick := q.ticks.find? fun t => t.pc ≠ .handling

def goto (q : Queue) (t : Tick) : Option Pc → Queue
  | some pc => { q with ticks := updateWhere (·.lane = t.lane) (fun u => { u with pc }) q.ticks }
  | none => { q with ticks := deleteWhere (·.lane = t.lane) q.ticks }

/-- `recoverOrphans` and `purgeOld` at boot -/
def bootWrites : List (Time → List Job → List Job) :=
  [poisonConsolidate, requeueRunning, requeueFailed maxAttempts, purgeState .completed 7,
    purgeState .poison poisonJobRetentionDays]

/-- the lane belongs to a worker that runs, and is between two ticks -/
def Idle (q : Queue) (lane : LaneId) : Prop :=
  (q.workers[lane.worker]?).any (fun w => ¬ w.stopped ∧ lane.lane < w.concurrency) ∧ lane ∉ q.ticks.map (·.lane)

instance (q : Queue) (lane : LaneId) : Decidable (Idle q lane) := by unfold Idle; infer_instance

/-- `RESERVED_LOCAL_LANE_ID` is 0 -/
def preferKinds (lane : LaneId) : List JobKind := if lane.lane = 0 then localSqliteKinds else []

inductive Op where
  /-- `priority` is the kind's tier from `enqueue`, and the column's default from an INSERT without one -/
  | enqueue (id : JobId) (kind : JobKind) (payloadJson : String) (priority : ℕ) (now : Time)
  | start (concurrency : Option ℤ)
  /-- `stop()`: the ticks in flight go on, and so do the timers -/
  | stop (worker : ℕ)
  | claim (lane : LaneId) (now : Time)
  /-- the handler returns, or throws -/
  | settle (lane : LaneId) (outcome : Option Thrown)
  /-- the next database call of the tick that has the thread; it can throw -/
  | call (now : Time) (failure : Option Thrown)
  /-- a retry timer fires -/
  | retry (id : JobId) (now : Time)
  /-- the process dies -/
  | crash
  /-- the process boots again without dying, once its workers have stopped -/
  | reboot
  /-- the next queue write of the boot -/
  | boot (now : Time)
  /-- the cleanup handler's `purgeOld` -/
  | cleanup (olderThanDays : ℤ) (now : Time)
  /-- `queue requeue` reads its batch -/
  | list (kind : Option JobKind) (limit : Option ℕ)
  /-- `queue requeue` writes one row of its batch -/
  | requeue (id : JobId) (now : Time)
  /-- `budget --reset` -/
  | requeuePaused (now : Time)
  | purgePoison (ids : List JobId)
deriving DecidableEq, Repr

def batchOf (kind : Option JobKind) (limit : Option ℕ) (jobs : List Job) : List JobId :=
  let poison : List Job := (listPoison jobs).filter fun j => kind.all (j.kind = ·)
  match limit with
  | some n => (poison.take (max 1 n)).map (·.id)
  | none => poison.map (·.id)

def step (E : Env) (q : Queue) : Op → Queue
  | .enqueue id kind payloadJson priority now =>
    { q with jobs := insertJob (freshJob id kind payloadJson priority now) q.jobs }
  | .start concurrency =>
    if q.phase = .up then { q with workers := q.workers ++ [⟨resolveWorkerConcurrency concurrency, false⟩] } else q
  | .stop worker => { q with workers := q.workers.modify worker fun w => { w with stopped := true } }
  | .claim lane now =>
    if q.phase = .up ∧ thread q = none ∧ Idle q lane then
      match claimPending (preferKinds lane) now q.jobs with
      | (some job, jobs) => { q with jobs, ticks := q.ticks ++ [⟨lane, job, dispatch E job⟩] }
      | (none, _) => q
    else q
  | .settle lane outcome =>
    match thread q, lookup (·.lane) lane q.ticks with
    | none, some t => goto q t (some (outcome.elim .complete .caught))
    | _, _ => q
  | .call now failure =>
    match thread q, failure with
    | some t, some err => goto q t (t.throws err)
    | some t, none =>
      goto { q with jobs := t.write now q.jobs, timers := if t.arms q.jobs then q.timers ++ [t.job.id] else q.timers }
        t t.next
    | none, _ => q
  | .retry id now =>
    if id ∈ q.timers ∧ thread q = none then
      { q with timers := q.timers.erase id, jobs := requeueForRetry id now q.jobs }
    else q
  | .crash => { q with phase := .booting 0, workers := [], ticks := [], timers := [] }
  | .reboot =>
    if q.phase = .up ∧ q.ticks = [] ∧ ∀ w ∈ q.workers, w.stopped = true then { q with phase := .booting 0 } else q
  | .boot now =>
    match q.phase with
    | .up => q
    | .booting n =>
      match bootWrites[n]? with
      | some write => { q with jobs := write now q.jobs, phase := .booting (n + 1) }
      | none => { q with phase := .up }
  | .cleanup olderThanDays now => { q with jobs := purgeOld olderThanDays poisonJobRetentionDays now q.jobs }
  | .list kind limit => { q with listed := q.listed ++ batchOf kind limit q.jobs }
  | .requeue id now =>
    if id ∈ q.listed then { q with listed := q.listed.erase id, jobs := requeueForRetry id now q.jobs } else q
  | .requeuePaused now => { q with jobs := Pipeline.requeuePaused now q.jobs }
  | .purgePoison ids => { q with jobs := purgePoisonByIds ids q.jobs }

def run (E : Env) (q : Queue) (ops : List Op) : Queue := ops.foldl (step E) q

theorem run_append (E : Env) (q : Queue) (ops ops' : List Op) : run E q (ops ++ ops') = run E (run E q ops) ops' :=
  List.foldl_append

theorem run_snoc (E : Env) (q : Queue) (ops : List Op) (op : Op) :
    run E q (ops ++ [op]) = step E (run E q ops) op := by
  rw [run_append]
  rfl

end AstramemLocal.Pipeline
