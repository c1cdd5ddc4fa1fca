/-
`QuotaBreakerLLMProvider` (`src/providers/llm/quota-breaker.ts`) in the daemon, with the worker that pauses a job on its
error (`src/pipeline/worker.ts`), and `astramem-local budget --reset` (`src/cli/budget.ts`), which is another process. The
breakers of a process are in one table, by provider name, and live as long as the process.

- `breaker_recovers`: in a run in which every budget reset finds the daemon's breakers closed and their counters at zero, a
  breaker opens exactly when the quota failures since the last success or reset reach the threshold, an open breaker calls
  nobody and pauses its job without consuming an attempt, other failures do not count, and after a reset every breaker is
  closed.
- `reset_leaves_daemon_open`: a reset with an open breaker leaves it open, and the job it requeued is paused again.
-/
import AstramemLocal.Core.Text
import AstramemLocal.Pipeline.Exclusive
import Mathlib.Data.Rat.Defs
import Mathlib.Order.Basic

namespace AstramemLocal.Providers

open AstramemLocal.Core AstramemLocal.Store

/-! ## Failures -/

inductive ProviderFailureKind where
  | auth
  | quota
  | serverError
deriving DecidableEq, Repr

/-- `\bHTTP\s+ddd\b` with these digits -/
def httpStatus (d1 d2 d3 : Char → Bool) (before : Option Char) (text : List Char) : Bool :=
  wordBoundary before (some 'H') && "HTTP".toList.isPrefixOf text && (text.drop 4).head?.any isSpace &&
    match (text.drop 4).dropWhile isSpace with
    | a :: b :: c :: rest => d1 a && d2 b && d3 c && wordBoundary (some c) rest.head?
    | _ => false

/-- `/rate-limited\s*\(429\)/i` -/
def rateLimited429 (_ : Option Char) (text : List Char) : Bool :=
  literal "rate-limited".toList text && "(429)".toList.isPrefixOf ((text.drop 12).dropWhile isSpace)

/-- `/rate.?limit/i` -/
def rateLimit (_ : Option Char) (text : List Char) : Bool :=
  literal "rate".toList text &&
    (literal "limit".toList (text.drop 4) ||
      (text.drop 4).head?.any isDot && literal "limit".toList (text.drop 5))

/-- `/\bquota\b/i` -/
def quotaWord (before : Option Char) (text : List Char) : Bool :=
  wordBoundary before (some 'q') && literal "quota".toList text && wordBoundary (some 'a') (text.drop 5).head?

def classifyProviderFailure (message : String) : Option ProviderFailureKind :=
  let test (p : Option Char → List Char → Bool) : Bool := occurs p none message.toList
  if test (httpStatus (· = '4') (· = '0') (fun c => c = '1' || c = '3')) ||
      test (fun _ => literal "unauthoriz".toList) || test (fun _ => literal "re-login required".toList) then
    some .auth
  else if test (httpStatus (· = '4') (· = '2') (· = '9')) || test rateLimited429 || test rateLimit || test quotaWord then
    some .quota
  else if test (httpStatus (· = '5') Char.isDigit Char.isDigit) then some .serverError
  else none

/-! ## Model -/

inductive BreakerMode where
  | off
  | enabled
deriving DecidableEq, Repr

/-- `consecutiveFailureThreshold` is `some none` where it is no finite number -/
structure QuotaBreakerConfig where
  mode : Option BreakerMode
  consecutiveFailureThreshold : Option (Option ℚ)
deriving DecidableEq, Repr

def DEFAULT_QUOTA_BREAKER_THRESHOLD : ℚ := 3

/-- the threshold of the breaker, `none` where the provider gets no breaker -/
def wrapWithQuotaBreaker (cfg : Option QuotaBreakerConfig) : Option ℚ :=
  if cfg.bind (·.mode) = some .off then none
  else ((cfg.bind (·.consecutiveFailureThreshold)).getD (some DEFAULT_QUOTA_BREAKER_THRESHOLD)).filter (0 < ·)

structure BreakerState where
  consecutiveQuotaFailures : ℕ := 0
  tripped : Bool := false
deriving DecidableEq, Repr

/-- the breakers of one process; a name without an entry has a fresh one -/
abbrev Registry := String → BreakerState

def emptyRegistry : Registry := fun _ => {}

def resetAllProviderQuotaBreakers (_ : Registry) : Registry := emptyRegistry

/-- a `chat()` that has called its inner provider. `lane` is the worker's lane whose job's handler made it and lets its
errors through, `none` for a call whose error does not reach the worker. -/
structure Call where
  id : ℕ
  lane : Option Pipeline.LaneId
  name : String
deriving DecidableEq, Repr

/-- The daemon and its database. `streak` counts the quota failures since the last success or reset, and `called` lists the
calls of inner providers; the code has neither. -/
structure System where
  registry : Registry
  inflight : List Call
  queue : Pipeline.Queue
  streak : String → ℕ
  called : List ℕ

inductive Op where
  | chat (id : ℕ) (lane : Option Pipeline.LaneId) (name : String)
  /-- the inner provider answers a call, or throws -/
  | answer (id : ℕ) (outcome : Option Pipeline.Thrown)
  /-- `budget --reset` -/
  | budgetReset (now : Time)
  /-- the daemon's process dies; the next one starts with no breakers -/
  | crash
  /-- anything else the worker and the queue commands do -/
  | queue (op : Pipeline.Op)

def breakerOpenMessage (name : String) (failures : ℕ) : String :=
  name ++ ": quota circuit breaker OPEN after " ++ toString failures ++ " consecutive quota/429 " ++
    "failures — pausing rather than retrying toward poison. Run `astramem-local budget --reset` once " ++
    "the underlying quota/plan issue is resolved (also requeues any job this paused)."

def ProviderQuotaBreakerOpenError (name : String) (failures : ℕ) : Pipeline.Thrown :=
  ⟨.quotaBreakerOpen, breakerOpenMessage name failures⟩

def update {α : Type} (f : String → α) (name : String) (v : α) : String → α := fun n => if n = name then v else f n

section
variable (E : Pipeline.Env) (cfg : Option QuotaBreakerConfig)

/-- the job's handler in the lane throws; what else it called no longer reaches the worker -/
def throwTo (s : System) (lane : Option Pipeline.LaneId) (err : Pipeline.Thrown) : System :=
  match lane with
  | none => s
  | some lane =>
    { s with
      queue := Pipeline.step E s.queue (.settle lane (some err))
      inflight := s.inflight.map fun c => if c.lane = some lane then { c with lane := none } else c }

/-- `budgetCommand` with `--reset`: the breakers of its process and the jobs of the database -/
def budgetReset (registry : Registry) (now : Time) (queue : Pipeline.Queue) : Registry × Pipeline.Queue :=
  (resetAllProviderQuotaBreakers registry, Pipeline.step E queue (.requeuePaused now))

/-- the failure of a call, as the decorator rethrows it, and the breaker after it -/
def failed (b : BreakerState) (name : String) (err : Pipeline.Thrown) : Pipeline.Thrown × BreakerState :=
  match wrapWithQuotaBreaker cfg with
  | none => (err, b)
  | some threshold =>
    if classifyProviderFailure err.message ≠ some .quota then (err, b)
    else
      let failures := b.consecutiveQuotaFailures + 1
      if threshold ≤ failures then (ProviderQuotaBreakerOpenError name failures, ⟨failures, true⟩)
      else (err, { b with consecutiveQuotaFailures := failures })

def succeeded (b : BreakerState) : BreakerState :=
  if (wrapWithQuotaBreaker cfg).isSome then { b with consecutiveQuotaFailures := 0 } else b

/-- the breaker stands in the way of a call -/
def blocks (b : BreakerState) : Bool := (wrapWithQuotaBreaker cfg).isSome && b.tripped

def findCall (s : System) (id : ℕ) : Option Call := s.inflight.find? fun c => c.id = id

/-- a lane calls while its handler runs -/
def canCall (s : System) (lane : Option Pipeline.LaneId) : Bool :=
  lane.all fun l => (lookup (·.lane) l s.queue.ticks).any fun t => t.pc = .handling

/-- Handlers run while no tick has the thread. -/
def step (s : System) : Op → System
  | .chat id lane name =>
    if (Pipeline.thread s.queue).isSome ∨ canCall s lane = false then s
    else if blocks cfg (s.registry name) then
      throwTo E s lane (ProviderQuotaBreakerOpenError name (s.registry name).consecutiveQuotaFailures)
    else { s with inflight := s.inflight ++ [⟨id, lane, name⟩], called := s.called ++ [id] }
  | .answer id outcome =>
    match Pipeline.thread s.queue, findCall s id with
    | none, some c =>
      let b := s.registry c.name
      let rest := s.inflight.erase c
      match outcome with
      | none =>
        { s with inflight := rest, registry := update s.registry c.name (succeeded cfg b), streak := update s.streak c.name 0 }
      | some err =>
        let quota := classifyProviderFailure err.message = some .quota
        let after : System :=
          { s with
            inflight := rest
            registry := update s.registry c.name (failed cfg b c.name err).2
            streak := update s.streak c.name (if quota then s.streak c.name + 1 else s.streak c.name) }
        throwTo E after c.lane (failed cfg b c.name err).1
    | _, _ => s
  | .budgetReset now =>
    -- the breakers that are reset are those of the command's own process, which has none
    { s with queue := (budgetReset E emptyRegistry now s.queue).2, streak := fun _ => 0 }
  | .crash =>
    { s with registry := emptyRegistry, inflight := [], queue := Pipeline.step E s.queue .crash, streak := fun _ => 0 }
  | .queue op => { s with queue := Pipeline.step E s.queue op }

def init (queue : Pipeline.Queue) : System := ⟨emptyRegistry, [], queue, fun _ => 0, []⟩

def run (s : System) (ops : List Op) : System := ops.foldl (step E cfg) s

/-! ## The property -/

/-- the operation is a quota failure of a call of the provider -/
def QuotaFailure (s : System) (name : String) : Op → Prop
  | .answer id (some err) =>
    Pipeline.thread s.queue = none ∧ (∃ c, findCall s id = some c ∧ c.name = name) ∧
      classifyProviderFailure err.message = some .quota
  | _ => False

/-- the tick is about to pause its job, or has done so -/
def pausing : Pipeline.Pc → Bool
  | .caught err => err.cls = .quotaBreakerOpen
  | .pause | .recordPaused => true
  | _ => false

/-- the operation treats breakers of that threshold as it should -/
structure Sound (threshold : ℚ) (s : System) (op : Op) : Prop where
  below : ∀ name, (s.registry name).tripped = false → s.streak name < threshold
  opens : ∀ name, (s.registry name).tripped = false →
    (((step E cfg s op).registry name).tripped = true ↔
      QuotaFailure s name op ∧ threshold ≤ (step E cfg s op).streak name)
  shut : ∀ id lane name, op = .chat id lane name → (s.registry name).tripped = true →
    (step E cfg s op).called = s.called
  pauses : ∀ id lane name t, op = .chat id (some lane) name → (s.registry name).tripped = true →
    Pipeline.thread s.queue = none → lookup (·.lane) lane s.queue.ticks = some t →
    ∃ pc, pausing pc = true ∧ lookup (·.lane) lane (step E cfg s op).queue.ticks = some { t with pc }
  paused : ∀ now t, op = .queue (.call now none) → Pipeline.thread s.queue = some t → pausing t.pc = true →
    (∀ id, (Pipeline.get id (step E cfg s op).queue.jobs).map (·.attempts) = (Pipeline.get id s.queue.jobs).map (·.attempts)) ∧
      (t.pc = .pause → ∀ j ∈ Pipeline.get t.job.id (step E cfg s op).queue.jobs, j.state = .paused) ∧
      ∀ pc ∈ t.next, pausing pc = true
  others : ∀ id err, op = .answer id (some err) → classifyProviderFailure err.message ≠ some .quota →
    (step E cfg s op).registry = s.registry
  reaches : ∀ id lane name, op = .chat id lane name → (s.registry name).tripped = false →
    Pipeline.thread s.queue = none → canCall s lane = true → (step E cfg s op).called = s.called ++ [id]
  recovers : ∀ now name, op = .budgetReset now → ((step E cfg s op).registry name).tripped = false

/-- a budget reset finds the daemon's breakers closed and at zero -/
def ResetsFresh (s : System) (op : Op) : Prop := ∀ now name, op = .budgetReset now → s.registry name = {}

end

variable {E : Pipeline.Env} {cfg : Option QuotaBreakerConfig} {s : System} {op : Op} {threshold : ℚ}

/-! ## Steps -/

@[simp] theorem throwTo_registry (lane : Option Pipeline.LaneId) (err : Pipeline.Thrown) :
    (throwTo E s lane err).registry = s.registry := by cases lane <;> rfl
@[simp] theorem throwTo_streak (lane : Option Pipeline.LaneId) (err : Pipeline.Thrown) :
    (throwTo E s lane err).streak = s.streak := by cases lane <;> rfl
@[simp] theorem throwTo_called (lane : Option Pipeline.LaneId) (err : Pipeline.Thrown) :
    (throwTo E s lane err).called = s.called := by cases lane <;> rfl

theorem threshold_pos (hcfg : wrapWithQuotaBreaker cfg = some threshold) : 0 < threshold := by
  unfold wrapWithQuotaBreaker at hcfg
  split at hcfg
  · cases hcfg
  · have h := (Option.filter_eq_some_iff.1 hcfg).2
    simpa using h

/-- what an operation does to the breaker of a name and to its failures since the last success or reset -/
inductive Change (cfg : Option QuotaBreakerConfig) (s : System) (name : String) (op : Op) : BreakerState → ℕ → Prop where
  | none : ¬ QuotaFailure s name op → Change cfg s name op (s.registry name) (s.streak name)
  | succeeded : ¬ QuotaFailure s name op → Change cfg s name op (succeeded cfg (s.registry name)) 0
  | quota (err : Pipeline.Thrown) : QuotaFailure s name op → classifyProviderFailure err.message = some .quota →
    Change cfg s name op (failed cfg (s.registry name) name err).2 (s.streak name + 1)
  | budgetReset (now : Time) : op = .budgetReset now → Change cfg s name op (s.registry name) 0
  | crash : op = .crash → Change cfg s name op {} 0

theorem failed_other {b : BreakerState} {name : String} {err : Pipeline.Thrown}
    (herr : classifyProviderFailure err.message ≠ some .quota) : failed cfg b name err = (err, b) := by
  unfold failed
  cases wrapWithQuotaBreaker cfg with
  | none => rfl
  | some _ => exact if_pos herr

theorem failed_quota (hcfg : wrapWithQuotaBreaker cfg = some threshold) {b : BreakerState} {name : String}
    {err : Pipeline.Thrown} (herr : classifyProviderFailure err.message = some .quota) :
    (failed cfg b name err).2 =
      ⟨b.consecutiveQuotaFailures + 1, b.tripped || decide (threshold ≤ (b.consecutiveQuotaFailures + 1 : ℕ))⟩ := by
  unfold failed
  rw [hcfg]
  dsimp only
  rw [if_neg (by simp [herr])]
  by_cases hmax : threshold ≤ (b.consecutiveQuotaFailures + 1 : ℕ)
  · rw [if_pos hmax, decide_eq_true hmax, Bool.or_true]
  · rw [if_neg hmax, decide_eq_false hmax, Bool.or_false]

@[simp] theorem update_self {α : Type} (f : String → α) (name : String) (v : α) : update f name v name = v := if_pos rfl

theorem update_other {α : Type} {f : String → α} {name other : String} {v : α} (h : other ≠ name) :
    update f name v other = f other := if_neg h

theorem step_chat_blocked {id : ℕ} {lane : Option Pipeline.LaneId} {name : String}
    (hthread : Pipeline.thread s.queue = none) (hcan : canCall s lane = true)
    (hopen : blocks cfg (s.registry name) = true) : step E cfg s (.chat id lane name) =
      throwTo E s lane (ProviderQuotaBreakerOpenError name (s.registry name).consecutiveQuotaFailures) := by
  simp [step, hthread, hcan, hopen]

theorem step_chat_called {id : ℕ} {lane : Option Pipeline.LaneId} {name : String}
    (hthread : Pipeline.thread s.queue = none) (hcan : canCall s lane = true)
    (hopen : blocks cfg (s.registry name) = false) : step E cfg s (.chat id lane name) =
      { s with inflight := s.inflight ++ [⟨id, lane, name⟩], called := s.called ++ [id] } := by
  simp [step, hthread, hcan, hopen]

/-- a chat throws, or reaches the inner provider; either way it leaves the breakers alone -/
theorem step_chat (E : Pipeline.Env) (cfg : Option QuotaBreakerConfig) (s : System) (id : ℕ)
    (lane : Option Pipeline.LaneId) (name : String) :
    (step E cfg s (.chat id lane name)).registry = s.registry ∧ (step E cfg s (.chat id lane name)).streak = s.streak := by
  unfold step
  dsimp only
  split_ifs
  · exact ⟨rfl, rfl⟩
  · exact ⟨throwTo_registry _ _, throwTo_streak _ _⟩
  · exact ⟨rfl, rfl⟩

theorem step_answer_idle {id : ℕ} {outcome : Option Pipeline.Thrown}
    (h : ∀ c, Pipeline.thread s.queue = none → findCall s id ≠ some c) : step E cfg s (.answer id outcome) = s := by
  cases hthread : Pipeline.thread s.queue with
  | some t => simp [step, hthread]
  | none =>
    cases hcall : findCall s id with
    | none => simp [step, hthread, hcall]
    | some c => exact absurd hcall (h c hthread)

theorem step_change (name : String) :
    Change cfg s name op ((step E cfg s op).registry name) ((step E cfg s op).streak name) := by
  cases op with
  | chat id lane target =>
    obtain ⟨hregistry, hstreak⟩ := step_chat E cfg s id lane target
    rw [hregistry, hstreak]
    exact .none fun h => h
  | answer id outcome =>
    by_cases hidle : ∀ c, Pipeline.thread s.queue = none → findCall s id ≠ some c
    · rw [step_answer_idle hidle]
      refine .none fun h => ?_
      cases outcome with
      | none => exact h
      | some err =>
        obtain ⟨hthread, ⟨c, hcall, -⟩, -⟩ := h
        exact hidle c hthread hcall
    · push Not at hidle
      obtain ⟨c, hthread, hcall⟩ := hidle
      by_cases hname : c.name = name
      · subst hname
        cases outcome with
        | none =>
          simp only [step, hthread, hcall, update_self]
          exact .succeeded fun h => h
        | some err =>
          simp only [step, hthread, hcall, throwTo_registry, throwTo_streak, update_self]
          by_cases herr : classifyProviderFailure err.message = some .quota
          · rw [if_pos herr]
            exact .quota err ⟨hthread, ⟨c, hcall, rfl⟩, herr⟩ herr
          · rw [if_neg herr, failed_other herr]
            exact .none fun h => herr h.2.2
      · have hother : (step E cfg s (.answer id outcome)).registry name = s.registry name ∧
            (step E cfg s (.answer id outcome)).streak name = s.streak name := by
          cases outcome with
          | none => simp [step, hthread, hcall, update_other (Ne.symm hname)]
          | some err => simp [step, hthread, hcall, update_other (Ne.symm hname)]
        rw [hother.1, hother.2]
        refine .none fun h => ?_
        cases outcome with
        | none => exact h
        | some err =>
          obtain ⟨-, ⟨d, hd, rfl⟩, -⟩ := h
          rw [hcall] at hd
          exact hname (by rw [Option.some.inj hd])
  | budgetReset now => exact .budgetReset now rfl
  | crash => exact .crash rfl
  | queue op => exact .none fun h => h

/-! ## Every run -/

/-- the counter of a breaker is the number of quota failures since the last success or reset, and a closed breaker has not
reached the threshold -/
def Counted (threshold : ℚ) (s : System) : Prop :=
  ∀ name, (s.registry name).consecutiveQuotaFailures = s.streak name ∧
    ((s.registry name).tripped = false → s.streak name < threshold)

theorem counted_init (hpos : 0 < threshold) (queue : Pipeline.Queue) : Counted threshold (init queue) :=
  fun _ => ⟨rfl, fun _ => by simpa [init] using hpos⟩

theorem step_counted (hcfg : wrapWithQuotaBreaker cfg = some threshold) (hs : Counted threshold s)
    (hop : ResetsFresh s op) : Counted threshold (step E cfg s op) := by
  have hpos := threshold_pos hcfg
  intro name
  obtain ⟨hcount, hbelow⟩ := hs name
  generalize hb : (step E cfg s op).registry name = b
  generalize hn : (step E cfg s op).streak name = n
  have hchange := @step_change E cfg s op name
  rw [hb, hn] at hchange
  cases hchange with
  | none => exact ⟨hcount, hbelow⟩
  | succeeded => simpa [succeeded, hcfg] using fun _ => hpos
  | quota err _ herr =>
    rw [failed_quota hcfg herr]
    refine ⟨by simp [hcount], fun hclosed => ?_⟩
    simp only [Bool.or_eq_false_iff, decide_eq_false_iff_not, hcount] at hclosed
    exact Rat.not_le.1 hclosed.2
  | budgetReset now hreset =>
    rw [hop now name hreset]
    exact ⟨rfl, fun _ => by simpa using hpos⟩
  | crash => exact ⟨rfl, fun _ => by simpa using hpos⟩

/-- the handler's error lies with the tick of its lane, before the `catch` block -/
theorem throwTo_tick {lane : Pipeline.LaneId} {t : Pipeline.Tick} {err : Pipeline.Thrown}
    (hthread : Pipeline.thread s.queue = none) (ht : lookup (·.lane) lane s.queue.ticks = some t) :
    lookup (·.lane) lane (throwTo E s (some lane) err).queue.ticks = some { t with pc := .caught err } := by
  have hqueue : (throwTo E s (some lane) err).queue = Pipeline.goto s.queue t (some (.caught err)) := by
    simp [throwTo, Pipeline.step, hthread, ht]
  have hlane : t.lane = lane := (lookup_mem ht).2
  rw [hqueue, Pipeline.goto, lookup_updateWhere (by intro _; rfl), ht, Option.map_some, if_pos rfl]

/-- a tick that pauses its job leaves every attempt alone -/
theorem write_attempts {t : Pipeline.Tick} (ht : pausing t.pc = true) (now : Time) (jobs : List Pipeline.Job)
    (id : Pipeline.JobId) :
    (Pipeline.get id (t.write now jobs)).map (·.attempts) = (Pipeline.get id jobs).map (·.attempts) := by
  unfold Pipeline.Tick.write
  cases hpc : t.pc with
  | caught err =>
    have hcls : err.cls = .quotaBreakerOpen := by simpa [pausing, hpc] using ht
    simp only [hcls]
    rw [Pipeline.get_setLastError]
    split_ifs
    · rw [Option.map_map]
      rfl
    · rfl
  | pause =>
    simp only [Pipeline.pause]
    rw [Pipeline.get_transition]
    split_ifs
    · rw [Option.map_map]
      rfl
    · rfl
  | recordPaused => rfl
  | _ => simp [pausing, hpc] at ht

theorem write_paused {t : Pipeline.Tick} (hpc : t.pc = .pause) (now : Time) (jobs : List Pipeline.Job) :
    ∀ j ∈ Pipeline.get t.job.id (t.write now jobs), j.state = .paused := by
  intro j hj
  unfold Pipeline.Tick.write at hj
  simp only [hpc, Pipeline.pause] at hj
  rw [Pipeline.get_transition, if_pos rfl, Option.mem_map] at hj
  obtain ⟨i, -, rfl⟩ := hj
  rfl

theorem next_pausing {t : Pipeline.Tick} (ht : pausing t.pc = true) : ∀ pc ∈ t.next, pausing pc = true := by
  intro pc hpc
  unfold Pipeline.Tick.next at hpc
  cases h : t.pc with
  | caught err =>
    have hcls : err.cls = .quotaBreakerOpen := by simpa [pausing, h] using ht
    simp only [h, hcls, Option.mem_some_iff] at hpc
    subst hpc
    rfl
  | pause =>
    simp only [h, Option.mem_some_iff] at hpc
    subst hpc
    rfl
  | recordPaused => simp [h] at hpc
  | _ => simp [pausing, h] at ht

theorem step_sound (hcfg : wrapWithQuotaBreaker cfg = some threshold) (hs : Counted threshold s)
    (hop : ResetsFresh s op) : Sound E cfg threshold s op where
  below name := (hs name).2
  opens name hclosed := by
    generalize hb : (step E cfg s op).registry name = b
    generalize hn : (step E cfg s op).streak name = n
    have hchange := @step_change E cfg s op name
    rw [hb, hn] at hchange
    cases hchange with
    | none hquiet => simp [hclosed, hquiet]
    | succeeded hquiet => simp [succeeded, hcfg, hclosed, hquiet]
    | quota err hfailure herr =>
      rw [failed_quota hcfg herr]
      simp [hclosed, hfailure, (hs name).1]
    | budgetReset now hreset =>
      subst hreset
      simp [hclosed, QuotaFailure]
    | crash hcrash =>
      subst hcrash
      simp [QuotaFailure]
  shut id lane name hchat hopen := by
    subst hchat
    by_cases hcan : Pipeline.thread s.queue = none ∧ canCall s lane = true
    · rw [step_chat_blocked hcan.1 hcan.2 (by simp [blocks, hcfg, hopen]), throwTo_called]
    · have hstuck : step E cfg s (.chat id lane name) = s := by
        unfold step
        dsimp only
        rw [if_pos]
        cases hthread : Pipeline.thread s.queue with
        | some t => exact .inl rfl
        | none => exact .inr (Bool.eq_false_iff.2 fun hcall => hcan ⟨hthread, hcall⟩)
      rw [hstuck]
  pauses id lane name t hchat hopen hthread ht := by
    subst hchat
    have hhandling : t.pc = .handling := Pipeline.thread_eq_none.1 hthread t (lookup_mem ht).1
    have hcan : canCall s (some lane) = true := by simp [canCall, ht, hhandling]
    rw [step_chat_blocked hthread hcan (by simp [blocks, hcfg, hopen])]
    exact ⟨_, by rfl, throwTo_tick hthread ht⟩
  paused now t hcall hthread ht := by
    subst hcall
    have hjobs : (step E cfg s (.queue (.call now none))).queue.jobs = t.write now s.queue.jobs := by
      simp [step, Pipeline.step, hthread]
    rw [hjobs]
    exact ⟨write_attempts ht now _, fun hpc => write_paused hpc now _, next_pausing ht⟩
  others id err hanswer herr := by
    subst hanswer
    by_cases hidle : ∀ c, Pipeline.thread s.queue = none → findCall s id ≠ some c
    · rw [step_answer_idle hidle]
    · push Not at hidle
      obtain ⟨c, hthread, hcall⟩ := hidle
      simp only [step, hthread, hcall, throwTo_registry, failed_other herr]
      funext name
      by_cases hname : name = c.name
      · rw [hname, update_self]
      · rw [update_other hname]
  reaches id lane name hchat hclosed hthread hcan := by
    subst hchat
    rw [step_chat_called hthread hcan (by simp [blocks, hclosed])]
  recovers now name hreset := by
    have hfresh := hop now name hreset
    subst hreset
    simp [step, hfresh]

/-- **Quota breaker.** In every run whose budget resets all find the daemon's breakers closed and at zero, a breaker opens
exactly when the quota failures since the last success or reset reach the threshold, stands in the way of every call while
it is open and pauses the caller's job, ignores other failures, and is closed after every budget reset. -/
theorem breaker_recovers (E : Pipeline.Env) (cfg : Option QuotaBreakerConfig) (threshold : ℚ)
    (hcfg : wrapWithQuotaBreaker cfg = some threshold) (queue : Pipeline.Queue) (ops : List Op)
    (hops : Along (step E cfg) ResetsFresh (init queue) ops) :
    Along (step E cfg) (Sound E cfg threshold) (init queue) ops :=
  hops.carry (Counted threshold) (fun _ _ hs hop => step_counted hcfg hs hop) (fun _ _ hs hop => step_sound hcfg hs hop)
    (counted_init (threshold_pos hcfg) queue)

/-- a daemon with one worker of one lane, and one distill job -/
def oneLane : Pipeline.Queue :=
  { jobs := [Pipeline.freshJob 1 .distill "{}" 1 0], phase := .up, workers := [⟨1, false⟩] }

def distillOnly : Pipeline.Env := ⟨[.distill], fun _ => none⟩

def rateLimited : Pipeline.Thrown := ⟨.transient, "HTTP 429"⟩

theorem breaker_recovers_once : Along (step distillOnly none) (Sound distillOnly none 3) (init oneLane)
    [.chat 0 none "claude", .answer 0 none, .budgetReset 1, .chat 1 none "claude"] := by
  refine breaker_recovers _ _ _ (by rfl) _ _ ⟨?_, ?_, ?_, ?_, trivial⟩
  · intro now name h; cases h
  · intro now name h; cases h
  · intro now name _
    by_cases hname : name = "claude"
    · subst hname
      decide
    · exact if_neg hname
  · intro now name h; cases h

/-- the daemon's calls until its breaker opens and the job of the last one is paused -/
def tripped : System :=
  run distillOnly none (init oneLane)
    [.chat 0 none "claude", .answer 0 (some rateLimited), .chat 1 none "claude", .answer 1 (some rateLimited),
      .queue (.claim ⟨0, 0⟩ 0), .chat 2 (some ⟨0, 0⟩) "claude", .answer 2 (some rateLimited),
      .queue (.call 0 none), .queue (.call 0 none), .queue (.call 0 none)]

/-- the reset, and the next attempt of the job -/
def reset : System :=
  run distillOnly none tripped
    [.budgetReset 1, .queue (.claim ⟨0, 0⟩ 1), .chat 3 (some ⟨0, 0⟩) "claude",
      .queue (.call 1 none), .queue (.call 1 none), .queue (.call 1 none)]

/-- The breaker stays open over the reset: the job is paused again and the provider is not asked. -/
theorem reset_leaves_daemon_open :
    (tripped.registry "claude").tripped = true ∧ tripped.queue.jobs.map (·.state) = [.paused] ∧
      (reset.registry "claude").tripped = true ∧ reset.queue.jobs.map (·.state) = [.paused] ∧
      reset.called = tripped.called := by
  decide

end AstramemLocal.Providers
