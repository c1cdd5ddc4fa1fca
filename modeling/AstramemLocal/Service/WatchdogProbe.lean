/-
`src/service/watchdog-probe.ts`: the external probe that kills and restarts a daemon that has stopped answering. Every
tick is a process of its own; what one tick leaves to the next is the state file and the log of kills, and both may fail to
be read or written. What a tick is told is in `Tick`, and the stop it makes is a run of `stopLockHolder`.

`probe_stops_iff` says when a tick comes to the stop, `probe_state` and `probe_killLog` what it leaves in the two files.
-/
import AstramemLocal.Service.Takeover

namespace AstramemLocal.Service

/-! ## Model -/

def DEFAULT_FAILURE_THRESHOLD : ℕ := 2

def RESTART_STORM_THRESHOLD : ℕ := 3

def RESTART_STORM_WINDOW_MS : Clock := 6 * 60 * 60 * 1000

def BOOT_HARD_CAP_SEC : Clock := 1200

/-- the options the verdict rests on, at their defaults -/
structure WatchdogProbeOptions where
  failureThreshold : ℕ := DEFAULT_FAILURE_THRESHOLD
  bootHardCapMs : Clock := BOOT_HARD_CAP_SEC * 1000
  restartStormThreshold : ℕ := RESTART_STORM_THRESHOLD
  restartStormWindowMs : Clock := RESTART_STORM_WINDOW_MS

structure WatchdogState where
  consecutiveFailures : ℕ
  instanceKey : Option String
  everHealthyThisInstance : Bool
deriving DecidableEq, Repr

def DEFAULT_WATCHDOG_STATE : WatchdogState := ⟨0, none, false⟩

def instanceKeyOf (lock : Option LockInfo) : Option String := lock.map fun l => s!"{l.pid}:{l.startedAt}"

/-- the fields of the parsed state file: `none` is a field that is absent or of another type -/
structure StateFields where
  consecutiveFailures : Option ℤ
  instanceKey : Option String
  everHealthyThisInstance : Bool
deriving DecidableEq, Repr

/-- `none` is a file that is absent or does not parse -/
def readWatchdogState : Option StateFields → WatchdogState
  | none => DEFAULT_WATCHDOG_STATE
  | some f => ⟨((f.consecutiveFailures.filter (0 ≤ ·)).getD 0).toNat, f.instanceKey, f.everHealthyThisInstance⟩

def WatchdogState.fields (s : WatchdogState) : StateFields :=
  ⟨some s.consecutiveFailures, s.instanceKey, s.everHealthyThisInstance⟩

/-- a line of the log: the time its `ts` parses to, `none` for a malformed line -/
abbrev KillLine := Option Clock

def parseKillLog (content : List KillLine) (nowMs windowMs : Clock) : List Clock :=
  (content.filterMap id).filter fun ms => nowMs - ms ≤ windowMs ∧ ms ≤ nowMs

/-- what the ticks leave under the data dir -/
structure Watchdog where
  stateFile : Option StateFields := none
  killLog : List KillLine := []
deriving DecidableEq, Repr

/-- how `writeWatchdogState` ends: a write that fails may have emptied the file -/
inductive StateWrite where
  | written
  | untouched
  | spoiled
deriving DecidableEq, Repr

section
variable (parseDate : String → Option Clock)

/-- a call of `stopLockHolder`, without options, that has returned -/
structure StopCall where
  script : List Moment
  report : StopReport
  rest : List Moment
  ran : stopLockHolder parseDate 5000 false script = some (report, rest)

/-- what one run of the probe is told -/
structure Tick where
  nowMs : Clock
  lock : Option LockInfo
  /-- the state file can be opened -/
  stateReadable : Bool := true
  /-- the probe was answered with success in time -/
  healthy : Bool
  /-- the log of kills can be opened -/
  logReadable : Bool := true
  /-- `none` is a call that threw -/
  stop : Option (StopCall parseDate)
  /-- the clock when the kill is logged -/
  killedAt : Clock
  /-- the kill could be logged -/
  appended : Bool := true
  /-- the adapter could start the daemon -/
  started : Bool := true
  stateWrite : StateWrite := .written

/-- the outcomes of `runWatchdogProbe`, with what their `detail` names; the last two are both `restart-failed` -/
inductive WatchdogProbeResult where
  | healthy
  | belowThreshold (consecutiveFailures : ℕ)
  | stillBooting (consecutiveFailures : ℕ) (aliveMs : Option Clock)
  | breakerTripped (killsInWindow : ℕ)
  | restarted (stop : StopLockHolderResult) (bootHardCapTripped : Bool)
  | notStopped (stop : StopLockHolderResult)
  | restartFailed
deriving DecidableEq, Repr

end

section
variable {parseDate : String → Option Clock}

def Tick.readState (t : Tick parseDate) (w : Watchdog) : WatchdogState :=
  readWatchdogState (if t.stateReadable then w.stateFile else none)

/-- the state read, or a fresh one when another instance holds the lock -/
def Tick.currentState (t : Tick parseDate) (w : Watchdog) : WatchdogState :=
  let state := t.readState w
  if instanceKeyOf t.lock ≠ none ∧ instanceKeyOf t.lock ≠ state.instanceKey then ⟨0, instanceKeyOf t.lock, false⟩
  else state

def Tick.writeState (t : Tick parseDate) (w : Watchdog) (s : WatchdogState) : Watchdog :=
  match t.stateWrite with
  | .written => { w with stateFile := some s.fields }
  | .untouched => w
  | .spoiled => { w with stateFile := none }

def Tick.readKillsInWindow (t : Tick parseDate) (w : Watchdog) (windowMs : Clock) : List Clock :=
  parseKillLog (if t.logReadable then w.killLog else []) t.nowMs windowMs

def Tick.appendKillEvent (t : Tick parseDate) (w : Watchdog) : Watchdog :=
  if t.appended then { w with killLog := w.killLog ++ [some t.killedAt] } else w

/-- `none` is `NaN` -/
def Tick.aliveMs (t : Tick parseDate) : Option Clock :=
  t.lock.bind fun l => (recordedStart parseDate l).map (t.nowMs - ·)

/-- the gate of a daemon that may still be booting -/
def Tick.presumedBooting (t : Tick parseDate) (bootHardCapMs : Clock) (s : WatchdogState) : Bool :=
  !s.everHealthyThisInstance && t.aliveMs.all (· < bootHardCapMs)

/-- the `try` at the end: stop what holds the lock, log the kill, start the daemon -/
def Tick.act (t : Tick parseDate) (w : Watchdog) (s : WatchdogState) : Watchdog × WatchdogProbeResult :=
  match t.stop with
  | none => (t.writeState w s, .restartFailed)
  | some call =>
    if call.report.result.ok then
      let w := t.appendKillEvent w
      if t.started then
        (t.writeState w { s with consecutiveFailures := 0 }, .restarted call.report.result !s.everHealthyThisInstance)
      else (t.writeState w s, .restartFailed)
    else (t.writeState w s, .notStopped call.report.result)

/-- one cycle of the probe -/
def runWatchdogProbe (o : WatchdogProbeOptions) (w : Watchdog) (t : Tick parseDate) : Watchdog × WatchdogProbeResult :=
  let state := t.currentState w
  if t.healthy then
    (t.writeState w { state with consecutiveFailures := 0, everHealthyThisInstance := true }, .healthy)
  else
    let consecutiveFailures := state.consecutiveFailures + 1
    let state := { state with consecutiveFailures }
    if consecutiveFailures < o.failureThreshold then (t.writeState w state, .belowThreshold consecutiveFailures)
    else if t.presumedBooting o.bootHardCapMs state then
      (t.writeState w state, .stillBooting consecutiveFailures t.aliveMs)
    else
      let killsInWindow := (t.readKillsInWindow w o.restartStormWindowMs).length
      if o.restartStormThreshold ≤ killsInWindow then (t.writeState w state, .breakerTripped killsInWindow)
      else t.act w state

/-- the findings of the doctor's check of the log: no file, a file that cannot be read, few kills, a storm -/
inductive StormCheck where
  | noKillsYet
  | inconclusive
  | calm (kills : ℕ)
  | storm (kills : List Clock)
deriving DecidableEq, Repr

/-- `checkRestartStorm` of `src/doctor/checks/restart-storm.ts`; the file is `some none` when it cannot be read -/
def checkRestartStorm (file : Option (Option (List KillLine))) (nowMs : Clock) (threshold : ℕ) (windowMs : Clock) :
    StormCheck :=
  match file with
  | none => .noKillsYet
  | some none => .inconclusive
  | some (some content) =>
    let kills := parseKillLog content nowMs windowMs
    if kills.length < threshold then .calm kills.length else .storm kills

/-- the tick called `stopLockHolder` -/
def WatchdogProbeResult.stops : WatchdogProbeResult → Bool
  | .restarted _ _ | .notStopped _ | .restartFailed => true
  | _ => false

def WatchdogProbeResult.restarts : WatchdogProbeResult → Bool
  | .restarted _ _ => true
  | _ => false

/-- the stop of the tick succeeded: the code logs a kill, be it of a holder that was dead already -/
def Tick.kills (t : Tick parseDate) (r : WatchdogProbeResult) : Bool :=
  r.stops && t.stop.any (·.report.result.ok)

/-! ## What one tick does -/

variable {o : WatchdogProbeOptions} {w : Watchdog} {t : Tick parseDate} {s : WatchdogState}

theorem readWatchdogState_fields (s : WatchdogState) : readWatchdogState (some s.fields) = s := by
  simp [readWatchdogState, WatchdogState.fields, Option.filter]

@[simp] theorem Tick.writeState_killLog (t : Tick parseDate) (w : Watchdog) (s : WatchdogState) :
    (t.writeState w s).killLog = w.killLog := by
  unfold Tick.writeState
  split <;> rfl

/-- what is in the state file behind a write, if the write has not left the file alone -/
theorem Tick.writeState_stateFile (hw : t.stateWrite ≠ .untouched) :
    (t.writeState w s).stateFile = none ∨ (t.writeState w s).stateFile = some s.fields := by
  unfold Tick.writeState
  split
  · exact Or.inr rfl
  next h => exact absurd h hw
  · exact Or.inl rfl

theorem Tick.act_stops (t : Tick parseDate) (w : Watchdog) (s : WatchdogState) : (t.act w s).2.stops = true := by
  unfold Tick.act
  split
  · rfl
  · dsimp only
    split_ifs <;> rfl

theorem Tick.act_killLog (t : Tick parseDate) (w : Watchdog) (s : WatchdogState) :
    (t.act w s).1.killLog = if t.stop.any (·.report.result.ok) then (t.appendKillEvent w).killLog else w.killLog := by
  unfold Tick.act
  split
  next h => simp [h]
  next call h =>
    dsimp only
    split_ifs <;> simp_all

/-- the count is kept unless the daemon was restarted -/
theorem Tick.act_state (t : Tick parseDate) (w : Watchdog) (s : WatchdogState) :
    ∃ w' r, t.act w s = (t.writeState w' { s with consecutiveFailures := if r.restarts then 0 else s.consecutiveFailures }, r) := by
  unfold Tick.act
  split
  · exact ⟨w, .restartFailed, rfl⟩
  next call _ =>
    dsimp only
    split_ifs
    · exact ⟨_, .restarted _ _, rfl⟩
    · exact ⟨_, .restartFailed, rfl⟩
    · exact ⟨w, .notStopped _, rfl⟩

/-- the state a tick tries to leave -/
def Tick.nextState (t : Tick parseDate) (w : Watchdog) (r : WatchdogProbeResult) : WatchdogState :=
  let state := t.currentState w
  if t.healthy then { state with consecutiveFailures := 0, everHealthyThisInstance := true }
  else { state with consecutiveFailures := if r.restarts then 0 else state.consecutiveFailures + 1 }

theorem probe_state (o : WatchdogProbeOptions) (w : Watchdog) (t : Tick parseDate) :
    ∃ w' r, runWatchdogProbe o w t = (t.writeState w' (t.nextState w r), r) := by
  unfold runWatchdogProbe Tick.nextState
  dsimp only
  split_ifs with hhealthy hbelow hboot hstorm
  · exact ⟨w, .healthy, rfl⟩
  · exact ⟨w, .belowThreshold _, rfl⟩
  · exact ⟨w, .stillBooting _ _, rfl⟩
  · exact ⟨w, .breakerTripped _, rfl⟩
  · exact t.act_state w _

/-- the tick comes to the stop, in terms of the state it goes by -/
structure Tick.Acts (t : Tick parseDate) (o : WatchdogProbeOptions) (w : Watchdog) : Prop where
  failed : t.healthy = false
  streak : o.failureThreshold ≤ (t.currentState w).consecutiveFailures + 1
  grace : (t.currentState w).everHealthyThisInstance = true ∨ ∃ alive ∈ t.aliveMs, o.bootHardCapMs ≤ alive
  closed : (t.readKillsInWindow w o.restartStormWindowMs).length < o.restartStormThreshold

theorem Tick.presumedBooting_iff {bootHardCapMs : Clock} :
    t.presumedBooting bootHardCapMs s = true ↔
      ¬ (s.everHealthyThisInstance = true ∨ ∃ alive ∈ t.aliveMs, bootHardCapMs ≤ alive) := by
  unfold Tick.presumedBooting
  cases t.aliveMs <;> simp

theorem probe_acts (h : t.Acts o w) :
    runWatchdogProbe o w t =
      t.act w { t.currentState w with consecutiveFailures := (t.currentState w).consecutiveFailures + 1 } := by
  unfold runWatchdogProbe
  dsimp only
  rw [if_neg (by simp [h.failed]), if_neg (Nat.not_lt.2 h.streak), if_neg, if_neg (Nat.not_le.2 h.closed)]
  exact fun hboot => Tick.presumedBooting_iff.1 hboot h.grace

theorem probe_waits (h : ¬ t.Acts o w) :
    ∃ s r, runWatchdogProbe o w t = (t.writeState w s, r) ∧ r.stops = false := by
  unfold runWatchdogProbe
  dsimp only
  split_ifs with hhealthy hbelow hboot hstorm
  · exact ⟨_, .healthy, rfl, rfl⟩
  · exact ⟨_, .belowThreshold _, rfl, rfl⟩
  · exact ⟨_, .stillBooting _ _, rfl, rfl⟩
  · exact ⟨_, .breakerTripped _, rfl, rfl⟩
  · rw [Tick.presumedBooting_iff, not_not] at hboot
    exact absurd ⟨by simpa using hhealthy, Nat.not_lt.1 hbelow, hboot, Nat.not_le.1 hstorm⟩ h

/-- **When a tick stops the daemon**, in terms of the state it goes by. -/
theorem probe_stops_iff : (runWatchdogProbe o w t).2.stops = true ↔ t.Acts o w := by
  by_cases h : t.Acts o w
  · rw [probe_acts h]
    exact iff_of_true (t.act_stops w _) h
  · obtain ⟨s, r, hrun, hr⟩ := probe_waits h
    rw [hrun, hr]
    exact iff_of_false Bool.false_ne_true h

/-- the log grows by the kills, those apart that could not be written -/
theorem probe_killLog (o : WatchdogProbeOptions) (w : Watchdog) (t : Tick parseDate) :
    (runWatchdogProbe o w t).1.killLog =
      w.killLog ++ if t.kills (runWatchdogProbe o w t).2 && t.appended then [some t.killedAt] else [] := by
  by_cases h : t.Acts o w
  · rw [Tick.kills, probe_stops_iff.2 h, probe_acts h, t.act_killLog, Tick.appendKillEvent]
    cases t.stop.any (·.report.result.ok) <;> cases t.appended <;> simp
  · obtain ⟨s, r, hrun, hr⟩ := probe_waits h
    rw [hrun, Tick.kills, hr, t.writeState_killLog]
    simp

end

end AstramemLocal.Service
