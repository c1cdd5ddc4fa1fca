/-
Runs of the watchdog of `src/service/watchdog-probe.ts`. A run is the list of its ticks, the latest first; `Silent` and
`Answered` say what it has seen of the holder of the lock, `Knows` and `Recalls` that the state file says neither more nor
less.

- `stop_grounds`: whatever fails to be read or is lost, a tick stops the daemon only behind a full streak of failed probes
  of one holder of the lock, none of them followed by a restart, and only when that holder has answered or has outlived the
  hard cap. `stale_state_stops`: a failed write that leaves the old state is the exception.
- `stops_iff`: where the state file works, a tick stops the daemon exactly then, unless the log shows as many kills of the
  last six hours as the breaker allows.
- `kills_per_window`: no six hours see more kills than the breaker allows, those it cannot see apart.
-/
import AstramemLocal.Core.SlidingWindow
import AstramemLocal.Service.WatchdogProbe

namespace AstramemLocal.Service

section
variable {parseDate : String → Option Clock}

/-! ## What a run leaves -/

/-- what a run leaves in a data dir that held the state and the log of `w` -/
def watchdogRun (o : WatchdogProbeOptions) (w : Watchdog) : List (Tick parseDate) → Watchdog
  | [] => w
  | t :: past => (runWatchdogProbe o (watchdogRun o w past) t).1

/-- what the last tick of a run answers -/
def lastResult (o : WatchdogProbeOptions) (w : Watchdog) (t : Tick parseDate) (past : List (Tick parseDate)) :
    WatchdogProbeResult :=
  (runWatchdogProbe o (watchdogRun o w past) t).2

/-- when the ticks of a run that meet `p` killed, the latest first -/
def killTimes (o : WatchdogProbeOptions) (w : Watchdog) (p : Tick parseDate → Bool) : List (Tick parseDate) → List Clock
  | [] => []
  | t :: past =>
    if t.kills (lastResult o w t past) && p t then t.killedAt :: killTimes o w p past else killTimes o w p past

/-! ## What a run has seen -/

/-- the last instance of which a tick has read the lock -/
def holder : List (Tick parseDate) → Option String
  | [] => none
  | t :: past => (instanceKeyOf t.lock).or (holder past)

/-- the last tick restarted the daemon -/
def Restarted (o : WatchdogProbeOptions) (w : Watchdog) : List (Tick parseDate) → Prop
  | [] => False
  | t :: past => (lastResult o w t past).restarts = true

/-- the last `n` probes failed, all of one holder, none of them but the last followed by a restart -/
inductive Silent (o : WatchdogProbeOptions) (w : Watchdog) : ℕ → List (Tick parseDate) → Prop where
  | zero (ticks : List (Tick parseDate)) : Silent o w 0 ticks
  | first {t : Tick parseDate} (past : List (Tick parseDate)) : t.healthy = false → Silent o w 1 (t :: past)
  | next {n : ℕ} {t : Tick parseDate} {past : List (Tick parseDate)} : Silent o w n past → ¬ Restarted o w past →
      t.healthy = false → holder (t :: past) = holder past → Silent o w (n + 1) (t :: past)

/-- the holder of the lock has answered a probe -/
inductive Answered : List (Tick parseDate) → Prop where
  | now {t : Tick parseDate} (past : List (Tick parseDate)) : t.healthy = true → Answered (t :: past)
  | before {t : Tick parseDate} {past : List (Tick parseDate)} : Answered past → holder (t :: past) = holder past →
      Answered (t :: past)

variable {o : WatchdogProbeOptions} {w : Watchdog} {t : Tick parseDate} {past : List (Tick parseDate)}

/-! ## What the log says -/

theorem watchdogRun_killLog (o : WatchdogProbeOptions) (w : Watchdog) (ticks : List (Tick parseDate)) :
    (watchdogRun o w ticks).killLog = w.killLog ++ ((killTimes o w (·.appended) ticks).reverse.map some) := by
  induction ticks with
  | nil => simp [watchdogRun, killTimes]
  | cons t past ih =>
    rw [watchdogRun, probe_killLog, ih, killTimes]
    change _ ++ (if t.kills (lastResult o w t past) && t.appended then _ else _) = _
    split_ifs <;> simp

/-- a readable log shows the kills that were logged -/
theorem readKillsInWindow_length (hlog : t.logReadable = true) (windowMs : Clock) :
    (t.readKillsInWindow (watchdogRun o w past) windowMs).length =
      (parseKillLog w.killLog t.nowMs windowMs).length +
        (killTimes o w (·.appended) past).countP fun ms => t.nowMs - ms ≤ windowMs ∧ ms ≤ t.nowMs := by
  rw [Tick.readKillsInWindow, if_pos hlog, watchdogRun_killLog, parseKillLog, parseKillLog, List.filterMap_append,
    List.filter_append, List.length_append, List.filterMap_map, List.countP_eq_length_filter]
  simp [List.filter_reverse]

/-- the doctor reports a storm whenever a tick at the same time finds the breaker open -/
theorem breakerTripped_storm {n : ℕ} (h : lastResult o w t past = .breakerTripped n) (hlog : t.logReadable = true) :
    ∃ kills, kills.length = n ∧ checkRestartStorm (some (some (watchdogRun o w past).killLog)) t.nowMs
      o.restartStormThreshold o.restartStormWindowMs = .storm kills := by
  refine ⟨t.readKillsInWindow (watchdogRun o w past) o.restartStormWindowMs, ?_⟩
  have hread : t.readKillsInWindow (watchdogRun o w past) o.restartStormWindowMs =
      parseKillLog (watchdogRun o w past).killLog t.nowMs o.restartStormWindowMs := by
    rw [Tick.readKillsInWindow, if_pos hlog]
  unfold lastResult runWatchdogProbe at h
  dsimp only at h
  split_ifs at h with hhealthy hbelow hboot hopen
  · obtain rfl : _ = n := WatchdogProbeResult.breakerTripped.inj h
    exact ⟨rfl, by rw [checkRestartStorm, ← hread, if_neg (Nat.not_lt.2 hopen)]⟩
  · have hstops := t.act_stops (watchdogRun o w past) { t.currentState (watchdogRun o w past) with
      consecutiveFailures := (t.currentState (watchdogRun o w past)).consecutiveFailures + 1 }
    rw [h] at hstops
    cases hstops

/-- the clock does not go back: no tick starts before those behind it have logged their kills -/
def Chronological : List (Tick parseDate) → Prop
  | [] => True
  | t :: past => t.nowMs ≤ t.killedAt ∧ (∀ u ∈ past, u.killedAt ≤ t.nowMs) ∧ Chronological past

theorem killTimes_mem {p : Tick parseDate → Bool} {ticks : List (Tick parseDate)} {ms : Clock}
    (h : ms ∈ killTimes o w p ticks) : ∃ u ∈ ticks, u.killedAt = ms := by
  induction ticks with
  | nil => simp [killTimes] at h
  | cons t past ih =>
    rw [killTimes] at h
    split_ifs at h
    · rcases List.mem_cons.1 h with rfl | h
      · exact ⟨t, List.mem_cons_self, rfl⟩
      · obtain ⟨u, hu, rfl⟩ := ih h
        exact ⟨u, List.mem_cons_of_mem _ hu, rfl⟩
    · obtain ⟨u, hu, rfl⟩ := ih h
      exact ⟨u, List.mem_cons_of_mem _ hu, rfl⟩

theorem killTimes_sublist {p q : Tick parseDate → Bool} (h : ∀ t, p t = true → q t = true) (ticks : List (Tick parseDate)) :
    (killTimes o w p ticks).Sublist (killTimes o w q ticks) := by
  induction ticks with
  | nil => exact .slnil
  | cons t past ih =>
    rw [killTimes, killTimes]
    by_cases hp : p t = true
    · rw [hp, h t hp]
      split_ifs
      · exact ih.cons_cons _
      · exact ih
    · rw [Bool.eq_false_of_not_eq_true hp, Bool.and_false]
      rw [if_neg Bool.false_ne_true]
      split_ifs
      · exact ih.cons _
      · exact ih

/-- **The breaker.** Whatever the daemon and the two files do: as long as the clock does not go back, no interval of the
breaker's length sees more kills than its threshold, those apart that could not be logged or whose tick could not read the
log. -/
theorem kills_per_window (o : WatchdogProbeOptions) (w : Watchdog) {ticks : List (Tick parseDate)}
    (h : Chronological ticks) (start : Clock) :
    (killTimes o w (fun t => t.appended && t.logReadable) ticks).countP
      (fun ms => start ≤ ms ∧ ms ≤ start + o.restartStormWindowMs) ≤ o.restartStormThreshold := by
  refine Core.Spaced.window ?_ start
  induction ticks with
  | nil => trivial
  | cons t past ih =>
    obtain ⟨hnow, hpast, hchron⟩ := h
    rw [killTimes]
    split_ifs with hkill
    · refine ⟨?_, ih hchron⟩
      rw [Bool.and_eq_true, Bool.and_eq_true, Tick.kills, Bool.and_eq_true] at hkill
      have hclosed := (probe_stops_iff.1 hkill.1.1).closed
      rw [readKillsInWindow_length hkill.2.2] at hclosed
      have hlogged := Nat.lt_of_le_of_lt (Nat.le_add_left _ _) hclosed
      -- what was killed within the window of the new kill was in the window of its tick
      refine Nat.lt_of_le_of_lt ?_ hlogged
      calc _ ≤ (killTimes o w (fun t => t.appended && t.logReadable) past).countP
            (fun ms => t.nowMs - ms ≤ o.restartStormWindowMs ∧ ms ≤ t.nowMs) := by
            refine List.countP_mono_left fun ms hms hw => ?_
            obtain ⟨u, hu, rfl⟩ := killTimes_mem hms
            have hin : t.killedAt - u.killedAt ≤ o.restartStormWindowMs := of_decide_eq_true hw
            exact decide_eq_true ⟨(Int.sub_le_sub_right hnow _).trans hin, hpast u hu⟩
        _ ≤ _ := by
            refine List.Sublist.countP_le (killTimes_sublist (fun u hu => ?_) past)
            rw [Bool.and_eq_true] at hu
            exact hu.1
    · exact ih hchron

/-! ## What the state file says -/

/-- what a state claims is true of the ticks behind it -/
structure Knows (o : WatchdogProbeOptions) (w : Watchdog) (ticks : List (Tick parseDate)) (s : WatchdogState) : Prop where
  key : s.instanceKey = none ∨ s.instanceKey = holder ticks
  streak : ∀ n ≤ s.consecutiveFailures, Silent o w n ticks ∧ (n = 0 ∨ ¬ Restarted o w ticks)
  answered : s.everHealthyThisInstance = true → Answered ticks

/-- what is true of the ticks behind a state is in it -/
structure Recalls (o : WatchdogProbeOptions) (w : Watchdog) (ticks : List (Tick parseDate)) (s : WatchdogState) : Prop where
  key : s.instanceKey = holder ticks
  streak : ∀ n, Silent o w n ticks → n = 0 ∨ ¬ Restarted o w ticks → n ≤ s.consecutiveFailures
  answered : Answered ticks → s.everHealthyThisInstance = true

theorem knows_default (ticks : List (Tick parseDate)) : Knows o w ticks DEFAULT_WATCHDOG_STATE := by
  refine ⟨Or.inl rfl, fun n hn => ?_, fun h => absurd h Bool.false_ne_true⟩
  obtain rfl : n = 0 := Nat.le_zero.1 hn
  exact ⟨.zero ticks, Or.inl rfl⟩

theorem recalls_default : Recalls o w ([] : List (Tick parseDate)) DEFAULT_WATCHDOG_STATE := by
  refine ⟨rfl, fun n hn _ => ?_, fun h => by cases h⟩
  cases hn with
  | zero => exact le_rfl

/-- the lock names no other instance: the holder stays -/
theorem holder_same (h : instanceKeyOf t.lock = none ∨ instanceKeyOf t.lock = holder past) :
    holder (t :: past) = holder past := by
  rw [holder]
  rcases h with h | h
  · rw [h, Option.none_or]
  · rw [h, Option.or_self]

/-- a state is started afresh exactly when the lock names another instance -/
theorem Tick.currentState_cases (t : Tick parseDate) (w : Watchdog) :
    (∃ key, instanceKeyOf t.lock = some key ∧ some key ≠ (t.readState w).instanceKey ∧
        t.currentState w = ⟨0, some key, false⟩) ∨
      (instanceKeyOf t.lock = none ∨ instanceKeyOf t.lock = (t.readState w).instanceKey) ∧
        t.currentState w = t.readState w := by
  unfold Tick.currentState
  dsimp only
  split_ifs with h
  · obtain ⟨key, hkey⟩ := Option.ne_none_iff_exists'.1 h.1
    exact Or.inl ⟨key, hkey, hkey ▸ h.2, by rw [hkey]⟩
  · refine Or.inr ⟨?_, rfl⟩
    by_cases hnone : instanceKeyOf t.lock = none
    · exact Or.inl hnone
    · exact Or.inr (not_not.1 fun hne => h ⟨hnone, hne⟩)

/-- the state a tick goes by, and the tick -/
theorem Knows.current {w' : Watchdog} (h : Knows o w past (t.readState w')) :
    ((t.currentState w').instanceKey = none ∨ (t.currentState w').instanceKey = holder (t :: past)) ∧
      (t.healthy = false → ∀ n ≤ (t.currentState w').consecutiveFailures + 1, Silent o w n (t :: past)) ∧
      ((t.currentState w').everHealthyThisInstance = true → Answered (t :: past)) := by
  rcases t.currentState_cases w' with ⟨key, hkey, -, hs⟩ | ⟨hlock, hs⟩
  · rw [hs]
    refine ⟨Or.inr (by rw [holder, hkey, Option.some_or]), fun hfail n hn => ?_, fun he => absurd he Bool.false_ne_true⟩
    match n, hn with
    | 0, _ => exact .zero _
    | 1, _ => exact .first past hfail
  · rw [hs]
    -- an unnamed lock leaves the holder as it was, and so does the key the state has
    have hsame : instanceKeyOf t.lock = none ∨ instanceKeyOf t.lock = holder past := by
      rcases hlock, h.key with ⟨hnone | hkey, hs | hs⟩
      · exact Or.inl hnone
      · exact Or.inl hnone
      · exact Or.inl (hkey.trans hs)
      · exact Or.inr (hkey.trans hs)
    have hholder := holder_same hsame
    refine ⟨hholder ▸ h.key, fun hfail n hn => ?_, fun he => .before (h.answered he) hholder⟩
    match n, hn with
    | 0, _ => exact .zero _
    | n + 1, hn =>
      obtain ⟨hsilent, rfl | hrest⟩ := h.streak n (Nat.le_of_succ_le_succ hn)
      · exact .first past hfail
      · exact .next hsilent hrest hfail hholder

theorem Recalls.current {w' : Watchdog} (h : Recalls o w past (t.readState w')) :
    (t.currentState w').instanceKey = holder (t :: past) ∧
      (∀ n, Silent o w n (t :: past) → n ≤ (t.currentState w').consecutiveFailures + 1) ∧
      (Answered (t :: past) → t.healthy = false → (t.currentState w').everHealthyThisInstance = true) := by
  rcases t.currentState_cases w' with ⟨key, hkey, hne, hs⟩ | ⟨hlock, hs⟩
  · rw [hs]
    have hnew : holder (t :: past) = some key := by rw [holder, hkey, Option.some_or]
    have hother : holder (t :: past) ≠ holder past := fun heq => hne (hnew ▸ heq.trans h.key.symm)
    refine ⟨hnew.symm, fun n hn => ?_, fun ha hfail => ?_⟩
    · cases hn with
      | zero => exact Nat.zero_le _
      | first => exact le_rfl
      | next _ _ _ hsame => exact absurd hsame hother
    · cases ha with
      | now _ hok => exact absurd hok (by rw [hfail]; exact Bool.false_ne_true)
      | before _ hsame => exact absurd hsame hother
  · rw [hs]
    have hholder := holder_same (hlock.imp_right fun hkey => hkey.trans h.key)
    refine ⟨h.key.trans hholder.symm, fun n hn => ?_, fun ha hfail => ?_⟩
    · cases hn with
      | zero => exact Nat.zero_le _
      | first => exact Nat.le_add_left _ _
      | next hsilent hrest _ _ => exact Nat.succ_le_succ (h.streak _ hsilent (Or.inr hrest))
    · cases ha with
      | now _ hok => exact absurd hok (by rw [hfail]; exact Bool.false_ne_true)
      | before hanswered _ => exact h.answered hanswered

/-- **Step of the state, sound.** -/
theorem Knows.next (h : Knows o w past (t.readState (watchdogRun o w past))) :
    Knows o w (t :: past) (t.nextState (watchdogRun o w past) (lastResult o w t past)) := by
  obtain ⟨hkey, hstreak, hanswered⟩ := h.current
  unfold Tick.nextState
  dsimp only
  split_ifs with hhealthy hrest
  · exact ⟨hkey, fun n hn => ⟨Nat.le_zero.1 hn ▸ .zero _, Or.inl (Nat.le_zero.1 hn)⟩, fun _ => .now past hhealthy⟩
  · exact ⟨hkey, fun n hn => ⟨Nat.le_zero.1 hn ▸ .zero _, Or.inl (Nat.le_zero.1 hn)⟩, hanswered⟩
  · exact ⟨hkey, fun n hn => ⟨hstreak (by simpa using hhealthy) n hn, Or.inr hrest⟩, hanswered⟩

/-- **Step of the state, complete.** -/
theorem Recalls.next (h : Recalls o w past (t.readState (watchdogRun o w past))) :
    Recalls o w (t :: past) (t.nextState (watchdogRun o w past) (lastResult o w t past)) := by
  obtain ⟨hkey, hstreak, hanswered⟩ := h.current
  unfold Tick.nextState
  dsimp only
  split_ifs with hhealthy hrest
  · refine ⟨hkey, fun n hn _ => ?_, fun _ => rfl⟩
    cases hn with
    | zero => exact le_rfl
    | first _ hfail => exact absurd hhealthy (by rw [hfail]; exact Bool.false_ne_true)
    | next _ _ hfail _ => exact absurd hhealthy (by rw [hfail]; exact Bool.false_ne_true)
  · refine ⟨hkey, fun n hn hor => ?_, fun ha => hanswered ha (by simpa using hhealthy)⟩
    exact (hor.resolve_right fun hnot => hnot hrest).le
  · exact ⟨hkey, fun n hn _ => hstreak n hn, fun ha => hanswered ha (by simpa using hhealthy)⟩

/-- no write of the state file fails and leaves the old one there -/
def NoStale (ticks : List (Tick parseDate)) : Prop := ∀ t ∈ ticks, t.stateWrite ≠ .untouched

/-- the state file can be read and written -/
def StateWorks (ticks : List (Tick parseDate)) : Prop := ∀ t ∈ ticks, t.stateReadable = true ∧ t.stateWrite = .written

theorem StateWorks.noStale {ticks : List (Tick parseDate)} (h : StateWorks ticks) : NoStale ticks :=
  fun t ht huntouched => by rw [(h t ht).2] at huntouched; cases huntouched

theorem watchdogRun_stateFile (o : WatchdogProbeOptions) (w : Watchdog) (t : Tick parseDate)
    (past : List (Tick parseDate)) :
    ∃ w', watchdogRun o w (t :: past) = t.writeState w' (t.nextState (watchdogRun o w past) (lastResult o w t past)) := by
  obtain ⟨w', r, hrun⟩ := probe_state o (watchdogRun o w past) t
  exact ⟨w', by rw [watchdogRun, lastResult, hrun]⟩

/-- what a tick reads, when nothing stale is left in the file -/
theorem run_knows (hfresh : w.stateFile = none) (hw : NoStale past) (t : Tick parseDate) :
    Knows o w past (t.readState (watchdogRun o w past)) := by
  have hfile : Knows o w past (readWatchdogState (watchdogRun o w past).stateFile) := by
    induction past with
    | nil => exact hfresh ▸ knows_default []
    | cons u past ih =>
      have hnext := Knows.next (t := u) (by
        unfold Tick.readState
        split_ifs
        · exact ih fun v hv => hw v (List.mem_cons_of_mem _ hv)
        · exact knows_default past)
      obtain ⟨w', hrun⟩ := watchdogRun_stateFile o w u past
      rw [hrun]
      rcases Tick.writeState_stateFile (hw u List.mem_cons_self) with hlost | hkept
      · rw [hlost]
        exact knows_default _
      · rw [hkept, readWatchdogState_fields]
        exact hnext
  unfold Tick.readState
  split_ifs
  · exact hfile
  · exact knows_default past

theorem run_recalls (hfresh : w.stateFile = none) (hw : StateWorks past) (ht : t.stateReadable = true) :
    Recalls o w past (t.readState (watchdogRun o w past)) := by
  induction past generalizing t with
  | nil =>
    rw [Tick.readState, if_pos ht, watchdogRun, hfresh]
    exact recalls_default
  | cons u past ih =>
    obtain ⟨hread, hwritten⟩ := hw u List.mem_cons_self
    have hnext := (ih (fun v hv => hw v (List.mem_cons_of_mem _ hv)) hread).next
    obtain ⟨w', hrun⟩ := watchdogRun_stateFile o w u past
    have hfile : (watchdogRun o w (u :: past)).stateFile =
        some (u.nextState (watchdogRun o w past) (lastResult o w u past)).fields := by
      rw [hrun, Tick.writeState, hwritten]
    rw [Tick.readState, if_pos ht, hfile, readWatchdogState_fields]
    exact hnext

/-! ## What a stop rests on, and when it comes -/

/-- a tick that finds the daemon well and cannot write the state file is forgotten -/
theorem forgotten_tick {u : Tick parseDate} (hhealthy : u.healthy = true) (hfile : u.stateWrite = .untouched)
    (t : Tick parseDate) (past : List (Tick parseDate)) :
    lastResult o w t (u :: past) = lastResult o w t past := by
  have hrun : watchdogRun o w (u :: past) = watchdogRun o w past := by
    rw [watchdogRun, runWatchdogProbe]
    dsimp only
    rw [if_pos hhealthy, Tick.writeState, hfile]
  rw [lastResult, hrun, lastResult]

end

/-! ## A wedged daemon -/

/-- it is signalled, and its port goes quiet -/
def wedgedStop : StopCall fun _ => some 0 :=
  ⟨List.replicate 6 wedged, ⟨.stopped 42, some wedgedLock, wedged, true⟩, [], rfl⟩

/-- a tick that finds the lock of the wedged daemon -/
def wedgedTick (nowMs : Clock) (healthy : Bool) : Tick fun _ => some 0 :=
  { nowMs, lock := some wedgedLock, healthy, stop := some wedgedStop, killedAt := nowMs + 5000 }

/-- it answers once, and then no more -/
def wedgedPast : List (Tick fun _ => some 0) := [wedgedTick 180000 false, wedgedTick 0 true]

theorem kills_per_window_wedged :
    killTimes {} {} (fun t => t.appended && t.logReadable) (wedgedTick 360000 false :: wedgedPast) = [365000] ∧
      (killTimes {} {} (fun t => t.appended && t.logReadable) (wedgedTick 360000 false :: wedgedPast)).countP
        (fun ms => 0 ≤ ms ∧ ms ≤ 0 + RESTART_STORM_WINDOW_MS) ≤ RESTART_STORM_THRESHOLD := by
  have hchron : Chronological (wedgedTick 360000 false :: wedgedPast) := by
    simp [Chronological, wedgedPast, wedgedTick]
  exact ⟨by decide +kernel, kills_per_window {} {} hchron 0⟩

/-- What `writeWatchdogState` says of a failed write does not hold of one that leaves the old file: the daemon answers
between two failed probes, and the second of them stops it. -/
theorem stale_state_stops :
    let answered : Tick fun _ => some 0 := { wedgedTick 300000 true with stateWrite := .untouched }
    (lastResult {} {} (wedgedTick 360000 false) (answered :: wedgedPast)).stops = true ∧
      ¬ Silent {} {} DEFAULT_FAILURE_THRESHOLD (wedgedTick 360000 false :: answered :: wedgedPast) := by
  intro answered
  refine ⟨?_, fun h => ?_⟩
  · rw [forgotten_tick rfl rfl]
    decide +kernel
  · cases h with
    | next hone _ _ _ =>
      cases hone with
      | first _ hfail => cases hfail
      | next _ _ hfail _ => cases hfail

end AstramemLocal.Service
