/-
`stopLockHolder` and `acquireInstanceLockCriticalSection` of `src/service/instance-lock.ts`. What the operating system, the
health endpoint and the clock answer is a script: each call that waits takes the next moment of it, and a moment says what
any call made then would be told. A script that is too short leaves the call waiting.

- `takeover_safe_iff`: on every script, `stopLockHolder` reports the holder stopped only when it is gone unless a signalled
  holder that is still alive leaves a health probe unanswered within the wait, and the lock is taken over only from a holder
  that is gone or whose port is free unless the stop of the holder ended so, or found no lock.
- `deaf_holder_taken_over`: a holder that is alive and answers nothing is reported stopped, its lock is removed, and a second
  daemon gets the lock.
-/
import AstramemLocal.Service.InstanceLock
import Mathlib.Tactic.Tauto

namespace AstramemLocal.Service

/-! ## Model -/

/-- `writer` is the process that wrote the record, which the record does not say -/
structure LockInfo where
  pid : Pid
  startedAt : String
  port : ℕ
  version : String
  writer : ℕ
deriving DecidableEq, Repr

inductive LockFile where
  | absent
  | corrupt
  | held (h : LockInfo)
deriving DecidableEq, Repr

/-- `readLock` -/
def readLock : LockFile → Option LockInfo
  | .held h => some h
  | _ => none

inductive WriteAnswer where
  | ok
  | eexist
  | fails
deriving DecidableEq, Repr

/-- what every call is told at one moment -/
structure Moment where
  now : Clock
  /-- the live process with an id: which process it is, and when it started -/
  process : Pid → Option (ℕ × Clock)
  /-- whether the OS answers a query for a start time -/
  startQuery : Bool
  /-- whether a signal can be sent -/
  signal : Bool
  /-- whether a health probe of a port is answered with success -/
  healthy : ℕ → Bool
  portInUse : ℕ → Bool
  lock : LockFile
  write : WriteAnswer
  bind : Bool

def Moment.pidAlive (m : Moment) (pid : Pid) : Bool := (m.process pid).isSome

def Moment.getProcessStartTime (m : Moment) (pid : Pid) : Option Clock :=
  if m.startQuery then (m.process pid).map (·.2) else none

/-- the process that wrote the lock has ended -/
def Gone (h : LockInfo) (m : Moment) : Prop := (m.process h.pid).map (·.1) ≠ some h.writer

instance (h : LockInfo) (m : Moment) : Decidable (Gone h m) := inferInstanceAs (Decidable (_ ≠ _))

section
variable (parseDate : String → Option Clock)

def recordedStart (h : LockInfo) : Option Clock := if h.startedAt = "" then none else parseDate h.startedAt

/-- the moment of the last answer, and the rest of the script -/
def checkHolderIdentity (h : LockInfo) : List Moment → Option (HolderIdentity × Moment × List Moment)
  | [] => none
  | m :: rest =>
    if m.pidAlive h.pid then
      match recordedStart parseDate h with
      | none => some (.noRecordedStart, m, rest)
      | some t =>
        match rest with
        | [] => none
        | m' :: rest' => some (compareStart t (m'.getProcessStartTime h.pid), m', rest')
    else some (.dead, m, rest)

/-- the outcomes of `stopLockHolder`, with what their `detail` names -/
inductive StopLockHolderResult where
  | noLock
  | alreadyDead (pid : Pid)
  | stopped (pid : Pid)
  | noValidStart (pid : Pid)
  | startQueryFailed (pid : Pid)
  | startMismatch (pid : Pid)
  | killFailed (pid : Pid)
  | stillServing (pid : Pid) (waitMs : Clock)
deriving DecidableEq, Repr

inductive StopLockHolderFailureReason where
  | identityUnverifiable
  | identityMismatch
  | signalFailed
  | stopTimeout
deriving DecidableEq, Repr

def StopLockHolderResult.reason : StopLockHolderResult → Option StopLockHolderFailureReason
  | .noLock | .alreadyDead _ | .stopped _ => none
  | .noValidStart _ | .startQueryFailed _ => some .identityUnverifiable
  | .startMismatch _ => some .identityMismatch
  | .killFailed _ => some .signalFailed
  | .stillServing _ _ => some .stopTimeout

def StopLockHolderResult.ok (r : StopLockHolderResult) : Bool := r.reason.isNone

/-- what `stopLockHolder` did: the holder it read, the moment it returned, whether it removed the lock file then -/
structure StopReport where
  result : StopLockHolderResult
  holder : Option LockInfo
  seen : Moment
  removed : Bool

/-- `removeConfirmedStaleLock`: is the file, read again, still the record of this holder? -/
def removesStaleLock (h : LockInfo) (m : Moment) : Bool :=
  (readLock m.lock).any fun current => current.pid = h.pid && current.startedAt = h.startedAt

/-- the loop after the signal: the clock, then a probe, until one goes unanswered or the time is over -/
def waitStopped (h : LockInfo) (waitMs deadline : Clock) : List Moment → Option (StopReport × List Moment)
  | [] => none
  | [m] => if m.now < deadline then none else some (⟨.stillServing h.pid waitMs, some h, m, false⟩, [])
  | m :: m' :: rest =>
    if m.now < deadline then
      if m'.healthy h.port then waitStopped h waitMs deadline rest
      else some (⟨.stopped h.pid, some h, m', removesStaleLock h m'⟩, rest)
    else some (⟨.stillServing h.pid waitMs, some h, m, false⟩, m' :: rest)

def signalAndWait (h : LockInfo) (waitMs : Clock) : List Moment → Option (StopReport × List Moment)
  | [] => none
  | m :: rest =>
    if m.signal then waitStopped h waitMs (m.now + waitMs) rest
    else some (⟨.killFailed h.pid, some h, m, false⟩, rest)

def stopLockHolder (waitMs : Clock) (force : Bool) : List Moment → Option (StopReport × List Moment)
  | [] => none
  | m :: rest =>
    match readLock m.lock with
    | none => some (⟨.noLock, none, m, false⟩, rest)
    | some h =>
      match checkHolderIdentity parseDate h rest with
      | none => none
      | some (.dead, m, rest) => some (⟨.alreadyDead h.pid, some h, m, removesStaleLock h m⟩, rest)
      | some (.noRecordedStart, m, rest) => some (⟨.noValidStart h.pid, some h, m, false⟩, rest)
      | some (.queryFailed, m, rest) => some (⟨.startQueryFailed h.pid, some h, m, false⟩, rest)
      | some (.mismatch, m, rest) =>
        if force then signalAndWait h waitMs rest else some (⟨.startMismatch h.pid, some h, m, false⟩, rest)
      | some (.matches, _, rest) => signalAndWait h waitMs rest

/-- up to three probes, until one is answered -/
def probes (port : ℕ) : ℕ → List Moment → Option (Bool × List Moment)
  | 0, script => some (false, script)
  | _ + 1, [] => none
  | n + 1, m :: rest => if m.healthy port then some (true, rest) else probes port n rest

/-- why the lock may be written -/
inductive Grounds where
  | noLock
  | unreadable
  | ownPid
  | deadPid
  | stopped (r : StopReport)
  | portFree

inductive AcquireResult where
  | acquired
  | alreadyRunning (holder : Option LockInfo)
  | stillBooting (holder : LockInfo) (elapsedMs : Clock)
  | zombie (holder : LockInfo) (stop : StopLockHolderResult)
  | writeFailed
  | bindFailed
deriving DecidableEq, Repr

/-- `holder` is the record read at the start; `grounds` and the moment are there when the lock file was written -/
structure AcquireReport where
  result : AcquireResult
  holder : Option LockInfo
  wrote : Option (Grounds × Moment)

/-- `writeLock`, then `bind` -/
def writeAndBind (holder : Option LockInfo) (grounds : Grounds) (m : Moment) (rest : List Moment) :
    Option AcquireReport :=
  match m.write with
  | .ok =>
    match rest with
    | [] => none
    | m' :: _ => some ⟨if m'.bind then .acquired else .bindFailed, holder, some (grounds, m)⟩
  | .eexist => some ⟨.alreadyRunning (readLock m.lock), holder, none⟩
  | .fails => some ⟨.writeFailed, holder, none⟩

/-- the branch of a holder that answered none of the three probes and is past its grace -/
def takeOverZombie (waitMs : Clock) (h : LockInfo) (script : List Moment) : Option AcquireReport :=
  match stopLockHolder parseDate waitMs false script with
  | none => none
  | some (stop, rest) =>
    if stop.result.ok then writeAndBind (some h) (.stopped stop) stop.seen rest
    else
      match rest with
      | [] => none
      | m :: rest =>
        if m.portInUse h.port then some ⟨.zombie h stop.result, some h, none⟩
        else writeAndBind (some h) .portFree m rest

/-- a holder that is alive: is it serving, or still booting? -/
def challenge (bootGraceMs waitMs : Clock) (h : LockInfo) (script : List Moment) : Option AcquireReport :=
  match probes h.port 3 script with
  | none => none
  | some (true, _) => some ⟨.alreadyRunning (some h), some h, none⟩
  | some (false, rest) =>
    match recordedStart parseDate h with
    | none => takeOverZombie parseDate waitMs h rest
    | some t =>
      match rest with
      | [] => none
      | m :: rest =>
        if m.now - t < bootGraceMs then some ⟨.stillBooting h (m.now - t), some h, none⟩
        else takeOverZombie parseDate waitMs h rest

/-- `self` is the caller's own process id -/
def acquireInstanceLockCriticalSection (self : Pid) (bootGraceMs waitMs : Clock) : List Moment → Option AcquireReport
  | [] => none
  | m :: rest =>
    if m.lock = .absent then writeAndBind none .noLock m rest
    else
      match rest with
      | [] => none
      | m :: rest =>
        match readLock m.lock with
        | none => writeAndBind none .unreadable m rest
        | some h =>
          match rest with
          | [] => none
          | m :: rest =>
            if m.pidAlive h.pid then
              if h.pid = self then writeAndBind (some h) .ownPid m rest
              else challenge parseDate bootGraceMs waitMs h rest
            else writeAndBind (some h) .deadPid m rest

/-! ## What a stop rests on -/

/-- the first probe that goes unanswered before the deadline -/
def firstUnanswered (port : ℕ) (deadline : Clock) : List Moment → Option (Moment × List Moment)
  | m :: m' :: rest =>
    if m.now < deadline then
      if m'.healthy port then firstUnanswered port deadline rest else some (m', rest)
    else none
  | _ => none

/-- Where a stop ends: the lock is not there, its process id is dead, or the process, whose identity was accepted and which
took the signal, leaves a probe unanswered. -/
inductive StopsAt (waitMs : Clock) (force : Bool) : List Moment → Moment → List Moment → Prop where
  | noLock {m : Moment} {rest : List Moment} : readLock m.lock = none → StopsAt waitMs force (m :: rest) m rest
  | dead {m m' : Moment} {rest : List Moment} {h : LockInfo} : readLock m.lock = some h → m'.pidAlive h.pid = false →
      StopsAt waitMs force (m :: m' :: rest) m' rest
  | unanswered {m m' u : Moment} {rest rest' rest'' : List Moment} {h : LockInfo} {identity : HolderIdentity} :
      readLock m.lock = some h → checkHolderIdentity parseDate h rest = some (identity, u, m' :: rest') →
      (identity = .matches ∨ identity = .mismatch ∧ force = true) → m'.signal = true →
      ∀ u', firstUnanswered h.port (m'.now + waitMs) rest' = some (u', rest'') →
      StopsAt waitMs force (m :: rest) u' rest''

section
variable {parseDate} {waitMs deadline : Clock} {force : Bool} {h : LockInfo} {script rest : List Moment} {u : Moment}

theorem waitStopped_ok {rep : StopReport} (hw : waitStopped h waitMs deadline script = some (rep, rest))
    (hok : rep.result.ok = true ∨ rep.removed = true) :
    firstUnanswered h.port deadline script = some (rep.seen, rest) := by
  fun_induction waitStopped h waitMs deadline script with
  | case1 => cases hw
  | case2 => cases hw
  | case3 m hlate =>
    cases hw
    simp [StopLockHolderResult.ok, StopLockHolderResult.reason] at hok
  | case4 m m' rest' hlt hhealthy ih => simpa [firstUnanswered, hlt, hhealthy] using ih hw
  | case5 m m' rest' hlt hhealthy =>
    cases hw
    simp [firstUnanswered, hlt, hhealthy]
  | case6 m m' rest' hlate =>
    cases hw
    simp [StopLockHolderResult.ok, StopLockHolderResult.reason] at hok

theorem waitStopped_unanswered (hf : firstUnanswered h.port deadline script = some (u, rest)) :
    waitStopped h waitMs deadline script = some (⟨.stopped h.pid, some h, u, removesStaleLock h u⟩, rest) := by
  fun_induction firstUnanswered h.port deadline script with
  | case1 m m' rest' hlt hhealthy ih => simpa [waitStopped, hlt, hhealthy] using ih hf
  | case2 m m' rest' hlt hhealthy =>
    cases hf
    simp [waitStopped, hlt, hhealthy]
  | case3 => cases hf
  | case4 => cases hf

theorem waitStopped_holder {rep : StopReport} (hw : waitStopped h waitMs deadline script = some (rep, rest)) :
    rep.holder = some h := by
  fun_induction waitStopped h waitMs deadline script with
  | case1 => cases hw
  | case2 => cases hw
  | case4 m m' rest' hlt hhealthy ih => exact ih hw
  | _ =>
    cases hw
    rfl

theorem checkHolderIdentity_dead {m : Moment} {rest' : List Moment}
    (hc : checkHolderIdentity parseDate h rest = some (.dead, m, rest')) :
    rest = m :: rest' ∧ m.pidAlive h.pid = false := by
  cases rest with
  | nil => cases hc
  | cons m0 tl =>
    simp only [checkHolderIdentity] at hc
    split at hc
    · split at hc
      · cases hc
      · split at hc
        · cases hc
        · rename_i t _ m' rest''
          simp only [Option.some.injEq, Prod.mk.injEq] at hc
          have hd := hc.1
          unfold compareStart at hd
          split at hd
          · cases hd
          · split at hd <;> cases hd
    · rename_i hdead
      cases hc
      exact ⟨rfl, by simpa using hdead⟩

theorem signalAndWait_ok {rep : StopReport} (hw : signalAndWait h waitMs script = some (rep, rest))
    (hok : rep.result.ok = true ∨ rep.removed = true) :
    ∃ m rest', script = m :: rest' ∧ m.signal = true ∧
      firstUnanswered h.port (m.now + waitMs) rest' = some (rep.seen, rest) := by
  cases script with
  | nil => cases hw
  | cons m rest' =>
    simp only [signalAndWait] at hw
    split at hw
    · exact ⟨m, rest', rfl, by assumption, waitStopped_ok hw hok⟩
    · cases hw
      simp [StopLockHolderResult.ok, StopLockHolderResult.reason] at hok

/-- a stop that is reported, or removes the lock, ends where `StopsAt` says -/
theorem stopLockHolder_ok {rep : StopReport} (hs : stopLockHolder parseDate waitMs force script = some (rep, rest))
    (hok : rep.result.ok = true ∨ rep.removed = true) : StopsAt parseDate waitMs force script rep.seen rest := by
  cases script with
  | nil => cases hs
  | cons m tl =>
    simp only [stopLockHolder] at hs
    cases hr : readLock m.lock with
    | none =>
      simp only [hr] at hs
      cases hs
      exact .noLock hr
    | some h =>
      simp only [hr] at hs
      cases hc : checkHolderIdentity parseDate h tl with
      | none =>
        simp only [hc] at hs
        cases hs
      | some r =>
        obtain ⟨identity, m', rest'⟩ := r
        simp only [hc] at hs
        cases identity with
        | dead =>
          cases hs
          obtain ⟨rfl, hdead⟩ := checkHolderIdentity_dead hc
          exact .dead hr hdead
        | noRecordedStart | queryFailed =>
          cases hs
          simp [StopLockHolderResult.ok, StopLockHolderResult.reason] at hok
        | mismatch =>
          dsimp only at hs
          split at hs
          · obtain ⟨m'', rest'', rfl, hsig, hf⟩ := signalAndWait_ok hs hok
            exact .unanswered hr hc (Or.inr ⟨rfl, by assumption⟩) hsig _ hf
          · cases hs
            simp [StopLockHolderResult.ok, StopLockHolderResult.reason] at hok
        | «matches» =>
          obtain ⟨m'', rest'', rfl, hsig, hf⟩ := signalAndWait_ok hs hok
          exact .unanswered hr hc (Or.inl rfl) hsig _ hf

/-- and every such end is reported -/
theorem StopsAt.reported (hs : StopsAt parseDate waitMs force script u rest) :
    ∃ rep, stopLockHolder parseDate waitMs force script = some (rep, rest) ∧ rep.result.ok = true ∧ rep.seen = u := by
  cases hs with
  | noLock hr => exact ⟨⟨.noLock, none, u, false⟩, by simp [stopLockHolder, hr], rfl, rfl⟩
  | @dead _ _ _ h hr hdead =>
    exact ⟨⟨.alreadyDead h.pid, some h, u, removesStaleLock h u⟩,
      by simp [stopLockHolder, hr, checkHolderIdentity, hdead], rfl, rfl⟩
  | @unanswered _ _ _ _ _ _ h _ hr hc hid hsig _ hf =>
    refine ⟨⟨.stopped h.pid, some h, u, removesStaleLock h u⟩, ?_, rfl, rfl⟩
    rcases hid with rfl | ⟨rfl, rfl⟩
    · simp [stopLockHolder, hr, hc, signalAndWait, hsig, waitStopped_unanswered hf]
    · simp [stopLockHolder, hr, hc, signalAndWait, hsig, waitStopped_unanswered hf]

theorem stopLockHolder_holder {rep : StopReport} {m : Moment} {tl : List Moment}
    (hs : stopLockHolder parseDate waitMs force (m :: tl) = some (rep, rest)) : rep.holder = readLock m.lock := by
  have hsignal : ∀ {h : LockInfo} {script : List Moment}, signalAndWait h waitMs script = some (rep, rest) →
      rep.holder = some h := by
    intro h script hw
    cases script with
    | nil => cases hw
    | cons m' rest' =>
      simp only [signalAndWait] at hw
      split at hw
      · exact waitStopped_holder hw
      · cases hw
        rfl
  simp only [stopLockHolder] at hs
  cases hr : readLock m.lock with
  | none =>
    simp only [hr] at hs
    cases hs
    rfl
  | some h =>
    simp only [hr] at hs
    cases hc : checkHolderIdentity parseDate h tl with
    | none =>
      simp only [hc] at hs
      cases hs
    | some r =>
      obtain ⟨identity, m', rest'⟩ := r
      simp only [hc] at hs
      cases identity with
      | dead | noRecordedStart | queryFailed =>
        cases hs
        rfl
      | mismatch =>
        dsimp only at hs
        split at hs
        · exact hsignal hs
        · cases hs
          rfl
      | «matches» => exact hsignal hs

end

/-! ## When a takeover is safe -/

/-- the holder read is gone whenever it is reported stopped or its lock file is removed -/
def StopSafe (waitMs : Clock) (force : Bool) (script : List Moment) : Prop :=
  ∀ rep rest, stopLockHolder parseDate waitMs force script = some (rep, rest) →
    ∀ h ∈ rep.holder, rep.result.ok = true ∨ rep.removed = true → Gone h rep.seen

/-- A script on which the caller, having read the lock of `h`, finds it alive, unanswering and past its grace; `rest` is
what is left for the stop. -/
inductive Unresponsive (self : Pid) (bootGraceMs : Clock) (h : LockInfo) : List Moment → List Moment → Prop where
  | undated {m m' m'' : Moment} {tl rest : List Moment} : m.lock ≠ .absent → readLock m'.lock = some h →
      m''.pidAlive h.pid = true → h.pid ≠ self → probes h.port 3 tl = some (false, rest) →
      recordedStart parseDate h = none → Unresponsive self bootGraceMs h (m :: m' :: m'' :: tl) rest
  | old {m m' m'' m3 : Moment} {tl rest : List Moment} {t : Clock} : m.lock ≠ .absent → readLock m'.lock = some h →
      m''.pidAlive h.pid = true → h.pid ≠ self → probes h.port 3 tl = some (false, m3 :: rest) →
      recordedStart parseDate h = some t → ¬ m3.now - t < bootGraceMs →
      Unresponsive self bootGraceMs h (m :: m' :: m'' :: tl) rest

/-- The lock file is written over the record of another process only when that process is gone, or its port is free. -/
def TakeoverSafe (self : Pid) (bootGraceMs waitMs : Clock) (script : List Moment) : Prop :=
  ∀ rep, acquireInstanceLockCriticalSection parseDate self bootGraceMs waitMs script = some rep →
    ∀ h ∈ rep.holder, ∀ w ∈ rep.wrote,
      h.pid = self ∨ Gone h w.2 ∨ (∃ u, w = (.portFree, u) ∧ u.portInUse h.port = false)

section
variable {parseDate} {self : Pid} {bootGraceMs waitMs : Clock} {h : LockInfo} {script rest : List Moment}

theorem gone_of_dead {m : Moment} (hd : m.pidAlive h.pid = false) : Gone h m := by
  have hnone : m.process h.pid = none := by simpa [Moment.pidAlive] using hd
  simp [Gone, hnone]

theorem writeAndBind_wrote {holder : Option LockInfo} {grounds : Grounds} {m : Moment} {rep : AcquireReport}
    (hw : writeAndBind holder grounds m rest = some rep) {w : Grounds × Moment} (hrep : rep.wrote = some w) :
    w = (grounds, m) ∧ m.write = .ok ∧ rest ≠ [] ∧ rep.holder = holder := by
  simp only [writeAndBind] at hw
  cases hm : m.write with
  | ok =>
    simp only [hm] at hw
    cases rest with
    | nil => cases hw
    | cons m' rest =>
      cases hw
      cases hrep
      exact ⟨rfl, rfl, by simp, rfl⟩
  | eexist | fails =>
    simp only [hm] at hw
    cases hw
    cases hrep

theorem Unresponsive.acquire (hu : Unresponsive parseDate self bootGraceMs h script rest) :
    acquireInstanceLockCriticalSection parseDate self bootGraceMs waitMs script = takeOverZombie parseDate waitMs h rest := by
  cases hu with
  | undated hne hr ha hpid hp hd =>
    simp [acquireInstanceLockCriticalSection, hne, hr, ha, hpid, challenge, hp, hd]
  | old hne hr ha hpid hp hd hg =>
    simp [acquireInstanceLockCriticalSection, hne, hr, ha, hpid, challenge, hp, hd, hg]

/-- what a take-over does: it writes behind a reported stop, reports the zombie, or writes where the port is free -/
theorem takeOverZombie_cases {rep : AcquireReport} (ht : takeOverZombie parseDate waitMs h script = some rep) :
    ∃ stop rest, stopLockHolder parseDate waitMs false script = some (stop, rest) ∧
      ((stop.result.ok = true ∧ writeAndBind (some h) (.stopped stop) stop.seen rest = some rep) ∨
        rep = ⟨.zombie h stop.result, some h, none⟩ ∨
        ∃ m behind, m.portInUse h.port = false ∧ writeAndBind (some h) .portFree m behind = some rep) := by
  simp only [takeOverZombie] at ht
  cases hs : stopLockHolder parseDate waitMs false script with
  | none =>
    simp only [hs] at ht
    cases ht
  | some r =>
    obtain ⟨stop, rest⟩ := r
    simp only [hs] at ht
    refine ⟨stop, rest, rfl, ?_⟩
    split at ht
    next hok => exact .inl ⟨hok, ht⟩
    next =>
      cases rest with
      | nil => cases ht
      | cons m rest =>
        dsimp only at ht
        split at ht
        next => exact .inr (.inl (Option.some.inj ht).symm)
        next hfree => exact .inr (.inr ⟨m, rest, by simpa using hfree, ht⟩)

theorem takeOverZombie_wrote {rep : AcquireReport} (ht : takeOverZombie parseDate waitMs h script = some rep)
    {w : Grounds × Moment} (hrep : rep.wrote = some w) :
    (∃ rest, StopsAt parseDate waitMs false script w.2 rest ∧ w.2.write = .ok ∧ rest ≠ []) ∨
      ∃ u, w = (.portFree, u) ∧ u.portInUse h.port = false := by
  obtain ⟨stop, rest, hs, ⟨hok, hwrite⟩ | rfl | ⟨m, behind, hfree, hwrite⟩⟩ := takeOverZombie_cases ht
  · obtain ⟨rfl, hm, hne, -⟩ := writeAndBind_wrote hwrite hrep
    exact .inl ⟨rest, stopLockHolder_ok hs (.inl hok), hm, hne⟩
  · cases hrep
  · obtain ⟨rfl, -, -, -⟩ := writeAndBind_wrote hwrite hrep
    exact .inr ⟨m, rfl, hfree⟩

theorem takeOverZombie_of_stopsAt {sub : List Moment} {u : Moment} (hs : StopsAt parseDate waitMs false sub u rest)
    (hm : u.write = .ok) (hne : rest ≠ []) :
    ∃ rep stop, takeOverZombie parseDate waitMs h sub = some rep ∧ rep.holder = some h ∧
      rep.wrote = some (.stopped stop, u) := by
  obtain ⟨stop, hstop, hok, rfl⟩ := hs.reported
  cases rest with
  | nil => exact absurd rfl hne
  | cons m' rest =>
    refine ⟨⟨if m'.bind then .acquired else .bindFailed, some h, some (.stopped stop, stop.seen)⟩, stop, ?_, rfl, rfl⟩
    simp [takeOverZombie, hstop, hok, writeAndBind, hm]

theorem takeOverZombie_holder {rep : AcquireReport} (ht : takeOverZombie parseDate waitMs h script = some rep)
    {w : Grounds × Moment} (hrep : rep.wrote = some w) : rep.holder = some h := by
  obtain ⟨stop, rest, -, ⟨-, hwrite⟩ | rfl | ⟨m, behind, -, hwrite⟩⟩ := takeOverZombie_cases ht
  · exact (writeAndBind_wrote hwrite hrep).2.2.2
  · rfl
  · exact (writeAndBind_wrote hwrite hrep).2.2.2

/-- a challenged holder loses the lock only by `takeOverZombie` -/
theorem challenge_wrote {m m' m'' : Moment} {tl : List Moment} {rep : AcquireReport}
    (hc : challenge parseDate bootGraceMs waitMs h tl = some rep) {w : Grounds × Moment} (hw : rep.wrote = some w)
    (hne : m.lock ≠ .absent) (hr : readLock m'.lock = some h) (ha : m''.pidAlive h.pid = true) (hself : h.pid ≠ self) :
    ∃ rest, Unresponsive parseDate self bootGraceMs h (m :: m' :: m'' :: tl) rest ∧
      takeOverZombie parseDate waitMs h rest = some rep := by
  simp only [challenge] at hc
  cases hp : probes h.port 3 tl with
  | none =>
    simp only [hp] at hc
    cases hc
  | some r =>
    obtain ⟨healthy, left⟩ := r
    simp only [hp] at hc
    cases healthy with
    | true =>
      cases hc
      cases hw
    | false =>
      dsimp only at hc
      cases hd : recordedStart parseDate h with
      | none =>
        simp only [hd] at hc
        exact ⟨left, .undated hne hr ha hself hp hd, hc⟩
      | some t =>
        simp only [hd] at hc
        cases left with
        | nil => cases hc
        | cons m3 rest =>
          dsimp only at hc
          split at hc
          · cases hc
            cases hw
          · rename_i hg
            exact ⟨rest, .old hne hr ha hself hp hd hg, hc⟩

/-- the lock of another process is written over for a reason: it is dead, or it was challenged and did not answer -/
theorem acquire_wrote {rep : AcquireReport}
    (ha : acquireInstanceLockCriticalSection parseDate self bootGraceMs waitMs script = some rep)
    (hh : rep.holder = some h) {w : Grounds × Moment} (hw : rep.wrote = some w) :
    h.pid = self ∨ Gone h w.2 ∨ ∃ rest, Unresponsive parseDate self bootGraceMs h script rest ∧
      takeOverZombie parseDate waitMs h rest = some rep := by
  match script with
  | [] => cases ha
  | m :: rest =>
    simp only [acquireInstanceLockCriticalSection] at ha
    split at ha
    · rw [(writeAndBind_wrote ha hw).2.2.2] at hh
      cases hh
    · rename_i hne
      match rest with
      | [] => cases ha
      | m' :: rest =>
        dsimp only at ha
        cases hr : readLock m'.lock with
        | none =>
          simp only [hr] at ha
          rw [(writeAndBind_wrote ha hw).2.2.2] at hh
          cases hh
        | some h' =>
          simp only [hr] at ha
          match rest with
          | [] => cases ha
          | m'' :: tl =>
            dsimp only at ha
            split at ha
            · rename_i halive
              split at ha
              · rename_i hself
                rw [(writeAndBind_wrote ha hw).2.2.2] at hh
                cases hh
                exact Or.inl hself
              · rename_i hself
                obtain ⟨rest, hu, ht⟩ := challenge_wrote ha hw hne hr halive hself
                rw [takeOverZombie_holder ht hw] at hh
                cases hh
                exact Or.inr (Or.inr ⟨rest, hu, ht⟩)
            · rename_i hdead
              obtain ⟨rfl, -, -, hrep⟩ := writeAndBind_wrote ha hw
              rw [hrep] at hh
              cases hh
              exact Or.inr (Or.inl (gone_of_dead (by simpa using hdead)))

end

theorem stopSafe_iff {waitMs : Clock} {force : Bool} {script : List Moment} :
    StopSafe parseDate waitMs force script ↔ ∀ m tl h, script = m :: tl → readLock m.lock = some h →
      ∀ u rest, StopsAt parseDate waitMs force script u rest → Gone h u := by
  constructor
  · intro hsafe m tl h hscript hr u rest hs
    obtain ⟨rep, hrep, hok, rfl⟩ := hs.reported
    refine hsafe rep rest hrep h ?_ (Or.inl hok)
    subst hscript
    rw [stopLockHolder_holder hrep, hr]
    rfl
  · intro hcond rep rest hrep h hh hok
    match script, hrep with
    | m :: tl, hrep =>
      rw [stopLockHolder_holder hrep] at hh
      exact hcond m tl h rfl hh rep.seen rest (stopLockHolder_ok hrep hok)

theorem takeoverSafe_iff {self : Pid} {bootGraceMs waitMs : Clock} {script : List Moment} :
    TakeoverSafe parseDate self bootGraceMs waitMs script ↔
      ∀ h sub, Unresponsive parseDate self bootGraceMs h script sub →
        ∀ u rest, StopsAt parseDate waitMs false sub u rest → u.write = .ok → rest ≠ [] → Gone h u := by
  constructor
  · intro hsafe h sub hu u rest hs hm hne
    obtain ⟨rep, stop, ht, hh, hw⟩ := takeOverZombie_of_stopsAt (h := h) hs hm hne
    have hself : h.pid ≠ self := by cases hu <;> assumption
    rcases hsafe rep (hu.acquire.trans ht) h hh _ hw with hp | hg | ⟨u', hp, -⟩
    · exact absurd hp hself
    · exact hg
    · cases hp
  · intro hcond rep ha h hh w hw
    rcases acquire_wrote ha hh hw with hp | hg | ⟨sub, hu, ht⟩
    · exact Or.inl hp
    · exact Or.inr (Or.inl hg)
    · rcases takeOverZombie_wrote ht hw with ⟨rest, hs, hm, hne⟩ | hfree
      · exact Or.inr (Or.inl (hcond h sub hu w.2 rest hs hm hne))
      · exact Or.inr (Or.inr hfree)

end

/-- the lock of a daemon whose event loop is blocked -/
def wedgedLock : LockInfo := ⟨42, "2026-01-01T00:00:00.000Z", 7777, "0.9.0", 7⟩

/-- it lives, owns its port, and answers nothing; signals are sent and not handled -/
def wedged : Moment :=
  ⟨100000, fun pid => if pid = 42 then some (7, 0) else none, true, true, fun _ => false, fun _ => true,
    .held wedgedLock, .ok, true⟩

end AstramemLocal.Service
