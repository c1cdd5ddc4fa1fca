/-
`acquireMutex` and the `release` it returns, of `src/service/instance-lock.ts`: any number of processes, each file-system
call one step. The sentinel is a file at a fixed path: it is created empty by an exclusive open, filled by a write through
the descriptor, read by rivals, and removed by name. A process id names at most one live process, and is free again when
that process dies.

- `mutex_exclusive`: along a run in which no rival fails to read, or finds empty, the sentinel of a live process, finds
  that a live holder took the mutex long after it started, or removes by name another file than the one it judged, at most
  one process is between creating the sentinel and having released it, and no process removes the sentinel of another
  live one.
- `empty_sentinel_stolen`: a rival that reads between the open and the write removes the sentinel, and both processes are
  in the critical section.
-/
import AstramemLocal.Core.Runs
import AstramemLocal.Service.InstanceLock

namespace AstramemLocal.Service

open AstramemLocal.Core

/-! ## Model -/

/-- what `JSON.parse` makes of a sentinel; `startedAt` is read as a date -/
structure Recorded where
  pid : Option Pid
  startedAt : Option Clock
deriving DecidableEq, Repr

/-- A file created at the sentinel's path. `serial` tells the files apart, `creator` is the process that made it, `none`
for one left from before; the code sees neither. `content` is `none` while the file is empty or not JSON. -/
structure Sentinel where
  serial : ℕ
  creator : Option ℕ
  content : Option Recorded
deriving DecidableEq, Repr

/-- where a process is in `acquireMutex`; `fd` is the serial number of the file its descriptor stands for -/
inductive Pc where
  | idle
  | opening (deadline : Clock)
  | created (fd : ℕ)
  | written (fd : ℕ)
  | critical (fd : ℕ)
  | releasing (fd : ℕ)
  | contended (deadline : Clock)
  | judging (seen : Sentinel) (holderPid : Pid) (holderStartedAt : Option Clock) (deadline : Clock)
  | querying (seen : Sentinel) (holderPid : Pid) (recordedStart : Clock) (deadline : Clock)
  | stale (seen : Option Sentinel) (deadline : Clock)
  | polling (deadline : Clock)
deriving DecidableEq, Repr

structure Process where
  pid : Pid
  /-- when the OS says it started -/
  started : Clock
  alive : Bool
  pc : Pc
deriving DecidableEq, Repr

structure Machine where
  path : Option Sentinel
  /-- serial numbers given out -/
  made : ℕ
  procs : List Process
deriving DecidableEq, Repr

inductive Event where
  | spawn (pid : Pid) (started : Clock)
  | crash (p : ℕ)
  | call (p : ℕ) (now : Clock) (timeoutMs : Clock)
  /-- the next call of process `p`: `now` is what its clock says, `ok` whether the call goes through -/
  | next (p : ℕ) (now : Clock) (ok : Bool)
deriving DecidableEq, Repr

/-- `process.kill(pid, 0)` -/
def pidAlive (s : Machine) (pid : Pid) : Bool := s.procs.any fun q => q.alive && q.pid == pid

/-- `getProcessStartTime`, where the query itself goes through -/
def startOf (s : Machine) (pid : Pid) : Option Clock := (s.procs.find? fun q => q.alive && q.pid == pid).map (·.started)

def Machine.goto (s : Machine) (p : ℕ) (pc : Pc) : Machine :=
  { s with procs := s.procs.modify p fun q => { q with pc := pc } }

/-- `writeSync` through a descriptor reaches the file at the path only while it is the same file -/
def fill (fd : ℕ) (r : Recorded) (f : Sentinel) : Sentinel := if f.serial = fd then { f with content := some r } else f

def holderPid (path : Option Sentinel) : Option Pid := path.bind fun f => f.content.bind (·.pid)

def next (s : Machine) (p : ℕ) (q : Process) (now : Clock) (ok : Bool) : Machine :=
  match q.pc with
  | .idle => s
  | .opening deadline =>
    if ok then
      match s.path with
      | some _ => s.goto p (.contended deadline)
      | none => { s with path := some ⟨s.made, some p, none⟩, made := s.made + 1 }.goto p (.created s.made)
    else s.goto p .idle
  | .created fd =>
    if ok then { s with path := s.path.map (fill fd ⟨some q.pid, some now⟩) }.goto p (.written fd) else s.goto p .idle
  | .written fd => if ok then s.goto p (.critical fd) else s.goto p .idle
  | .critical fd => if ok ∧ holderPid s.path = some q.pid then s.goto p (.releasing fd) else s.goto p .idle
  | .releasing _ => if ok then { s with path := none }.goto p .idle else s.goto p .idle
  | .contended deadline =>
    match s.path with
    | none => s.goto p (.stale none deadline)
    | some f =>
      match if ok then f.content else none with
      | some ⟨some pid, startedAt⟩ => s.goto p (.judging f pid startedAt deadline)
      | _ => s.goto p (.stale (some f) deadline)
  | .judging f pid startedAt deadline =>
    if pidAlive s pid then
      match startedAt with
      | none => s.goto p (.polling deadline)
      | some t => s.goto p (.querying f pid t deadline)
    else s.goto p (.stale (some f) deadline)
  | .querying f pid t deadline =>
    if compareStart t (if ok then startOf s pid else none) = .mismatch then s.goto p (.stale (some f) deadline)
    else s.goto p (.polling deadline)
  | .stale _ deadline => if ok then { s with path := none }.goto p (.opening deadline) else s.goto p (.opening deadline)
  | .polling deadline => if deadline ≤ now then s.goto p .idle else s.goto p (.opening deadline)

def live (s : Machine) (p : ℕ) : Option Process := (s.procs[p]?).filter (·.alive)

def step (s : Machine) : Event → Machine
  | .spawn pid started =>
    if pidAlive s pid then s else { s with procs := s.procs ++ [⟨pid, started, true, .idle⟩] }
  | .crash p => { s with procs := s.procs.modify p fun q => { q with alive := false } }
  | .call p now timeoutMs =>
    match live s p with
    | some q => if q.pc = .idle then s.goto p (.opening (now + timeoutMs)) else s
    | none => s
  | .next p now ok =>
    match live s p with
    | some q => next s p q now ok
    | none => s

/-- no process yet; a sentinel may have been left behind -/
def start (left : Option (Option Recorded)) : Machine := ⟨left.map fun r => ⟨0, none, r⟩, 1, []⟩

def run (s : Machine) (es : List Event) : Machine := es.foldl step s

/-! ## Exclusion -/

/-- the file a process has created and not yet removed -/
def Pc.fd? : Pc → Option ℕ
  | .created fd | .written fd | .critical fd | .releasing fd => some fd
  | _ => none

/-- the live process `p` is between creating its sentinel and having released it -/
def Holds (s : Machine) (p : ℕ) (fd : ℕ) : Prop := ∃ q, live s p = some q ∧ q.pc.fd? = some fd

def Exclusive (s : Machine) : Prop := ∀ p r fd fd', Holds s p fd → Holds s r fd' → p = r

/-- no process removes, or replaces, the sentinel of another live process -/
def Unrobbed (s : Machine) : Event → Prop
  | .next p now ok => ∀ r fd, r ≠ p → Holds s r fd → s.path.map (·.serial) = some fd →
      (step s (.next p now ok)).path.map (·.serial) = some fd
  | _ => True

/-- is some live process using this file -/
def heldBy (s : Machine) (serial : ℕ) : Bool := s.procs.any fun q => q.alive && q.pc.fd? == some serial

/-- What a rival must not meet: a sentinel it cannot read, or finds empty, while its creator still runs; a live holder that started long before it
took the mutex, or whose clock was set; another sentinel, at the moment of the removal, than the one it judged. -/
def Undisturbed (s : Machine) : Event → Bool
  | .next p _ ok =>
    match live s p with
    | none => true
    | some q =>
      match q.pc with
      | .contended _ => s.path.all fun f => ok && (holderPid s.path).isSome || !heldBy s f.serial
      | .querying f _ t _ => !ok || (f.creator.bind (live s)).all fun c =>
          c.pc.fd? ≠ some f.serial || |c.started - t| ≤ IDENTITY_TOLERANCE_MS
      | .stale seen _ => !ok || s.path.all fun f => seen.map (·.serial) = some f.serial
      | _ => true
  | _ => true

/-! ## Steps -/

theorem live_some {s : Machine} {p : ℕ} {q : Process} : live s p = some q ↔ s.procs[p]? = some q ∧ q.alive = true := by
  simp [live, Option.filter_eq_some_iff]

@[simp] theorem goto_path (s : Machine) (p : ℕ) (pc : Pc) : (s.goto p pc).path = s.path := rfl
@[simp] theorem goto_made (s : Machine) (p : ℕ) (pc : Pc) : (s.goto p pc).made = s.made := rfl

theorem live_goto (s : Machine) (p r : ℕ) (pc : Pc) :
    live (s.goto p pc) r = if p = r then (live s r).map ({ · with pc := pc }) else live s r := by
  simp only [live, Machine.goto, List.getElem?_modify]
  split
  · cases s.procs[r]? with
    | none => rfl
    | some q => cases h : q.alive <;> simp [Option.filter, h]
  · cases s.procs[r]? <;> rfl

theorem live_goto_self {s : Machine} {p : ℕ} {q : Process} (h : live s p = some q) (pc : Pc) :
    live (s.goto p pc) p = some { q with pc := pc } := by
  simp [live_goto, h]

theorem live_goto_ne {s : Machine} {p r : ℕ} (h : r ≠ p) (pc : Pc) : live (s.goto p pc) r = live s r := by
  rw [live_goto, if_neg (Ne.symm h)]

/-- a process moves no other process -/
theorem live_next_ne {s : Machine} {p r : ℕ} (h : r ≠ p) (q : Process) (now : Clock) (ok : Bool) :
    live (next s p q now ok) r = live s r := by
  unfold next
  cases q.pc with
  | idle => rfl
  | opening d =>
    dsimp only
    split
    · cases s.path with
      | some f => exact live_goto_ne h _
      | none => exact live_goto_ne h _
    · exact live_goto_ne h _
  | contended d =>
    dsimp only
    cases s.path with
    | none => exact live_goto_ne h _
    | some f =>
      dsimp only
      generalize (if ok then f.content else none) = c
      split
      · exact live_goto_ne h _
      · exact live_goto_ne h _
  | judging f pid t d =>
    cases t <;> dsimp only <;> split <;> exact live_goto_ne h _
  | querying f pid t d =>
    dsimp only
    by_cases hm : compareStart t (if ok then startOf s pid else none) = .mismatch
    · rw [if_pos hm]
      exact live_goto_ne h _
    · rw [if_neg hm]
      exact live_goto_ne h _
  | created fd | written fd | critical fd | releasing fd | stale f d | polling d =>
    dsimp only
    split <;> exact live_goto_ne h _

theorem heldBy_false {s : Machine} {serial : ℕ} (h : heldBy s serial = false) (r : ℕ) : ¬ Holds s r serial := by
  rintro ⟨q, hq, hfd⟩
  obtain ⟨hget, ha⟩ := live_some.1 hq
  have := List.any_eq_false.1 h q (List.mem_of_getElem? hget)
  simp [ha, hfd] at this

/-! ## Invariant -/

/-- while a process uses its file, the file is the one at the path -/
def OwnOk (path : Option Sentinel) (p : ℕ) (pid : Pid) : Pc → Prop
  | .created fd => path = some ⟨fd, some p, none⟩
  | .written fd | .critical fd | .releasing fd => ∃ t, path = some ⟨fd, some p, some ⟨some pid, some t⟩⟩
  | _ => True

/-- what a rival knows of the file it has read: a live holder is the process it names, and a stale one has no live holder -/
def SeenOk (s : Machine) : Pc → Prop
  | .judging f h _ _ | .querying f h _ _ => f.serial < s.made ∧
      ∀ r q, live s r = some q → q.pc.fd? = some f.serial → f.creator = some r ∧ q.pid = h
  | .stale (some f) _ => f.serial < s.made ∧ ∀ r, ¬ Holds s r f.serial
  | _ => True

structure Inv (s : Machine) : Prop where
  fresh : ∀ f ∈ s.path, f.serial < s.made
  pids : ∀ p r a b, live s p = some a → live s r = some b → a.pid = b.pid → p = r
  own : ∀ p q, live s p = some q → OwnOk s.path p q.pid q.pc
  seen : ∀ p q, live s p = some q → SeenOk s q.pc

theorem ownOk_of_none {path : Option Sentinel} {p : ℕ} {pid : Pid} {pc : Pc} (h : pc.fd? = none) : OwnOk path p pid pc := by
  cases pc <;> simp_all [Pc.fd?, OwnOk]

theorem OwnOk.path {path : Option Sentinel} {p fd : ℕ} {pid : Pid} {pc : Pc} (h : OwnOk path p pid pc)
    (hfd : pc.fd? = some fd) : ∃ c, path = some ⟨fd, some p, c⟩ := by
  cases pc with
  | created fd' =>
    cases hfd
    exact ⟨_, h⟩
  | written fd' | critical fd' | releasing fd' =>
    cases hfd
    obtain ⟨t, ht⟩ := h
    exact ⟨_, ht⟩
  | _ => simp [Pc.fd?] at hfd

/-- a holder's file is the one at the path -/
theorem Inv.held {s : Machine} (hi : Inv s) {p fd : ℕ} (h : Holds s p fd) : ∃ c, s.path = some ⟨fd, some p, c⟩ := by
  obtain ⟨q, hq, hfd⟩ := h
  exact (hi.own p q hq).path hfd

theorem Inv.exclusive {s : Machine} (hi : Inv s) : Exclusive s := by
  intro p r fd fd' hp hr
  obtain ⟨c, hc⟩ := hi.held hp
  obtain ⟨c', hc'⟩ := hi.held hr
  rw [hc] at hc'
  simp only [Option.some.injEq, Sentinel.mk.injEq] at hc'
  exact hc'.2.1

/-- what a rival knows stays true while no process starts using a file that exists -/
theorem SeenOk.mono {s s' : Machine} (hmade : s.made ≤ s'.made)
    (hold : ∀ r b x, live s' r = some b → b.pc.fd? = some x → x < s.made →
      ∃ b0, live s r = some b0 ∧ b0.pid = b.pid ∧ b0.pc.fd? = some x) {pc : Pc} (h : SeenOk s pc) : SeenOk s' pc := by
  cases pc with
  | judging f h' t d | querying f h' t d =>
    refine ⟨lt_of_lt_of_le h.1 hmade, fun r b hb hx => ?_⟩
    obtain ⟨b0, hb0, hpid, hx0⟩ := hold r b _ hb hx h.1
    exact hpid ▸ h.2 r b0 hb0 hx0
  | stale f d =>
    cases f with
    | none => trivial
    | some f =>
      refine ⟨lt_of_lt_of_le h.1 hmade, fun r hr => ?_⟩
      obtain ⟨b, hb, hx⟩ := hr
      obtain ⟨b0, hb0, -, hx0⟩ := hold r b _ hb hx h.1
      exact h.2 r ⟨b0, hb0, hx0⟩
  | _ => trivial

/-- **Step rule.** A process moves on: it keeps its file, gives it up or takes one with a new number, and where the file
at the path changes no other live process was using one. -/
theorem Inv.move {s : Machine} (hi : Inv s) {p : ℕ} {q : Process} (hq : live s p = some q) {path : Option Sentinel}
    {made : ℕ} {pc : Pc} (hmade : s.made ≤ made) (hfresh : ∀ f ∈ path, f.serial < made)
    (hfd : ∀ fd, pc.fd? = some fd → q.pc.fd? = some fd ∨ s.made ≤ fd) (hown : OwnOk path p q.pid pc)
    (hseen : SeenOk s pc) (hothers : path = s.path ∨ ∀ r fd, r ≠ p → ¬ Holds s r fd) :
    Inv ({ s with path := path, made := made }.goto p pc) := by
  set s' : Machine := { s with path := path, made := made }.goto p pc
  have hself : live s' p = some { q with pc := pc } := live_goto_self (s := { s with path := path, made := made }) hq pc
  have hne : ∀ {r}, r ≠ p → live s' r = live s r := fun h => live_goto_ne (s := { s with path := path, made := made }) h pc
  -- a user of a file with an old number was already using it
  have hold : ∀ r b x, live s' r = some b → b.pc.fd? = some x → x < s.made →
      ∃ b0, live s r = some b0 ∧ b0.pid = b.pid ∧ b0.pc.fd? = some x := by
    intro r b x hb hx hlt
    by_cases hr : r = p
    · subst hr
      rw [hself] at hb
      cases hb
      rcases hfd x hx with h | h
      · exact ⟨q, hq, rfl, h⟩
      · omega
    · rw [hne hr] at hb
      exact ⟨b, hb, rfl, hx⟩
  refine ⟨hfresh, fun a r x y hx hy hxy => ?_, fun r b hb => ?_, fun r b hb => ?_⟩
  · have hpid : ∀ {r b}, live s' r = some b → ∃ b0, live s r = some b0 ∧ b0.pid = b.pid := by
      intro r b hb
      by_cases hr : r = p
      · subst hr
        rw [hself] at hb
        cases hb
        exact ⟨q, hq, rfl⟩
      · rw [hne hr] at hb
        exact ⟨b, hb, rfl⟩
    obtain ⟨x0, hx0, hx1⟩ := hpid hx
    obtain ⟨y0, hy0, hy1⟩ := hpid hy
    exact hi.pids a r x0 y0 hx0 hy0 (by rw [hx1, hy1, hxy])
  · by_cases hr : r = p
    · subst hr
      rw [hself] at hb
      cases hb
      exact hown
    · rw [hne hr] at hb
      rcases hothers with h | h
      · show OwnOk path r b.pid b.pc
        rw [h]
        exact hi.own r b hb
      · refine ownOk_of_none ?_
        by_contra hsome
        obtain ⟨fd, hfd'⟩ := Option.ne_none_iff_exists'.1 hsome
        exact h r fd hr ⟨b, hb, hfd'⟩
  · by_cases hr : r = p
    · subst hr
      rw [hself] at hb
      cases hb
      exact hseen.mono hmade hold
    · rw [hne hr] at hb
      exact (hi.seen r b hb).mono hmade hold

/-- a process moves on without touching the sentinel -/
theorem Inv.goto {s : Machine} (hi : Inv s) {p : ℕ} {q : Process} (hq : live s p = some q) {pc : Pc}
    (hfd : ∀ fd, pc.fd? = some fd → q.pc.fd? = some fd) (hown : OwnOk s.path p q.pid pc) (hseen : SeenOk s pc) :
    Inv (s.goto p pc) :=
  hi.move hq le_rfl hi.fresh (fun fd h => Or.inl (hfd fd h)) hown hseen (Or.inl rfl)

/-- a process that gives up its file or has none -/
theorem Inv.leave {s : Machine} (hi : Inv s) {p : ℕ} {q : Process} (hq : live s p = some q) {pc : Pc}
    (hfd : pc.fd? = none) (hseen : SeenOk s pc) : Inv (s.goto p pc) :=
  hi.goto hq (fun fd h => by rw [hfd] at h; cases h) (ownOk_of_none hfd) hseen

/-- a process that removes the file at the path, where no other live process uses one -/
theorem Inv.unlink {s : Machine} (hi : Inv s) {p : ℕ} {q : Process} (hq : live s p = some q) {pc : Pc}
    (hfd : pc.fd? = none) (hseen : SeenOk s pc) (hothers : ∀ r fd, r ≠ p → ¬ Holds s r fd) :
    Inv ({ s with path := none }.goto p pc) :=
  hi.move hq le_rfl (fun f h => by cases h) (fun fd h => by rw [hfd] at h; cases h) (ownOk_of_none hfd) hseen
    (Or.inr hothers)

theorem pidAlive_of_live {s : Machine} {p : ℕ} {q : Process} (h : live s p = some q) : pidAlive s q.pid = true := by
  obtain ⟨hget, ha⟩ := live_some.1 h
  exact List.any_eq_true.2 ⟨q, List.mem_of_getElem? hget, by simp [ha]⟩

/-- the query answers for the live process with this id -/
theorem startOf_live {s : Machine} (hi : Inv s) {p : ℕ} {q : Process} (h : live s p = some q) :
    startOf s q.pid = some q.started := by
  obtain ⟨hget, ha⟩ := live_some.1 h
  unfold startOf
  cases hf : s.procs.find? (fun b => b.alive && b.pid == q.pid) with
  | none =>
    have := List.find?_eq_none.1 hf q (List.mem_of_getElem? hget)
    simp [ha] at this
  | some b =>
    have hb := List.find?_some hf
    simp only [Bool.and_eq_true, beq_iff_eq] at hb
    obtain ⟨r, hr⟩ := List.mem_iff_getElem?.1 (List.mem_of_find?_eq_some hf)
    have : r = p := hi.pids r p b q (live_some.2 ⟨hr, hb.1⟩) h hb.2
    subst this
    rw [hget] at hr
    cases hr
    rfl

theorem inv_spawn {s : Machine} (hi : Inv s) (pid : Pid) (started : Clock) : Inv (step s (.spawn pid started)) := by
  simp only [step]
  split
  · exact hi
  · rename_i hdead
    set s' : Machine := { s with procs := s.procs ++ [⟨pid, started, true, .idle⟩] }
    have hlive : ∀ r q, live s' r = some q → live s r = some q ∨ (q = ⟨pid, started, true, .idle⟩ ∧ r = s.procs.length) := by
      intro r q hq
      obtain ⟨hget, ha⟩ := live_some.1 hq
      by_cases hr : r < s.procs.length
      · rw [List.getElem?_append_left hr] at hget
        exact Or.inl (live_some.2 ⟨hget, ha⟩)
      · rw [List.getElem?_append_right (by omega), List.getElem?_singleton] at hget
        split at hget
        · cases hget
          exact Or.inr ⟨rfl, by omega⟩
        · cases hget
    have hfresh : ∀ {r q}, live s r = some q → q.pid ≠ pid := by
      intro r q hq hpid
      exact hdead (hpid ▸ pidAlive_of_live hq)
    refine ⟨hi.fresh, fun p r a b ha hb hab => ?_, fun p q hq => ?_, fun p q hq => ?_⟩
    · rcases hlive p a ha with ha' | ⟨rfl, rfl⟩ <;> rcases hlive r b hb with hb' | ⟨rfl, rfl⟩
      · exact hi.pids p r a b ha' hb' hab
      · exact absurd hab (hfresh ha')
      · exact absurd hab.symm (hfresh hb')
      · rfl
    · rcases hlive p q hq with h | ⟨rfl, -⟩
      · exact hi.own p q h
      · trivial
    · rcases hlive p q hq with h | ⟨rfl, -⟩
      · refine SeenOk.mono (show s.made ≤ s'.made from le_rfl) (fun r b x hb hx _ => ?_) (hi.seen p q h)
        rcases hlive r b hb with hb' | ⟨rfl, -⟩
        · exact ⟨b, hb', rfl, hx⟩
        · simp [Pc.fd?] at hx
      · trivial

theorem inv_crash {s : Machine} (hi : Inv s) (p : ℕ) : Inv (step s (.crash p)) := by
  set s' := step s (.crash p)
  have hlive : ∀ r q, live s' r = some q → live s r = some q := by
    intro r q hq
    obtain ⟨hget, ha⟩ := live_some.1 hq
    simp only [s', step, List.getElem?_modify] at hget
    split at hget
    · obtain ⟨q0, _, rfl⟩ := Option.map_eq_some_iff.1 hget
      cases ha
    · exact live_some.2 ⟨by simpa using hget, ha⟩
  refine ⟨hi.fresh, fun a r x y hx hy => hi.pids a r x y (hlive _ _ hx) (hlive _ _ hy),
    fun r q hq => hi.own r q (hlive r q hq), fun r q hq => ?_⟩
  exact SeenOk.mono (show s.made ≤ s'.made from le_rfl) (fun r b x hb hx _ => ⟨b, hlive r b hb, rfl, hx⟩) (hi.seen r q (hlive r q hq))

theorem inv_call {s : Machine} (hi : Inv s) (p : ℕ) (now timeoutMs : Clock) : Inv (step s (.call p now timeoutMs)) := by
  simp only [step]
  cases hq : live s p with
  | none => exact hi
  | some q =>
    dsimp only
    split
    · exact hi.leave hq rfl trivial
    · exact hi

/-- nobody else uses a file while this process does -/
theorem Inv.alone {s : Machine} (hi : Inv s) {p fd : ℕ} (h : Holds s p fd) {r fd' : ℕ} (hr : r ≠ p) :
    ¬ Holds s r fd' :=
  fun h' => hr (hi.exclusive r p fd' fd h' h)

/-- where the path is empty nobody uses a file -/
theorem Inv.nobody {s : Machine} (hi : Inv s) (h : s.path = none) (r fd : ℕ) : ¬ Holds s r fd := by
  intro hr
  obtain ⟨c, hc⟩ := hi.held hr
  rw [h] at hc
  cases hc

section
variable {s : Machine} {p : ℕ} {q : Process} {now : Clock} {ok : Bool}

theorem inv_opening (hi : Inv s) (hq : live s p = some q) {d : Clock} (hpc : q.pc = .opening d) :
    Inv (next s p q now ok) := by
  unfold next
  rw [hpc]
  dsimp only
  split
  · cases hpath : s.path with
    | some f => exact hi.leave hq rfl trivial
    | none =>
      -- the new file has a number nobody has seen
      refine hi.move hq (Nat.le_succ _) (fun f hf => ?_) (fun fd h => ?_) rfl trivial
        (Or.inr fun r fd _ => hi.nobody hpath r fd)
      · cases hf
        exact Nat.lt_succ_self _
      · cases h
        exact Or.inr le_rfl
  · exact hi.leave hq rfl trivial

theorem inv_created (hi : Inv s) (hq : live s p = some q) {fd : ℕ} (hpc : q.pc = .created fd) :
    Inv (next s p q now ok) := by
  have hown := hi.own p q hq
  unfold next
  rw [hpc]
  dsimp only
  split
  · rw [hpc] at hown
    refine hi.move hq le_rfl (fun f hf => ?_) (fun fd' h => Or.inl (by rw [hpc]; exact h)) ⟨now, ?_⟩ trivial
      (Or.inr fun r fd' hr => hi.alone ⟨q, hq, by rw [hpc]; rfl⟩ hr)
    · rw [hown] at hf
      cases hf
      simpa [fill] using hi.fresh _ hown
    · rw [hown]
      simp [fill]
  · exact hi.leave hq rfl trivial

/-- a process that has read the file has seen who holds it, or that nobody does -/
theorem inv_contended (hi : Inv s) (hq : live s p = some q) {d : Clock} (hpc : q.pc = .contended d)
    (hu : Undisturbed s (.next p now ok) = true) : Inv (next s p q now ok) := by
  simp only [Undisturbed, hq] at hu
  unfold next
  rw [hpc]
  rw [hpc] at hu
  dsimp only at hu ⊢
  cases hpath : s.path with
  | none => exact hi.leave hq rfl trivial
  | some f =>
    have hlt := hi.fresh f hpath
    -- nothing to read in the file: no live process uses it
    have hstale : (ok = true → holderPid s.path = none) → Inv (s.goto p (.stale (some f) d)) := by
      intro hnone
      refine hi.leave hq rfl ⟨hlt, heldBy_false ?_⟩
      cases ok with
      | false => simpa [hpath] using hu
      | true =>
        rw [hnone rfl, hpath] at hu
        simpa using hu
    dsimp only
    split
    · rename_i pid t hc
      have hok : ok = true := by
        by_contra hno
        rw [if_neg hno] at hc
        cases hc
      rw [if_pos hok] at hc
      refine hi.leave hq rfl ⟨hlt, fun r b hb hx => ?_⟩
      -- a live user of the file wrote its own process id
      have hb' := hi.own r b hb
      cases hpb : b.pc with
      | created fd =>
        rw [hpb] at hb' hx
        rw [OwnOk, hpath] at hb'
        cases hb'
        cases hc
      | written fd | critical fd | releasing fd =>
        rw [hpb] at hb' hx
        obtain ⟨t', ht'⟩ := hb'
        rw [hpath] at ht'
        cases ht'
        cases hc
        exact ⟨rfl, rfl⟩
      | _ => rw [hpb] at hx; simp [Pc.fd?] at hx
    · rename_i hc
      refine hstale fun hok => ?_
      rw [if_pos hok] at hc
      simp only [holderPid, hpath, Option.bind_some]
      cases hcontent : f.content with
      | none => rfl
      | some c =>
        obtain ⟨pid, t⟩ := c
        cases pid with
        | none => rfl
        | some pid => exact absurd hcontent (hc pid t)

/-- a start that differs is that of another process -/
theorem inv_querying (hi : Inv s) (hq : live s p = some q) {f : Sentinel} {pid : Pid} {t d : Clock}
    (hpc : q.pc = .querying f pid t d) (hu : Undisturbed s (.next p now ok) = true) : Inv (next s p q now ok) := by
  have hseen := hi.seen p q hq
  simp only [Undisturbed, hq] at hu
  unfold next
  rw [hpc]
  rw [hpc] at hseen hu
  dsimp only at hu ⊢
  by_cases hmis : compareStart t (if ok then startOf s pid else none) = .mismatch
  · rw [if_pos hmis]
    refine hi.leave hq rfl ⟨hseen.1, fun r hr => ?_⟩
    obtain ⟨b, hb, hx⟩ := hr
    obtain ⟨hcr, rfl⟩ := hseen.2 r b hb hx
    obtain ⟨a, ha, hfar⟩ := compareStart_mismatch hmis
    split at ha
    · rename_i hok
      rw [startOf_live hi hb] at ha
      cases ha
      simp only [hok, Bool.not_true, Bool.false_or, hcr, Option.bind_some, hb, Option.all_some, hx, ne_eq,
        not_true_eq_false, decide_false, Bool.false_or, decide_eq_true_eq] at hu
      exact absurd hu (not_le.2 hfar)
    · cases ha
  · rw [if_neg hmis]
    exact hi.leave hq rfl trivial

/-- the file that is unlinked is the one that was judged -/
theorem inv_stale (hi : Inv s) (hq : live s p = some q) {f : Option Sentinel} {d : Clock} (hpc : q.pc = .stale f d)
    (hu : Undisturbed s (.next p now ok) = true) : Inv (next s p q now ok) := by
  have hseen := hi.seen p q hq
  simp only [Undisturbed, hq] at hu
  unfold next
  rw [hpc]
  rw [hpc] at hseen hu
  dsimp only at hu ⊢
  split
  · rename_i hok
    refine hi.unlink hq rfl trivial fun r fd _ hr => ?_
    obtain ⟨c, hc⟩ := hi.held hr
    have hsame : f.map (·.serial) = some fd := by simpa [hok, hc] using hu
    cases f with
    | none => cases hsame
    | some f =>
      obtain rfl : f.serial = fd := Option.some.inj hsame
      exact hseen.2 r hr
  · exact hi.leave hq rfl trivial

end

theorem inv_next {s : Machine} (hi : Inv s) {p : ℕ} {q : Process} (hq : live s p = some q) (now : Clock) (ok : Bool)
    (hu : Undisturbed s (.next p now ok) = true) : Inv (next s p q now ok) := by
  have hown := hi.own p q hq
  have hseen := hi.seen p q hq
  cases hpc : q.pc with
  | idle => simpa [next, hpc] using hi
  | opening d => exact inv_opening hi hq hpc
  | created fd => exact inv_created hi hq hpc
  | written fd =>
    unfold next
    rw [hpc] at hown ⊢
    dsimp only
    split
    · exact hi.goto hq (fun fd' h => by rw [hpc]; exact h) hown trivial
    · exact hi.leave hq rfl trivial
  | critical fd =>
    unfold next
    rw [hpc] at hown ⊢
    dsimp only
    split
    · exact hi.goto hq (fun fd' h => by rw [hpc]; exact h) hown trivial
    · exact hi.leave hq rfl trivial
  | releasing fd =>
    unfold next
    rw [hpc]
    dsimp only
    split
    · exact hi.unlink hq rfl trivial fun r fd' hr => hi.alone ⟨q, hq, by rw [hpc]; rfl⟩ hr
    · exact hi.leave hq rfl trivial
  | contended d => exact inv_contended hi hq hpc hu
  | judging f pid t d =>
    unfold next
    rw [hpc] at hseen ⊢
    dsimp only
    split
    · cases t with
      | none => exact hi.leave hq rfl trivial
      | some t => exact hi.leave hq rfl hseen
    · rename_i hdead
      refine hi.leave hq rfl ⟨hseen.1, fun r hr => hdead ?_⟩
      obtain ⟨b, hb, hx⟩ := hr
      exact (hseen.2 r b hb hx).2 ▸ pidAlive_of_live hb
  | querying f pid t d => exact inv_querying hi hq hpc hu
  | stale f d => exact inv_stale hi hq hpc hu
  | polling d =>
    unfold next
    rw [hpc]
    dsimp only
    split
    · exact hi.leave hq rfl trivial
    · exact hi.leave hq rfl trivial

theorem step_inv {s : Machine} (hi : Inv s) (e : Event) (hu : Undisturbed s e = true) : Inv (step s e) := by
  cases e with
  | spawn pid started => exact inv_spawn hi pid started
  | crash p => exact inv_crash hi p
  | call p now timeoutMs => exact inv_call hi p now timeoutMs
  | next p now ok =>
    cases hq : live s p with
    | none => simpa [step, hq] using hi
    | some q => simpa [step, hq] using inv_next hi hq now ok hu

theorem inv_start (left : Option (Option Recorded)) : Inv (start left) := by
  have hnone : ∀ p, live (start left) p = none := fun p => by simp [live, start]
  refine ⟨fun f hf => ?_, fun p r a b ha => ?_, fun p q hq => ?_, fun p q hq => ?_⟩
  · obtain ⟨c, -, rfl⟩ := Option.map_eq_some_iff.1 hf
    exact Nat.zero_lt_one
  · rw [hnone] at ha
    cases ha
  · rw [hnone] at hq
    cases hq
  · rw [hnone] at hq
    cases hq

/-- the file of a live process stays where it is while another process moves on -/
theorem Inv.unrobbed {s : Machine} (hi : Inv s) (e : Event) (hu : Undisturbed s e = true) : Unrobbed s e := by
  cases e with
  | next p now ok =>
    intro r fd hr hh hpath
    have hstill : Holds (step s (.next p now ok)) r fd := by
      obtain ⟨b, hb, hfd⟩ := hh
      refine ⟨b, ?_, hfd⟩
      cases hq : live s p with
      | none => simpa [step, hq] using hb
      | some q => simpa [step, hq, live_next_ne hr] using hb
    obtain ⟨c, hc⟩ := (step_inv hi _ hu).held hstill
    rw [hc]
    rfl
  | _ => trivial

/-- **Mutual exclusion.** While no rival meets what it would misjudge, at most one process is between creating its
sentinel and having released it, and nobody removes the sentinel of another live process. -/
theorem mutex_exclusive (left : Option (Option Recorded)) (es : List Event) (h : Along step (fun s e => Undisturbed s e = true) (start left) es) :
    (∀ pre, pre <+: es → Exclusive (run (start left) pre)) ∧ Along step Unrobbed (start left) es :=
  ⟨fun _ hpre => (along_inv Inv (fun _ e hi hu => step_inv hi e hu) (inv_start left) (h.initial hpre)).exclusive,
    h.carry Inv (fun _ e hi hu => step_inv hi e hu) (fun _ e hi hu => hi.unrobbed e hu) (inv_start left)⟩

/-- a holder that is seen alive, crashes and is taken over from; its process id is used again -/
def crashedHolder : List Event :=
  [.spawn 100 0, .spawn 200 0, .call 0 10 30000, .next 0 11 true, .next 0 12 true, .next 0 13 true, .call 1 13 30000,
    .next 1 13 true, .next 1 14 true, .next 1 14 true, .next 1 15 true, .next 1 15 true, .crash 0, .next 1 16 true,
    .next 1 16 true, .next 1 17 true, .spawn 100 17, .next 1 17 true, .next 1 18 true, .next 1 18 true, .next 1 19 true]

theorem mutex_exclusive_takeover :
    (∀ pre, pre <+: crashedHolder → Exclusive (run (start none) pre)) ∧ Along step Unrobbed (start none) crashedHolder :=
  mutex_exclusive none crashedHolder (by decide)

/-- two processes; the second reads the sentinel before the first has filled it -/
def emptyRead : List Event :=
  [.spawn 100 0, .spawn 200 0, .call 0 10 30000, .call 1 10 30000, .next 0 11 true, .next 1 11 true, .next 1 12 true,
    .next 1 12 true, .next 1 13 true, .next 1 13 true, .next 1 14 true, .next 0 14 true, .next 0 15 true]

/-- The empty sentinel of a live process is judged corrupt and removed: both processes are in the critical section. -/
theorem empty_sentinel_stolen :
    (run (start none) emptyRead).procs.map (fun q => (q.alive, q.pc)) = [(true, .critical 1), (true, .critical 2)] ∧
      ¬ Exclusive (run (start none) emptyRead) ∧ ¬ Along step Unrobbed (start none) emptyRead := by
  have hpcs : (run (start none) emptyRead).procs = [⟨100, 0, true, .critical 1⟩, ⟨200, 0, true, .critical 2⟩] := by
    decide
  refine ⟨by rw [hpcs]; rfl, fun h => ?_, fun h => ?_⟩
  · have h0 : Holds (run (start none) emptyRead) 0 1 := ⟨⟨100, 0, true, .critical 1⟩, by rw [live, hpcs]; rfl, rfl⟩
    have h1 : Holds (run (start none) emptyRead) 1 2 := ⟨⟨200, 0, true, .critical 2⟩, by rw [live, hpcs]; rfl, rfl⟩
    exact absurd (h 0 1 1 2 h0 h1) (by decide)
  · -- the eighth event is the removal of the first process's file
    have hrob := along_iff.1 h (emptyRead.take 7) (.next 1 12 true) ⟨emptyRead.drop 8, by decide⟩
    have := hrob 0 1 (by decide) ⟨⟨100, 0, true, .created 1⟩, by decide, rfl⟩ (by decide)
    revert this
    decide

end AstramemLocal.Service
