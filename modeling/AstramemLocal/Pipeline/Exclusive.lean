/-
Who owns a job. The queue's transitions are UPDATEs that do not look at the state they overwrite, so what keeps a job
in one lane is where the callers stand.
- `exclusive_run`: in every run whose requeues spare the jobs being handled and completed, and whose `recordHandlerRun`
  never throws behind `complete`, no two lanes hold one job, and a completed job stays completed unless an operator
  requeues it.
- `failed_record_fails_completed_job`: the `try` block ends after `recordHandlerRun`, so a completed job whose run
  cannot be recorded is failed, and handled again.
-/
import AstramemLocal.Pipeline.Worker

namespace AstramemLocal.Pipeline

open AstramemLocal.Core AstramemLocal.Store

variable {E : Env} {q : Queue} {t u : Tick} {jobs jobs' : List Job} {j : Job} {id a b : JobId} {now : Time}

/-! ## Ticks and the thread -/

theorem thread_eq_none : thread q = none ↔ ∀ t ∈ q.ticks, t.pc = .handling := by
  simp [thread]

theorem thread_some (h : thread q = some t) : t ∈ q.ticks ∧ t.pc ≠ .handling := by
  have hpc := List.find?_some h
  exact ⟨List.mem_of_find?_eq_some h, by simpa using hpc⟩

@[simp] theorem goto_jobs (next : Option Pc) : (goto q t next).jobs = q.jobs := by cases next <;> rfl
@[simp] theorem goto_phase (next : Option Pc) : (goto q t next).phase = q.phase := by cases next <;> rfl
@[simp] theorem goto_timers (next : Option Pc) : (goto q t next).timers = q.timers := by cases next <;> rfl

theorem mem_goto {next : Option Pc} (hlanes : Keyed (·.lane) q.ticks) (ht : t ∈ q.ticks)
    (hu : u ∈ (goto q t next).ticks) :
    (u ∈ q.ticks ∧ u.lane ≠ t.lane) ∨ ∃ pc, next = some pc ∧ u = { t with pc } := by
  cases next with
  | none =>
    obtain ⟨hmem, hlane⟩ := mem_deleteWhere.1 hu
    exact Or.inl ⟨hmem, hlane⟩
  | some pc =>
    obtain ⟨v, hv, hvu⟩ := mem_updateWhere.1 hu
    by_cases hlane : v.lane = t.lane
    · rw [if_pos hlane, hlanes.inj hv ht hlane] at hvu
      exact Or.inr ⟨pc, rfl, hvu.symm⟩
    · rw [if_neg hlane] at hvu
      exact Or.inl ⟨hvu ▸ hv, hvu ▸ hlane⟩

theorem goto_other {next : Option Pc} (hu : u ∈ q.ticks) (hlane : u.lane ≠ t.lane) : u ∈ (goto q t next).ticks := by
  cases next with
  | none => exact mem_deleteWhere.2 ⟨hu, hlane⟩
  | some pc => exact mem_updateWhere.2 ⟨u, hu, if_neg hlane⟩

theorem goto_self {pc : Pc} (ht : t ∈ q.ticks) : { t with pc } ∈ (goto q t (some pc)).ticks :=
  mem_updateWhere.2 ⟨t, ht, if_pos rfl⟩

theorem keyed_goto {κ : Type*} {key : Tick → κ} (hkey : ∀ t pc, key { t with pc } = key t) (h : Keyed key q.ticks)
    (next : Option Pc) : Keyed key (goto q t next).ticks := by
  cases next with
  | none => exact h.deleteWhere
  | some pc => exact h.updateWhere fun u => hkey u pc

/-! ## What a call writes -/

theorem keyed_write (h : Keyed (·.id) jobs) : Keyed (·.id) (t.write now jobs) := by
  unfold Tick.write
  split
  · exact h.updateWhere fun _ => rfl
  · split
    · exact h.updateWhere fun _ => rfl
    · exact h.updateWhere fun _ => rfl
  · exact h
  · exact h.updateWhere fun _ => rfl
  · split <;> exact h.updateWhere fun _ => rfl
  · exact h.updateWhere fun _ => rfl
  · exact h.updateWhere fun _ => rfl
  · split
    · exact h.updateWhere fun _ => rfl
    · exact h
  all_goals exact h

theorem get_write_ne (hb : b ≠ t.job.id) : get b (t.write now jobs) = get b jobs := by
  unfold Tick.write
  split
  · rw [get_fail, if_neg hb]
  · split <;> exact get_transition.trans (if_neg hb)
  · rfl
  · exact get_transition.trans (if_neg hb)
  · split
    · rw [get_setLastError, if_neg hb]
    · rw [get_setLastError, if_neg hb]
    · rw [get_fail, if_neg hb]
    · rw [get_fail, if_neg hb]
  · exact get_transition.trans (if_neg hb)
  · exact get_transition.trans (if_neg hb)
  · split
    · exact get_transition.trans (if_neg hb)
    · rfl
  all_goals rfl

/-! ## What a tick relies on -/

/-- a job the queue still has to settle -/
def JobState.live : JobState → Bool
  | .pending | .running | .failed => true
  | .completed | .poison | .paused => false

/-- the state in which a tick at `pc` finds its row: an awaited handler finds it running, and while the tick has the
thread only an operator can have requeued it -/
def Pc.Expects (pc : Pc) (row : Option Job) : Prop :=
  match pc with
  | .handling => row.any (·.state = .running)
  | .recordSuccess | .recordPaused | .recordPoisoned => True
  | _ => row.any (·.state.live)

/-- the row stays unfinished, and running -/
structure Steady (jobs jobs' : List Job) (id : JobId) : Prop where
  live : (get id jobs).any (·.state.live) → (get id jobs').any (·.state.live)
  running : (get id jobs).any (·.state = .running) → (get id jobs').any (·.state = .running)

theorem Pc.Expects.steady {pc : Pc} (h : pc.Expects (get id jobs)) (hs : Steady jobs jobs' id) :
    pc.Expects (get id jobs') := by
  cases pc with
  | handling => exact hs.running h
  | recordSuccess => trivial
  | recordPaused => trivial
  | recordPoisoned => trivial
  | _ => exact hs.live h

theorem live_of_running {row : Option Job} (h : row.any (·.state = .running)) : row.any (·.state.live) := by
  obtain ⟨j, hj, hrun⟩ := (Option.any_eq_true _ _).1 h
  rw [decide_eq_true_eq] at hrun
  simp [hj, hrun, JobState.live]

theorem Steady.of_same (h : ∀ j, get id jobs = some j → j.state.live = true → get id jobs' = some j) :
    Steady jobs jobs' id := by
  have hsame : (get id jobs).any (·.state.live) → get id jobs' = get id jobs := by
    intro hany
    obtain ⟨j, hj, hlive⟩ := (Option.any_eq_true _ _).1 hany
    rw [hj]
    exact h j hj hlive
  constructor
  · intro hlive
    rw [hsame hlive]
    exact hlive
  · intro hrun
    rw [hsame (live_of_running hrun)]
    exact hrun

theorem Steady.insertJob (job : Job) : Steady jobs (insertJob job jobs) id := by
  refine .of_same fun j hj _ => ?_
  rw [get_insertJob, hj]
  rfl

/-- a statement whose WHERE clause finds only finished rows -/
theorem Steady.updateWhere {p : Job → Prop} [DecidablePred p] {f : Job → Job} (hf : ∀ j, (f j).id = j.id)
    (hp : ∀ j, p j → j.state.live = false) : Steady jobs (updateWhere p f jobs) id := by
  refine .of_same fun j hj hlive => ?_
  have hnot : ¬ p j := by
    intro hpj
    rw [hp j hpj] at hlive
    cases hlive
  rw [get_updateWhere hf, hj, Option.map_some, if_neg hnot]

theorem Steady.deleteWhere {p : Job → Prop} [DecidablePred p] (hkeyed : Keyed (·.id) jobs)
    (hp : ∀ j, p j → j.state.live = false) : Steady jobs (deleteWhere p jobs) id := by
  refine .of_same fun j hj hlive => ?_
  have hnot : ¬ p j := by
    intro hpj
    rw [hp j hpj] at hlive
    cases hlive
  unfold get at hj ⊢
  rw [lookup_deleteWhere hkeyed, hj, Option.filter_some, if_pos (by simpa using hnot)]

/-- the call leaves the row as the next call expects it -/
theorem expects_next {pc : Pc} (h : t.pc.Expects (get t.job.id jobs)) (hnext : t.next = some pc) (hpc : t.pc ≠ .handling) :
    pc.Expects (get t.job.id (t.write now jobs)) := by
  cases hcase : t.pc with
  | refused errMsg =>
    simp only [Tick.next, hcase, Option.some.injEq] at hnext
    rw [hcase] at h
    obtain ⟨j, hj, -⟩ := (Option.any_eq_true _ _).1 h
    rw [← hnext]
    simp [Pc.Expects, Tick.write, hcase, get_fail, hj, JobState.live]
  | handling => exact absurd hcase hpc
  | complete =>
    simp only [Tick.next, hcase, Option.some.injEq] at hnext
    exact hnext ▸ trivial
  | caught err =>
    rw [hcase] at h
    obtain ⟨j, hj, hlive⟩ := (Option.any_eq_true _ _).1 h
    cases hcls : err.cls <;> simp only [Tick.next, hcase, hcls, Option.some.injEq] at hnext <;> rw [← hnext]
    -- a pause keeps the state
    · simpa [Pc.Expects, Tick.write, hcase, hcls, get_setLastError, hj] using hlive
    · simpa [Pc.Expects, Tick.write, hcase, hcls, get_setLastError, hj] using hlive
    · simp [Pc.Expects, Tick.write, hcase, hcls, get_fail, hj, JobState.live]
    · simp [Pc.Expects, Tick.write, hcase, hcls, get_fail, hj, JobState.live]
  | pause =>
    simp only [Tick.next, hcase, Option.some.injEq] at hnext
    exact hnext ▸ trivial
  | markPoison =>
    simp only [Tick.next, hcase, Option.some.injEq] at hnext
    exact hnext ▸ trivial
  | recordTransient =>
    simp only [Tick.next, hcase, Option.some.injEq] at hnext
    rw [hcase] at h
    rw [← hnext]
    simpa [Pc.Expects, Tick.write, hcase] using h
  | _ => simp [Tick.next, hcase] at hnext

theorem expects_throws {pc : Pc} {err : Thrown} (h : t.pc.Expects (get t.job.id jobs)) (hnext : t.throws err = some pc)
    (hpc : t.pc ≠ .recordSuccess) : pc.Expects (get t.job.id jobs) := by
  cases hcase : t.pc with
  | complete =>
    simp only [Tick.throws, hcase, Option.some.injEq] at hnext
    rw [hcase] at h
    exact hnext ▸ h
  | recordSuccess => exact absurd hcase hpc
  | _ => simp [Tick.throws, hcase] at hnext

/-! ## The invariant -/

/-- a lane awaits the handler of the job -/
def Held (q : Queue) (id : JobId) : Prop := ∃ t ∈ q.ticks, t.pc = .handling ∧ t.job.id = id

instance (q : Queue) (id : JobId) : Decidable (Held q id) := by unfold Held; infer_instance

/-- one lane a job, and every tick finds its row as it left it -/
structure Exclusive (q : Queue) : Prop where
  keyed : Keyed (·.id) q.jobs
  lanes : Keyed (·.lane) q.ticks
  owners : Keyed (·.job.id) q.ticks
  rows : ∀ t ∈ q.ticks, t.pc.Expects (get t.job.id q.jobs)
  booting : q.phase ≠ .up → q.ticks = []

/-- the steps that cannot hand a job out twice, or reopen it: a requeue, of a timer or of an operator, finds the job in
no handler; a timer does not find it completed; and the run of a completed job is recorded -/
def Orderly (q : Queue) : Op → Prop
  | .retry id _ => id ∈ q.timers → ¬ Held q id ∧ ¬ (get id q.jobs).any (·.state = .completed)
  | .requeue id _ => id ∈ q.listed → ¬ Held q id
  | .call _ (some _) => ∀ t ∈ thread q, t.pc ≠ .recordSuccess
  | _ => True

instance (q : Queue) (op : Op) : Decidable (Orderly q op) := by
  cases op with
  | call now failure => cases failure <;> (unfold Orderly; infer_instance)
  | _ => unfold Orderly; infer_instance

theorem Exclusive.steady (h : Exclusive q) (hkeyed : Keyed (·.id) jobs')
    (hsteady : ∀ t ∈ q.ticks, Steady q.jobs jobs' t.job.id) : Exclusive { q with jobs := jobs' } :=
  ⟨hkeyed, h.lanes, h.owners, fun t ht => (h.rows t ht).steady (hsteady t ht), h.booting⟩

theorem Exclusive.goto (h : Exclusive q) (ht : t ∈ q.ticks) {next : Option Pc}
    (hrow : ∀ pc, next = some pc → pc.Expects (get t.job.id q.jobs)) : Exclusive (goto q t next) where
  keyed := by
    rw [goto_jobs]
    exact h.keyed
  lanes := keyed_goto (fun _ _ => rfl) h.lanes next
  owners := keyed_goto (fun _ _ => rfl) h.owners next
  rows u hu := by
    rw [goto_jobs]
    rcases mem_goto h.lanes ht hu with ⟨hmem, -⟩ | ⟨pc, hpc, rfl⟩
    · exact h.rows u hmem
    · exact hrow pc hpc
  booting hphase := by
    rw [goto_phase] at hphase
    rw [h.booting hphase] at ht
    cases ht

/-- a requeue can only be noticed by the tick that awaits the job's handler -/
theorem Pc.Expects.requeue {pc : Pc} (h : pc.Expects (get b jobs)) (hid : pc = .handling → b ≠ a) :
    pc.Expects (get b (requeueForRetry a now jobs)) := by
  have hlive : (get b jobs).any (·.state.live) → (get b (requeueForRetry a now jobs)).any (·.state.live) := by
    intro hany
    obtain ⟨j, hj, hl⟩ := (Option.any_eq_true _ _).1 hany
    simp only [requeueForRetry, get_transition, hj]
    split_ifs
    · rfl
    · exact hl
  cases pc with
  | handling =>
    simp only [requeueForRetry, get_transition, if_neg (hid rfl)]
    exact h
  | recordSuccess => trivial
  | recordPaused => trivial
  | recordPoisoned => trivial
  | _ => exact hlive h

theorem Exclusive.requeue (h : Exclusive q) (hid : ¬ Held q a) :
    Exclusive { q with jobs := requeueForRetry a now q.jobs } where
  keyed := h.keyed.updateWhere fun _ => rfl
  lanes := h.lanes
  owners := h.owners
  rows t ht := (h.rows t ht).requeue fun hpc heq => hid ⟨t, ht, hpc, heq⟩
  booting := h.booting

/-- a claimed job is in no lane: those that await a handler hold running jobs -/
theorem Exclusive.claim (h : Exclusive q) (hthread : thread q = none) {lane : LaneId}
    (hlane : lane ∉ q.ticks.map (·.lane)) (hphase : q.phase = .up) {kinds : List JobKind} {job : Job}
    (hclaim : claimPending kinds now q.jobs = (some job, jobs)) :
    Exclusive { q with jobs, ticks := q.ticks ++ [⟨lane, job, dispatch E job⟩] } := by
  obtain ⟨j, hj, hpending, hjob, hkeyed, hget⟩ := claimPending_some h.keyed hclaim
  have hother : ∀ t ∈ q.ticks, t.job.id ≠ job.id := by
    intro t ht hid
    have hrow := h.rows t ht
    rw [thread_eq_none.1 hthread t ht, hid] at hrow
    simp [Pc.Expects, hj, hpending] at hrow
  refine ⟨hkeyed, ?_, ?_, ?_, fun hnot => absurd hphase hnot⟩
  · refine h.lanes.insert fun t ht heq => hlane ?_
    exact List.mem_map.2 ⟨t, ht, heq⟩
  · exact h.owners.insert hother
  · intro t ht
    rcases List.mem_append.1 ht with ht | ht
    · rw [hget, if_neg (hother t ht)]
      exact h.rows t ht
    · obtain rfl := List.mem_singleton.1 ht
      rw [hget, if_pos rfl]
      have hrun : (some job).any (·.state = .running) := by simp [hjob]
      unfold dispatch
      split
      · exact live_of_running hrun
      · split
        · exact live_of_running hrun
        · exact hrun

theorem Exclusive.call (h : Exclusive q) (ht : t ∈ q.ticks) (hpc : t.pc ≠ .handling) {v : Queue}
    (hticks : v.ticks = q.ticks) (hphase : v.phase = q.phase) (hjobs : v.jobs = t.write now q.jobs) :
    Exclusive (Pipeline.goto v t t.next) := by
  have hlanes : Keyed (·.lane) v.ticks := hticks ▸ h.lanes
  have howners : Keyed (·.job.id) v.ticks := hticks ▸ h.owners
  have hmem : t ∈ v.ticks := hticks ▸ ht
  refine ⟨?_, keyed_goto (fun _ _ => rfl) hlanes _, keyed_goto (fun _ _ => rfl) howners _, ?_, ?_⟩
  · rw [goto_jobs, hjobs]
    exact keyed_write h.keyed
  · intro u hu
    rw [goto_jobs, hjobs]
    rcases mem_goto hlanes hmem hu with ⟨hu, hlane⟩ | ⟨pc, hnext, rfl⟩
    · have hne : u.job.id ≠ t.job.id := fun heq => hlane (congrArg (·.lane) (howners.inj hu hmem heq))
      rw [get_write_ne hne]
      exact h.rows u (hticks ▸ hu)
    · exact expects_next (h.rows t ht) hnext hpc
  · intro hup
    rw [goto_phase, hphase] at hup
    rw [h.booting hup] at ht
    cases ht

theorem keyed_boot {write : Time → List Job → List Job} (hw : write ∈ bootWrites) (h : Keyed (·.id) jobs) :
    Keyed (·.id) (write now jobs) := by
  simp only [bootWrites, List.mem_cons, List.not_mem_nil, or_false] at hw
  rcases hw with rfl | rfl | rfl | rfl | rfl
  · exact h.updateWhere fun _ => rfl
  · exact h.updateWhere fun _ => rfl
  · exact h.updateWhere fun _ => rfl
  · exact h.deleteWhere
  · exact h.deleteWhere

theorem Exclusive.purgeState (h : Exclusive q) (state : JobState) (hstate : state.live = false) (days : ℤ) (now : Time) :
    Exclusive { q with jobs := purgeState state days now q.jobs } := by
  refine h.steady h.keyed.deleteWhere fun t _ => .deleteWhere h.keyed ?_
  intro j hj
  rw [hj.1, hstate]

theorem Exclusive.step (h : Exclusive q) {op : Op} (hop : Orderly q op) : Exclusive (step E q op) := by
  cases op with
  | enqueue id kind payloadJson priority now =>
    exact h.steady (keyed_insertJob h.keyed) fun t _ => .insertJob _
  | start concurrency =>
    simp only [Pipeline.step]
    split_ifs
    · exact ⟨h.keyed, h.lanes, h.owners, h.rows, h.booting⟩
    · exact h
  | stop worker => exact ⟨h.keyed, h.lanes, h.owners, h.rows, h.booting⟩
  | claim lane now =>
    simp only [Pipeline.step]
    split_ifs with hfree
    · obtain ⟨hphase, hthread, -, hlane⟩ := hfree
      split
      · rename_i job jobs hclaim
        exact h.claim hthread hlane hphase hclaim
      · exact h
    · exact h
  | settle lane outcome =>
    simp only [Pipeline.step]
    split
    · rename_i t hthread hlookup
      obtain ⟨ht, -⟩ := lookup_mem hlookup
      refine h.goto ht fun pc hpc => ?_
      have hrow := h.rows t ht
      rw [thread_eq_none.1 hthread t ht] at hrow
      cases outcome with
      | none => exact Option.some.inj hpc ▸ live_of_running hrow
      | some err => exact Option.some.inj hpc ▸ live_of_running hrow
    · exact h
  | call now failure =>
    simp only [Pipeline.step]
    split
    · rename_i t err hthread
      obtain ⟨ht, -⟩ := thread_some hthread
      exact h.goto ht fun pc hpc => expects_throws (h.rows t ht) hpc (hop t hthread)
    · rename_i t hthread
      obtain ⟨ht, hpc⟩ := thread_some hthread
      exact h.call ht hpc rfl rfl rfl
    · exact h
  | retry id now =>
    simp only [Pipeline.step]
    split_ifs with hfire
    · have hq : Exclusive { q with jobs := requeueForRetry id now q.jobs } := h.requeue (hop hfire.1).1
      exact ⟨hq.keyed, hq.lanes, hq.owners, hq.rows, hq.booting⟩
    · exact h
  | crash => exact ⟨h.keyed, List.nodup_nil, List.nodup_nil, fun t ht => (by cases ht), fun _ => rfl⟩
  | reboot =>
    simp only [Pipeline.step]
    split_ifs with hdown
    · exact ⟨h.keyed, h.lanes, h.owners, h.rows, fun _ => hdown.2.1⟩
    · exact h
  | boot now =>
    simp only [Pipeline.step]
    split
    · exact h
    · rename_i n hphase
      have hticks : q.ticks = [] := h.booting (by simp [hphase])
      split
      · rename_i write hw
        refine ⟨keyed_boot (List.mem_of_getElem? hw) h.keyed, h.lanes, h.owners, ?_, fun _ => hticks⟩
        intro t ht
        rw [hticks] at ht
        cases ht
      · exact ⟨h.keyed, h.lanes, h.owners, h.rows, fun hnot => absurd rfl hnot⟩
  | cleanup olderThanDays now =>
    have hcompleted := h.purgeState .completed rfl olderThanDays now
    exact hcompleted.purgeState .poison rfl poisonJobRetentionDays now
  | list kind limit => exact ⟨h.keyed, h.lanes, h.owners, h.rows, h.booting⟩
  | requeue id now =>
    simp only [Pipeline.step]
    split_ifs with hlisted
    · have hq : Exclusive { q with jobs := requeueForRetry id now q.jobs } := h.requeue (hop hlisted)
      exact ⟨hq.keyed, hq.lanes, hq.owners, hq.rows, hq.booting⟩
    · exact h
  | requeuePaused now =>
    refine h.steady (h.keyed.updateWhere fun _ => rfl) fun t _ => .updateWhere (fun _ => rfl) ?_
    intro j hj
    rw [hj]
    rfl
  | purgePoison ids =>
    refine h.steady h.keyed.deleteWhere fun t _ => .deleteWhere h.keyed ?_
    intro j hj
    rw [hj.1]
    rfl

/-! ## Completed jobs -/

/-- a completed row stays completed until it is purged -/
def KeepsCompleted (id : JobId) (jobs jobs' : List Job) : Prop :=
  (get id jobs).any (·.state = .completed) → (get id jobs').all (·.state = .completed)

instance : Decidable (KeepsCompleted id jobs jobs') := by unfold KeepsCompleted; infer_instance

theorem KeepsCompleted.of_eq (h : ∀ j, get id jobs = some j → j.state = .completed → get id jobs' = some j) :
    KeepsCompleted id jobs jobs' := by
  intro hany
  obtain ⟨j, hj, hdone⟩ := (Option.any_eq_true _ _).1 hany
  rw [h j hj (of_decide_eq_true hdone)]
  exact hdone

theorem KeepsCompleted.updateWhere {p : Job → Prop} [DecidablePred p] {f : Job → Job} (hf : ∀ j, (f j).id = j.id)
    (hp : ∀ j, p j → j.state ≠ .completed) : KeepsCompleted id jobs (updateWhere p f jobs) := by
  refine .of_eq fun j hj hdone => ?_
  have hnot : ¬ p j := fun hpj => hp j hpj hdone
  rw [get_updateWhere hf, hj, Option.map_some, if_neg hnot]

theorem KeepsCompleted.deleteWhere {p : Job → Prop} [DecidablePred p] (hkeyed : Keyed (·.id) jobs) :
    KeepsCompleted id jobs (deleteWhere p jobs) := by
  intro hany
  obtain ⟨j, hj, hdone⟩ := (Option.any_eq_true _ _).1 hany
  unfold get at hj ⊢
  rw [lookup_deleteWhere hkeyed, hj, Option.filter_some]
  split_ifs
  · exact hdone
  · rfl

theorem KeepsCompleted.then_deleteWhere {p : Job → Prop} [DecidablePred p] (h : KeepsCompleted id jobs jobs')
    (hkeyed : Keyed (·.id) jobs') : KeepsCompleted id jobs (Core.deleteWhere p jobs') := by
  intro hany
  have hall := h hany
  unfold get at hall ⊢
  rw [lookup_deleteWhere hkeyed]
  cases hg : lookup (·.id) id jobs' with
  | none => rfl
  | some j =>
    rw [hg] at hall
    rw [Option.filter_some]
    split_ifs
    · exact hall
    · rfl

/-- a call that writes a row finds it unfinished -/
theorem KeepsCompleted.write (hexp : t.pc.Expects (get t.job.id jobs)) : KeepsCompleted id jobs (t.write now jobs) := by
  refine .of_eq fun j hj hdone => ?_
  by_cases hid : id = t.job.id
  · rw [← hid, hj] at hexp
    have hsame : t.write now jobs = jobs := by
      cases hpc : t.pc <;> simp [hpc, Pc.Expects, hdone, JobState.live] at hexp <;> simp [Tick.write, hpc]
    rw [hsame, hj]
  · rw [get_write_ne hid, hj]

theorem KeepsCompleted.boot {write : Time → List Job → List Job} (hw : write ∈ bootWrites) (h : Keyed (·.id) jobs) :
    KeepsCompleted id jobs (write now jobs) := by
  simp only [bootWrites, List.mem_cons, List.not_mem_nil, or_false] at hw
  rcases hw with rfl | rfl | rfl | rfl | rfl
  · exact .updateWhere (fun _ => rfl) fun j hj => by simp [hj.1]
  · exact .updateWhere (fun _ => rfl) fun j hj => by simp [hj.1]
  · exact .updateWhere (fun _ => rfl) fun j hj => by simp [hj.1]
  · exact .deleteWhere h
  · exact .deleteWhere h

theorem KeepsCompleted.refl : KeepsCompleted id jobs jobs := .of_eq fun _ hj _ => hj

theorem KeepsCompleted.step (h : Exclusive q) {op : Op} (hop : Orderly q op) (hreq : ∀ now, op ≠ .requeue id now) :
    KeepsCompleted id q.jobs (step E q op).jobs := by
  cases op with
  | enqueue a kind payloadJson priority now =>
    refine .of_eq fun j hj _ => ?_
    simp only [Pipeline.step, get_insertJob, hj]
    rfl
  | start concurrency =>
    simp only [Pipeline.step]
    split_ifs <;> exact .refl
  | stop worker => exact .refl
  | claim lane now =>
    simp only [Pipeline.step]
    split_ifs
    · split
      · rename_i job jobs hclaim
        obtain ⟨j, hj, hpending, hjob, -, hget⟩ := claimPending_some h.keyed hclaim
        refine .of_eq fun r hr hdone => ?_
        have hne : id ≠ job.id := by
          rintro rfl
          rw [hj, Option.some.injEq] at hr
          rw [← hr, hpending] at hdone
          cases hdone
        rw [hget, if_neg hne, hr]
      · exact .refl
    · exact .refl
  | settle lane outcome =>
    simp only [Pipeline.step]
    split
    · rw [goto_jobs]
      exact .refl
    · exact .refl
  | call now failure =>
    simp only [Pipeline.step]
    split
    · rw [goto_jobs]
      exact .refl
    · rename_i t hthread
      rw [goto_jobs]
      exact .write (h.rows t (thread_some hthread).1)
    · exact .refl
  | retry a now =>
    simp only [Pipeline.step]
    split_ifs with hfire
    · refine .of_eq fun j hj hdone => ?_
      have hne : id ≠ a := by
        rintro rfl
        have hnot := (hop hfire.1).2
        simp [hj, hdone] at hnot
      simp only [requeueForRetry, get_transition, if_neg hne, hj]
    · exact .refl
  | crash => exact .refl
  | reboot =>
    simp only [Pipeline.step]
    split_ifs <;> exact .refl
  | boot now =>
    simp only [Pipeline.step]
    split
    · exact .refl
    · split
      · rename_i write hw
        exact .boot (List.mem_of_getElem? hw) h.keyed
      · exact .refl
  | cleanup olderThanDays now =>
    have hfirst : KeepsCompleted id q.jobs (purgeState .completed olderThanDays now q.jobs) := .deleteWhere h.keyed
    exact hfirst.then_deleteWhere h.keyed.deleteWhere
  | list kind limit => exact .refl
  | requeue a now =>
    have hne : id ≠ a := by
      rintro rfl
      exact hreq now rfl
    simp only [Pipeline.step]
    split_ifs
    · refine .of_eq fun j hj _ => ?_
      simp only [requeueForRetry, get_transition, if_neg hne, hj]
    · exact .refl
  | requeuePaused now => exact .updateWhere (fun _ => rfl) fun j hj => by simp [hj]
  | purgePoison ids => exact .deleteWhere h.keyed

/-! ## Runs -/

theorem exclusive_empty : Exclusive {} :=
  ⟨List.nodup_nil, List.nodup_nil, List.nodup_nil, fun t ht => (by cases ht), fun _ => rfl⟩

theorem Exclusive.run {ops : List Op} (h : Exclusive q) (hops : Along (Pipeline.step E) Orderly q ops) :
    Exclusive (run E q ops) :=
  along_inv Exclusive (fun _ _ hq hop => hq.step hop) h hops

/-- **One lane a job, and no job reopened.** In a run whose requeues spare the jobs in a handler and, those of timers,
the completed ones, and in which no `recordHandlerRun` throws behind `complete`: no job is in two lanes, and only an
operator's requeue takes a job out of `completed`. -/
theorem exclusive_run (E : Env) (ops : List Op) (hops : Along (step E) Orderly {} ops) :
    (∀ pre, pre <+: ops → ((run E {} pre).ticks.map (·.job.id)).Nodup) ∧
      ∀ pre op, pre ++ [op] <+: ops → ∀ id, (∀ now, op ≠ .requeue id now) →
        KeepsCompleted id (run E {} pre).jobs (run E {} (pre ++ [op])).jobs := by
  constructor
  · intro pre hpre
    exact (exclusive_empty.run (hops.initial hpre)).owners
  · intro pre op hpre id hreq
    have hstart : Exclusive (run E {} pre) := exclusive_empty.run (hops.initial ((List.prefix_append _ _).trans hpre))
    rw [run_snoc]
    exact .step hstart (along_iff.1 hops pre op hpre) hreq

/-! ## Two runs -/

/-- every handler is registered, and every payload parses -/
def serveEnv : Env := ⟨[.distill, .distillEvents, .cleanup, .consolidate, .reembed, .transcribe], fun _ => none⟩

/-- the boot of an empty database, and a worker of two lanes -/
def booted : List Op := List.replicate 6 (.boot 0) ++ [.start (some 2)]

def timeout : Thrown := ⟨.transient, "ETIMEDOUT"⟩

/-- a job fails, is retried by its timer and completes; the process dies, and boots again -/
def retriedRun : List Op :=
  booted ++
    [.enqueue 1 .distill "" 1 0, .claim ⟨0, 0⟩ 1, .claim ⟨0, 1⟩ 1, .settle ⟨0, 0⟩ (some timeout), .call 2 none,
      .call 2 none, .call 2 none, .retry 1 1002, .claim ⟨0, 1⟩ 1003, .settle ⟨0, 1⟩ none, .call 1004 none,
      .call 1004 none, .crash, .boot 2000]

theorem exclusive_run_retried :
    (get 1 (run serveEnv {} retriedRun).jobs).any (·.state = .completed) ∧
      ((run serveEnv {} retriedRun).ticks.map (·.job.id)).Nodup :=
  ⟨by decide, (exclusive_run serveEnv retriedRun (by decide)).1 retriedRun List.prefix_rfl⟩

/-- `complete` is written, then `recordHandlerRun` throws -/
def unrecordedRun : List Op :=
  booted ++
    [.enqueue 1 .distill "" 1 0, .claim ⟨0, 0⟩ 1, .settle ⟨0, 0⟩ none, .call 2 none,
      .call 2 (some ⟨.transient, "database is locked"⟩)]

/-- two `queue requeue --poison` list the same job; the second writes when a lane handles it again -/
def relistedRun : List Op :=
  booted ++
    [.enqueue 1 .distill "" 1 0, .claim ⟨0, 0⟩ 1, .settle ⟨0, 0⟩ (some ⟨.deterministic, "schema"⟩), .call 2 none,
      .call 2 none, .call 2 none, .list none none, .list none none, .requeue 1 3, .claim ⟨0, 0⟩ 4, .requeue 1 5,
      .claim ⟨0, 1⟩ 6]

/-- **The `try` block is one call too long**, and a requeue does not look at what it overwrites: a completed job is
failed, armed and pending again, and a job that a lane handles is claimed by a second one -/
theorem failed_record_fails_completed_job :
    ¬ KeepsCompleted 1 (run serveEnv {} unrecordedRun).jobs (run serveEnv {} (unrecordedRun ++ [.call 3 none])).jobs ∧
      (get 1 (run serveEnv {} (unrecordedRun ++ [.call 3 none, .call 3 none, .call 3 none, .retry 1 1003])).jobs).any
        (·.state = .pending) ∧
      ¬ ((run serveEnv {} relistedRun).ticks.map (·.job.id)).Nodup := by
  decide

end AstramemLocal.Pipeline
