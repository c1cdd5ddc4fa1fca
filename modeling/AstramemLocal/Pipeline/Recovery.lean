/-
Crashes. A failure is written in two steps, `fail` and then a requeue (by an in-memory timer) or `markPoison`; the boot
requeues the `failed` rows whose attempts are not exhausted, and leaves the others.
- `recovery_complete`: in a run of the daemon, every boot leaves each job pending, completed, poison or paused, and the
  exhausted ones poison, iff no crash falls between a `fail` that exhausts the attempts and its `markPoison`.
- `crash_strands_failed_job`: such a crash leaves the job `failed` for good.
-/
import AstramemLocal.Pipeline.Exclusive

namespace AstramemLocal.Pipeline

open AstramemLocal.Core AstramemLocal.Store

variable {E : Env} {q : Queue} {t u : Tick} {jobs jobs' : List Job} {j : Job} {id a b : JobId} {now : Time} {op : Op}

/-! ## The rows of recovery -/

/-- nothing is left running or failed, and what is exhausted is poison -/
def Recovered (jobs : List Job) : Prop :=
  ∀ j ∈ jobs, j.state ∈ [JobState.pending, .completed, .poison, .paused] ∧ (maxAttempts ≤ j.attempts → j.state = .poison)

instance : Decidable (Recovered jobs) := by unfold Recovered; infer_instance

/-- a row that recovery cannot settle -/
def Stranded (j : Job) : Prop := j.state = .failed ∧ maxAttempts ≤ j.attempts

instance (j : Job) : Decidable (Stranded j) := by unfold Stranded; infer_instance

theorem get_recoverOrphans : get id (recoverOrphans maxAttempts now jobs) = (get id jobs).map fun j =>
    if j.state = .running then
      if j.kind = .consolidate then
        { j with state := .poison, updatedAt := now, lastError := some poisonedConsolidateNote }
      else { j with state := .pending, updatedAt := now }
    else if j.state = .failed ∧ j.attempts < maxAttempts then { j with state := .pending, updatedAt := now }
    else j := by
  unfold recoverOrphans requeueFailed requeueRunning poisonConsolidate
  rw [get_updateWhere (by intro _; rfl), get_updateWhere (by intro _; rfl), get_updateWhere (by intro _; rfl)]
  cases hg : get id jobs with
  | none => rfl
  | some j =>
    simp only [Option.map_some, Option.some.injEq]
    by_cases hrun : j.state = .running
    · by_cases hkind : j.kind = .consolidate
      · simp [hrun, hkind]
      · simp [hrun, hkind]
    · simp [hrun]

/-- the first three writes of a boot are `recoverOrphans` -/
theorem boot_recovers (hq : q.phase = .booting 0) (now : Time) :
    (run E q [.boot now, .boot now, .boot now]).jobs = recoverOrphans maxAttempts now q.jobs := by
  simp [run, step, hq, bootWrites, recoverOrphans]

theorem recovered_of_spent (hkeyed : Keyed (·.id) jobs)
    (hspent : ∀ j ∈ jobs, maxAttempts ≤ j.attempts → j.state = .poison) :
    Recovered (recoverOrphans maxAttempts now jobs) := by
  have hafter : Keyed (·.id) (recoverOrphans maxAttempts now jobs) :=
    ((hkeyed.updateWhere (by intro _; rfl)).updateWhere (by intro _; rfl)).updateWhere (by intro _; rfl)
  intro r hr
  have hget := get_of_mem hafter hr
  rw [get_recoverOrphans, Option.map_eq_some_iff] at hget
  obtain ⟨j, hj, hjr⟩ := hget
  have hjspent := hspent j (get_mem hj).1
  split_ifs at hjr with hrun hkind hfailed
  · rw [← hjr]
    simp
  · rw [← hjr]
    refine ⟨by simp, fun hmax => ?_⟩
    rw [hjspent hmax] at hrun
    cases hrun
  · rw [← hjr]
    refine ⟨by simp, fun hmax => ?_⟩
    have hlt := hfailed.2
    simp only at hmax
    omega
  · rw [← hjr]
    refine ⟨?_, hjspent⟩
    cases hstate : j.state with
    | running => exact absurd hstate hrun
    | failed =>
      have hmax : maxAttempts ≤ j.attempts := by
        by_contra hlt
        exact hfailed ⟨hstate, by omega⟩
      rw [hjspent hmax] at hstate
      cases hstate
    | _ => simp

theorem not_recovered_of_stranded (hj : get id jobs = some j) (h : Stranded j) :
    ¬ Recovered (recoverOrphans maxAttempts now jobs) := by
  intro hrec
  have hget : get id (recoverOrphans maxAttempts now jobs) = some j := by
    rw [get_recoverOrphans, hj, Option.map_some, if_neg (by simp [h.1]), if_neg]
    rintro ⟨-, hlt⟩
    have hmax := h.2
    omega
  have hstate := (hrec j (get_mem hget).1).1
  simp [h.1] at hstate

/-! ## The daemon alone -/

/-- a `fail` is written, and the job is not settled yet -/
def Pc.settles : Pc → Bool
  | .refusedFailed | .markPoison | .recordTransient | .settleTransient => true
  | _ => false

/-- a lane is between a `fail` that exhausted the attempts and the `markPoison` -/
def Settling (q : Queue) : Prop :=
  ∃ t ∈ q.ticks, t.pc.settles = true ∧ (get t.job.id q.jobs).any fun j => Stranded j

instance (q : Queue) : Decidable (Settling q) := by unfold Settling; infer_instance

/-- what the daemon does while no operator requeues a job, no database call throws and no boot shares its process with
an earlier one -/
def Unattended : Op → Prop
  | .call _ (some _) => False
  | .requeue _ _ => False
  | .reboot => False
  | _ => True

instance : DecidablePred Unattended
  | .call _ (some _) | .requeue _ _ | .reboot => .isFalse fun hop => hop
  | .call _ none | .enqueue .. | .start _ | .stop _ | .claim .. | .settle .. | .retry .. | .crash | .boot _ | .cleanup ..
  | .list .. | .requeuePaused _ | .purgePoison _ => .isTrue trivial

/-- the crash falls at no exhausted failure -/
def SparesSettling (q : Queue) (op : Op) : Prop := op = .crash → ¬ Settling q

instance (q : Queue) (op : Op) : Decidable (SparesSettling q op) := by unfold SparesSettling; infer_instance

/-- every failed row is a lane's or a timer's, and what is exhausted is poison or about to be -/
structure Accounted (q : Queue) : Prop where
  excl : Exclusive q
  settling : ∀ t ∈ q.ticks, t.pc.settles = true → (get t.job.id q.jobs).any (·.state = .failed)
  spent : ∀ id j, get id q.jobs = some j → maxAttempts ≤ j.attempts →
    j.state = .poison ∨ j.state = .failed ∧ ∃ t ∈ q.ticks, t.pc.settles = true ∧ t.job.id = id
  timers : ∀ id ∈ q.timers, (get id q.jobs).any fun j => j.state = .failed ∧ j.attempts < maxAttempts
  free : ∀ id ∈ q.timers, ∀ t ∈ q.ticks, t.job.id ≠ id
  once : q.timers.Nodup
  booting : q.phase ≠ .up → q.timers = []

theorem accounted_empty : Accounted {} where
  excl := exclusive_empty
  settling t ht := by cases ht
  spent id j hj := by cases hj
  timers id hid := by cases hid
  free id hid := by cases hid
  once := List.nodup_nil
  booting _ := rfl

theorem Accounted.orderly (h : Accounted q) (hop : Unattended op) : Orderly q op := by
  cases op with
  | retry id now =>
    intro hid
    refine ⟨?_, ?_⟩
    · rintro ⟨t, ht, -, heq⟩
      exact h.free id hid t ht heq
    · intro hdone
      obtain ⟨j, hj, hstate⟩ := (Option.any_eq_true _ _).1 hdone
      have hfailed := h.timers id hid
      rw [decide_eq_true_eq] at hstate
      simp [hj, hstate] at hfailed
  | requeue id now => exact absurd hop (by simp [Unattended])
  | call now failure =>
    cases failure with
    | none => trivial
    | some err => exact absurd hop (by simp [Unattended])
  | _ => trivial

/-- a statement that leaves the failed and the exhausted rows alone -/
theorem Accounted.rewrite (h : Accounted q) (hexcl : Exclusive { q with jobs := jobs' })
    (hfailed : ∀ id j, get id q.jobs = some j → j.state = .failed → get id jobs' = some j)
    (hspent : ∀ id j, get id jobs' = some j → maxAttempts ≤ j.attempts → get id q.jobs = some j) :
    Accounted { q with jobs := jobs' } where
  excl := hexcl
  settling t ht hpc := by
    have hany := h.settling t ht hpc
    obtain ⟨j, hj, hstate⟩ := (Option.any_eq_true _ _).1 hany
    rw [decide_eq_true_eq] at hstate
    simp [hfailed _ j hj hstate, hstate]
  spent id j hj hmax := h.spent id j (hspent id j hj hmax) hmax
  timers id hid := by
    have hany := h.timers id hid
    obtain ⟨j, hj, hstate⟩ := (Option.any_eq_true _ _).1 hany
    rw [decide_eq_true_eq] at hstate
    simp [hfailed _ j hj hstate.1, hstate]
  free := h.free
  once := h.once
  booting := h.booting

theorem get_deleteWhere {p : Job → Prop} [DecidablePred p] (hkeyed : Keyed (·.id) jobs) :
    get id (deleteWhere p jobs) = (get id jobs).filter fun j => ¬ p j := lookup_deleteWhere hkeyed

/-- a retention or an operator's DELETE -/
theorem Accounted.delete (h : Accounted q) {p : Job → Prop} [DecidablePred p]
    (hexcl : Exclusive { q with jobs := deleteWhere p q.jobs }) (hp : ∀ j, p j → j.state ≠ .failed) :
    Accounted { q with jobs := deleteWhere p q.jobs } := by
  refine h.rewrite hexcl ?_ ?_
  · intro id j hj hstate
    have hnot : ¬ p j := fun hpj => hp j hpj hstate
    rw [get_deleteWhere h.excl.keyed, hj, Option.filter_some, if_pos (by simpa using hnot)]
  · intro id j hj _
    rw [get_deleteWhere h.excl.keyed, Option.filter_eq_some_iff] at hj
    exact hj.1

/-! ### One call -/

theorem not_exhausted (h : exhausted id jobs = false) (hj : get id jobs = some j) : j.attempts < maxAttempts := by
  simpa [exhausted, hj] using h

/-- a tick that is not settling holds a job with attempts left -/
theorem Accounted.attempts_left (h : Accounted q) (ht : t ∈ q.ticks) (hset : t.pc.settles = false)
    (hj : get t.job.id q.jobs = some j) (hlive : j.state.live = true) : j.attempts < maxAttempts := by
  by_contra hmax
  rcases h.spent _ j hj (by omega) with hpoison | ⟨-, u, hu, hus, hid⟩
  · simp [hpoison, JobState.live] at hlive
  · rw [h.excl.owners.inj hu ht hid, hset] at hus
    cases hus

/-- a call that changes nothing but the state keeps the attempts -/
theorem Accounted.transition_left (h : Accounted q) (ht : t ∈ q.ticks) (hset : t.pc.settles = false)
    (hlive : (get t.job.id q.jobs).any (·.state.live)) {state : JobState}
    (hj : get t.job.id (transition t.job.id state now q.jobs) = some j) : j.attempts < maxAttempts := by
  rw [get_transition, if_pos rfl, Option.map_eq_some_iff] at hj
  obtain ⟨r, hr, rfl⟩ := hj
  rw [hr] at hlive
  have hlt := h.attempts_left ht hset hr hlive
  exact hlt

/-- the call leaves its row failed where the tick still has to settle it -/
theorem Accounted.call_settling (h : Accounted q) (ht : t ∈ q.ticks) {pc : Pc} (hnext : t.next = some pc)
    (hpc : pc.settles = true) : (get t.job.id (t.write now q.jobs)).any (·.state = .failed) := by
  have hrow := h.excl.rows t ht
  cases hcase : t.pc with
  | refused errMsg =>
    rw [hcase] at hrow
    obtain ⟨j, hj, -⟩ := (Option.any_eq_true _ _).1 hrow
    simp [Tick.write, hcase, get_fail, hj]
  | caught err =>
    rw [hcase] at hrow
    obtain ⟨j, hj, -⟩ := (Option.any_eq_true _ _).1 hrow
    cases hcls : err.cls with
    | budgetPaused | quotaBreakerOpen =>
      simp only [Tick.next, hcase, hcls, Option.some.injEq] at hnext
      rw [← hnext] at hpc
      cases hpc
    | deterministic | transient => simp [Tick.write, hcase, hcls, get_fail, hj]
  | recordTransient =>
    have hfailed := h.settling t ht (by rw [hcase]; rfl)
    simpa [Tick.write, hcase] using hfailed
  | handling | complete | pause | markPoison =>
    simp only [Tick.next, hcase, Option.some.injEq] at hnext
    rw [← hnext] at hpc
    cases hpc
  | _ => simp [Tick.next, hcase] at hnext

/-- the call leaves an exhausted row poison, or failed with a tick that still has to settle it -/
theorem Accounted.call_spent (h : Accounted q) (ht : t ∈ q.ticks) (hpc : t.pc ≠ .handling)
    (hj : get t.job.id (t.write now q.jobs) = some j) (hmax : maxAttempts ≤ j.attempts) :
    j.state = .poison ∨ j.state = .failed ∧ ∃ pc, t.next = some pc ∧ pc.settles = true := by
  have hrow := h.excl.rows t ht
  -- a row the call leaves as it is: only the tick itself could be settling it
  have hkept : t.pc.settles = false → get t.job.id q.jobs = some j → j.state = .poison := by
    intro hset hsame
    rcases h.spent _ j hsame hmax with hpoison | ⟨-, u, hu, hus, hid⟩
    · exact hpoison
    · rw [h.excl.owners.inj hu ht hid, hset] at hus
      cases hus
  cases hcase : t.pc with
  | refused errMsg =>
    simp only [Tick.write, hcase, get_fail, if_true, Option.map_eq_some_iff] at hj
    obtain ⟨r, -, rfl⟩ := hj
    exact Or.inr ⟨rfl, .refusedFailed, by simp [Tick.next, hcase], rfl⟩
  | refusedFailed =>
    simp only [Tick.write, hcase] at hj
    split_ifs at hj with hex
    · rw [Pipeline.markPoison, get_transition, if_pos rfl, Option.map_eq_some_iff] at hj
      obtain ⟨r, -, rfl⟩ := hj
      exact Or.inl rfl
    · rw [requeueForRetry, get_transition, if_pos rfl, Option.map_eq_some_iff] at hj
      obtain ⟨r, hr, rfl⟩ := hj
      have hlt := not_exhausted (by simpa using hex) hr
      simp only at hmax
      omega
  | handling => exact absurd hcase hpc
  | complete =>
    simp only [Tick.write, hcase, Pipeline.complete] at hj
    rw [hcase] at hrow
    have hlt := h.transition_left ht (by rw [hcase]; rfl) hrow hj
    omega
  | recordSuccess => exact Or.inl (hkept (by rw [hcase]; rfl) (by simpa [Tick.write, hcase] using hj))
  | caught err =>
    cases hcls : err.cls with
    | budgetPaused | quotaBreakerOpen =>
      simp only [Tick.write, hcase, hcls, get_setLastError, if_true, Option.map_eq_some_iff] at hj
      obtain ⟨r, hr, rfl⟩ := hj
      rw [hcase, hr] at hrow
      have hlt := h.attempts_left ht (by rw [hcase]; rfl) hr hrow
      simp only at hmax
      omega
    | deterministic =>
      simp only [Tick.write, hcase, hcls, get_fail, if_true, Option.map_eq_some_iff] at hj
      obtain ⟨r, -, rfl⟩ := hj
      exact Or.inr ⟨rfl, .markPoison, by simp [Tick.next, hcase, hcls], rfl⟩
    | transient =>
      simp only [Tick.write, hcase, hcls, get_fail, if_true, Option.map_eq_some_iff] at hj
      obtain ⟨r, -, rfl⟩ := hj
      exact Or.inr ⟨rfl, .recordTransient, by simp [Tick.next, hcase, hcls], rfl⟩
  | pause =>
    simp only [Tick.write, hcase, Pipeline.pause] at hj
    rw [hcase] at hrow
    have hlt := h.transition_left ht (by rw [hcase]; rfl) hrow hj
    omega
  | recordPaused => exact Or.inl (hkept (by rw [hcase]; rfl) (by simpa [Tick.write, hcase] using hj))
  | markPoison =>
    simp only [Tick.write, hcase, Pipeline.markPoison, get_transition, if_true, Option.map_eq_some_iff] at hj
    obtain ⟨r, -, rfl⟩ := hj
    exact Or.inl rfl
  | recordPoisoned => exact Or.inl (hkept (by rw [hcase]; rfl) (by simpa [Tick.write, hcase] using hj))
  | recordTransient =>
    have hfailed := h.settling t ht (by rw [hcase]; rfl)
    simp only [Tick.write, hcase] at hj
    rw [hj, Option.any_some, decide_eq_true_eq] at hfailed
    exact Or.inr ⟨hfailed, .settleTransient, by simp [Tick.next, hcase], rfl⟩
  | settleTransient =>
    simp only [Tick.write, hcase] at hj
    split_ifs at hj with hex
    · rw [Pipeline.markPoison, get_transition, if_pos rfl, Option.map_eq_some_iff] at hj
      obtain ⟨r, -, rfl⟩ := hj
      exact Or.inl rfl
    · have hlt := not_exhausted (by simpa using hex) hj
      omega

/-! ### One step -/

/-- a tick goes on with its own row; it arms a timer only where it ends, with its row failed -/
theorem Accounted.move (h : Accounted q) (ht : t ∈ q.ticks) {next : Option Pc} {timers : List JobId}
    (hexcl : Exclusive (goto { q with jobs := jobs', timers } t next))
    (hother : ∀ b, b ≠ t.job.id → get b jobs' = get b q.jobs)
    (hsettling : ∀ pc, next = some pc → pc.settles = true → (get t.job.id jobs').any (·.state = .failed))
    (hspent : ∀ j, get t.job.id jobs' = some j → maxAttempts ≤ j.attempts →
      j.state = .poison ∨ j.state = .failed ∧ ∃ pc, next = some pc ∧ pc.settles = true)
    (htimers : timers = q.timers ∨ timers = q.timers ++ [t.job.id] ∧ next = none ∧
      (get t.job.id jobs').any fun j => j.state = .failed ∧ j.attempts < maxAttempts) :
    Accounted (goto { q with jobs := jobs', timers } t next) := by
  have hlanes : Keyed (·.lane) ({ q with jobs := jobs', timers } : Queue).ticks := h.excl.lanes
  have hmem : t ∈ ({ q with jobs := jobs', timers } : Queue).ticks := ht
  have hlane : ∀ u ∈ q.ticks, u.job.id ≠ t.job.id → u.lane ≠ t.lane := by
    intro u hu hne heq
    exact hne (congrArg (·.job.id) (h.excl.lanes.inj hu ht heq))
  have hid : ∀ u ∈ q.ticks, u.lane ≠ t.lane → u.job.id ≠ t.job.id := by
    intro u hu hne heq
    exact hne (congrArg (·.lane) (h.excl.owners.inj hu ht heq))
  refine ⟨hexcl, ?_, ?_, ?_, ?_, ?_, ?_⟩
  · intro u hu hset
    rw [goto_jobs]
    rcases mem_goto hlanes hmem hu with ⟨hu, hne⟩ | ⟨pc, hnext, rfl⟩
    · simp only [hother _ (hid u hu hne)]
      exact h.settling u hu hset
    · exact hsettling pc hnext hset
  · intro b j hj hmax
    rw [goto_jobs] at hj
    by_cases hb : b = t.job.id
    · rw [hb] at hj
      rcases hspent j hj hmax with hpoison | ⟨hfailed, pc, hnext, hset⟩
      · exact Or.inl hpoison
      · rw [hnext]
        exact Or.inr ⟨hfailed, { t with pc }, goto_self hmem, hset, hb.symm⟩
    · simp only [hother b hb] at hj
      rcases h.spent b j hj hmax with hpoison | ⟨hfailed, u, hu, hset, hub⟩
      · exact Or.inl hpoison
      · have hne : u.job.id ≠ t.job.id := by
          rw [hub]
          exact hb
        exact Or.inr ⟨hfailed, u, goto_other hu (hlane u hu hne), hset, hub⟩
  · intro b hb
    rw [goto_timers] at hb
    rw [goto_jobs]
    have hold : b ∈ q.timers → (get b jobs').any fun j => j.state = .failed ∧ j.attempts < maxAttempts := by
      intro hb
      rw [hother b (h.free b hb t ht).symm]
      exact h.timers b hb
    rcases htimers with heq | ⟨heq, -, hfailed⟩
    · simp only [heq] at hb
      exact hold hb
    · simp only [heq, List.mem_append, List.mem_singleton] at hb
      rcases hb with hb | rfl
      · exact hold hb
      · exact hfailed
  · intro b hb u hu
    rw [goto_timers] at hb
    rcases mem_goto hlanes hmem hu with ⟨hu, hne⟩ | ⟨pc, hnext, rfl⟩
    · rcases htimers with heq | ⟨heq, -, -⟩
      · simp only [heq] at hb
        exact h.free b hb u hu
      · simp only [heq, List.mem_append, List.mem_singleton] at hb
        rcases hb with hb | rfl
        · exact h.free b hb u hu
        · exact hid u hu hne
    · rcases htimers with heq | ⟨-, hnone, -⟩
      · simp only [heq] at hb
        exact h.free b hb t ht
      · rw [hnone] at hnext
        cases hnext
  · rw [goto_timers]
    rcases htimers with heq | ⟨heq, -, -⟩
    · simp only [heq]
      exact h.once
    · simp only [heq]
      rw [List.nodup_append]
      refine ⟨h.once, List.nodup_singleton _, ?_⟩
      intro b hb c hc hbc
      rw [List.mem_singleton] at hc
      exact h.free b hb t ht (hbc.trans hc).symm
  · intro hphase
    rw [goto_phase] at hphase
    rw [h.excl.booting hphase] at ht
    cases ht

theorem Accounted.settle (h : Accounted q) (ht : t ∈ q.ticks) (hset : t.pc.settles = false) {pc : Pc}
    (hpc : pc.settles = false) (hexcl : Exclusive (goto q t (some pc))) : Accounted (goto q t (some pc)) := by
  refine h.move ht hexcl (fun _ _ => rfl) ?_ ?_ (Or.inl rfl)
  · intro next hnext hsettles
    rw [← Option.some.inj hnext, hpc] at hsettles
    cases hsettles
  · intro j hj hmax
    rcases h.spent _ j hj hmax with hpoison | ⟨-, u, hu, hus, hid⟩
    · exact Or.inl hpoison
    · rw [h.excl.owners.inj hu ht hid, hset] at hus
      cases hus

theorem Accounted.call (h : Accounted q) (hthread : thread q = some t)
    (hexcl : Exclusive (step E q (.call now none))) : Accounted (step E q (.call now none)) := by
  obtain ⟨ht, hpc⟩ := thread_some hthread
  simp only [step, hthread] at hexcl ⊢
  refine h.move ht hexcl (fun b hb => get_write_ne hb) (fun pc hnext => h.call_settling ht hnext)
    (fun j hj => h.call_spent ht hpc hj) ?_
  by_cases harms : t.arms q.jobs = true
  · rw [if_pos harms]
    have hcase := harms
    simp only [Tick.arms, Bool.decide_and, Bool.and_eq_true, decide_eq_true_eq] at hcase
    obtain ⟨hpc, hex⟩ := hcase
    refine Or.inr ⟨rfl, by simp [Tick.next, hpc], ?_⟩
    obtain ⟨j, hj, hfailed⟩ := (Option.any_eq_true _ _).1 (h.settling t ht (by rw [hpc]; rfl))
    have hlt := not_exhausted hex hj
    simp only [Tick.write, hpc, hex, Bool.false_eq_true, if_false, hj]
    simpa [hlt] using hfailed
  · rw [if_neg harms]
    exact Or.inl rfl

theorem Accounted.claim (h : Accounted q) {lane : LaneId} (hexcl : Exclusive (step E q (.claim lane now))) :
    Accounted (step E q (.claim lane now)) := by
  simp only [step] at hexcl ⊢
  split_ifs at hexcl ⊢ with hfree
  · split at hexcl
    · rename_i job jobs hclaim
      obtain ⟨j, hj, hpending, hjob, -, hget⟩ := claimPending_some h.excl.keyed hclaim
      have hleft : j.attempts < maxAttempts := by
        by_contra hmax
        rcases h.spent _ j hj (by omega) with hstate | ⟨hstate, -⟩
        · simp [hpending] at hstate
        · simp [hpending] at hstate
      -- a failed row is not the one that was claimed
      have hne : ∀ b, (get b q.jobs).any (·.state = .failed) → b ≠ job.id := by
        rintro b hfailed rfl
        simp [hj, hpending] at hfailed
      have hfresh : (dispatch E job).settles = false := by
        unfold dispatch
        split
        · rfl
        · split <;> rfl
      have htimer : ∀ b ∈ q.timers, b ≠ job.id := by
        intro b hb
        refine hne b ?_
        obtain ⟨r, hr, hstate⟩ := (Option.any_eq_true _ _).1 (h.timers b hb)
        rw [decide_eq_true_eq] at hstate
        simp [hr, hstate.1]
      refine ⟨hexcl, ?_, ?_, ?_, ?_, h.once, h.booting⟩
      · intro t ht hset
        rcases List.mem_append.1 ht with ht | ht
        · have hfailed := h.settling t ht hset
          simp only [hget, if_neg (hne _ hfailed)]
          exact hfailed
        · rw [List.mem_singleton.1 ht, hfresh] at hset
          cases hset
      · intro b r hr hmax
        simp only [hget] at hr
        split_ifs at hr with hb
        · rw [← Option.some.inj hr, hjob] at hmax
          simp only at hmax
          omega
        · rcases h.spent b r hr hmax with hpoison | ⟨hfailed, t, ht, hset, hid⟩
          · exact Or.inl hpoison
          · exact Or.inr ⟨hfailed, t, List.mem_append_left _ ht, hset, hid⟩
      · intro b hb
        simp only [hget, if_neg (htimer b hb)]
        exact h.timers b hb
      · intro b hb t ht
        rcases List.mem_append.1 ht with ht | ht
        · exact h.free b hb t ht
        · rw [List.mem_singleton.1 ht]
          exact (htimer b hb).symm
    · exact h
  · exact h

theorem Accounted.retry (h : Accounted q) (hexcl : Exclusive (step E q (.retry id now))) :
    Accounted (step E q (.retry id now)) := by
  simp only [step] at hexcl ⊢
  split_ifs at hexcl ⊢ with hfire
  · obtain ⟨hid, hthread⟩ := hfire
    have hother : ∀ b, b ≠ id → get b (requeueForRetry id now q.jobs) = get b q.jobs := by
      intro b hb
      rw [requeueForRetry, get_transition, if_neg hb]
    have hnone : ∀ t ∈ q.ticks, t.pc.settles = false := by
      intro t ht
      rw [thread_eq_none.1 hthread t ht]
      rfl
    refine ⟨hexcl, ?_, ?_, ?_, ?_, h.once.erase _, ?_⟩
    · intro t ht hset
      rw [hnone t ht] at hset
      cases hset
    · intro b r hr hmax
      by_cases hb : b = id
      · rw [hb, requeueForRetry, get_transition, if_pos rfl, Option.map_eq_some_iff] at hr
        obtain ⟨j, hj, rfl⟩ := hr
        obtain ⟨k, hk, hstate⟩ := (Option.any_eq_true _ _).1 (h.timers id hid)
        rw [hj, Option.some.injEq] at hk
        rw [← hk, decide_eq_true_eq] at hstate
        have hlt := hstate.2
        simp only at hmax
        omega
      · simp only [hother b hb] at hr
        exact h.spent b r hr hmax
    · intro b hb
      have hmem := (h.once.mem_erase_iff).1 hb
      simp only [hother b hmem.1]
      exact h.timers b hmem.2
    · intro b hb
      exact h.free b (List.mem_of_mem_erase hb)
    · intro hphase
      have hnil := h.booting hphase
      simp [hnil]
  · exact h

theorem boot_row {write : Time → List Job → List Job} (hw : write ∈ bootWrites) (hkeyed : Keyed (·.id) jobs) {r : Job}
    (hr : get id (write now jobs) = some r) :
    ∃ j, get id jobs = some j ∧ j.attempts = r.attempts ∧ (j.state = .poison → r.state = .poison) := by
  simp only [bootWrites, List.mem_cons, List.not_mem_nil, or_false] at hw
  have hdelete : ∀ {p : Job → Prop} [DecidablePred p], get id (deleteWhere p jobs) = some r →
      ∃ j, get id jobs = some j ∧ j.attempts = r.attempts ∧ (j.state = .poison → r.state = .poison) := by
    intro p _ hr
    rw [get_deleteWhere hkeyed, Option.filter_eq_some_iff] at hr
    exact ⟨r, hr.1, rfl, fun hstate => hstate⟩
  have hupdate : ∀ {p : Job → Prop} [DecidablePred p] {f : Job → Job}, (∀ j, (f j).id = j.id) →
      (∀ j, (f j).attempts = j.attempts) → (∀ j, p j → j.state ≠ .poison) →
      get id (updateWhere p f jobs) = some r →
      ∃ j, get id jobs = some j ∧ j.attempts = r.attempts ∧ (j.state = .poison → r.state = .poison) := by
    intro p _ f hf hattempts hp hr
    rw [get_updateWhere hf, Option.map_eq_some_iff] at hr
    obtain ⟨j, hj, hjr⟩ := hr
    refine ⟨j, hj, ?_, ?_⟩
    · rw [← hjr]
      split
      · exact (hattempts j).symm
      · rfl
    · intro hstate
      rw [if_neg fun hpj => hp j hpj hstate] at hjr
      rw [← hjr]
      exact hstate
  rcases hw with rfl | rfl | rfl | rfl | rfl
  · exact hupdate (by intro _; rfl) (by intro _; rfl) (fun j hj => by simp [hj.1]) hr
  · exact hupdate (by intro _; rfl) (by intro _; rfl) (fun j hj => by simp [hj.1]) hr
  · exact hupdate (by intro _; rfl) (by intro _; rfl) (fun j hj => by simp [hj.1]) hr
  · exact hdelete hr
  · exact hdelete hr

/-- a boot finds no tick and no timer, so what is exhausted is poison, and stays it -/
theorem Accounted.boot (h : Accounted q) (hexcl : Exclusive (step E q (.boot now))) :
    Accounted (step E q (.boot now)) := by
  simp only [step] at hexcl ⊢
  split at hexcl
  · exact h
  · rename_i n hphase
    have hup : q.phase ≠ .up := by simp [hphase]
    have hticks := h.excl.booting hup
    have htimers := h.booting hup
    have hpoison : ∀ id j, get id q.jobs = some j → maxAttempts ≤ j.attempts → j.state = .poison := by
      intro id j hj hmax
      rcases h.spent id j hj hmax with hstate | ⟨-, t, ht, -⟩
      · exact hstate
      · rw [hticks] at ht
        cases ht
    split at hexcl
    · rename_i write hw
      refine ⟨hexcl, ?_, ?_, ?_, ?_, h.once, fun _ => htimers⟩
      · intro t ht
        simp only [hticks] at ht
        cases ht
      · intro id r hr hmax
        obtain ⟨j, hj, hattempts, hstate⟩ := boot_row (List.mem_of_getElem? hw) h.excl.keyed hr
        exact Or.inl (hstate (hpoison id j hj (by omega)))
      · intro id hid
        simp only [htimers] at hid
        cases hid
      · intro id hid
        simp only [htimers] at hid
        cases hid
    · exact ⟨hexcl, h.settling, h.spent, h.timers, h.free, h.once, fun _ => htimers⟩

theorem Accounted.step (h : Accounted q) (hop : Unattended op) (hcrash : SparesSettling q op) :
    Accounted (step E q op) := by
  have hexcl : Exclusive (Pipeline.step E q op) := h.excl.step (h.orderly hop)
  cases op with
  | enqueue id kind payloadJson priority now =>
    refine h.rewrite hexcl ?_ ?_
    · intro b j hj _
      rw [get_insertJob, hj]
      rfl
    · intro b j hj hmax
      rw [get_insertJob] at hj
      rcases Option.or_eq_some_iff.1 hj with hj | ⟨-, hj⟩
      · exact hj
      · split_ifs at hj with hid
        rw [← Option.some.inj hj] at hmax
        cases hmax
  | start concurrency =>
    simp only [Pipeline.step] at hexcl ⊢
    split_ifs at hexcl ⊢
    · exact ⟨hexcl, h.settling, h.spent, h.timers, h.free, h.once, h.booting⟩
    · exact h
  | stop worker => exact ⟨hexcl, h.settling, h.spent, h.timers, h.free, h.once, h.booting⟩
  | claim lane now => exact h.claim hexcl
  | settle lane outcome =>
    simp only [Pipeline.step] at hexcl ⊢
    split at hexcl
    · rename_i t hthread hlookup
      obtain ⟨ht, -⟩ := lookup_mem hlookup
      have hpc := thread_eq_none.1 hthread t ht
      refine h.settle ht (by rw [hpc]; rfl) ?_ hexcl
      cases outcome with
      | none => rfl
      | some err => rfl
    · exact h
  | call now failure =>
    cases failure with
    | some err => exact absurd hop (by simp [Unattended])
    | none =>
      cases hthread : thread q with
      | none =>
        simp only [Pipeline.step, hthread]
        exact h
      | some t => exact h.call hthread hexcl
  | retry id now => exact h.retry hexcl
  | crash =>
    have hspare := hcrash rfl
    refine ⟨hexcl, fun t ht => (by cases ht), ?_, fun id hid => (by cases hid), fun id hid => (by cases hid),
      List.nodup_nil, fun _ => rfl⟩
    intro id j hj hmax
    rcases h.spent id j hj hmax with hpoison | ⟨hfailed, t, ht, hset, hid⟩
    · exact Or.inl hpoison
    · refine absurd ⟨t, ht, hset, ?_⟩ hspare
      rw [hid]
      have hget : get id q.jobs = some j := hj
      simp [hget, Stranded, hfailed, hmax]
  | reboot => exact absurd hop (by simp [Unattended])
  | boot now => exact h.boot hexcl
  | cleanup olderThanDays now =>
    have hcompleted : Accounted { q with jobs := purgeState .completed olderThanDays now q.jobs } :=
      h.delete (h.excl.purgeState .completed rfl olderThanDays now) fun j hj => by simp [hj.1]
    exact hcompleted.delete hexcl fun j hj => by simp [hj.1]
  | list kind limit => exact ⟨hexcl, h.settling, h.spent, h.timers, h.free, h.once, h.booting⟩
  | requeue id now => exact absurd hop (by simp [Unattended])
  | requeuePaused now =>
    refine h.rewrite hexcl ?_ ?_
    · intro b j hj hstate
      unfold Pipeline.requeuePaused
      rw [get_updateWhere (by intro _; rfl), hj, Option.map_some, if_neg (by simp [hstate])]
    · intro b j hj hmax
      unfold Pipeline.requeuePaused at hj
      rw [get_updateWhere (by intro _; rfl), Option.map_eq_some_iff] at hj
      obtain ⟨r, hr, hrj⟩ := hj
      split_ifs at hrj with hpaused
      · rw [← hrj] at hmax
        rcases h.spent b r hr hmax with hstate | ⟨hstate, -⟩
        · simp [hstate] at hpaused
        · simp [hstate] at hpaused
      · rw [← hrj]
        exact hr
  | purgePoison ids => exact h.delete hexcl fun j hj => by simp [hj.1]

/-! ## Runs -/

theorem Accounted.run {ops : List Op} (hops : ∀ op ∈ ops, Unattended op)
    (hspare : Along (Pipeline.step E) SparesSettling {} ops) : Accounted (run E {} ops) :=
  along_inv Accounted (fun _ _ hq hop => hq.step hop.2 hop.1) accounted_empty (hspare.and_forall hops)

/-- **Boot recovery.** In a run of the daemon by itself: after every crash the next boot's recovery leaves each job
pending, completed, poison or paused, the exhausted ones poison, and no step reopens a completed job, iff no crash falls
between a `fail` that exhausts the attempts and the `markPoison` behind it. -/
theorem recovery_complete (E : Env) (ops : List Op) (hops : ∀ op ∈ ops, Unattended op) :
    ((∀ pre, pre ++ [.crash] <+: ops → ∀ now,
        Recovered (run E {} (pre ++ [.crash, .boot now, .boot now, .boot now])).jobs) ∧
      ∀ pre op, pre ++ [op] <+: ops → ∀ id,
        KeepsCompleted id (run E {} pre).jobs (run E {} (pre ++ [op])).jobs) ↔
    Along (step E) SparesSettling {} ops := by
  have hboot : ∀ pre now, (run E {} (pre ++ [.crash, .boot now, .boot now, .boot now])).jobs =
      recoverOrphans maxAttempts now (run E {} pre).jobs := by
    intro pre now
    rw [show pre ++ [Op.crash, .boot now, .boot now, .boot now] =
      (pre ++ [.crash]) ++ [.boot now, .boot now, .boot now] by simp, run_append, run_snoc]
    exact boot_recovers rfl now
  constructor
  · rintro ⟨hrec, -⟩
    refine along_iff.2 fun pre op hpre hcrash hset => ?_
    subst hcrash
    obtain ⟨t, -, -, hany⟩ := hset
    obtain ⟨j, hj, hstate⟩ := (Option.any_eq_true _ _).1 hany
    have hafter := hrec pre hpre 0
    rw [hboot] at hafter
    exact not_recovered_of_stranded hj (of_decide_eq_true hstate) hafter
  · intro hspare
    have hacc : ∀ pre, pre <+: ops → Accounted (run E {} pre) := fun pre hpre =>
      .run (fun op hop => hops op (hpre.subset hop)) (hspare.initial hpre)
    constructor
    · intro pre hpre now
      rw [hboot]
      have hcrashed := hacc _ hpre
      rw [run_snoc] at hcrashed
      refine recovered_of_spent hcrashed.excl.keyed fun j hj hmax => ?_
      rcases hcrashed.spent j.id j (get_of_mem hcrashed.excl.keyed hj) hmax with hpoison | ⟨-, t, ht, -⟩
      · exact hpoison
      · cases ht
    · intro pre op hpre id
      have hunattended : Unattended op := hops op (hpre.subset (by simp))
      have hstart := hacc pre ((List.prefix_append _ _).trans hpre)
      rw [run_snoc]
      refine .step hstart.excl (hstart.orderly hunattended) fun now heq => ?_
      rw [heq] at hunattended
      exact hunattended

/-! ## Two crashes -/

/-- a tick of job 1 in lane 0 whose handler times out, up to the `fail` -/
def failedTick : List Op := [.claim ⟨0, 0⟩ 1, .settle ⟨0, 0⟩ (some timeout), .call 1 none]

/-- the calls behind it -/
def settledTick : List Op := [.call 1 none, .call 1 none]

/-- the third failure of a job -/
def thirdFailure : List Op :=
  booted ++ [.enqueue 1 .distill "" 1 0] ++ failedTick ++ settledTick ++ [.retry 1 2] ++ failedTick ++ settledTick ++
    [.retry 1 2] ++ failedTick

theorem recovery_complete_settled :
    (run serveEnv {} (thirdFailure ++ settledTick)).jobs.map (·.state) = [.poison] ∧
      ∀ now, Recovered (run serveEnv {} (thirdFailure ++ settledTick ++ [.crash, .boot now, .boot now, .boot now])).jobs :=
  ⟨by decide,
    ((recovery_complete serveEnv (thirdFailure ++ settledTick ++ [.crash]) (by decide)).2 (by decide)).1 _
      List.prefix_rfl⟩

/-- **Recovery looks for `attempts < maxAttempts`, and nothing looks for the rest**: the process dies between the `fail`
and the `markPoison` of the third attempt, and the job is `failed` after every later boot -/
theorem crash_strands_failed_job :
    ¬ Recovered (run serveEnv {} (thirdFailure ++ [.crash, .boot 5, .boot 5, .boot 5])).jobs ∧
      (run serveEnv {} (thirdFailure ++ [.crash] ++ booted ++ [.claim ⟨0, 0⟩ 6] ++ [.crash] ++ booted)).jobs.map
        (fun j => (j.state, j.attempts)) = [(.failed, 3)] := by
  decide

end AstramemLocal.Pipeline
