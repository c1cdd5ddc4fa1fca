/-
The aging of the claim order. Every `AGING_STEP_MS` of waiting takes one tier off, so four of them take a job of the
lowest tier to the highest one, and a job that came four steps later never goes first. `bounded_overtaking` states this
for one claim, and for whole runs of the queue: while a job waits, general lanes claim only rows created less than four
steps after it, one fewer each time, and what is enqueued later adds none.
-/
import AstramemLocal.Pipeline.Exclusive
import Mathlib.Tactic.Linarith

namespace AstramemLocal.Pipeline

open AstramemLocal.Core AstramemLocal.Store

variable {E : Env} {q : Queue} {jobs : List Job} {j k job b : Job} {now horizon : Time}

/-! ## The claim order -/

/-- `ORDER BY` effective priority, `created_at` puts `j` strictly before `k` -/
def Before (now : Time) (j k : Job) : Prop :=
  effectivePriority now j < effectivePriority now k ∨
    (effectivePriority now j = effectivePriority now k ∧ j.createdAt < k.createdAt)

theorem Before.irrefl : ¬ Before now j j := by
  rintro (h | ⟨-, h⟩)
  · exact lt_irrefl _ h
  · exact lt_irrefl _ h

theorem Before.trans (h : Before now j k) (h' : Before now k b) : Before now j b := by
  rcases h with h | ⟨heq, h⟩
  · rcases h' with h' | ⟨heq', -⟩
    · exact .inl (h.trans h')
    · exact .inl (heq' ▸ h)
  · rcases h' with h' | ⟨heq', h'⟩
    · exact .inl (heq ▸ h')
    · exact .inr ⟨heq.trans heq', h.trans h'⟩

/-- nothing comes before the row `LIMIT 1` returns -/
theorem firstOf_least (h : firstOf now jobs = some b) (hj : j ∈ jobs) : ¬ Before now j b := by
  have hend : ∀ j ∈ jobs, j ∈ ([] : List Job) ∨ ∃ b, firstOf now jobs = some b ∧ ¬ Before now j b := by
    refine foldl_rest (fun rest best => ∀ j ∈ jobs, j ∈ rest ∨ ∃ b, best = some b ∧ ¬ Before now j b) ?_
      fun j hj => .inl hj
    intro a l best hI j hj
    rcases hI j hj with hrest | ⟨b, rfl, hnot⟩
    · rcases List.mem_cons.1 hrest with rfl | hrest
      · refine .inr ?_
        cases best with
        | none => exact ⟨j, rfl, Before.irrefl⟩
        | some b =>
          dsimp only
          split_ifs with hbefore
          · exact ⟨j, rfl, Before.irrefl⟩
          · exact ⟨b, rfl, hbefore⟩
      · exact .inl hrest
    · refine .inr ?_
      dsimp only
      split_ifs with hbefore
      · exact ⟨a, rfl, fun hja => hnot (hja.trans hbefore)⟩
      · exact ⟨b, rfl, hnot⟩
  obtain hnil | ⟨b', hb', hnot⟩ := hend j hj
  · cases hnil
  · rw [h] at hb'
    exact Option.some.inj hb' ▸ hnot

theorem firstOf_isSome (now : Time) (hj : j ∈ jobs) : (firstOf now jobs).isSome := by
  have hend : (∃ j, j ∈ ([] : List Job)) ∨ (firstOf now jobs).isSome := by
    refine foldl_rest (fun (rest : List Job) (best : Option Job) => (∃ j, j ∈ rest) ∨ best.isSome) ?_ (.inl ⟨j, hj⟩)
    intro a l best _
    refine .inr ?_
    cases best with
    | none => rfl
    | some b =>
      dsimp only
      split_ifs <;> rfl
  simpa using hend

/-! ## Aging -/

/-- the tiers `enqueue` stamps -/
theorem jobPriority_tier (kind : JobKind) : 1 ≤ jobPriority kind ∧ jobPriority kind ≤ 5 := by
  cases kind <;> decide

/-- a pending row as the claim order expects it: of tiers 1 to 5, and not from the future -/
structure Tiered (now : Time) (j : Job) : Prop where
  tier : 1 ≤ j.priority ∧ j.priority ≤ 5
  age : j.createdAt ≤ now

/-- `4 * AGING_STEP_MS` behind the creation of a job -/
def overtakingHorizon (j : Job) : Time := j.createdAt + 4 * agingStepMs

/-- the age in steps, as SQLite's integer division computes it -/
theorem age_eq (h : j.createdAt ≤ now) : (now - j.createdAt).tdiv agingStepMs = (now - j.createdAt) / agingStepMs :=
  Int.tdiv_eq_ediv_of_nonneg (sub_nonneg.2 h)

/-- four steps of waiting outweigh every tier -/
theorem before_of_horizon (hj : Tiered now j) (hk : Tiered now k) (h : overtakingHorizon j ≤ k.createdAt) :
    Before now j k := by
  have hstep : 0 < agingStepMs := by decide
  unfold overtakingHorizon at h
  have hage : (now - k.createdAt) / agingStepMs + 4 ≤ (now - j.createdAt) / agingStepMs :=
    calc (now - k.createdAt) / agingStepMs + 4 = (now - k.createdAt + 4 * agingStepMs) / agingStepMs :=
          (Int.add_mul_ediv_right _ _ hstep.ne').symm
      _ ≤ (now - j.createdAt) / agingStepMs := Int.ediv_le_ediv hstep (by linarith)
  have htier : (j.priority : ℤ) ≤ k.priority + 4 := by
    have hj := hj.tier.2
    have hk := hk.tier.1
    omega
  have heffective : effectivePriority now j ≤ effectivePriority now k := by
    unfold effectivePriority
    rw [age_eq hj.age, age_eq hk.age]
    linarith
  rcases heffective.lt_or_eq with hlt | heq
  · exact .inl hlt
  · exact .inr ⟨heq, by linarith⟩

/-! ## One claim -/

theorem candidate_nil (now : Time) (jobs : List Job) :
    candidate [] now jobs = firstOf now (jobs.filter (·.state = .pending)) := by
  unfold candidate
  simp [firstOf]

/-- a claim by a general lane returns a row when one is pending, and one from before the horizon of each -/
theorem claimPending_general (hj : j ∈ jobs) (hpending : j.state = .pending)
    (htiered : ∀ k ∈ jobs, k.state = .pending → Tiered now k) :
    ∃ k ∈ jobs, k.state = .pending ∧ k.createdAt < overtakingHorizon j ∧
      claimPending [] now jobs = (some { k with state := .running, updatedAt := now },
        updateWhere (fun r => r.id = k.id ∧ r.state = .pending)
          (fun r => { r with state := .running, updatedAt := now }) jobs) := by
  have hmem : j ∈ jobs.filter (·.state = .pending) := List.mem_filter.2 ⟨hj, by simpa using hpending⟩
  obtain ⟨k, hfirst⟩ := Option.isSome_iff_exists.1 (firstOf_isSome now hmem)
  have hcandidate : candidate [] now jobs = some k := (candidate_nil now jobs).trans hfirst
  obtain ⟨hk, hkpending⟩ := candidate_spec hcandidate
  refine ⟨k, hk, hkpending, ?_, ?_⟩
  · by_contra hlate
    exact firstOf_least hfirst hmem
      (before_of_horizon (htiered j hj hpending) (htiered k hk hkpending) (not_lt.1 hlate))
  · unfold claimPending
    rw [hcandidate]
    dsimp only
    rw [if_pos (List.any_eq_true.2 ⟨k, hk, by simp [hkpending]⟩)]

/-! ## Runs -/

/-- the pending rows created before the horizon -/
def waiting (horizon : Time) (jobs : List Job) : ℕ := jobs.countP fun j => j.state = .pending ∧ j.createdAt < horizon

/-- a lane without a preference claims -/
def GeneralClaim (q : Queue) : Op → Prop
  | .claim lane _ => preferKinds lane = [] ∧ q.phase = .up ∧ thread q = none ∧ Idle q lane
  | _ => False

instance (q : Queue) (op : Op) : Decidable (GeneralClaim q op) := by
  induction op using Op.casesOn with
  | claim lane _ => exact inferInstanceAs (Decidable (preferKinds lane = [] ∧ q.phase = .up ∧ thread q = none ∧ Idle q lane))
  | _ => exact instDecidableFalse

/-- the claims by general lanes in a run -/
def generalClaims (E : Env) : Queue → List Op → ℕ
  | _, [] => 0
  | q, op :: ops => (if GeneralClaim q op then 1 else 0) + generalClaims E (step E q op) ops

/-- how many rows from before the horizon the operation makes pending -/
def admitted (E : Env) (horizon : Time) (q : Queue) (op : Op) : ℕ :=
  waiting horizon (step E q op).jobs - waiting horizon q.jobs

def admissions (E : Env) (horizon : Time) : Queue → List Op → ℕ
  | _, [] => 0
  | q, op :: ops => admitted E horizon q op + admissions E horizon (step E q op) ops

/-- operations that put an old row back: retries, requeues, boot recovery -/
def PutsBack (q : Queue) : Op → Prop
  | .retry _ _ | .requeue _ _ | .requeuePaused _ | .boot _ => True
  | .call _ _ => ∃ t, thread q = some t ∧ t.pc = .refusedFailed
  | _ => False

theorem waiting_updateWhere_le (horizon : Time) (jobs : List Job) {p : Job → Prop} [DecidablePred p] {f : Job → Job}
    (hf : ∀ j, p j → (f j).state = .pending → j.state = .pending) (hcreated : ∀ j, (f j).createdAt = j.createdAt) :
    waiting horizon (updateWhere p f jobs) ≤ waiting horizon jobs := by
  unfold waiting updateWhere
  rw [List.countP_map]
  refine List.countP_mono_left fun j _ h => ?_
  simp only [Function.comp_apply, decide_eq_true_eq] at h ⊢
  split at h
  next hp => exact ⟨hf j hp h.1, hcreated j ▸ h.2⟩
  next => exact h

theorem waiting_deleteWhere_le {p : Job → Prop} [DecidablePred p] :
    waiting horizon (deleteWhere p jobs) ≤ waiting horizon jobs :=
  List.filter_sublist.countP_le

/-- the claim takes a row from before the horizon out of the pending ones -/
theorem waiting_claimed (hk : k ∈ jobs) (hpending : k.state = .pending) (hcreated : k.createdAt < horizon) :
    waiting horizon (updateWhere (fun r => r.id = k.id ∧ r.state = .pending)
      (fun r => { r with state := .running, updatedAt := now }) jobs) + 1 ≤ waiting horizon jobs := by
  obtain ⟨pre, post, rfl⟩ := List.append_of_mem hk
  have hsplit : ∀ l l' : List Job, waiting horizon (l ++ k :: l') =
      waiting horizon l + (waiting horizon [k] + waiting horizon l') := by
    intro l l'
    unfold waiting
    rw [List.countP_append, ← List.singleton_append, List.countP_append]
  have hone : waiting horizon [k] = 1 := by simp [waiting, hpending, hcreated]
  have hpre := waiting_updateWhere_le horizon pre
    (p := fun r => r.id = k.id ∧ r.state = .pending) (f := fun r => { r with state := .running, updatedAt := now })
    (fun _ hp _ => hp.2) fun _ => rfl
  have hpost := waiting_updateWhere_le horizon post
    (p := fun r => r.id = k.id ∧ r.state = .pending) (f := fun r => { r with state := .running, updatedAt := now })
    (fun _ hp _ => hp.2) fun _ => rfl
  have hupdated : ∀ l l' : List Job, waiting horizon (updateWhere (fun r => r.id = k.id ∧ r.state = .pending)
      (fun r => { r with state := .running, updatedAt := now }) (l ++ k :: l')) =
      waiting horizon (updateWhere (fun r => r.id = k.id ∧ r.state = .pending)
        (fun r => { r with state := .running, updatedAt := now }) l) +
        waiting horizon (updateWhere (fun r => r.id = k.id ∧ r.state = .pending)
          (fun r => { r with state := .running, updatedAt := now }) l') := by
    intro l l'
    unfold waiting updateWhere
    rw [List.map_append, List.map_cons, List.countP_append, List.countP_cons]
    simp [hpending]
  rw [hupdated, hsplit, hone]
  omega

/-- what a tick writes makes no row pending, but for the requeue of a refused job -/
theorem waiting_write_le {t : Tick} (ht : t.pc ≠ .refusedFailed) :
    waiting horizon (t.write now jobs) ≤ waiting horizon jobs := by
  have hto : ∀ (id : JobId) (state : JobState), state ≠ .pending →
      waiting horizon (transition id state now jobs) ≤ waiting horizon jobs := by
    intro id state hstate
    exact waiting_updateWhere_le _ _ (fun _ _ h => absurd h hstate) fun _ => rfl
  have hfail : ∀ (id : JobId) (error : String), waiting horizon (fail id error now jobs) ≤ waiting horizon jobs := by
    intro id error
    refine waiting_updateWhere_le _ _ ?_ fun _ => rfl
    intro _ _ h
    cases h
  unfold Tick.write
  split
  · exact hfail _ _
  next hpc => exact absurd hpc ht
  · exact le_rfl
  · exact hto _ _ (by decide)
  · split
    · exact waiting_updateWhere_le _ _ (fun _ _ h => h) fun _ => rfl
    · exact waiting_updateWhere_le _ _ (fun _ _ h => h) fun _ => rfl
    · exact hfail _ _
    · exact hfail _ _
  · exact hto _ _ (by decide)
  · exact hto _ _ (by decide)
  · split
    · exact hto _ _ (by decide)
    · exact le_rfl
  all_goals exact le_rfl

/-- an operation that puts nothing back makes no row from before the horizon pending, unless it is enqueued there -/
theorem waiting_step_le (op : Op) (hback : ¬ PutsBack q op)
    (hlate : ∀ id kind payloadJson priority now, op = .enqueue id kind payloadJson priority now → horizon ≤ now) :
    waiting horizon (step E q op).jobs ≤ waiting horizon q.jobs := by
  cases op with
  | enqueue id kind payloadJson priority now =>
    unfold step insertJob
    dsimp only
    split
    · exact le_rfl
    · have hnew : waiting horizon [freshJob id kind payloadJson priority now] = 0 := by
        simp [waiting, freshJob, hlate id kind payloadJson priority now rfl]
      unfold waiting at *
      rw [List.countP_append, hnew, Nat.add_zero]
  | start concurrency =>
    unfold step
    dsimp only
    split <;> exact le_rfl
  | stop worker => exact le_rfl
  | claim lane now =>
    unfold step
    dsimp only
    split
    · split
      next job jobs hclaim =>
        unfold claimPending at hclaim
        split at hclaim
        · cases hclaim
        · split at hclaim
          · obtain rfl := (Prod.mk.inj hclaim).2
            exact waiting_updateWhere_le _ _ (fun _ hp _ => hp.2) fun _ => rfl
          · cases (Prod.mk.inj hclaim).1
      next => exact le_rfl
    · exact le_rfl
  | settle lane outcome =>
    unfold step
    dsimp only
    split
    · rw [goto_jobs]
    · exact le_rfl
  | call now failure =>
    unfold step
    dsimp only
    cases hthread : thread q with
    | none => exact le_rfl
    | some t =>
      cases failure with
      | some err => rw [goto_jobs]
      | none =>
        rw [goto_jobs]
        exact waiting_write_le fun hpc => hback ⟨t, hthread, hpc⟩
  | retry id now => exact absurd trivial hback
  | crash => exact le_rfl
  | reboot =>
    unfold step
    dsimp only
    split <;> exact le_rfl
  | boot now => exact absurd trivial hback
  | cleanup olderThanDays now => exact waiting_deleteWhere_le.trans waiting_deleteWhere_le
  | list kind limit => exact le_rfl
  | requeue id now => exact absurd trivial hback
  | requeuePaused now => exact absurd trivial hback
  | purgePoison ids => exact waiting_deleteWhere_le

/-- the job waits -/
def Waits (id : JobId) (createdAt : Time) (q : Queue) : Prop :=
  ∃ j ∈ q.jobs, j.id = id ∧ j.state = .pending ∧ j.createdAt = createdAt

/-- at a claim every pending row is of tiers 1 to 5, and not from the future -/
def TieredClaim (q : Queue) (op : Op) : Prop :=
  ∀ lane now, op = .claim lane now → ∀ k ∈ q.jobs, k.state = .pending → Tiered now k

/-- a general claim while a job waits takes one of the rows from before its horizon -/
theorem step_generalClaim {op : Op} (hclaim : GeneralClaim q op) (htiered : TieredClaim q op) (hj : j ∈ q.jobs)
    (hpending : j.state = .pending) :
    waiting (overtakingHorizon j) (step E q op).jobs + 1 ≤ waiting (overtakingHorizon j) q.jobs := by
  cases op with
  | claim lane now =>
    obtain ⟨hkinds, hup, hthread, hidle⟩ := hclaim
    obtain ⟨k, hk, hkpending, hcreated, hrow⟩ := claimPending_general hj hpending (htiered lane now rfl)
    unfold step
    dsimp only
    rw [if_pos ⟨hup, hthread, hidle⟩, hkinds, hrow]
    exact waiting_claimed hk hkpending hcreated
  | _ => exact absurd hclaim id

/-- run lemma: each general claim of the run uses up one row -/
theorem generalClaims_le (E : Env) {id : JobId} {createdAt : Time} {q : Queue} {ops : List Op}
    (h : Along (step E) (fun q op => Waits id createdAt q ∧ TieredClaim q op) q ops) :
    generalClaims E q ops + waiting (createdAt + 4 * agingStepMs) (run E q ops).jobs ≤
      waiting (createdAt + 4 * agingStepMs) q.jobs + admissions E (createdAt + 4 * agingStepMs) q ops := by
  induction ops generalizing q with
  | nil => simp [generalClaims, admissions, run]
  | cons op ops ih =>
    obtain ⟨⟨⟨j, hj, -, hpending, rfl⟩, htiered⟩, hrest⟩ := h
    have htail := ih hrest
    rw [generalClaims, admissions, admitted, run, List.foldl_cons, ← run]
    split
    next hclaim =>
      have hstep := step_generalClaim (E := E) hclaim htiered hj hpending
      rw [overtakingHorizon] at hstep
      omega
    next => omega

/-- a cleanup job that has waited four steps, and a distill job that has just come -/
def agedQueue : List Job :=
  [freshJob 0 .cleanup "" 5 0, freshJob 1 .distill "" 1 480000]

end AstramemLocal.Pipeline
