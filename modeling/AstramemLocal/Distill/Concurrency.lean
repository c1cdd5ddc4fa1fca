/-
`src/distill/concurrency.ts`: workers that share a cursor and a stop flag. A worker runs alone from one `await` to the
next. Between two such stretches, and within a call of `fn`, awaited promises settle in any order; the workers that
awaited them go on in the order in which they settled, once every worker has been spawned.

In every run at most `limit` promises are awaited, every item is started once, in order, and a result stands at its item's
position (`Inv`). The stop flag goes up when a worker sees a rejection. Where no worker can claim an item between that and
the moment the promise settled (`Prompt`), nothing starts after the first rejection, and its error is the one thrown
(`mapWithConcurrency_runs`). Otherwise something may (`start_after_rejection`).
-/
import AstramemLocal.Core.Runs
import Mathlib.Data.Rat.Floor
import Mathlib.Data.List.Range

namespace AstramemLocal.Distill.Concurrency

open AstramemLocal.Core

variable {T R ε : Type}

/-! ## Workers -/

/-- what a call of `fn` does: throw, or return a promise with a fate -/
inductive Call (R ε : Type) where
  | threw (e : ε)
  | promise (outcome : Except ε R)

/-- what has happened, as seen from outside -/
inductive Entry (ε : Type) where
  | started (index : ℕ)
  | rejected (error : ε)
deriving DecidableEq

/-- `calling`: the item whose call of `fn` has not come back; `awaiting`: pending promises; `queue`: settled ones whose
workers have yet to go on -/
structure St (R ε : Type) where
  next : ℕ
  stopped : Bool
  firstError : Option ε
  results : List (Option R)
  spawned : ℕ
  returned : ℕ
  calling : Option ℕ
  awaiting : List ℕ
  queue : List ℕ
  log : List (Entry ε)

inductive Event where
  /-- `Array.from` makes the next worker -/
  | spawn
  /-- the call of `fn` comes back -/
  | back
  /-- an awaited promise settles -/
  | settle (index : ℕ)
  /-- the worker that has waited longest for its turn goes on -/
  | tick

section
variable (items : List T) (limit : ℚ) (fn : T → ℕ → Call R ε)

/-- `Math.max(1, Math.min(limit, items.length || 1))` workers -/
def workerCount : ℕ := ⌊max 1 (min limit (if items.length = 0 then 1 else items.length))⌋.toNat

/-- the fate of the promise of an item -/
def outcome (index : ℕ) : Option (Except ε R) :=
  items[index]?.bind fun item =>
    match fn item index with
    | .promise outcome => some outcome
    | .threw _ => none

def init : St R ε := ⟨0, false, none, List.replicate items.length none, 0, 0, none, [], [], []⟩

/-- the catch clause -/
def fail (s : St R ε) (e : ε) : St R ε :=
  { s with firstError := s.firstError.or (some e), stopped := true, returned := s.returned + 1 }

/-- from the head of the loop to the call of `fn`, or to the end -/
def claim (s : St R ε) : St R ε :=
  if s.stopped then { s with returned := s.returned + 1 }
  else if items.length ≤ s.next then { s with next := s.next + 1, returned := s.returned + 1 }
  else { s with next := s.next + 1, calling := some s.next, log := s.log ++ [.started s.next] }

/-- an event that cannot happen in a state leaves it alone -/
def step (s : St R ε) : Event → St R ε
  | .spawn =>
    if s.calling = none ∧ s.spawned < workerCount items limit then claim items { s with spawned := s.spawned + 1 } else s
  | .back =>
    match s.calling with
    | none => s
    | some i =>
      match items[i]?.map (fn · i) with
      | some (.threw e) => fail { s with calling := none, log := s.log ++ [.rejected e] } e
      | some (.promise _) => { s with calling := none, awaiting := s.awaiting ++ [i] }
      | none => s
  | .settle i =>
    if i ∈ s.awaiting then
      match outcome items fn i with
      | some (.ok _) => { s with awaiting := s.awaiting.erase i, queue := s.queue ++ [i] }
      | some (.error e) =>
        { s with awaiting := s.awaiting.erase i, queue := s.queue ++ [i], log := s.log ++ [.rejected e] }
      | none => s
    else s
  | .tick =>
    if s.calling = none ∧ s.spawned = workerCount items limit then
      match s.queue with
      | [] => s
      | i :: queue =>
        match outcome items fn i with
        | some (.ok r) => claim items { s with queue, results := s.results.set i (some r) }
        | some (.error e) => fail { s with queue } e
        | none => s
    else s

/-- what the call comes to when every worker has returned -/
def output (s : St R ε) : Option (Except ε (List (Option R))) :=
  if s.spawned = workerCount items limit ∧ s.returned = workerCount items limit then
    match s.firstError with
    | some e => some (.error e)
    | none => some (.ok s.results)
  else none

end

def started : Entry ε → Option ℕ
  | .started i => some i
  | .rejected _ => none

def rejected : Entry ε → Option ε
  | .started _ => none
  | .rejected e => some e

/-- the indices started, in order -/
def starts (s : St R ε) : List ℕ := s.log.filterMap started

/-- the errors of the rejections, in order -/
def rejections (s : St R ε) : List ε := s.log.filterMap rejected

/-- the calls in flight: `fn` has not come back, or its promise is pending -/
def inFlight (s : St R ε) : ℕ := s.calling.toList.length + s.awaiting.length

/-- no item is started after a rejection -/
def NoLateStart (s : St R ε) : Prop := s.log.Pairwise fun a b => (rejected a).isSome → started b = none

section
variable {items : List T} {limit : ℚ} {fn : T → ℕ → Call R ε} {s : St R ε}

/-! ## Steps -/

/-- what an event that can happen does -/
inductive Moves (items : List T) (limit : ℚ) (fn : T → ℕ → Call R ε) (s : St R ε) : Event → St R ε → Prop where
  | spawned (hcalling : s.calling = none) (hroom : s.spawned < workerCount items limit) :
      Moves items limit fn s .spawn (claim items { s with spawned := s.spawned + 1 })
  | threw {i : ℕ} {e : ε} (hcalling : s.calling = some i) (hcall : items[i]?.map (fn · i) = some (.threw e)) :
      Moves items limit fn s .back (fail { s with calling := none, log := s.log ++ [.rejected e] } e)
  | cameBack {i : ℕ} {p : Except ε R} (hcalling : s.calling = some i)
      (hcall : items[i]?.map (fn · i) = some (.promise p)) :
      Moves items limit fn s .back { s with calling := none, awaiting := s.awaiting ++ [i] }
  | fulfilled {i : ℕ} {r : R} (hi : i ∈ s.awaiting) (houtcome : outcome items fn i = some (.ok r)) :
      Moves items limit fn s (.settle i) { s with awaiting := s.awaiting.erase i, queue := s.queue ++ [i] }
  | rejected {i : ℕ} {e : ε} (hi : i ∈ s.awaiting) (houtcome : outcome items fn i = some (.error e)) :
      Moves items limit fn s (.settle i)
        { s with awaiting := s.awaiting.erase i, queue := s.queue ++ [i], log := s.log ++ [.rejected e] }
  | went {i : ℕ} {queue : List ℕ} {r : R} (hcalling : s.calling = none) (hqueue : s.queue = i :: queue)
      (houtcome : outcome items fn i = some (.ok r)) :
      Moves items limit fn s .tick (claim items { s with queue, results := s.results.set i (some r) })
  | caught {i : ℕ} {queue : List ℕ} {e : ε} (hcalling : s.calling = none) (hqueue : s.queue = i :: queue)
      (houtcome : outcome items fn i = some (.error e)) :
      Moves items limit fn s .tick (fail { s with queue } e)

theorem step_cases (items : List T) (limit : ℚ) (fn : T → ℕ → Call R ε) (s : St R ε) (o : Event) :
    step items limit fn s o = s ∨ Moves items limit fn s o (step items limit fn s o) := by
  cases o with
  | spawn =>
    simp only [step]
    split_ifs with henabled
    · exact .inr (.spawned henabled.1 henabled.2)
    · exact .inl rfl
  | back =>
    simp only [step]
    cases hcalling : s.calling with
    | none => exact .inl rfl
    | some i =>
      simp only
      cases hcall : items[i]?.map (fn · i) with
      | none => exact .inl rfl
      | some call =>
        cases call with
        | threw e => exact .inr (.threw hcalling hcall)
        | promise p => exact .inr (.cameBack hcalling hcall)
  | settle i =>
    simp only [step]
    split_ifs with hi
    · cases houtcome : outcome items fn i with
      | none => exact .inl rfl
      | some result =>
        cases result with
        | ok r => exact .inr (.fulfilled hi houtcome)
        | error e => exact .inr (.rejected hi houtcome)
    · exact .inl rfl
  | tick =>
    simp only [step]
    split_ifs with henabled
    · cases hqueue : s.queue with
      | nil => exact .inl rfl
      | cons i queue =>
        simp only
        cases houtcome : outcome items fn i with
        | none => exact .inl rfl
        | some result =>
          cases result with
          | ok r => exact .inr (.went henabled.1 hqueue houtcome)
          | error e => exact .inr (.caught henabled.1 hqueue houtcome)
    · exact .inl rfl

/-! ## Every run -/

/-- `running` workers are between two awaits, outside a call -/
structure Counts (items : List T) (limit : ℚ) (running : ℕ) (s : St R ε) : Prop where
  starts_eq : starts s = List.range (min s.next items.length)
  workers : s.spawned = s.returned + s.calling.toList.length + s.awaiting.length + s.queue.length + running
  spawned_le : s.spawned ≤ workerCount items limit
  results_length : s.results.length = items.length

structure Inv (items : List T) (limit : ℚ) (fn : T → ℕ → Call R ε) (running : ℕ) (s : St R ε) : Prop
    extends Counts items limit running s where
  stopped_iff : s.stopped = s.firstError.isSome
  /-- a worker returns early only when the flag is up -/
  drained : s.firstError = none → s.returned ≠ 0 → items.length ≤ s.next
  /-- an item that was started has its result, unless it is on its way -/
  settled : s.firstError = none → ∀ i < min s.next items.length,
    s.calling = some i ∨ i ∈ s.awaiting ∨ i ∈ s.queue ∨
      ∃ r, s.results[i]? = some (some r) ∧ outcome items fn i = some (.ok r)

theorem inv_init : Inv items limit fn 0 (init items) where
  starts_eq := by simp [starts, init]
  workers := rfl
  spawned_le := Nat.zero_le _
  results_length := by simp [init]
  stopped_iff := rfl
  drained := by simp [init]
  settled := by simp [init]

theorem Counts.fail (h : Counts items limit 1 s) (e : ε) : Inv items limit fn 0 (fail s e) where
  starts_eq := h.starts_eq
  workers := by
    have hworkers := h.workers
    simp only [Concurrency.fail]
    omega
  spawned_le := h.spawned_le
  results_length := h.results_length
  stopped_iff := by cases hfirst : s.firstError <;> simp [Concurrency.fail, hfirst]
  drained := by cases hfirst : s.firstError <;> simp [Concurrency.fail, hfirst]
  settled := by cases hfirst : s.firstError <;> simp [Concurrency.fail, hfirst]

theorem Inv.claim (h : Inv items limit fn 1 s) (hcalling : s.calling = none) : Inv items limit fn 0 (claim items s) := by
  have hworkers := h.workers
  rw [hcalling, Option.toList_none, List.length_nil] at hworkers
  unfold Concurrency.claim
  split_ifs with hstop hend
  · refine { h with workers := ?_, drained := ?_ }
    · simp only [hcalling, Option.toList_none, List.length_nil]
      omega
    · intro hfirst
      rw [h.stopped_iff, hfirst] at hstop
      cases hstop
  · refine { h with starts_eq := ?_, workers := ?_, drained := ?_, settled := ?_ }
    · have hstarts := h.starts_eq
      rw [Nat.min_eq_right hend] at hstarts
      rw [Nat.min_eq_right (by simp only; omega)]
      exact hstarts
    · simp only [hcalling, Option.toList_none, List.length_nil]
      omega
    · intro _ _
      simp only
      omega
    · intro hfirst i hi
      exact h.settled hfirst i (by simp only at hi; omega)
  · refine { h with starts_eq := ?_, workers := ?_, drained := ?_, settled := ?_ }
    · have hstarts := h.starts_eq
      rw [Nat.min_eq_left (by omega)] at hstarts
      rw [Nat.min_eq_left (by simp only; omega), starts, List.filterMap_append, List.range_succ]
      exact congrArg (· ++ [s.next]) hstarts
    · simp only [Option.toList_some, List.length_singleton]
      omega
    · intro hfirst hreturned
      have hdone := h.drained hfirst hreturned
      omega
    · intro hfirst i hi
      simp only at hi ⊢
      by_cases hnext : i = s.next
      · exact .inl (congrArg some hnext.symm)
      · right
        have hsettled := h.settled hfirst i (by omega)
        rw [hcalling] at hsettled
        simpa using hsettled

theorem Inv.settle (h : Inv items limit fn 0 s) {i : ℕ} (hi : i ∈ s.awaiting) (log : List (Entry ε))
    (hlog : log.filterMap started = []) :
    Inv items limit fn 0 { s with awaiting := s.awaiting.erase i, queue := s.queue ++ [i], log := s.log ++ log } := by
  refine { h with starts_eq := ?_, workers := ?_, settled := ?_ }
  · rw [← h.starts_eq]
    simp [starts, hlog]
  · have hworkers := h.workers
    have hlength := List.length_erase_of_mem hi
    have hpos := List.length_pos_of_mem hi
    simp only [List.length_append, List.length_singleton]
    omega
  · intro hfirst j hj
    rcases h.settled hfirst j hj with hcalling | hawaiting | hqueue | hdone
    · exact .inl hcalling
    · right
      by_cases hji : j = i
      · exact .inr (.inl (List.mem_append_right _ (List.mem_singleton.2 hji)))
      · exact .inl ((List.mem_erase_of_ne hji).2 hawaiting)
    · exact .inr (.inr (.inl (List.mem_append_left _ hqueue)))
    · exact .inr (.inr (.inr hdone))

/-- the worker of the first promise in turn takes its result -/
theorem Inv.take (h : Inv items limit fn 0 s) {i : ℕ} {queue : List ℕ} {r : R} (hqueue : s.queue = i :: queue)
    (houtcome : outcome items fn i = some (.ok r)) :
    Inv items limit fn 1 { s with queue, results := s.results.set i (some r) } := by
  refine { h with workers := ?_, results_length := ?_, settled := ?_ }
  · have hworkers := h.workers
    rw [hqueue, List.length_cons] at hworkers
    simp only
    omega
  · rw [List.length_set]
    exact h.results_length
  · intro hfirst j hj
    by_cases hji : i = j
    · have hlt : i < s.results.length := by
        rw [h.results_length, hji]
        exact hj.trans_le (Nat.min_le_right _ _)
      subst hji
      exact .inr (.inr (.inr ⟨r, by simp [hlt], houtcome⟩))
    · have hsettled := h.settled hfirst j hj
      rw [hqueue, List.mem_cons] at hsettled
      simp only [List.getElem?_set_ne hji]
      rcases hsettled with hcalling | hawaiting | (heq | hrest) | hdone
      · exact .inl hcalling
      · exact .inr (.inl hawaiting)
      · exact absurd heq.symm hji
      · exact .inr (.inr (.inl hrest))
      · exact .inr (.inr (.inr hdone))

theorem Inv.step (h : Inv items limit fn 0 s) (o : Event) : Inv items limit fn 0 (step items limit fn s o) := by
  have hworkers := h.workers
  rcases step_cases items limit fn s o with heq | hmove
  · rwa [heq]
  generalize Concurrency.step items limit fn s o = t at hmove ⊢
  cases hmove with
  | spawned hcalling hroom =>
    have hrun : Inv items limit fn 1 { s with spawned := s.spawned + 1 } := by
      refine { h with workers := ?_, spawned_le := hroom }
      simp only
      omega
    exact hrun.claim hcalling
  | threw hcalling hcall =>
    rw [hcalling, Option.toList_some, List.length_singleton] at hworkers
    apply Counts.fail
    refine { h.toCounts with starts_eq := ?_, workers := ?_ }
    · rw [← h.starts_eq]
      simp [starts, started]
    · simp only [Option.toList_none, List.length_nil]
      omega
  | cameBack hcalling hcall =>
    rw [hcalling, Option.toList_some, List.length_singleton] at hworkers
    refine { h with workers := ?_, settled := ?_ }
    · simp only [Option.toList_none, List.length_nil, List.length_append, List.length_singleton]
      omega
    · intro hfirst j hj
      have hsettled := h.settled hfirst j hj
      rw [hcalling, Option.some.injEq] at hsettled
      right
      rcases hsettled with rfl | hawaiting | hrest
      · exact .inl (List.mem_append_right _ (List.mem_singleton_self _))
      · exact .inl (List.mem_append_left _ hawaiting)
      · exact .inr hrest
  | fulfilled hi houtcome =>
    have hsettle := h.settle hi [] rfl
    rwa [List.append_nil] at hsettle
  | rejected hi houtcome => exact h.settle hi [.rejected _] rfl
  | went hcalling hqueue houtcome => exact (h.take hqueue houtcome).claim hcalling
  | @caught i queue e hcalling hqueue houtcome =>
    rw [hqueue, List.length_cons] at hworkers
    have hcounts : Counts items limit 1 { s with queue } := { h.toCounts with workers := by simp only; omega }
    exact hcounts.fail e

theorem inv_run (ops : List Event) : Inv items limit fn 0 (ops.foldl (step items limit fn) (init items)) :=
  along_inv (P := fun _ _ => True) _ (fun _ o h _ => h.step o) inv_init (along_trivial _ _ ops)

/-! ## After the first rejection -/

section
variable (items : List T) (limit : ℚ) (fn : T → ℕ → Call R ε)

/-- the error an item's promise is rejected with -/
def errorOf (index : ℕ) : Option ε :=
  match outcome items fn index with
  | some (.error e) => some e
  | _ => none

/-- no worker can claim an item before one sees a rejection: the flag is up; or no call of `fn` under way will throw, and
nothing is left to claim, or every worker has been spawned and a rejection is next in turn, if anything is -/
def Settling (rejectionNext : St R ε → Prop) (s : St R ε) : Prop :=
  s.stopped = true ∨ ((∀ i ∈ s.calling, (outcome items fn i).isSome) ∧
    (items.length ≤ s.next ∨ (s.spawned = workerCount items limit ∧ rejectionNext s)))

/-- a promise is rejected only when no worker can claim an item before one sees it -/
def Prompt (s : St R ε) : Event → Prop
  | .settle i => (errorOf items fn i).isSome →
      Settling items limit fn (fun s => ∀ j ∈ s.queue.head?, (errorOf items fn j).isSome) s
  | _ => True

end

structure Quiet (items : List T) (limit : ℚ) (fn : T → ℕ → Call R ε) (s : St R ε) : Prop where
  late : NoLateStart s
  still : rejections s ≠ [] → Settling items limit fn (fun s => ∃ i ∈ s.queue.head?, (errorOf items fn i).isSome) s
  first : (rejections s).head? = s.firstError.or (s.queue.filterMap (errorOf items fn)).head?

theorem quiet_init : Quiet items limit fn (init items) where
  late := List.Pairwise.nil
  still h := absurd rfl h
  first := rfl

theorem noLateStart_rejected (h : s.log.Pairwise fun a b => (rejected a).isSome → started b = none) (e : ε) :
    (s.log ++ [Entry.rejected e]).Pairwise fun a b => (rejected a).isSome → started b = none := by
  rw [List.pairwise_append]
  refine ⟨h, List.pairwise_singleton _ _, ?_⟩
  intro a _ b hb _
  rw [List.mem_singleton.1 hb]
  rfl

theorem rejections_rejected (e : ε) :
    ((s.log ++ [Entry.rejected e]).filterMap rejected).head? = (rejections s).head?.or (some e) := by
  rw [List.filterMap_append, List.head?_append]
  rfl

/-- a worker that claims an item does so before any rejection -/
theorem quiet_claim (hlate : NoLateStart s) (hstill : rejections s ≠ [] → s.stopped = true ∨ items.length ≤ s.next)
    (hfirst : (rejections s).head? = s.firstError.or (s.queue.filterMap (errorOf items fn)).head?)
    (hcalling : s.calling = none) : Quiet items limit fn (claim items s) := by
  unfold claim
  split_ifs with hstop hend
  · exact ⟨hlate, fun _ => .inl hstop, hfirst⟩
  · refine ⟨hlate, fun _ => .inr ⟨?_, .inl ?_⟩, hfirst⟩
    · simp [hcalling]
    · simp only
      omega
  · have hnone : rejections s = [] := by
      by_contra hsome
      rcases hstill hsome with hstopped | hdone
      · exact hstop hstopped
      · exact hend hdone
    have hsame : (s.log ++ [Entry.started s.next]).filterMap rejected = rejections s := by
      rw [List.filterMap_append]
      exact List.append_nil _
    refine ⟨?_, ?_, ?_⟩
    · unfold NoLateStart
      rw [List.pairwise_append]
      refine ⟨hlate, List.pairwise_singleton _ _, ?_⟩
      intro a ha b _ hrejected
      obtain ⟨e, he⟩ := Option.isSome_iff_exists.1 hrejected
      have hmem : e ∈ rejections s := List.mem_filterMap.2 ⟨a, ha, he⟩
      rw [hnone] at hmem
      cases hmem
    · intro hsome
      exact absurd (hsame.trans hnone) hsome
    · exact (congrArg List.head? hsame).trans hfirst

theorem errorOf_ok {i : ℕ} {r : R} (h : outcome items fn i = some (.ok r)) : errorOf items fn i = none := by
  simp [errorOf, h]

theorem errorOf_error {i : ℕ} {e : ε} (h : outcome items fn i = some (.error e)) : errorOf items fn i = some e := by
  simp [errorOf, h]

/-- a call that throws while no error has been caught throws the first one -/
theorem Quiet.throws (h : Quiet items limit fn s) (hinv : Inv items limit fn 0 s) {i : ℕ} {e : ε}
    (hcalling : s.calling = some i) (hcall : items[i]?.map (fn · i) = some (.threw e)) :
    (rejections s).head?.or (some e) = s.firstError.or (some e) := by
  cases herror : s.firstError with
  | some first =>
    rw [h.first, herror]
    rfl
  | none =>
    -- no rejection is on its way to a worker: this call would have kept it waiting
    have hnone : rejections s = [] := by
      by_contra hsome
      rcases h.still hsome with hstop | ⟨hreturns, -⟩
      · rw [hinv.stopped_iff, herror] at hstop
        cases hstop
      · have hi := hreturns i hcalling
        obtain ⟨item, hitem, hthrew⟩ := Option.map_eq_some_iff.1 hcall
        simp [outcome, hitem, hthrew] at hi
    rw [hnone]
    rfl

theorem Quiet.step (h : Quiet items limit fn s) (hinv : Inv items limit fn 0 s) (o : Event)
    (hprompt : Prompt items limit fn s o) : Quiet items limit fn (step items limit fn s o) := by
  rcases step_cases items limit fn s o with heq | hmove
  · rwa [heq]
  generalize Concurrency.step items limit fn s o = t at hmove ⊢
  cases hmove with
  | spawned hcalling hroom =>
    refine quiet_claim h.late (fun hsome => ?_) h.first hcalling
    rcases h.still hsome with hstop | ⟨-, hdone | ⟨hspawned, -⟩⟩
    · exact .inl hstop
    · exact .inr hdone
    · exact absurd hspawned (Nat.ne_of_lt hroom)
  | @threw i e hcalling hcall =>
    refine ⟨noLateStart_rejected h.late e, fun _ => .inl rfl, ?_⟩
    calc ((s.log ++ [Entry.rejected e]).filterMap Concurrency.rejected).head?
        = (rejections s).head?.or (some e) := rejections_rejected e
      _ = s.firstError.or (some e) := h.throws hinv hcalling hcall
      _ = (s.firstError.or (some e)).or (s.queue.filterMap (errorOf items fn)).head? := by
        rw [Option.or_assoc, Option.some_or]
  | cameBack hcalling hcall =>
    refine ⟨h.late, fun hsome => ?_, h.first⟩
    rcases h.still hsome with hstop | ⟨-, hrest⟩
    · exact .inl hstop
    · exact .inr ⟨by simp, hrest⟩
  | @fulfilled i r hi houtcome =>
    refine ⟨h.late, fun hsome => ?_, ?_⟩
    · rcases h.still hsome with hstop | ⟨hcalling, hdone | ⟨hspawned, j, hj, hjerror⟩⟩
      · exact .inl hstop
      · exact .inr ⟨hcalling, .inl hdone⟩
      · refine .inr ⟨hcalling, .inr ⟨hspawned, j, ?_, hjerror⟩⟩
        rw [Option.mem_def] at hj ⊢
        rw [List.head?_append, hj, Option.some_or]
    · have hqueue : (s.queue ++ [i]).filterMap (errorOf items fn) = s.queue.filterMap (errorOf items fn) := by
        rw [List.filterMap_append, List.filterMap_cons_none (errorOf_ok houtcome)]
        exact List.append_nil _
      rw [hqueue]
      exact h.first
  | @rejected i e hi houtcome =>
    have herror := errorOf_error houtcome
    refine ⟨noLateStart_rejected h.late e, fun _ => ?_, ?_⟩
    · rcases hprompt (by simp [herror]) with hstop | ⟨hcalling, hdone | ⟨hspawned, hnext⟩⟩
      · exact .inl hstop
      · exact .inr ⟨hcalling, .inl hdone⟩
      · refine .inr ⟨hcalling, .inr ⟨hspawned, ?_⟩⟩
        cases hqueue : s.queue with
        | nil => exact ⟨i, by simp, by simp [herror]⟩
        | cons j rest => exact ⟨j, by simp, hnext j (by simp [hqueue])⟩
    · rw [rejections, rejections_rejected, h.first, List.filterMap_append, List.head?_append]
      simp [herror]
  | went hcalling hqueue houtcome =>
    have herror := errorOf_ok houtcome
    have hfirst := h.first
    rw [hqueue, List.filterMap_cons_none herror] at hfirst
    refine quiet_claim h.late (fun hsome => ?_) hfirst hcalling
    rcases h.still hsome with hstop | ⟨-, hdone | ⟨-, j, hj, hjerror⟩⟩
    · exact .inl hstop
    · exact .inr hdone
    · rw [hqueue, List.head?_cons, Option.mem_some_iff] at hj
      rw [← hj, herror] at hjerror
      cases hjerror
  | caught hcalling hqueue houtcome =>
    have hfirst := h.first
    rw [hqueue, List.filterMap_cons_some (errorOf_error houtcome), List.head?_cons] at hfirst
    refine ⟨h.late, fun _ => .inl rfl, ?_⟩
    simp only [fail]
    rw [Option.or_assoc, Option.some_or]
    exact hfirst

theorem quiet_run {ops : List Event} (h : Along (step items limit fn) (Prompt items limit fn) (init items) ops) :
    Quiet items limit fn (ops.foldl (step items limit fn) (init items)) := by
  have hboth := along_inv (fun s => Inv items limit fn 0 s ∧ Quiet items limit fn s)
    (fun s o hs hprompt => ⟨hs.1.step o, hs.2.step hs.1 o hprompt⟩) ⟨inv_init, quiet_init⟩ h
  exact hboth.2

/-! ## The result -/

theorem workerCount_pos (items : List T) (limit : ℚ) : 1 ≤ workerCount items limit := by
  have hfloor : 1 ≤ ⌊max 1 (min limit (if items.length = 0 then 1 else items.length))⌋ := by
    rw [Int.le_floor]
    exact_mod_cast le_max_left _ _
  unfold workerCount
  omega

theorem workerCount_le (items : List T) (limit : ℚ) : (workerCount items limit : ℚ) ≤ max 1 limit := by
  have hpos := workerCount_pos items limit
  have hfloor : (⌊max 1 (min limit (if items.length = 0 then 1 else items.length))⌋ : ℚ) ≤
      max 1 (min limit (if items.length = 0 then 1 else items.length)) := Int.floor_le _
  have hcast : ((workerCount items limit : ℤ) : ℚ) =
      (⌊max 1 (min limit (if items.length = 0 then 1 else items.length))⌋ : ℚ) := by
    congr 1
    unfold workerCount at hpos ⊢
    omega
  calc (workerCount items limit : ℚ) = ((workerCount items limit : ℤ) : ℚ) := (Int.cast_natCast _).symm
    _ ≤ max 1 (min limit (if items.length = 0 then 1 else items.length)) := hcast ▸ hfloor
    _ ≤ max 1 limit := max_le_max le_rfl (min_le_left _ _)

theorem Inv.inFlight_le (h : Inv items limit fn 0 s) : (inFlight s : ℚ) ≤ max 1 limit := by
  have hle : inFlight s ≤ workerCount items limit := by
    have hworkers := h.workers
    have hspawned := h.spawned_le
    unfold inFlight
    omega
  calc (inFlight s : ℚ) ≤ workerCount items limit := by exact_mod_cast hle
    _ ≤ max 1 limit := workerCount_le items limit

/-- when all workers have returned nothing is under way -/
theorem Inv.idle (h : Inv items limit fn 0 s) (hspawned : s.spawned = workerCount items limit)
    (hreturned : s.returned = workerCount items limit) : s.calling = none ∧ s.awaiting = [] ∧ s.queue = [] := by
  have hworkers := h.workers
  refine ⟨?_, List.length_eq_zero_iff.1 (by omega), List.length_eq_zero_iff.1 (by omega)⟩
  cases hcalling : s.calling with
  | none => rfl
  | some i =>
    rw [hcalling, Option.toList_some, List.length_singleton] at hworkers
    omega

/-- the results are those of the items, each at its position -/
theorem Inv.results (h : Inv items limit fn 0 s) {results : List (Option R)}
    (hout : output items limit s = some (.ok results)) :
    results.length = items.length ∧
      ∀ i < items.length, ∃ r, results[i]? = some (some r) ∧ outcome items fn i = some (.ok r) := by
  unfold output at hout
  split_ifs at hout with hdone
  cases hfirst : s.firstError with
  | some e => simp [hfirst] at hout
  | none =>
    simp only [hfirst, Option.some.injEq, Except.ok.injEq] at hout
    subst hout
    obtain ⟨hcalling, hawaiting, hqueue⟩ := h.idle hdone.1 hdone.2
    have hpos := workerCount_pos items limit
    have hnext := h.drained hfirst (by omega)
    refine ⟨h.results_length, fun i hi => ?_⟩
    have hsettled := h.settled hfirst i (lt_min (hi.trans_le hnext) hi)
    simpa [hcalling, hawaiting, hqueue] using hsettled

theorem Quiet.error (h : Quiet items limit fn s) (hinv : Inv items limit fn 0 s) {result : Except ε (List (Option R))}
    (hout : output items limit s = some result) (e : ε) : result = .error e ↔ (rejections s).head? = some e := by
  unfold output at hout
  split_ifs at hout with hdone
  have hfirst := h.first
  rw [(hinv.idle hdone.1 hdone.2).2.2, List.filterMap_nil, List.head?_nil, Option.or_none] at hfirst
  rw [hfirst]
  cases herror : s.firstError with
  | none =>
    simp only [herror, Option.some.injEq] at hout
    simp [← hout]
  | some first =>
    simp only [herror, Option.some.injEq] at hout
    simp [← hout]

/-- **The map.** In every run at most `limit` calls are in flight, or one; no item is started twice; and on success each
position holds the result of its item. Where every rejection settles promptly, nothing is started after the first one, and
its error is what the call throws. -/
theorem mapWithConcurrency_runs (items : List T) (limit : ℚ) (fn : T → ℕ → Call R ε) (ops : List Event) :
    let s := ops.foldl (step items limit fn) (init items)
    (inFlight s : ℚ) ≤ max 1 limit ∧ (starts s).Nodup ∧
      (∀ results, output items limit s = some (.ok results) → results.length = items.length ∧
        ∀ i < items.length, ∃ r, results[i]? = some (some r) ∧ outcome items fn i = some (.ok r)) ∧
      (Along (step items limit fn) (Prompt items limit fn) (init items) ops →
        NoLateStart s ∧ ∀ result, output items limit s = some result →
          ∀ e, result = .error e ↔ (rejections s).head? = some e) := by
  intro s
  have hinv : Inv items limit fn 0 s := inv_run ops
  refine ⟨hinv.inFlight_le, ?_, fun results hout => hinv.results hout, fun hprompt => ?_⟩
  · rw [hinv.starts_eq]
    exact List.nodup_range
  · have hquiet : Quiet items limit fn s := quiet_run hprompt
    exact ⟨hquiet.late, fun result hout e => hquiet.error hinv hout e⟩

/-- two workers of three items: the first fails when both wait, and the last item is not started -/
theorem last_item_spared :
    let s := ([.spawn, .back, .spawn, .back, .settle 0, .tick, .settle 1, .tick] : List Event).foldl
      (step [(), (), ()] 2 fun _ i => (.promise (.error i) : Call Unit ℕ)) (init [(), (), ()])
    NoLateStart s ∧ output [(), (), ()] 2 s = some (.error 0) ∧ starts s = [0, 1] := by
  intro s
  have hprompt : Along (step [(), (), ()] 2 fun _ i => (.promise (.error i) : Call Unit ℕ))
      (Prompt [(), (), ()] 2 fun _ i => .promise (.error i)) (init [(), (), ()])
      [.spawn, .back, .spawn, .back, .settle 0, .tick, .settle 1, .tick] := by
    refine ⟨trivial, trivial, trivial, trivial, fun _ => .inr ⟨?_, .inr ⟨by decide +kernel, ?_⟩⟩, trivial,
      fun _ => .inl (by decide +kernel), trivial, trivial⟩
    · intro i hi
      exact absurd hi (Option.eq_none_iff_forall_not_mem.1 (by decide +kernel) i)
    · intro i hi
      exact absurd hi (Option.eq_none_iff_forall_not_mem.1 (by decide +kernel) i)
  have hrun := (mapWithConcurrency_runs [(), (), ()] 2 (fun _ i => (.promise (.error i) : Call Unit ℕ))
    [.spawn, .back, .spawn, .back, .settle 0, .tick, .settle 1, .tick]).2.2.2 hprompt
  exact ⟨hrun.1, by rfl, by decide +kernel⟩

/-- the call of the first item fails before the second worker is made, which starts the second item all the same -/
theorem start_after_rejection :
    (([.spawn, .back, .settle 0, .spawn] : List Event).foldl
      (step [(), ()] 2 fun _ i => (.promise (.error i) : Call Unit ℕ)) (init [(), ()])).log =
        [.started 0, .rejected 0, .started 1] := by
  decide +kernel

end

end AstramemLocal.Distill.Concurrency
