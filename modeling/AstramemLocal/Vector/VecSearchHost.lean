/-
`VecSearchWorkerHost` (`src/vector/vec-search-host.ts`) with its searches, the workers it has spawned and their late events.
An event's microtasks run before the next event, so each event is one step with all that follows from it. `stop` is left
out. A worker is its place in the list of all workers; a promise of `ensureWorker` is that of its worker.

- `host_sound_iff`: in every run, every search settles once and only through its own worker's rows, the fallback or a
  timeout, no event of an earlier worker touches a newer one or its requests, and at most one worker runs, iff no search
  spawns a worker while an earlier one has not exited.
- `late_exit_rejects_newer`: the `exit` that follows an `error` rejects the request of the next worker and discards it.
-/
import AstramemLocal.Core.Runs
import AstramemLocal.Core.Table
import Mathlib.Data.Rat.Defs
import Mathlib.Data.List.Range
import Mathlib.Data.List.Perm.Basic

namespace AstramemLocal.Vector

open AstramemLocal.Core

/-! ## Model -/

structure VecRow where
  id : String
  distance : ℚ
deriving DecidableEq, Repr

structure VecHit where
  id : String
  score : ℚ
deriving DecidableEq, Repr

def toHit (r : VecRow) : VecHit := ⟨r.id, 1 / (1 + r.distance)⟩

inductive PromiseState where
  | unsettled | resolved | rejected
deriving DecidableEq, Repr

structure Worker where
  /-- of its `readyPromise` -/
  promise : PromiseState := .unsettled
  spawnTimeout : Bool := true
  /-- it has emitted `exit`, its last event -/
  exited : Bool := false
  /-- the requests it has not answered -/
  posted : List ℕ := []
deriving DecidableEq, Repr

structure Pending where
  id : ℕ
  search : ℕ
  worker : ℕ
deriving DecidableEq, Repr

inductive Outcome where
  | hits (hits : List VecHit)
  /-- the search is what the fallback makes of it -/
  | fallback
  | timeout
deriving DecidableEq, Repr

/-- The host and all workers. Searches are numbered; `waiting` are those that await the promise of a worker, `settled` the
others that have no entry in `pending`. -/
structure Host where
  worker : Option ℕ := none
  readyPromise : Option ℕ := none
  nextId : ℕ := 1
  pending : List Pending := []
  workers : List Worker := []
  waiting : List (ℕ × ℕ) := []
  settled : List (ℕ × Outcome) := []
  searches : ℕ := 0
deriving DecidableEq, Repr

inductive Op where
  /-- `factoryThrows` tells whether a worker can be made, if one has to be -/
  | search (factoryThrows : Bool)
  | ready (w : ℕ)
  | result (w id : ℕ) (answer : Except String (List VecRow))
  | error (w : ℕ)
  | exit (w : ℕ)
  | spawnTimeout (w : ℕ)
  | searchTimeout (id : ℕ)

def settle (s : Host) (search : ℕ) (outcome : Outcome) : Host := { s with settled := s.settled ++ [(search, outcome)] }

def searchOnWorker (s : Host) (search : ℕ) : Host :=
  match s.worker with
  | none => settle s search .fallback
  | some w =>
    { s with
      nextId := s.nextId + 1
      pending := s.pending ++ [⟨s.nextId, search, w⟩]
      workers := s.workers.modify w fun k => { k with posted := k.posted ++ [s.nextId] } }

/-- the searches that await the worker's promise -/
def awaiting (s : Host) (w : ℕ) : List ℕ := (s.waiting.filter fun a => a.2 = w).map (·.1)

def unsettled (s : Host) (w : ℕ) : Bool := (s.workers[w]?).any (·.promise = .unsettled)

/-- the worker's promise settles, if it has not; its searches go on as `f` says -/
def settlePromise (s : Host) (w : ℕ) (promise : PromiseState) (f : Host → ℕ → Host) : Host :=
  if unsettled s w then
    (awaiting s w).foldl f
      { s with
        waiting := s.waiting.filter fun a => ¬ a.2 = w
        workers := s.workers.modify w fun k => { k with promise } }
  else s

def resolve (s : Host) (w : ℕ) : Host := settlePromise s w .resolved searchOnWorker

def reject (s : Host) (w : ℕ) : Host := settlePromise s w .rejected fun s search => settle s search .fallback

def failAll (s : Host) : Host :=
  { s with settled := s.settled ++ s.pending.map fun p => (p.search, .fallback), pending := [] }

def teardown (s : Host) : Host := { s with worker := none, readyPromise := none }

def clearSpawnTimeout (s : Host) (w : ℕ) : Host :=
  { s with workers := s.workers.modify w fun k => { k with spawnTimeout := false } }

/-- a search behind `ensureWorker` -/
def search (s : Host) (n : ℕ) (factoryThrows : Bool) : Host :=
  match s.readyPromise with
  | some w =>
    match (s.workers[w]?).map Worker.promise with
    | some .resolved => searchOnWorker s n
    | some .unsettled => { s with waiting := s.waiting ++ [(n, w)] }
    | _ => settle s n .fallback
  | none =>
    if factoryThrows then settle s n .fallback
    else
      { s with
        worker := some s.workers.length
        readyPromise := some s.workers.length
        workers := s.workers ++ [{}]
        waiting := s.waiting ++ [(n, s.workers.length)] }

def running (s : Host) (w : ℕ) : Bool := (s.workers[w]?).any fun k => !k.exited

def findPending (s : Host) (id : ℕ) : Option Pending := lookup (·.id) id s.pending

def answered (s : Host) (w id : ℕ) (answer : Except String (List VecRow)) : Host :=
  let s := { s with workers := s.workers.modify w fun k => { k with posted := k.posted.erase id } }
  match findPending s id with
  | none => s
  | some p =>
    let s := { s with pending := s.pending.erase p }
    match answer with
    | .ok rows => settle s p.search (.hits (rows.map toHit))
    | .error _ => settle s p.search .fallback

def step (s : Host) : Op → Host
  | .search factoryThrows => search { s with searches := s.searches + 1 } s.searches factoryThrows
  | .ready w => if running s w then resolve (clearSpawnTimeout s w) w else s
  | .result w id answer =>
    if running s w ∧ (s.workers[w]?).any (id ∈ ·.posted) then answered s w id answer else s
  | .error w => if running s w then reject (teardown (failAll (clearSpawnTimeout s w))) w else s
  | .exit w =>
    if running s w then
      let s := { s with workers := s.workers.modify w fun k => { k with exited := true } }
      reject (teardown (failAll (clearSpawnTimeout s w))) w
    else s
  | .spawnTimeout w =>
    if (s.workers[w]?).any (·.spawnTimeout) then reject (teardown (clearSpawnTimeout s w)) w else s
  | .searchTimeout id =>
    match findPending s id with
    | none => s
    | some p => settle { s with pending := s.pending.erase p } p.search .timeout

def run (s : Host) (ops : List Op) : Host := ops.foldl step s

/-! ## The property -/

/-- where the searches are -/
def accounted (s : Host) : List ℕ := s.waiting.map (·.1) ++ s.pending.map (·.search) ++ s.settled.map (·.1)

/-- the worker whose event the operation is -/
def Op.worker : Op → Option ℕ
  | .ready w | .result w _ _ | .error w | .exit w | .spawnTimeout w => some w
  | .search _ | .searchTimeout _ => none

structure Sound (s : Host) (op : Op) : Prop where
  /-- each search waits, or is pending, or has settled, once -/
  once : (accounted (step s op)).Perm (List.range (step s op).searches)
  kept : s.settled <+: (step s op).settled
  /-- what has not settled has a timeout that settles it -/
  waits : ∀ a ∈ s.waiting, (a.1, .fallback) ∈ (step s (.spawnTimeout a.2)).settled
  pends : ∀ p ∈ s.pending, (p.search, .timeout) ∈ (step s (.searchTimeout p.id)).settled
  /-- what settles with rows has those that its worker returned for its id -/
  own : ∀ n hits, (n, .hits hits) ∈ (step s op).settled → (n, .hits hits) ∈ s.settled ∨
    ∃ p ∈ s.pending, ∃ rows, p.search = n ∧ op = .result p.worker p.id (.ok rows) ∧ hits = rows.map toHit
  /-- an event of an earlier worker leaves the newer one and its requests alone -/
  earlier : ∀ w v, op.worker = some w → s.worker = some v → w < v →
    (step s op).worker = some v ∧ ∀ p ∈ s.pending, p.worker = v → p ∈ (step s op).pending
  lone : ((step s op).workers.filter fun k => !k.exited).length ≤ 1

/-- no worker is spawned while an earlier one has not exited -/
def SpawnsAlone (s : Host) (op : Op) : Prop :=
  match op with
  | .search false => s.readyPromise = none → ∀ k ∈ s.workers, k.exited = true
  | _ => True

variable {s : Host} {w n : ℕ} {owed : List ℕ} {op : Op}

/-! ## The invariant -/

/-- The state between two events, while the searches of `owed` have still to go on: the slot holds the last worker, which is
the only one that may run, and the requests are its own. -/
structure Inv (owed : List ℕ) (s : Host) : Prop where
  once : (owed ++ accounted s).Perm (List.range s.searches)
  same : s.readyPromise = s.worker
  slot : ∀ v, s.worker = some v → ∃ k : Worker, s.workers[v]? = some k ∧ k.exited = false
  last : ∀ (v : ℕ) (k : Worker), s.workers[v]? = some k → k.exited = false → v + 1 = s.workers.length
  timeout : ∀ (v : ℕ) (k : Worker), s.workers[v]? = some k → (k.spawnTimeout = true ↔ k.promise = .unsettled)
  exited : ∀ (v : ℕ) (k : Worker), s.workers[v]? = some k → k.exited = true → k.promise ≠ .unsettled
  waits : ∀ a ∈ s.waiting, unsettled s a.2 = true
  pends : ∀ p ∈ s.pending, s.worker = some p.worker ∧ p.id < s.nextId ∧
    ∃ k : Worker, s.workers[p.worker]? = some k ∧ k.promise = .resolved
  ids : Keyed (·.id) s.pending

theorem inv_init : Inv [] {} where
  once := .refl _
  same := rfl
  slot v hv := by cases hv
  last v k hk := by simp at hk
  timeout v k hk := by simp at hk
  exited v k hk := by simp at hk
  waits a ha := by cases ha
  pends p hp := by cases hp
  ids := List.nodup_nil

theorem modify_some {f : Worker → Worker} {v : ℕ} {k : Worker} (h : (s.workers.modify w f)[v]? = some k) :
    ∃ k', s.workers[v]? = some k' ∧ k = if v = w then f k' else k' := by
  rw [List.getElem?_modify] at h
  obtain ⟨k', hk', rfl⟩ := Option.map_eq_some_iff.1 h
  refine ⟨k', hk', ?_⟩
  by_cases hvw : v = w
  · simp [hvw]
  · simp [hvw, Ne.symm hvw]

theorem some_modify {f : Worker → Worker} {v : ℕ} {k : Worker} (h : s.workers[v]? = some k) :
    (s.workers.modify w f)[v]? = some (if v = w then f k else k) := by
  rw [List.getElem?_modify, h]
  by_cases hvw : v = w
  · simp [hvw]
  · simp [hvw, Ne.symm hvw]

theorem unsettled_iff : unsettled s w = true ↔ ∃ k, s.workers[w]? = some k ∧ k.promise = .unsettled := by
  unfold unsettled
  cases hk : s.workers[w]? with
  | none => simp
  | some k => simp

theorem running_iff : running s w = true ↔ ∃ k, s.workers[w]? = some k ∧ k.exited = false := by
  unfold running
  cases hk : s.workers[w]? with
  | none => simp
  | some k => simp

/-- the slot can only hold a worker that runs -/
theorem Inv.slot_eq (h : Inv owed s) (hw : running s w = true) {v : ℕ} (hv : s.worker = some v) : v = w := by
  obtain ⟨k, hk, hexited⟩ := running_iff.1 hw
  obtain ⟨k', hk', hexited'⟩ := h.slot v hv
  have hwlast := h.last w k hk hexited
  have hvlast := h.last v k' hk' hexited'
  omega

theorem Inv.running_of_unsettled (h : Inv owed s) (hw : unsettled s w = true) : running s w = true := by
  obtain ⟨k, hk, hpromise⟩ := unsettled_iff.1 hw
  refine running_iff.2 ⟨k, hk, Bool.eq_false_iff.2 fun hexited => ?_⟩
  exact h.exited w k hk hexited hpromise

/-- a worker's queue is no part of it -/
theorem Inv.modify (h : Inv owed s) {f : Worker → Worker} (hf : ∀ k, s.workers[w]? = some k →
    (f k).exited = k.exited ∧ (f k).promise = k.promise ∧ (f k).spawnTimeout = k.spawnTimeout) :
    Inv owed { s with workers := s.workers.modify w f } := by
  have hsame : ∀ (v : ℕ) (k : Worker), (s.workers.modify w f)[v]? = some k →
      ∃ k', s.workers[v]? = some k' ∧ k.exited = k'.exited ∧ k.promise = k'.promise ∧ k.spawnTimeout = k'.spawnTimeout := by
    intro v k hk
    obtain ⟨k', hk', rfl⟩ := modify_some hk
    refine ⟨k', hk', ?_⟩
    split_ifs with hvw
    · exact hf k' (hvw ▸ hk')
    · exact ⟨rfl, rfl, rfl⟩
  have hback : ∀ (v : ℕ) (k : Worker), s.workers[v]? = some k → ∃ k', (s.workers.modify w f)[v]? = some k' ∧
      k'.exited = k.exited ∧ k'.promise = k.promise := by
    intro v k hk
    refine ⟨_, some_modify hk, ?_⟩
    split_ifs with hvw
    · exact ⟨(hf k (hvw ▸ hk)).1, (hf k (hvw ▸ hk)).2.1⟩
    · exact ⟨rfl, rfl⟩
  refine ⟨h.once, h.same, ?_, ?_, ?_, ?_, ?_, ?_, h.ids⟩
  · intro v hv
    obtain ⟨k, hk, hexited⟩ := h.slot v hv
    obtain ⟨k', hk', he, -⟩ := hback v k hk
    exact ⟨k', hk', he ▸ hexited⟩
  · intro v k hk hexited
    obtain ⟨k', hk', he, -⟩ := hsame v k hk
    simpa using h.last v k' hk' (he ▸ hexited)
  · intro v k hk
    obtain ⟨k', hk', -, hp, ht⟩ := hsame v k hk
    rw [hp, ht]
    exact h.timeout v k' hk'
  · intro v k hk hexited
    obtain ⟨k', hk', he, hp, -⟩ := hsame v k hk
    rw [hp]
    exact h.exited v k' hk' (he ▸ hexited)
  · intro a ha
    obtain ⟨k, hk, hp⟩ := unsettled_iff.1 (h.waits a ha)
    obtain ⟨k', hk', -, hp'⟩ := hback a.2 k hk
    exact unsettled_iff.2 ⟨k', hk', hp'.trans hp⟩
  · intro p hp
    obtain ⟨hworker, hid, k, hk, hpromise⟩ := h.pends p hp
    obtain ⟨k', hk', -, hp'⟩ := hback p.worker k hk
    exact ⟨hworker, hid, k', hk', hp'.trans hpromise⟩

theorem accounted_settle {o : Outcome} : (accounted (settle s n o)).Perm (n :: accounted s) := by
  simp only [accounted, settle, List.map_append, List.map_cons, List.map_nil]
  rw [← List.append_assoc]
  exact List.perm_append_singleton n _

theorem Inv.settle {o : Outcome} (h : Inv (n :: owed) s) : Inv owed (settle s n o) where
  once := ((accounted_settle.append_left owed).trans List.perm_middle).trans h.once
  same := h.same
  slot := h.slot
  last := h.last
  timeout := h.timeout
  exited := h.exited
  waits := h.waits
  pends := h.pends
  ids := h.ids

/-- the worker of the slot can take requests -/
def Open (s : Host) : Prop := ∀ v, s.worker = some v → ∃ k, s.workers[v]? = some k ∧ k.promise = .resolved

theorem accounted_post {v : ℕ} :
    (accounted { s with nextId := s.nextId + 1, pending := s.pending ++ [⟨s.nextId, n, v⟩] }).Perm (n :: accounted s) := by
  simp only [accounted, List.map_append, List.map_cons, List.map_nil]
  rw [List.append_assoc, List.append_assoc, List.append_assoc, ← List.append_assoc (s.waiting.map _),
    ← List.append_assoc (s.waiting.map _)]
  exact List.perm_middle

theorem Inv.searchOnWorker (h : Inv (n :: owed) s) (hopen : Open s) :
    Inv owed (searchOnWorker s n) ∧ Open (Vector.searchOnWorker s n) := by
  unfold Vector.searchOnWorker
  cases hv : s.worker with
  | none => exact ⟨h.settle, fun v hv' => by simp [Vector.settle, hv] at hv'⟩
  | some v =>
    obtain ⟨k, hk, hpromise⟩ := hopen v hv
    have hposted : Inv owed { s with nextId := s.nextId + 1, pending := s.pending ++ [⟨s.nextId, n, v⟩] } := by
      refine ⟨?_, h.same, h.slot, h.last, h.timeout, h.exited, h.waits, ?_, ?_⟩
      · exact ((accounted_post.append_left owed).trans List.perm_middle).trans h.once
      · intro p hp
        rcases List.mem_append.1 hp with hp | hp
        · obtain ⟨hworker, hid, hk'⟩ := h.pends p hp
          exact ⟨hworker, Nat.lt_succ_of_lt hid, hk'⟩
        · rw [List.mem_singleton.1 hp]
          exact ⟨hv, Nat.lt_succ_self _, k, hk, hpromise⟩
      · refine h.ids.insert fun p hp hid => ?_
        have hlt := (h.pends p hp).2.1
        simp only at hid
        omega
    have hmodified := hposted.modify (w := v) (f := fun k => { k with posted := k.posted ++ [s.nextId] })
      fun _ _ => ⟨rfl, rfl, rfl⟩
    refine ⟨by simpa [hv] using hmodified, ?_⟩
    intro u hu
    obtain rfl : v = u := Option.some.inj hu
    refine ⟨_, some_modify hk, ?_⟩
    simp [hpromise]

theorem Inv.postAll {l : List ℕ} (h : Inv l s) (hopen : Open s) : Inv [] (l.foldl Vector.searchOnWorker s) :=
  (foldl_rest (fun l s => Inv l s ∧ Open s) (fun _ _ _ hI => hI.1.searchOnWorker hI.2) ⟨h, hopen⟩).1

theorem settleAll {l : List ℕ} : l.foldl (fun s search => settle s search .fallback) s =
    { s with settled := s.settled ++ l.map fun n => (n, .fallback) } := by
  induction l generalizing s with
  | nil => simp
  | cons n l ih =>
    rw [List.foldl_cons, ih]
    simp [settle]

/-! ## Steps -/

theorem accounted_awaiting {workers : List Worker} :
    (awaiting s w ++ accounted { s with waiting := s.waiting.filter fun a => ¬ a.2 = w, workers }).Perm (accounted s) := by
  simp only [accounted, awaiting]
  rw [← List.append_assoc, ← List.append_assoc, ← List.map_append]
  refine ((List.Perm.map _ ?_).append_right _).append_right _
  simpa using List.filter_append_perm (fun a : ℕ × ℕ => decide (a.2 = w)) s.waiting

/-- no search awaits a worker whose promise has settled -/
theorem Inv.awaiting_nil (h : Inv owed s) (hw : unsettled s w = false) :
    awaiting s w = [] ∧ (s.waiting.filter fun a => ¬ a.2 = w) = s.waiting := by
  have hne : ∀ a ∈ s.waiting, a.2 ≠ w := by
    intro a ha haw
    have hunsettled := h.waits a ha
    rw [haw, hw] at hunsettled
    cases hunsettled
  refine ⟨?_, List.filter_eq_self.2 fun a ha => by simpa using hne a ha⟩
  simpa [awaiting] using fun n v hnv => hne (n, v) hnv

/-- the worker's promise has settled, and what awaited it is taken out -/
theorem Inv.settled (h : Inv [] s) {g : Worker → Worker} (hg : ∀ k, s.workers[w]? = some k →
      (g k).spawnTimeout = false ∧ (g k).promise ≠ .unsettled ∧ (k.exited = true → (g k).exited = true))
    (hslot : ∀ v, s.worker = some v → v = w → ∀ k, s.workers[w]? = some k → (g k).exited = k.exited)
    (hpends : ∀ p ∈ s.pending, p.worker = w → ∀ k, s.workers[w]? = some k → k.promise = .resolved → (g k).promise = .resolved) :
    Inv (awaiting s w) { s with
      waiting := s.waiting.filter fun a => ¬ a.2 = w
      workers := s.workers.modify w g } := by
  refine ⟨?_, h.same, ?_, ?_, ?_, ?_, ?_, ?_, h.ids⟩
  · exact accounted_awaiting.trans h.once
  · intro v hv
    obtain ⟨k, hk, hexited⟩ := h.slot v hv
    refine ⟨_, some_modify hk, ?_⟩
    split_ifs with hvw
    · rw [hslot v hv hvw k (hvw ▸ hk)]
      exact hexited
    · exact hexited
  · intro v k hk hexited
    obtain ⟨k', hk', rfl⟩ := modify_some hk
    rw [List.length_modify]
    refine h.last v k' hk' (Bool.eq_false_iff.2 fun hexited' => ?_)
    split_ifs at hexited with hvw
    · rw [(hg k' (hvw ▸ hk')).2.2 hexited'] at hexited
      cases hexited
    · rw [hexited'] at hexited
      cases hexited
  · intro v k hk
    obtain ⟨k', hk', rfl⟩ := modify_some hk
    split_ifs with hvw
    · obtain ⟨ht, hp, -⟩ := hg k' (hvw ▸ hk')
      simp [ht, hp]
    · exact h.timeout v k' hk'
  · intro v k hk
    obtain ⟨k', hk', rfl⟩ := modify_some hk
    split_ifs with hvw
    · exact fun _ => (hg k' (hvw ▸ hk')).2.1
    · exact h.exited v k' hk'
  · intro a ha
    obtain ⟨ha, hne⟩ := List.mem_filter.1 ha
    obtain ⟨k, hk, hpromise⟩ := unsettled_iff.1 (h.waits a ha)
    refine unsettled_iff.2 ⟨_, some_modify hk, ?_⟩
    rw [if_neg (by simpa using hne)]
    exact hpromise
  · intro p hp
    obtain ⟨hworker, hid, k, hk, hpromise⟩ := h.pends p hp
    refine ⟨hworker, hid, _, some_modify hk, ?_⟩
    split_ifs with hvw
    · exact hpends p hp hvw k (hvw ▸ hk) hpromise
    · exact hpromise

/-- everything pending fails -/
theorem Inv.failAll (h : Inv owed s) : Inv owed (teardown (failAll s)) := by
  refine ⟨?_, rfl, fun v hv => (nomatch hv), h.last, h.timeout, h.exited, h.waits, fun p hp => (nomatch hp), List.nodup_nil⟩
  refine (List.Perm.append_left owed ?_).trans h.once
  simp only [accounted, teardown, Vector.failAll, List.map_nil, List.append_nil, List.map_append, List.map_map]
  rw [List.append_assoc]
  refine List.Perm.append_left _ ?_
  exact List.perm_append_comm

/-- a worker fails, once its requests have been rejected and the slot is empty -/
theorem Inv.reject (h : Inv [] s) {f : Worker → Worker} (hworker : s.worker = none) (hpending : s.pending = [])
    (hf : ∀ k, (f k).spawnTimeout = false ∧ (f k).promise = k.promise ∧ (k.exited = true → (f k).exited = true)) :
    Inv [] (reject { s with workers := s.workers.modify w f } w) := by
  have hunsettled : unsettled { s with workers := s.workers.modify w f } w = unsettled s w := by
    unfold unsettled
    rw [List.getElem?_modify]
    cases s.workers[w]? with
    | none => rfl
    | some k => simp [(hf k).2.1]
  unfold Vector.reject settlePromise
  rw [hunsettled]
  by_cases hw : unsettled s w = true
  · rw [if_pos hw, List.modify_modify_eq]
    have hbase := h.settled (w := w) (g := (fun k : Worker => { k with promise := .rejected }) ∘ f)
      (fun k _ => ⟨(hf k).1, by simp, (hf k).2.2⟩) (fun v hv => by simp [hworker] at hv)
      (fun p hp => by simp [hpending] at hp)
    exact foldl_rest Inv (fun _ _ _ hI => hI.settle) hbase
  · rw [if_neg hw]
    have hsettled := Bool.eq_false_iff.2 hw
    have hbase := h.settled (w := w) (g := f)
      (fun k hk => ⟨(hf k).1, fun hp => hw (unsettled_iff.2 ⟨k, hk, (hf k).2.1 ▸ hp⟩), (hf k).2.2⟩)
      (fun v hv => by simp [hworker] at hv) (fun p hp => by simp [hpending] at hp)
    obtain ⟨hnil, hwaiting⟩ := h.awaiting_nil hsettled
    rw [hnil, hwaiting] at hbase
    exact hbase

/-- the request of a pending search is taken out of the table -/
theorem Inv.take {p : Pending} (h : Inv [] s) (hp : p ∈ s.pending) :
    Inv [p.search] { s with pending := s.pending.erase p } := by
  refine ⟨?_, h.same, h.slot, h.last, h.timeout, h.exited, h.waits, fun q hq => h.pends q (List.mem_of_mem_erase hq), ?_⟩
  · refine List.Perm.trans ?_ h.once
    have hperm : (s.pending.map (·.search)).Perm (p.search :: (s.pending.erase p).map (·.search)) :=
      (List.perm_cons_erase hp).map (·.search)
    simp only [accounted, List.nil_append, List.singleton_append]
    refine List.Perm.trans ?_ ((hperm.append_left _).append_right _).symm
    rw [List.append_assoc, List.append_assoc]
    exact List.perm_middle.symm
  · exact h.ids.sublist (List.erase_sublist.map _)

theorem ready_inv (h : Inv [] s) (hw : running s w = true) : Inv [] (resolve (clearSpawnTimeout s w) w) := by
  have hsame : unsettled (clearSpawnTimeout s w) w = unsettled s w := by
    unfold unsettled clearSpawnTimeout
    dsimp only
    rw [List.getElem?_modify]
    cases s.workers[w]? with
    | none => rfl
    | some k => simp
  unfold resolve settlePromise
  rw [hsame]
  by_cases hunsettled : unsettled s w = true
  · rw [if_pos hunsettled]
    have hbase := h.settled (w := w) (g := (fun k : Worker => { k with promise := .resolved }) ∘ fun k : Worker => { k with spawnTimeout := false })
      (fun k _ => ⟨rfl, by simp, fun he => he⟩) (fun _ _ _ _ _ => rfl) (fun _ _ _ _ _ _ => rfl)
    have hopen : Open { s with
        waiting := s.waiting.filter fun a => ¬ a.2 = w
        workers := s.workers.modify w
          ((fun k : Worker => { k with promise := .resolved }) ∘ fun k : Worker => { k with spawnTimeout := false }) } := by
      intro v hv
      obtain ⟨k, hk, -⟩ := h.slot v hv
      refine ⟨_, some_modify hk, ?_⟩
      rw [if_pos (h.slot_eq hw hv)]
      rfl
    have hall := hbase.postAll hopen
    rw [← List.modify_modify_eq] at hall
    exact hall
  · rw [if_neg hunsettled]
    refine h.modify fun k hk => ⟨rfl, rfl, ?_⟩
    refine (Bool.eq_false_iff.2 fun ht => hunsettled ?_).symm
    exact unsettled_iff.2 ⟨k, hk, (h.timeout w k hk).1 ht⟩

/-- a worker whose promise is open has no requests, nor has any other -/
theorem Inv.pending_nil (h : Inv owed s) (hw : unsettled s w = true) : s.pending = [] := by
  refine List.eq_nil_iff_forall_not_mem.2 fun p hp => ?_
  obtain ⟨hworker, -, k, hk, hpromise⟩ := h.pends p hp
  obtain ⟨k', hk', hpromise'⟩ := unsettled_iff.1 hw
  have hpw := h.slot_eq (h.running_of_unsettled hw) hworker
  rw [hpw, hk'] at hk
  rw [← Option.some.inj hk, hpromise'] at hpromise
  cases hpromise

theorem failAll_nil (h : s.pending = []) : failAll s = s := by
  cases s
  simp only at h
  subst h
  simp [failAll]

theorem search_inv (h : Inv [n] s) {factoryThrows : Bool}
    (halone : factoryThrows = false → s.readyPromise = none → ∀ k ∈ s.workers, k.exited = true) :
    Inv [] (search s n factoryThrows) := by
  unfold search
  cases hready : s.readyPromise with
  | some w =>
    have hworker : s.worker = some w := h.same ▸ hready
    obtain ⟨k, hk, -⟩ := h.slot w hworker
    simp only [hk, Option.map_some]
    cases hpromise : k.promise with
    | resolved =>
      refine (h.searchOnWorker fun v hv => ?_).1
      rw [hworker] at hv
      exact ⟨k, Option.some.inj hv ▸ hk, hpromise⟩
    | unsettled =>
      dsimp only
      refine ⟨?_, hworker.symm, h.slot, h.last, h.timeout, h.exited, ?_, h.pends, h.ids⟩
      · refine List.Perm.trans ?_ h.once
        simp only [accounted, List.map_append, List.map_cons, List.map_nil, List.nil_append, List.singleton_append]
        rw [List.append_assoc, List.append_assoc, List.append_assoc]
        exact List.perm_middle
      · intro a ha
        rcases List.mem_append.1 ha with ha | ha
        · exact h.waits a ha
        · rw [List.mem_singleton.1 ha]
          exact unsettled_iff.2 ⟨k, hk, hpromise⟩
    | rejected => exact h.settle
  | none =>
    cases factoryThrows with
    | true => exact h.settle
    | false =>
      have hexited := halone rfl hready
      have hworker : s.worker = none := h.same ▸ hready
      have hold : ∀ v, v < s.workers.length → (s.workers ++ [({} : Worker)])[v]? = s.workers[v]? := fun v hv =>
        List.getElem?_append_left hv
      have hnew : ∀ (v : ℕ) (k : Worker), (s.workers ++ [({} : Worker)])[v]? = some k →
          s.workers[v]? = some k ∨ v = s.workers.length ∧ k = ({} : Worker) := by
        intro v k hk
        rw [List.getElem?_append] at hk
        split_ifs at hk with hlt
        · exact .inl hk
        · obtain ⟨hv, hk⟩ := List.getElem?_eq_some_iff.1 hk
          simp only [List.length_singleton] at hv
          exact .inr ⟨by omega, by simpa using hk.symm⟩
      have hlast : (s.workers ++ [({} : Worker)])[s.workers.length]? = some ({} : Worker) := by simp
      rw [if_neg (by simp)]
      refine ⟨?_, rfl, ?_, ?_, ?_, ?_, ?_, ?_, h.ids⟩
      · refine List.Perm.trans ?_ h.once
        simp only [accounted, List.map_append, List.map_cons, List.map_nil, List.nil_append, List.singleton_append]
        rw [List.append_assoc, List.append_assoc, List.append_assoc]
        exact List.perm_middle
      · intro v hv
        rw [← Option.some.inj hv]
        exact ⟨{}, hlast, rfl⟩
      · intro v k hk hrunning
        rw [List.length_append, List.length_singleton]
        rcases hnew v k hk with hk | ⟨rfl, -⟩
        · rw [hexited k (List.mem_of_getElem? hk)] at hrunning
          cases hrunning
        · rfl
      · intro v k hk
        rcases hnew v k hk with hk | ⟨-, rfl⟩
        · exact h.timeout v k hk
        · simp
      · intro v k hk hexit
        rcases hnew v k hk with hk | ⟨-, rfl⟩
        · exact h.exited v k hk hexit
        · cases hexit
      · intro a ha
        rcases List.mem_append.1 ha with ha | ha
        · obtain ⟨k, hk, hpromise⟩ := unsettled_iff.1 (h.waits a ha)
          have hlt := (List.getElem?_eq_some_iff.1 hk).1
          exact unsettled_iff.2 ⟨k, (hold a.2 hlt).trans hk, hpromise⟩
        · rw [List.mem_singleton.1 ha]
          exact unsettled_iff.2 ⟨{}, hlast, rfl⟩
      · intro p hp
        have hp' := (h.pends p hp).1
        rw [hworker] at hp'
        cases hp'

theorem answered_inv (h : Inv [] s) {id : ℕ} {answer : Except String (List VecRow)} :
    Inv [] (answered s w id answer) := by
  have hposted := h.modify (w := w) (f := fun k => { k with posted := k.posted.erase id }) fun _ _ => ⟨rfl, rfl, rfl⟩
  unfold answered
  dsimp only
  split
  · exact hposted
  · rename_i p hp
    have htaken := hposted.take (lookup_mem hp).1
    cases answer with
    | ok rows => exact htaken.settle
    | error message => exact htaken.settle

theorem step_inv (h : Inv [] s) (hop : SpawnsAlone s op) : Inv [] (step s op) := by
  cases op with
  | search factoryThrows =>
    refine search_inv (s := { s with searches := s.searches + 1 }) ?_ ?_
    · refine ⟨?_, h.same, h.slot, h.last, h.timeout, h.exited, h.waits, h.pends, h.ids⟩
      rw [List.range_succ]
      exact (h.once.cons s.searches).trans (List.perm_append_singleton _ _).symm
    · rintro rfl
      exact hop
  | ready w =>
    simp only [step]
    split_ifs with hw
    · exact ready_inv h hw
    · exact h
  | result w id answer =>
    simp only [step]
    split_ifs
    · exact answered_inv h
    · exact h
  | error w =>
    simp only [step]
    split_ifs
    · exact h.failAll.reject rfl rfl fun k => ⟨rfl, rfl, fun he => he⟩
    · exact h
  | exit w =>
    simp only [step]
    split_ifs
    · have hend := h.failAll.reject (w := w)
        (f := (fun k : Worker => { k with spawnTimeout := false }) ∘ fun k : Worker => { k with exited := true }) rfl rfl
        fun k => ⟨rfl, rfl, fun _ => rfl⟩
      rw [← List.modify_modify_eq] at hend
      exact hend
    · exact h
  | spawnTimeout w =>
    simp only [step]
    split_ifs with hw
    · have hunsettled : unsettled s w = true := by
        cases hk : s.workers[w]? with
        | none => simp [hk] at hw
        | some k => exact unsettled_iff.2 ⟨k, hk, (h.timeout w k hk).1 (by simpa [hk] using hw)⟩
      have hend := h.failAll.reject (w := w) (f := fun k => { k with spawnTimeout := false }) rfl rfl
        fun k => ⟨rfl, rfl, fun he => he⟩
      rw [failAll_nil (h.pending_nil hunsettled)] at hend
      exact hend
    · exact h
  | searchTimeout id =>
    simp only [step]
    split
    · exact h
    · rename_i p hp
      exact (h.take (lookup_mem hp).1).settle

/-! ## What settles -/

/-- nothing settles with rows -/
def Adds (s s' : Host) : Prop := ∃ l, s'.settled = s.settled ++ l ∧ ∀ a ∈ l, ∀ hits, a.2 ≠ .hits hits

theorem Adds.refl (s : Host) : Adds s s := ⟨[], by simp, by simp⟩

theorem Adds.trans {s₁ s₂ s₃ : Host} (h : Adds s₁ s₂) (h' : Adds s₂ s₃) : Adds s₁ s₃ := by
  obtain ⟨l, hl, hno⟩ := h
  obtain ⟨l', hl', hno'⟩ := h'
  refine ⟨l ++ l', by rw [hl', hl, List.append_assoc], fun a ha => ?_⟩
  exact (List.mem_append.1 ha).elim (hno a) (hno' a)

theorem adds_settle {o : Outcome} (ho : ∀ hits, o ≠ .hits hits) : Adds s (settle s n o) :=
  ⟨[(n, o)], rfl, fun a ha => by rw [List.mem_singleton.1 ha]; exact ho⟩

theorem adds_searchOnWorker : Adds s (searchOnWorker s n) := by
  unfold searchOnWorker
  cases s.worker with
  | none => exact adds_settle (by simp)
  | some w => exact ⟨[], by simp, by simp⟩

theorem adds_settlePromise {promise : PromiseState} {f : Host → ℕ → Host} (hf : ∀ s n, Adds s (f s n)) :
    Adds s (settlePromise s w promise f) := by
  unfold settlePromise
  split
  · exact foldl_rest (fun _ s' => Adds s s') (fun n _ s' hs' => hs'.trans (hf s' n)) ⟨[], by simp, by simp⟩
  · exact .refl s

theorem adds_failAll : Adds s (failAll s) := by
  refine ⟨s.pending.map fun p => (p.search, .fallback), rfl, fun a ha => ?_⟩
  obtain ⟨p, -, rfl⟩ := List.mem_map.1 ha
  simp

theorem adds_reject : Adds s (reject s w) := adds_settlePromise fun _ _ => adds_settle (by simp)

theorem adds_search {factoryThrows : Bool} : Adds s (search s n factoryThrows) := by
  unfold search
  split
  · split
    · exact adds_searchOnWorker
    · exact ⟨[], by simp, by simp⟩
    · exact adds_settle (by simp)
  · split
    · exact adds_settle (by simp)
    · exact ⟨[], by simp, by simp⟩

/-- What an operation settles, it appends; rows are those of a pending request that its worker answers. -/
theorem step_settled (h : Inv [] s) : Adds s (step s op) ∨ ∃ p ∈ s.pending, ∃ rows,
    op = .result p.worker p.id (.ok rows) ∧
      (step s op).settled = s.settled ++ [(p.search, .hits (rows.map toHit))] := by
  cases op with
  | search factoryThrows => exact .inl (adds_search (s := { s with searches := s.searches + 1 }))
  | ready w =>
    simp only [step]
    split_ifs
    · exact .inl (adds_settlePromise fun _ _ => adds_searchOnWorker)
    · exact .inl (.refl s)
  | result w id answer =>
    simp only [step]
    split_ifs with hw
    · unfold answered
      dsimp only
      split
      · exact .inl ⟨[], by simp, by simp⟩
      · rename_i p hp
        obtain ⟨hmem, rfl⟩ := lookup_mem hp
        cases answer with
        | error message => exact .inl ⟨[(p.search, .fallback)], rfl, by simp⟩
        | ok rows =>
          refine .inr ⟨p, hmem, rows, ?_, rfl⟩
          rw [h.slot_eq hw.1 (h.pends p hmem).1]
    · exact .inl (.refl s)
  | error w =>
    simp only [step]
    split_ifs
    · exact .inl ((adds_failAll (s := clearSpawnTimeout s w)).trans adds_reject)
    · exact .inl (.refl s)
  | exit w =>
    simp only [step]
    split_ifs
    · exact .inl ((adds_failAll (s := clearSpawnTimeout _ w)).trans adds_reject)
    · exact .inl (.refl s)
  | spawnTimeout w =>
    simp only [step]
    split_ifs
    · exact .inl adds_reject
    · exact .inl (.refl s)
  | searchTimeout id =>
    simp only [step]
    split
    · exact .inl (.refl s)
    · exact .inl ⟨[(_, .timeout)], rfl, by simp⟩

/-! ## Every run -/

/-- an earlier worker has no event left -/
theorem Inv.step_earlier (h : Inv [] s) {v : ℕ} (hw : op.worker = some w) (hv : s.worker = some v) (hlt : w < v) :
    step s op = s := by
  have hrunning : running s w = false := Bool.eq_false_iff.2 fun hw => by
    have heq := h.slot_eq hw hv
    omega
  cases op with
  | search factoryThrows => cases hw
  | searchTimeout id => cases hw
  | spawnTimeout u =>
    obtain rfl : u = w := Option.some.inj hw
    simp only [step]
    refine if_neg fun hset => ?_
    cases hk : s.workers[u]? with
    | none => simp [hk] at hset
    | some k =>
      have hunsettled := unsettled_iff.2 ⟨k, hk, (h.timeout u k hk).1 (by simpa [hk] using hset)⟩
      rw [h.running_of_unsettled hunsettled] at hrunning
      cases hrunning
  | _ =>
    cases hw
    simp [step, hrunning]

theorem lone_of_last {l : List Worker}
    (hlast : ∀ (v : ℕ) (k : Worker), l[v]? = some k → k.exited = false → v + 1 = l.length) :
    (l.filter fun k => !k.exited).length ≤ 1 := by
  rcases List.eq_nil_or_concat l with rfl | ⟨pre, k, rfl⟩
  · simp
  · have hpre : pre.filter (fun k => !k.exited) = [] := by
      refine List.filter_eq_nil_iff.2 fun a ha hrunning => ?_
      obtain ⟨v, hv⟩ := List.getElem?_of_mem ha
      have hlt := (List.getElem?_eq_some_iff.1 hv).1
      have hlen := hlast v a (by rw [List.concat_eq_append, List.getElem?_append_left hlt]; exact hv) (by simpa using hrunning)
      simp at hlen
      omega
    rw [List.concat_eq_append, List.filter_append, hpre, List.nil_append]
    exact List.length_filter_le _ _

theorem sound_of_inv (h : Inv [] s) (hop : SpawnsAlone s op) : Sound s op where
  once := (step_inv h hop).once
  kept := by
    rcases @step_settled s op h with ⟨l, hl, -⟩ | ⟨p, -, rows, -, hl⟩
    · exact ⟨l, hl.symm⟩
    · exact ⟨_, hl.symm⟩
  waits a ha := by
    have hunsettled := h.waits a ha
    obtain ⟨k, hk, hpromise⟩ := unsettled_iff.1 hunsettled
    have hset : (s.workers[a.2]?).any (·.spawnTimeout) = true := by simp [hk, (h.timeout a.2 k hk).2 hpromise]
    have hstill : unsettled (teardown (clearSpawnTimeout s a.2)) a.2 = true :=
      unsettled_iff.2 ⟨_, some_modify hk, by simp [hpromise]⟩
    simp only [step, if_pos hset, reject, settlePromise, if_pos hstill, settleAll]
    refine List.mem_append_right _ (List.mem_map.2 ⟨a.1, ?_, rfl⟩)
    exact List.mem_map.2 ⟨a, List.mem_filter.2 ⟨ha, by simp⟩, rfl⟩
  pends p hp := by
    have hfound : findPending s p.id = some p := lookup_of_mem h.ids hp
    simp [step, hfound, settle]
  own n hits hmem := by
    rcases @step_settled s op h with ⟨l, hl, hno⟩ | ⟨p, hp, rows, hresult, hl⟩
    · rw [hl] at hmem
      exact (List.mem_append.1 hmem).imp_right fun hnew => absurd rfl (hno _ hnew hits)
    · rw [hl] at hmem
      refine (List.mem_append.1 hmem).imp_right fun hnew => ⟨p, hp, rows, ?_⟩
      simp only [List.mem_singleton, Prod.mk.injEq, Outcome.hits.injEq] at hnew
      exact ⟨hnew.1.symm, hresult, hnew.2⟩
  earlier w v hw hv hlt := by
    rw [h.step_earlier hw hv hlt]
    exact ⟨hv, fun p hp _ => hp⟩
  lone := lone_of_last (step_inv h hop).last

/-- with two workers that run the last clause fails -/
theorem Sound.spawnsAlone (h : Sound s op) : SpawnsAlone s op := by
  cases op with
  | search factoryThrows =>
    cases factoryThrows with
    | true => trivial
    | false =>
      intro hready k hk
      by_contra hrunning
      have hlone := h.lone
      have hmem : k ∈ s.workers.filter fun k => !k.exited := List.mem_filter.2 ⟨hk, by simpa using hrunning⟩
      have hpos := List.length_pos_of_mem hmem
      have hworkers : (step s (.search false)).workers = s.workers ++ [({} : Worker)] := by simp [step, search, hready]
      rw [hworkers, List.filter_append, List.length_append] at hlone
      have hnew : (List.filter (fun k => !k.exited) [({} : Worker)]).length = 1 := rfl
      omega
  | _ => trivial

/-- **Worker host.** A run is sound at every step iff no search of it spawns a worker while an earlier one has not exited. -/
theorem host_sound_iff (ops : List Op) : Along step Sound {} ops ↔ Along step SpawnsAlone {} ops :=
  ⟨Along.mono fun _ _ h => h.spawnsAlone,
    Along.carry (Inv []) (fun _ _ h hop => step_inv h hop) (fun _ _ h hop => sound_of_inv h hop) inv_init⟩

/-- a worker emits `error`; the next search has its own worker, and waits for the rows -/
def respawned : Host := run {} [.search false, .ready 0, .error 0, .search false, .ready 1]

/-- The `exit` of the first worker rejects the request of the second and discards it, and the search after it spawns a third
while the second runs. -/
theorem late_exit_rejects_newer :
    respawned.worker = some 1 ∧ respawned.pending.map (·.worker) = [1] ∧
      (step respawned (.exit 0)).worker = none ∧ (step respawned (.exit 0)).pending = [] ∧
      ((run respawned [.exit 0, .search false]).workers.filter fun k => !k.exited).length = 2 := by
  decide

end AstramemLocal.Vector
