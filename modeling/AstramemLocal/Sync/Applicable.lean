/-
When a pulled batch can be applied. `bodies` are the memories the first loop materializes: the first snapshot of each
atom without a row. The loop throws exactly when two of them, or one of them and a stored memory, share a content hash,
or when one names an unknown session (`mergeEvents_ok_iff`). The second loop returns on a stack deep enough when
conflict resolution closes no cycle.
* `pull_applicable`: so a batch is applicable exactly when its bodies fit.
* `same_content_wedges`: a memory stored under another id with the same content makes the batch fail, and the cursor
  stays.
-/
import AstramemLocal.Sync.Convergence
import AstramemLocal.Sync.PullForks
import AstramemLocal.Sync.Termination

namespace AstramemLocal.Sync

open AstramemLocal.Store AstramemLocal.Core AstramemLocal.Daemon

/-- the first snapshot of each atom that has no row yet -/
def bodies : List AtomId → List RemotePullEvent → List AtomSnapshot
  | _, [] => []
  | ids, e :: es =>
    match e.eventType, e.atomSnapshot with
    | .create, some snapshot =>
      if e.atomId ∈ ids then bodies ids es else snapshot :: bodies (ids ++ [e.atomId]) es
    | _, _ => bodies ids es

/-- the snapshots can be stored beside memories with these hashes -/
structure Fits (hashes : List Hash) (sessions : List SessionId) (snapshots : List AtomSnapshot) : Prop where
  distinct : (snapshots.map (·.hash)).Nodup
  unknown : ∀ sn ∈ snapshots, sn.hash ∉ hashes
  sessions : ∀ sn ∈ snapshots, ∀ k, sn.sessionId = some k → k ∈ sessions

def ids (s : St) : List AtomId := s.memories.map (·.id)

def hashes (s : St) : List Hash := s.memories.map (·.hash)

/-- the memories the batch materializes can be stored -/
def Admissible (s : St) (batch : PullBatch) : Prop := Fits (hashes s) s.sessions (bodies (ids s) (incoming s batch))

variable {E : Env} {s t : St} {batch : PullBatch} {touched : List AtomId}

/-! ## The first loop -/

theorem mem_ids {a : AtomId} : a ∈ ids s ↔ findRow s a ≠ none := by
  simp [ids, findRow_eq_none]

theorem mem_hashes {h : Hash} : h ∈ hashes s ↔ findHash s h ≠ none := by
  simp [hashes, findHash_eq_none]

theorem insertMemory_ok_iff {m : Memory} (hm : findRow s m.id = none) : (∃ t, insertMemory s m = .ok t) ↔
    m.hash ∉ hashes s ∧ ∀ k, m.sessionId = some k → k ∈ s.sessions := by
  constructor
  · rintro ⟨t, ht⟩
    obtain ⟨-, hh, hk, -⟩ := insertMemory_ok ht
    exact ⟨fun hc => mem_hashes.1 hc hh, hk⟩
  · rintro ⟨hh, hk⟩
    have hf : m.sessionId.filter (· ∉ s.sessions) = none := by
      rw [Option.filter_eq_none_iff]
      exact fun k hk' => by simpa using hk k hk'
    have hn : findHash s m.hash = none := not_not.1 (mt mem_hashes.2 hh)
    simp only [insertMemory, hm, hn, hf, Option.isSome_none, Bool.false_eq_true, if_false]
    exact ⟨_, rfl⟩

theorem bodies_carries {known : List AtomId} {e : RemotePullEvent} {es : List RemotePullEvent} {sn : AtomSnapshot}
    (hc : Carries e sn) : bodies known (e :: es) =
      if e.atomId ∈ known then bodies known es else sn :: bodies (known ++ [e.atomId]) es := by
  simp only [bodies, hc.1, hc.2]

theorem bodies_other {known : List AtomId} {e : RemotePullEvent} {es : List RemotePullEvent}
    (hn : ∀ sn, ¬ Carries e sn) : bodies known (e :: es) = bodies known es := by
  simp only [bodies]
  split
  · rename_i sn hty hsn
    exact absurd ⟨hty, hsn⟩ (hn sn)
  · rfl

theorem fits_cons {hs : List Hash} {ss : List SessionId} {sn : AtomSnapshot} {sns : List AtomSnapshot} :
    Fits hs ss (sn :: sns) ↔
      (sn.hash ∉ hs ∧ ∀ k, sn.sessionId = some k → k ∈ ss) ∧ Fits (hs ++ [sn.hash]) ss sns := by
  constructor
  · rintro ⟨hd, hu, hk⟩
    rw [List.map_cons, List.nodup_cons] at hd
    refine ⟨⟨hu sn List.mem_cons_self, hk sn List.mem_cons_self⟩, hd.2, fun x hx hc => ?_,
      fun x hx => hk x (List.mem_cons_of_mem _ hx)⟩
    rcases List.mem_append.1 hc with hc | hc
    · exact hu x (List.mem_cons_of_mem _ hx) hc
    · exact hd.1 (List.mem_map.2 ⟨x, hx, List.mem_singleton.1 hc⟩)
  · rintro ⟨⟨hn, hk⟩, hd, hu, hks⟩
    refine ⟨?_, fun x hx => ?_, fun x hx => ?_⟩
    · rw [List.map_cons, List.nodup_cons]
      refine ⟨fun hc => ?_, hd⟩
      obtain ⟨x, hx, hxh⟩ := List.mem_map.1 hc
      exact hu x hx (List.mem_append_right _ (List.mem_singleton.2 hxh))
    · rcases List.mem_cons.1 hx with rfl | hx
      · exact hn
      · exact fun hc => hu x hx (List.mem_append_left _ hc)
    · rcases List.mem_cons.1 hx with rfl | hx
      · exact hk
      · exact hks x hx

theorem logEvent_eventIds (e : EventRecord) : eventIds (logEvent s e) = eventIds s ++ [e.eventId] := by
  simp [eventIds, logEvent_records]

/-- **The first loop throws exactly when a body does not fit.** -/
theorem mergeEvents_ok_iff {es : List RemotePullEvent} : (∃ r, es.foldlM (mergeEvent E) (s, touched) = .ok r) ↔
    Fits (hashes s) s.sessions (bodies (ids s) (newEvents (eventIds s) es)) := by
  induction es generalizing s touched with
  | nil =>
    simp only [newEvents, bodies]
    exact ⟨fun _ => ⟨List.nodup_nil, fun _ h => absurd h List.not_mem_nil, fun _ h => absurd h List.not_mem_nil⟩,
      fun _ => ⟨_, rfl⟩⟩
  | cons e es ih =>
    simp only [List.foldlM_cons, bind, Except.bind]
    by_cases hid : e.eventId ∈ eventIds s
    · simp only [mergeEvent_known hid, newEvents, hid, if_true]
      exact ih
    simp only [newEvents, hid, if_false]
    by_cases hc : ∃ sn, Carries e sn
    · obtain ⟨sn, hc⟩ := hc
      rw [mergeEvent_create hid hc, bodies_carries hc]
      by_cases hrow : findRow s e.atomId = none
      · rw [if_neg (mt mem_ids.1 (not_not.2 hrow)), fits_cons]
        have hmat : materializeAtomIfMissing E (logEvent s e.toEventRecord) e.atomId sn e.createdAt =
            insertMemory (tick (logEvent s e.toEventRecord)) (snapshotRow e.atomId sn e.createdAt (E.now s.clock)) := by
          have hx : rowExists (logEvent s e.toEventRecord) e.atomId = false := by
            simp [rowExists, show findRow (logEvent s e.toEventRecord) e.atomId = none from hrow]
          simp only [materializeAtomIfMissing, hx, Bool.false_eq_true, if_false]
          rfl
        have hok := insertMemory_ok_iff (s := tick (logEvent s e.toEventRecord))
          (m := snapshotRow e.atomId sn e.createdAt (E.now s.clock)) hrow
        rw [hmat]
        cases hi : insertMemory (tick (logEvent s e.toEventRecord))
            (snapshotRow e.atomId sn e.createdAt (E.now s.clock)) with
        | error x =>
          simp only [Except.map]
          constructor
          · intro hr
            obtain ⟨r, hr⟩ := hr
            cases hr
          · intro hfit
            obtain ⟨t, ht⟩ := hok.2 hfit.1
            rw [hi] at ht
            cases ht
        | ok t =>
          have hfit := hok.1 ⟨t, hi⟩
          obtain ⟨-, -, -, rfl⟩ := insertMemory_ok hi
          simp only [Except.map]
          rw [ih]
          refine Iff.trans ?_ (and_iff_right hfit).symm
          rw [← logEvent_eventIds]
          simp only [hashes, ids, List.map_append, List.map_cons, List.map_nil]
          exact Iff.rfl
      · obtain ⟨t, ht⟩ : ∃ t, materializeAtomIfMissing E (logEvent s e.toEventRecord) e.atomId sn e.createdAt = .ok t ∧
            t = logEvent s e.toEventRecord := by
          have hx : rowExists (logEvent s e.toEventRecord) e.atomId = true := Option.isSome_iff_ne_none.2 hrow
          exact ⟨_, by simp only [materializeAtomIfMissing, hx, if_true], rfl⟩
        obtain ⟨ht, rfl⟩ := ht
        rw [ht, if_pos (mem_ids.2 hrow)]
        simp only [Except.map]
        rw [ih, logEvent_eventIds]
        exact Iff.rfl
    · have hn : ∀ sn, ¬ Carries e sn := fun sn hsn => hc ⟨sn, hsn⟩
      simp only [mergeEvent_other hid hn, bodies_other hn]
      rw [ih, logEvent_eventIds]
      exact Iff.rfl

/-! ## The second loop -/

/-- conflict resolution reads no stack depth but the one it is called with -/
theorem recompute_stack (E : Env) (k n : ℕ) (s : St) (a : AtomId) :
    recomputeProjection { E with stack := k } n s a = recomputeProjection E n s a := by
  induction n generalizing s a with
  | zero => rfl
  | succ n ih =>
    have hrec : recomputeProjection { E with stack := k } n = recomputeProjection E n := by
      funext u b
      exact ih u b
    simp only [recomputeProjection, hrec]
    rfl

/-- the loop over the touched atoms returns; the stacks the recomputes need are joined by `max` -/
theorem recomputeAll_terminates (hac : Acyclic (pullForks E s batch).Calls) {l : List AtomId}
    (hl : ∀ a ∈ l, Touched s batch a) {m : St} (hm : Pulling E s batch m) :
    ∃ n, ∀ k, n ≤ k → ∃ t, l.foldlM (recomputeProjection E k) m = some t := by
  have hJ := fork_traversal (E := E) (F := pullForks E s batch) (T := Touched s batch) forksOf_adequate fun _ h => h
  have hwf := Forks.wellFounded forksOf_sound hac (finite_targets (pulledLog s batch))
  induction l generalizing m with
  | nil => exact ⟨0, fun _ _ => ⟨m, rfl⟩⟩
  | cons a l ih =>
    have ha := hl a List.mem_cons_self
    obtain ⟨n1, u, hu⟩ := terminates_of_wellFounded forksOf_adequate hwf (Or.inl ha) hm
    obtain ⟨n2, h2⟩ := ih (fun b hb => hl b (List.mem_cons_of_mem _ hb)) (hJ.keeps (Or.inl ha) hm hu)
    refine ⟨max n1 n2, fun k hk => ?_⟩
    obtain ⟨t, ht⟩ := h2 k ((le_max_right _ _).trans hk)
    refine ⟨t, ?_⟩
    simp only [List.foldlM_cons, bind, Option.bind_eq_some_iff]
    exact ⟨u, recompute_mono hu ((le_max_left _ _).trans hk), ht⟩

/-! ## The transaction -/

/-- a batch that does not fit is thrown out on every stack -/
theorem admissible_of_ok (h : pullOnce E s batch = .ok t) : Admissible s batch := by
  rcases pullOnce_cases h with ⟨hnil, -⟩ | ⟨m, touched, u, hm, -, -⟩
  · rw [Admissible, incoming, hnil]
    exact ⟨List.nodup_nil, fun _ hx => absurd hx List.not_mem_nil, fun _ hx => absurd hx List.not_mem_nil⟩
  · exact mergeEvents_ok_iff.1 ⟨(m, touched), hm⟩

/-- **When a batch is applicable.** What a pull applies, on any stack, is a batch whose bodies fit; and such a batch is
applied on every stack deep enough, and the cursor advances, when its conflict resolution closes no cycle. -/
theorem pull_applicable (E : Env) (s : St) (batch : PullBatch) :
    (∀ k, (∃ t, pullOnce { E with stack := k } s batch = .ok t) → Admissible s batch) ∧
      (Acyclic (pullForks E s batch).Calls → Admissible s batch → ∃ n, ∀ k, n ≤ k →
        ∃ t, pullOnce { E with stack := k } s batch = .ok t ∧ (batch.events ≠ [] → t.cursor = batch.nextCursor)) := by
  refine ⟨fun k ⟨t, ht⟩ => admissible_of_ok ht, fun hac hadm => ?_⟩
  by_cases hnil : batch.events = []
  · exact ⟨0, fun k _ => ⟨s, if_pos hnil, fun hc => absurd hnil hc⟩⟩
  obtain ⟨⟨m, touched⟩, hr⟩ := mergeEvents_ok_iff.2 hadm
  have hmerges := mergeEvents_merges (E := E) hr
  obtain ⟨n, hn⟩ := recomputeAll_terminates hac (fun a ha => (hmerges.touched a).1 ha) (Merges.pulling hmerges)
  refine ⟨n, fun k hk => ?_⟩
  obtain ⟨u, hu⟩ := hn k hk
  have hmerge : mergeEvents { E with stack := k } s batch.events = .ok (m, touched) := hr
  have hall : recomputeAll { E with stack := k } m touched = some u := by
    have hstack : recomputeProjection { E with stack := k } k = recomputeProjection E k := by
      funext v b
      exact recompute_stack E k k v b
    exact (congrArg (fun f => touched.foldlM f m) hstack).trans hu
  refine ⟨setPullWatermark u batch.nextCursor, ?_, fun _ => rfl⟩
  rw [pullOnce, if_neg hnil, hmerge]
  simp only [hall]

/-- the device stored the content with hash 7 itself -/
def ownState : St := run countingEnv {} [.remember (rememberInput 7 "text")]

/-- another device stored the same content, as memory 7 -/
def sameContentBatch : PullBatch := ⟨[createEvent 900 7 10], some 3⟩

theorem pull_applicable_create : ∃ n, ∀ k, n ≤ k →
    ∃ t, pullOnce { countingEnv with stack := k } {} sameContentBatch = .ok t ∧
      (sameContentBatch.events ≠ [] → t.cursor = sameContentBatch.nextCursor) := by
  have hnone : ∀ sn ∈ bodies (ids {}) (incoming {} sameContentBatch), sn.sessionId = none := by decide
  refine (pull_applicable countingEnv {} sameContentBatch).2 (acyclic_of_rank (fun x : AtomId => x) fun x y h => ?_)
    ⟨by decide, by decide, fun sn hsn k hk => ?_⟩
  · have hquiet : ∀ e ∈ pulledLog {} sameContentBatch, supersedeTarget e = none := by decide
    obtain ⟨w, hw⟩ := h
    exact absurd ⟨x, w, hw⟩ (pull_not_chained fun e he => by rw [hquiet e he]; simp)
  · rw [hnone sn hsn] at hk
    cases hk

/-- **The same content under another id wedges the pull.** The create event of the other device violates the unique
hash, so the round throws and the cursor stays. -/
theorem same_content_wedges :
    pullOnce countingEnv ownState sameContentBatch = .error (.constraint (.uniqueHash 7)) ∧
      getPullWatermark (step countingEnv ownState (.pull sameContentBatch)) = none := by
  decide

end AstramemLocal.Sync
