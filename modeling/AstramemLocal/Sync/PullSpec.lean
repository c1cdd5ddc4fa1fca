/-
What the two loops of a pull do. `newEvents` are the events of a batch the log does not hold, first copy of each id;
`Merges` is the effect of the first loop (log, rows, touched atoms), `mergeEvents_merges` its spec lemma. A committed
pull is a merge, a recompute of every touched atom, and the watermark (`pullOnce_ok`).
-/
import AstramemLocal.Core.Runs
import AstramemLocal.Sync.Puller
import AstramemLocal.Sync.Recompute

namespace AstramemLocal.Sync

open AstramemLocal.Store AstramemLocal.Core

/-- the events whose id is not known yet, first copy of each id -/
def newEvents : List EventId → List RemotePullEvent → List RemotePullEvent
  | _, [] => []
  | known, e :: es =>
    if e.eventId ∈ known then newEvents known es else e :: newEvents (known ++ [e.eventId]) es

def eventIds (s : St) : List EventId := (records s).map (·.eventId)

/-- the new events of a batch -/
def incoming (s : St) (batch : PullBatch) : List RemotePullEvent := newEvents (eventIds s) batch.events

/-- a 'create' event that carries the atom's body -/
def Carries (e : RemotePullEvent) (sn : AtomSnapshot) : Prop := e.eventType = .create ∧ e.atomSnapshot = some sn

theorem newEvents_sublist (known : List EventId) (es : List RemotePullEvent) : (newEvents known es).Sublist es := by
  induction es generalizing known with
  | nil => exact List.Sublist.slnil
  | cons e es ih =>
    simp only [newEvents]
    split_ifs
    · exact (ih known).cons e
    · exact (ih _).cons_cons e

theorem newEvents_fresh {known : List EventId} {es : List RemotePullEvent} {e : RemotePullEvent}
    (h : e ∈ newEvents known es) : e.eventId ∉ known := by
  induction es generalizing known with
  | nil => simp [newEvents] at h
  | cons f es ih =>
    simp only [newEvents] at h
    split_ifs at h with hf
    · exact ih h
    · rcases List.mem_cons.1 h with rfl | h
      · exact hf
      · exact fun hc => ih h (List.mem_append_left _ hc)

/-- every id of the batch is known afterwards -/
theorem newEvents_covers (known : List EventId) {es : List RemotePullEvent} {e : RemotePullEvent} (h : e ∈ es) :
    e.eventId ∈ known ∨ ∃ f ∈ newEvents known es, f.eventId = e.eventId := by
  induction es generalizing known with
  | nil => simp at h
  | cons f es ih =>
    simp only [newEvents]
    split_ifs with hf
    · rcases List.mem_cons.1 h with rfl | h
      · exact Or.inl hf
      · exact ih known h
    · rcases List.mem_cons.1 h with rfl | h
      · exact Or.inr ⟨e, List.mem_cons_self, rfl⟩
      · rcases ih (known ++ [f.eventId]) h with hk | ⟨g, hg, hid⟩
        · rcases List.mem_append.1 hk with hk | hk
          · exact Or.inl hk
          · exact Or.inr ⟨f, List.mem_cons_self, (List.mem_singleton.1 hk).symm⟩
        · exact Or.inr ⟨g, List.mem_cons_of_mem _ hg, hid⟩

/-- `evs` merged into `s` gives `t` -/
structure Merges (s : St) (evs : List RemotePullEvent) (t : St) (touched : List AtomId) : Prop where
  log : records t = records s ++ evs.map (·.toEventRecord)
  touched : ∀ a, a ∈ touched ↔ ∃ e ∈ evs, e.atomId = a
  /-- rows are only added, each from the snapshot of a new 'create' event of an atom without one -/
  rows : ∃ made, t.memories = s.memories ++ made ∧ ∀ m ∈ made, findRow s m.id = none ∧
    ∃ e ∈ evs, ∃ sn now rowid, Carries e sn ∧ m = { snapshotRow e.atomId sn e.createdAt now with rowid := rowid }
  made : ∀ e ∈ evs, ∀ sn, Carries e sn → findRow t e.atomId ≠ none
  unique : ∀ k, Unique k s → Unique k t
  clock : s.clock ≤ t.clock
  /-- no other table changes -/
  frame : t = { s with memories := t.memories, memoryEvents := t.memoryEvents, seqHigh := t.seqHigh, clock := t.clock }

theorem mem_touch {touched : List AtomId} {a b : AtomId} : b ∈ touch touched a ↔ b ∈ touched ∨ b = a := by
  unfold touch
  split_ifs with h
  · constructor
    · exact Or.inl
    · rintro (hb | rfl)
      · exact hb
      · exact h
  · simp

section
variable {E : Env} {s t : St} {evs : List RemotePullEvent} {touched : List AtomId}

theorem Merges.refl (s : St) : Merges s [] s [] where
  log := by simp
  touched a := by simp
  rows := ⟨[], by simp, by simp⟩
  made e he := by simp at he
  unique _ := id
  clock := le_rfl
  frame := rfl

theorem Merges.findRow_of_some (h : Merges s evs t touched) {a : AtomId} {m : Memory} (hm : findRow s a = some m) :
    findRow t a = some m := by
  obtain ⟨made, hr, -⟩ := h.rows
  exact findRow_append_left hr hm

/-- a row that the first loop made comes from a new 'create' event -/
theorem Merges.made_row (h : Merges s evs t touched) {a : AtomId} {x : Memory} (hx : findRow t a = some x)
    (hs : findRow s a = none) : ∃ e ∈ evs, e.atomId = a ∧
      ∃ sn now rowid, Carries e sn ∧ x = { snapshotRow e.atomId sn e.createdAt now with rowid := rowid } := by
  obtain ⟨made, hmem, hmade⟩ := h.rows
  have hxm := findRow_mem hx
  rw [hmem] at hxm
  rcases List.mem_append.1 hxm with hxs | hxm
  · exact absurd (findRow_id hx) (findRow_eq_none.1 hs x hxs)
  · obtain ⟨-, e, he, sn, now, k, hc, rfl⟩ := hmade x hxm
    exact ⟨e, he, findRow_id hx, sn, now, k, hc, rfl⟩

theorem Merges.row_of_untouched (h : Merges s evs t touched) {a : AtomId} (ha : a ∉ touched) :
    findRow t a = findRow s a := by
  cases hs : findRow s a with
  | some x => exact h.findRow_of_some hs
  | none =>
    by_contra hx
    obtain ⟨x, hx⟩ := Option.ne_none_iff_exists'.1 hx
    obtain ⟨e, he, hea, -⟩ := h.made_row hx hs
    exact ha ((h.touched a).2 ⟨e, he, hea⟩)

theorem Merges.eventIds (h : Merges s evs t touched) : eventIds t = eventIds s ++ evs.map (·.eventId) := by
  simp [Sync.eventIds, h.log]

/-- the event `e` goes into the log, and the rows `added` with it -/
theorem Merges.snoc (h : Merges s evs t touched) {e : RemotePullEvent} (added : List Memory) {u : St}
    (hlog : records u = records t ++ [e.toEventRecord]) (hmem : u.memories = t.memories ++ added)
    (hadded : ∀ m ∈ added, findRow t m.id = none ∧ ∃ sn now rowid, Carries e sn ∧
      m = { snapshotRow e.atomId sn e.createdAt now with rowid := rowid })
    (hmade : ∀ sn, Carries e sn → findRow u e.atomId ≠ none) (hunique : ∀ k, Unique k t → Unique k u)
    (hclock : t.clock ≤ u.clock)
    (hframe : u = { t with memories := u.memories, memoryEvents := u.memoryEvents, seqHigh := u.seqHigh,
                           clock := u.clock }) :
    Merges s (evs ++ [e]) u (touch touched e.atomId) where
  log := by rw [hlog, h.log, List.map_append, List.append_assoc]; rfl
  touched a := by
    rw [mem_touch, h.touched]
    constructor
    · rintro (⟨f, hf, rfl⟩ | rfl)
      · exact ⟨f, List.mem_append_left _ hf, rfl⟩
      · exact ⟨e, List.mem_append_right _ List.mem_cons_self, rfl⟩
    · rintro ⟨f, hf, rfl⟩
      rcases List.mem_append.1 hf with hf | hf
      · exact Or.inl ⟨f, hf, rfl⟩
      · exact Or.inr (by rw [List.mem_singleton.1 hf])
  rows := by
    obtain ⟨made, hr, hm⟩ := h.rows
    refine ⟨made ++ added, by rw [hmem, hr, List.append_assoc], fun m hmem => ?_⟩
    rcases List.mem_append.1 hmem with hmem | hmem
    · obtain ⟨hn, f, hf, rest⟩ := hm m hmem
      exact ⟨hn, f, List.mem_append_left _ hf, rest⟩
    · obtain ⟨hn, sn, rest⟩ := hadded m hmem
      refine ⟨?_, e, List.mem_append_right _ List.mem_cons_self, sn, rest⟩
      cases hs : findRow s m.id with
      | none => rfl
      | some x => rw [h.findRow_of_some hs] at hn; cases hn
  made f hf sn hc := by
    rcases List.mem_append.1 hf with hf | hf
    · obtain ⟨x, hx⟩ := Option.ne_none_iff_exists'.1 (h.made f hf sn hc)
      rw [findRow_append_left hmem hx]
      simp
    · rw [List.mem_singleton.1 hf] at hc ⊢
      exact hmade sn hc
  unique k := hunique k ∘ h.unique k
  clock := h.clock.trans hclock
  frame := by rw [hframe, h.frame]

/-- the state after `dedupInsertEvent` inserted -/
def logEvent (s : St) (e : EventRecord) : St :=
  { s with memoryEvents := s.memoryEvents ++ [{ e with seq := s.seqHigh + 1 }], seqHigh := s.seqHigh + 1 }

theorem logEvent_records (s : St) (e : EventRecord) : records (logEvent s e) = records s ++ [e] := by
  simp [records, logEvent]

theorem dedup_iff {e : EventRecord} : (s.memoryEvents.any (·.eventId = e.eventId)) = true ↔
    e.eventId ∈ Sync.eventIds s := by
  simp [Sync.eventIds, records]

theorem mergeEvent_known {e : RemotePullEvent} (h : e.eventId ∈ Sync.eventIds s) :
    Sync.mergeEvent E (s, touched) e = .ok (s, touched) := by
  simp [Sync.mergeEvent, dedupInsertEvent, dedup_iff.2 h]

theorem dedupInsertEvent_new {e : EventRecord} (h : e.eventId ∉ Sync.eventIds s) :
    dedupInsertEvent s e = (logEvent s e, true) := by
  rw [dedupInsertEvent, if_neg (mt dedup_iff.1 h)]
  rfl

theorem mergeEvent_create {e : RemotePullEvent} {sn : AtomSnapshot} (h : e.eventId ∉ Sync.eventIds s)
    (hc : Carries e sn) : Sync.mergeEvent E (s, touched) e =
      (materializeAtomIfMissing E (logEvent s e.toEventRecord) e.atomId sn e.createdAt).map
        (·, touch touched e.atomId) := by
  simp [Sync.mergeEvent, dedupInsertEvent_new h, hc.1, hc.2]

theorem mergeEvent_other {e : RemotePullEvent} (h : e.eventId ∉ Sync.eventIds s) (hn : ∀ sn, ¬ Carries e sn) :
    Sync.mergeEvent E (s, touched) e = .ok (logEvent s e.toEventRecord, touch touched e.atomId) := by
  simp only [Sync.mergeEvent, dedupInsertEvent_new h, not_true, if_false]
  split
  · rename_i sn hty hsn
    exact absurd ⟨hty, hsn⟩ (hn sn)
  · rfl

theorem materialize_ok {a : AtomId} {sn : AtomSnapshot} {at_ : Time}
    (h : materializeAtomIfMissing E s a sn at_ = .ok t) :
    findRow s a ≠ none ∧ t = s ∨ findRow s a = none ∧ findHash s sn.hash = none ∧
      (∀ k, sn.sessionId = some k → k ∈ s.sessions) ∧ ∃ rowid now, t = { tick s with
        memories := s.memories ++ [{ snapshotRow a sn at_ now with rowid := rowid }] } := by
  unfold materializeAtomIfMissing at h
  split_ifs at h with hex
  · exact Or.inl ⟨Option.isSome_iff_ne_none.1 hex, (Except.ok.inj h).symm⟩
  · obtain ⟨hrow, hhash, hses, rfl⟩ := insertMemory_ok h
    exact Or.inr ⟨hrow, hhash, hses, _, _, rfl⟩

/-- one round of the first loop: a known id is passed over, a new one merged -/
theorem Merges.mergeEvent (h : Merges s evs t touched) {e : RemotePullEvent} {r : St × List AtomId}
    (hr : Sync.mergeEvent E (t, touched) e = .ok r) :
    e.eventId ∈ Sync.eventIds t ∧ r = (t, touched) ∨
      e.eventId ∉ Sync.eventIds t ∧ Merges s (evs ++ [e]) r.1 r.2 := by
  by_cases hid : e.eventId ∈ Sync.eventIds t
  · rw [mergeEvent_known hid] at hr
    exact Or.inl ⟨hid, (Except.ok.inj hr).symm⟩
  refine Or.inr ⟨hid, ?_⟩
  by_cases hc : ∃ sn, Carries e sn
  · obtain ⟨sn, hc⟩ := hc
    rw [mergeEvent_create hid hc] at hr
    cases hm : materializeAtomIfMissing E (logEvent t e.toEventRecord) e.atomId sn e.createdAt with
    | error x => rw [hm] at hr; cases hr
    | ok u =>
      rw [hm] at hr
      obtain rfl := Except.ok.inj hr
      rcases materialize_ok hm with ⟨hrow, rfl⟩ | ⟨hrow, hhash, -, k, now, rfl⟩
      · exact h.snoc [] (logEvent_records _ _) (by simp [logEvent]) (by simp) (fun _ _ => hrow) (fun _ => id) le_rfl rfl
      · refine h.snoc [_] (logEvent_records _ _) rfl ?_ (fun _ _ => ?_)
          (fun _ hu => Unique.snoc (m := { snapshotRow e.atomId sn e.createdAt now with rowid := k }) hu hrow hhash rfl)
          (Nat.le_succ _) rfl
        · intro m hm
          rw [List.mem_singleton.1 hm]
          exact ⟨hrow, sn, _, _, hc, rfl⟩
        · rw [Ne, findRow_eq_none]
          exact fun hall => hall _ (List.mem_append_right _ List.mem_cons_self) rfl
  · have hn : ∀ sn, ¬ Carries e sn := fun sn hsn => hc ⟨sn, hsn⟩
    rw [mergeEvent_other hid hn] at hr
    obtain rfl := Except.ok.inj hr
    exact h.snoc [] (logEvent_records _ _) (by simp [logEvent]) (by simp)
      (fun sn hsn => absurd hsn (hn sn)) (fun _ => id) le_rfl rfl

/-- **Spec of the first loop.** -/
theorem mergeEvents_merges {es : List RemotePullEvent} (h : mergeEvents E s es = .ok (t, touched)) :
    Merges s (newEvents (Sync.eventIds s) es) t touched := by
  have hI := foldlM_ok
    (fun rest (acc : St × List AtomId) => ∃ evs, Merges s evs acc.1 acc.2 ∧
      newEvents (Sync.eventIds s) es = evs ++ newEvents (Sync.eventIds acc.1) rest) ?_
    (b := (s, [])) ⟨[], Merges.refl s, rfl⟩ h
  · obtain ⟨evs, hm, heq⟩ := hI
    rw [heq]
    simpa [newEvents] using hm
  · rintro e rest ⟨u, tc⟩ r ⟨evs, hm, heq⟩ hstep
    rcases hm.mergeEvent hstep with ⟨hid, rfl⟩ | ⟨hid, hm'⟩
    · refine ⟨evs, hm, ?_⟩
      rw [heq]
      simp [newEvents, hid]
    · refine ⟨evs ++ [e], hm', ?_⟩
      rw [heq, hm'.eventIds, hm.eventIds]
      rw [hm.eventIds] at hid
      simp [newEvents, hid]

/-- a committed pull that fetched something -/
theorem pullOnce_ok {batch : PullBatch} (h : pullOnce E s batch = .ok t) :
    batch.events = [] ∧ t = s ∨ ∃ m touched u, Merges s (incoming s batch) m touched ∧
      recomputeAll E m touched = some u ∧ t = setPullWatermark u batch.nextCursor := by
  rcases pullOnce_cases h with hnil | ⟨m, touched, u, hm, hr, ht⟩
  · exact Or.inl hnil
  · exact Or.inr ⟨m, touched, u, mergeEvents_merges hm, hr, ht⟩

end

end AstramemLocal.Sync
