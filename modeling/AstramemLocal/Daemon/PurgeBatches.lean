/-
Purge batches. Which batch holds a memory is read off the log (`heldBy`): a 'purge' event puts it in, every later move of
the memory takes it out. The rows say the same by their `purge_batch_id` (`PurgeOk`).

- `finalize_ends`, `restore_ends`: a finalize erases the memories the batch still holds and no other; a restore makes
  those current and no other.
- `step_batches`: a batch that has been restored or finalized stays so.
- `purge_batches_end_once`: all of it, along every run of local operations.
-/
import AstramemLocal.Core.Table
import AstramemLocal.Daemon.Lifecycle
import AstramemLocal.Daemon.Log
import AstramemLocal.Daemon.Removal

namespace AstramemLocal.Daemon

open AstramemLocal.Store AstramemLocal.Sync AstramemLocal.Distill AstramemLocal.Core Relation

/-! ## The law -/

/-- what an event says of the batch that holds `a`: a scope and a usefulness signal move nothing -/
def held (a : AtomId) (batch : Option BatchId) (e : EventRecord) : Option BatchId :=
  if e.atomId ≠ a then batch
  else
    match e.eventType with
    | .purge => e.payloadJson.bind (·.batchId)
    | .usefulness => batch
    | .promoteScope => batch
    | _ => none

/-- the batch that holds `a`, by the log -/
def heldBy (L : List EventRecord) (a : AtomId) : Option BatchId := L.foldl (held a) none

/-- the memory as a restore leaves it -/
def unpurged (now : Time) (m : Memory) : Memory :=
  { m with validTo := none, purgeBatchId := none, updatedAt := now }

/-- a batch ends: the memories it still holds become what `f` makes of them, with one event each, and nothing else
moves -/
structure Ends (s t : St) (b : BatchId) (n : ℕ) (status : PurgeStatus) (ty : MemoryEventType)
    (f : Memory → Option Memory) : Prop where
  hidden : ∀ a, heldBy (records s) a = some b → ∃ m, findRow s a = some m ∧ m.validTo ≠ none
  rows : ∀ a, findRow t a = if heldBy (records s) a = some b then (findRow s a).bind f else findRow s a
  log : ∃ es, records t = records s ++ es ∧ n = es.length ∧ (es.map (·.atomId)).Nodup ∧ (∀ e ∈ es, e.eventType = ty) ∧
    ∀ a, a ∈ es.map (·.atomId) ↔ heldBy (records s) a = some b
  batch : (findBatch s b).map (·.status) = some .openBatch ∧ (findBatch t b).map (·.status) = some status
  others : ∀ c, c ≠ b → findBatch t c = findBatch s c

/-! ## Steps that purge nothing -/

/-- the batches stay as they are, and no memory is purged -/
structure Calm (s t : St) : Prop where
  batches : t.purgeBatches = s.purgeBatches
  log : ∃ es, records t = records s ++ es ∧ ∀ e ∈ es, e.eventType ≠ .purge

section

variable {E : Env} {s t u : St}

theorem Calm.same (h : Calm s t) (hbatches : u.purgeBatches = t.purgeBatches) (hlog : records u = records t) :
    Calm s u := by
  obtain ⟨es, hes, hpurge⟩ := h.log
  exact ⟨hbatches.trans h.batches, es, hlog.trans hes, hpurge⟩

theorem Calm.refl (s : St) : Calm s s := ⟨rfl, [], by simp, fun e he => by cases he⟩

theorem Calm.trans (h : Calm s t) (h' : Calm t u) : Calm s u := by
  obtain ⟨es, hes, hpurge⟩ := h.log
  obtain ⟨fs, hfs, hpurge'⟩ := h'.log
  refine ⟨h'.batches.trans h.batches, es ++ fs, ?_, fun e he => ?_⟩
  · rw [hfs, hes, List.append_assoc]
  · exact (List.mem_append.1 he).elim (hpurge e) (hpurge' e)

theorem Calm.append {ty : MemoryEventType} {a : AtomId} {p : Option Payload} {c : Option Hash} {now : Time}
    (h : Calm s t) (hty : ty ≠ .purge) : Calm s (append E t ty a p c now) := by
  refine h.trans ⟨rfl, _, append_records E t a ty p c now, fun e he => ?_⟩
  rw [List.mem_singleton.1 he]
  exact hty

theorem Calm.tick (h : Calm s t) : Calm s (tick t) := h.same rfl rfl

theorem insert_calm {input : InsertInput} {r : St × Inserted} (h : insertWithCreateEvent E s input = .ok r) :
    Calm s r.1 := by
  rcases insertWithCreateEvent_ok h with ⟨m, -, rfl⟩ | ⟨-, -, -, rfl⟩
  · exact Calm.refl s
  · exact Calm.append (Calm.same (Calm.refl s) rfl rfl) (by decide)

theorem upsertVec_batches (s : St) (a : AtomId) : (upsertVec E s a).purgeBatches = s.purgeBatches := by
  unfold upsertVec
  split <;> rfl

theorem embedAndIndex_calm {ctx : EmbedIndexContext} {mem : NormalizedMemory} (h : embedAndIndex E s ctx mem = .ok t) :
    Calm s t := by
  apply embedAndIndex_rule (P := Calm s) h (Calm.refl s)
  · intro v hv
    exact hv.tick
  · intro v input r hv hr
    exact hv.trans (insert_calm hr)
  · intro a acc entity hacc
    have hwrite := linkEntity_graphWrite E a acc entity
    exact hacc.same hwrite.purgeBatches (records_congr hwrite.memoryEvents)
  · intro a at_ named v relation hv
    have hwrite := writeRelation_graphWrite E a mem at_ named v relation
    exact hv.same hwrite.purgeBatches (records_congr hwrite.memoryEvents)
  · intro v a hv
    exact hv.same (upsertVec_batches v a) (records_congr (upsertVec_log v a).1)

theorem shipOnce_calm (batchSize : ℕ) (answer : Option ShipAck) : Calm s (shipOnce E s batchSize answer).2 := by
  refine (Calm.refl s).same ?_ (shipOnce_frame batchSize answer).records
  unfold shipOnce
  simp only
  split_ifs
  · rfl
  · cases answer with
    | none => rfl
    | some ack =>
      unfold markShipped
      simp only
      split_ifs <;> rfl

/-- the operations on a batch -/
def Op.onBatch : Op → Bool
  | .purgeBatch _ _ _ => true
  | .restorePurgeBatch _ => true
  | .finalizePurgeBatch _ => true
  | _ => false

theorem step_calm {op : Op} (hpull : op.isPull = false) (hop : op.onBatch = false) : Calm s (step E s op) := by
  unfold step
  cases hx : exec E s op with
  | error e => exact Calm.refl s
  | ok t =>
    simp only
    cases op with
    | remember input =>
      obtain ⟨r, hr, rfl⟩ := map_ok hx
      exact insert_calm (mapError_ok hr)
    | screen mem =>
      obtain rfl := Except.ok.inj hx
      unfold screen
      split_ifs
      · exact Calm.refl s
      · exact (Calm.refl s).same rfl rfl
    | discard mem =>
      obtain rfl := Except.ok.inj hx
      exact (Calm.refl s).same rfl rfl
    | index ctx mem =>
      have hd : Calm s (discard s mem) := (Calm.refl s).same rfl rfl
      simp only [exec] at hx
      split_ifs at hx with hin
      · split at hx
        next => exact Except.ok.inj hx ▸ hd
        next u hu => exact Except.ok.inj hx ▸ hd.trans (embedAndIndex_calm hu)
      · exact Except.ok.inj hx ▸ Calm.refl s
    | invalidate a reason =>
      obtain ⟨row, -, -, rfl⟩ := Store.invalidate_ok (mapError_ok hx)
      exact Calm.append (Calm.append (Calm.same (Calm.refl s) rfl rfl) (by decide)) (by decide)
    | supersede oldId newId p src =>
      obtain ⟨row, wrow, -, -, -, -, rfl⟩ := Store.supersede_ok (mapError_ok hx)
      exact Calm.append (Calm.append (Calm.same (Calm.refl s) rfl rfl) (by decide)) (by decide)
    | archive a reason =>
      obtain ⟨row, -, -, rfl⟩ := Store.archive_ok (mapError_ok hx)
      exact Calm.append (Calm.same (Calm.refl s) rfl rfl) (by decide)
    | restore a =>
      obtain ⟨row, -, -, rfl⟩ := Store.restore_ok (mapError_ok hx)
      exact Calm.append (Calm.same (Calm.refl s) rfl rfl) (by decide)
    | unsupersede a reason =>
      obtain ⟨row, w, -, -, -, rfl⟩ := Store.unsupersede_ok (mapError_ok hx)
      exact Calm.append (Calm.same (Calm.refl s) rfl rfl) (by decide)
    | purgeBatch ids captureSource days => cases hop
    | restorePurgeBatch b => cases hop
    | finalizePurgeBatch b => cases hop
    | erase a reason =>
      obtain ⟨row, -, rfl⟩ := Store.erase_ok (mapError_ok hx)
      exact Calm.same (Calm.append (Calm.same (Calm.refl s) rfl rfl) (by decide)) rfl rfl
    | promoteScope a toScope =>
      obtain ⟨row, -, -, rfl⟩ := Store.promoteScope_ok (mapError_ok hx)
      exact Calm.append (Calm.same (Calm.refl s) rfl rfl) (by decide)
    | ship batchSize answer =>
      obtain rfl := Except.ok.inj hx
      exact shipOnce_calm batchSize answer
    | pull batch => cases hpull

end

/-! ## The log and the rows -/

theorem heldBy_snoc (L : List EventRecord) (e : EventRecord) (a : AtomId) :
    heldBy (L ++ [e]) a = held a (heldBy L a) e := by
  simp [heldBy]

theorem held_other {a : AtomId} {e : EventRecord} (h : e.atomId ≠ a) (batch : Option BatchId) : held a batch e = batch :=
  if_pos h

theorem held_self (batch : Option BatchId) (e : EventRecord) : held e.atomId batch e =
    match e.eventType with
    | .purge => e.payloadJson.bind (·.batchId)
    | .usefulness => batch
    | .promoteScope => batch
    | _ => none :=
  if_neg (not_not.2 rfl)

structure PurgeOk (s : St) : Prop where
  ids : UniqueIds s
  rows : ∀ a m, findRow s a = some m → Coherent m
  marks : ∀ a, heldBy (records s) a = (findRow s a).bind (·.purgeBatchId)

section

variable {E : Env} {A : St → Hash → Prop} {K : Memory → Prop} {Q : AtomId → AtomId → Prop} {s t : St}

theorem PurgeOk.current (h : PurgeOk s) {a : AtomId} {m : Memory} (hm : findRow s a = some m) (hv : m.validTo = none) :
    heldBy (records s) a = none := by
  rw [h.marks, hm]
  exact ((h.rows a m hm).current hv).2.2

/-- a step that says nothing in the log leaves the marks -/
theorem PurgeOk.silent (h : PurgeOk s) (hids : UniqueIds t) (hlog : records t = records s)
    (hrows : ∀ a x, findRow t a = some x → Coherent x)
    (hmarks : ∀ a, (findRow t a).bind (·.purgeBatchId) = (findRow s a).bind (·.purgeBatchId)) : PurgeOk t :=
  ⟨hids, hrows, fun a => by rw [hlog, h.marks, hmarks]⟩

/-- a step that says one thing of one memory -/
theorem PurgeOk.says (h : PurgeOk s) (e : EventRecord) (hids : UniqueIds t) (hlog : records t = records s ++ [e])
    (hother : ∀ a, a ≠ e.atomId → findRow t a = findRow s a)
    (hself : ∀ x, findRow t e.atomId = some x → Coherent x)
    (hmark : held e.atomId (heldBy (records s) e.atomId) e = (findRow t e.atomId).bind (·.purgeBatchId)) :
    PurgeOk t where
  ids := hids
  rows a x hx := by
    by_cases ha : a = e.atomId
    · subst ha
      exact hself x hx
    · rw [hother a ha] at hx
      exact h.rows a x hx
  marks a := by
    rw [hlog, heldBy_snoc]
    by_cases ha : a = e.atomId
    · subst ha
      exact hmark
    · rw [held_other (Ne.symm ha), hother a ha]
      exact h.marks a

/-- a row is rewritten and the log says how -/
theorem PurgeOk.rewritten (h : PurgeOk s) {a : AtomId} {m : Memory} {f : Memory → Memory} {ty : MemoryEventType}
    {now : Time} (p : Option Payload) (hm : findRow s a = some m) (hr : Rewrite now m f ty)
    (hpurge : ty = .purge → p.bind (·.batchId) = (f m).purgeBatchId) : PurgeOk (append E (updateRow s a f) ty a p none now) := by
  have hrow : findRow (updateRow s a f) a = some (f m) := by
    rw [findRow_updateRow_self _ _ hr.id_eq, hm]
    rfl
  refine h.says _ (h.ids.updateRow a fun x => hr.key_eq .id x) (append_records ..) (fun b hb => ?_) (fun x hx => ?_) ?_
  · exact findRow_updateRow_ne s a b hr.id_eq hb
  · obtain rfl := Option.some.inj (hrow.symm.trans hx)
    exact hr.coherent (h.rows a m hm)
  · have hmark : heldBy (records s) a = m.purgeBatchId := by
      rw [h.marks, hm]
      rfl
    have hcoherent := h.rows a m hm
    rw [held_self]
    refine Eq.trans ?_ (congrArg (Option.bind · (·.purgeBatchId)) hrow).symm
    cases hr with
    | invalidate hv => exact (hcoherent.current hv).2.2.symm
    | archive hv => exact (hcoherent.current hv).2.2.symm
    | restore ha => exact (hcoherent.archived ha).2.symm
    | unsupersede ha hs =>
      by_contra hp
      exact hs (hcoherent.purged fun hn => hp hn.symm)
    | purge b hv => exact hpurge rfl
    | unpurge hp => rfl
    | promoteScope scope => exact hmark

theorem Effect.log (he : Effect E Q A K s t) : ∃ es, records t = records s ++ es := by
  cases he with
  | frame hf => exact ⟨[], by rw [hf.records, List.append_nil]⟩
  | inserted input rowid now at_ => exact ⟨_, append_records ..⟩
  | rewritten now p => exact ⟨_, append_records ..⟩
  | touched validFrom now => exact ⟨[], (List.append_nil _).symm⟩
  | superseded p now => exact ⟨_, append_records ..⟩
  | noted a p now => exact ⟨_, append_records ..⟩
  | erased reason now => exact ⟨_, append_records ..⟩
  | linked link => exact ⟨[], (List.append_nil _).symm⟩
  | related r => exact ⟨[], (List.append_nil _).symm⟩
  | vectored => exact ⟨[], (List.append_nil _).symm⟩

/-- how many memories have been purged -/
def purges (s : St) : ℕ := (records s).countP (·.eventType = .purge)

theorem Effect.purges_le (he : Effect E Q A K s t) : purges s ≤ purges t := by
  obtain ⟨es, hes⟩ := he.log
  rw [purges, purges, hes, List.countP_append]
  exact Nat.le_add_right _ _

theorem Calm.purges (h : Calm s t) : purges t = purges s := by
  obtain ⟨es, hes, hpurge⟩ := h.log
  have hnone : es.countP (·.eventType = .purge) = 0 :=
    List.countP_eq_zero.2 fun e he => by simpa using hpurge e he
  rw [Daemon.purges, Daemon.purges, hes, List.countP_append, hnone, Nat.add_zero]

/-- an effect that purges nothing -/
theorem PurgeOk.effect (h : PurgeOk s) (he : Effect E Q A K s t) (hcalm : purges t = purges s) : PurgeOk t := by
  have hids := he.unique h.ids
  cases he with
  | frame hf =>
    refine h.silent hids hf.records (fun a x hx => ?_) fun a => by rw [findRow_congr hf.memories]
    rw [findRow_congr hf.memories] at hx
    exact h.rows a x hx
  | inserted input rowid now at_ _ _ hn =>
    have hrow := findRow_snoc (s := s) (m := { newRow input (E.uuid s.drawn) now with rowid := rowid })
      (t := { s with memories := s.memories ++ [{ newRow input (E.uuid s.drawn) now with rowid := rowid }],
                     drawn := s.drawn + 1 }) rfl hn
    refine h.says _ hids (append_records ..) (fun a ha => (hrow a).trans (if_neg ha)) (fun x hx => ?_) ?_
    · obtain rfl := Option.some.inj (((hrow _).trans (if_pos rfl)).symm.trans hx)
      exact ⟨fun _ => ⟨rfl, rfl, rfl⟩, fun _ => ⟨rfl, rfl⟩, fun _ => rfl⟩
    · rw [held_self]
      exact (congrArg (Option.bind · (·.purgeBatchId)) ((hrow _).trans (if_pos rfl))).symm
  | rewritten now p hm hr =>
    refine h.rewritten p hm hr fun hpurge => ?_
    -- the count would have gone up
    subst hpurge
    simp [purges] at hcalm
  | touched validFrom now =>
    rename_i b
    have hrow := fun a => findRow_updateRow s b a (f := fun x => { x with validFrom := validFrom x, updatedAt := now })
      fun _ => rfl
    refine h.silent hids rfl (fun a x hx => ?_) fun a => ?_
    · obtain ⟨y, hy, hxy⟩ := Option.map_eq_some_iff.1 ((hrow a).symm.trans hx)
      have hc := h.rows a y hy
      split_ifs at hxy
      · subst hxy
        exact ⟨hc.current, hc.archived, hc.purged⟩
      · exact hxy ▸ hc
    · rw [hrow a]
      cases findRow s a with
      | none => rfl
      | some y =>
        simp only [Option.map_some, Option.bind_some]
        split_ifs <;> rfl
  | superseded p now hm hv hmw hvw hne =>
    rename_i b w m mw
    have hrow := fun a => findRow_updateRow s b a
      (f := fun x => { x with validTo := some now, supersededBy := some w, updatedAt := now }) fun _ => rfl
    obtain ⟨-, ha, hp⟩ := (h.rows b m hm).current hv
    have hself : findRow (updateRow s b fun x =>
        { x with validTo := some now, supersededBy := some w, updatedAt := now }) b =
        some { m with validTo := some now, supersededBy := some w, updatedAt := now } := by
      rw [hrow, hm]
      exact congrArg some (if_pos rfl)
    refine h.says _ hids (append_records ..) (fun a hab => ?_) (fun x hx => ?_) ?_
    · refine (hrow a).trans ?_
      cases findRow s a with
      | none => rfl
      | some y => exact congrArg some (if_neg hab)
    · obtain rfl := Option.some.inj (hself.symm.trans hx)
      exact ⟨fun hc => (by cases hc), fun hc => absurd (ha.symm.trans hc) (by decide), fun hc => absurd hp hc⟩
    · have hmark := congrArg (fun o : Option Memory => o.bind (·.purgeBatchId)) hself
      rw [held_self]
      exact (hmark.trans hp).symm
  | noted b p now =>
    refine h.says _ hids (append_records ..) (fun a _ => rfl) (fun x hx => h.rows b x hx) ?_
    rw [held_self]
    exact h.marks b
  | erased reason now hm =>
    refine h.says _ hids (append_records ..) (fun a ha => ?_) (fun x hx => ?_) ?_
    · exact (findRow_deleteRow _ _ a).trans (if_neg ha)
    · rw [findRow_deleteRow_self] at hx
      cases hx
    · rw [held_self, findRow_deleteRow_self]
      rfl
  | linked link => exact h.silent hids rfl h.rows fun a => rfl
  | related r => exact h.silent hids rfl h.rows fun a => rfl
  | vectored => exact h.silent hids rfl h.rows fun a => rfl

theorem PurgeOk.effects (h : PurgeOk s) (he : ReflTransGen (Effect E Q A K) s t) (hcalm : purges t = purges s) :
    PurgeOk t := by
  have hall : purges s ≤ purges t ∧ (purges t = purges s → PurgeOk t) := by
    clear hcalm
    induction he with
    | refl => exact ⟨le_refl _, fun _ => h⟩
    | tail _ hst ih =>
      obtain ⟨hle, hok⟩ := ih
      have hstep := hst.purges_le
      exact ⟨hle.trans hstep, fun hq => (hok (by omega)).effect hst (by omega)⟩
  exact hall.2 hcalm

end

/-! ## The two ends of a batch -/

section

variable {E : Env} {s t : St} {b c : BatchId} {a : AtomId} {n : ℕ}

theorem findBatch_updateBatch {f : PurgeBatchRow → PurgeBatchRow} (hf : ∀ r, (f r).batchId = r.batchId) :
    findBatch (updateBatch s b f) c = (findBatch s c).map fun r => if r.batchId = b then f r else r :=
  @lookup_updateWhere _ _ PurgeBatchRow.batchId (·.batchId = b) _ f s.purgeBatches _ c hf

theorem findBatch_batchId {r : PurgeBatchRow} (h : findBatch s b = some r) : r.batchId = b :=
  (@lookup_mem _ _ PurgeBatchRow.batchId _ _ _ b h).2

/-- a memory that a batch holds carries its mark, and is hidden -/
theorem PurgeOk.hidden (h : PurgeOk s) (ha : heldBy (records s) a = some b) :
    ∃ m, findRow s a = some m ∧ m.purgeBatchId = some b ∧ m.validTo ≠ none := by
  rw [h.marks] at ha
  obtain ⟨m, hm, hmark⟩ := Option.bind_eq_some_iff.1 ha
  refine ⟨m, hm, hmark, fun hv => ?_⟩
  rw [((h.rows a m hm).current hv).2.2] at hmark
  cases hmark

/-- the rows a batch works on are those it holds -/
theorem PurgeOk.mem_purgedRows (h : PurgeOk s) : a ∈ purgedRows s b ↔ heldBy (records s) a = some b := by
  constructor
  · intro ha
    obtain ⟨m, hm, hmark⟩ := (purgedRows_spec h.ids b).2 a ha
    rw [h.marks, hm]
    exact hmark
  · intro ha
    obtain ⟨m, hm, hmark, hv⟩ := h.hidden ha
    exact List.mem_map.2 ⟨m, List.mem_filter.2 ⟨findRow_mem hm, decide_eq_true ⟨hmark, hv⟩⟩, findRow_id hm⟩

/-- the loop of `finalizePurgeBatch` erases the rows it is given, one after the other -/
theorem eraseAll (reason : Option String) (ids : List AtomId) : ∀ s : St, ids.Nodup →
    (∀ a ∈ ids, findRow s a ≠ none) →
    ∃ t, ids.foldlM (fun s id => Store.erase E s id reason) s = .ok t ∧ t.purgeBatches = s.purgeBatches ∧
      (∀ a, findRow t a = if a ∈ ids then none else findRow s a) ∧
      ∃ es, records t = records s ++ es ∧ es.map (·.atomId) = ids ∧ ∀ e ∈ es, e.eventType = .eraseRequest := by
  induction ids with
  | nil =>
    intro s _ _
    exact ⟨s, rfl, rfl, fun a => rfl, [], (List.append_nil _).symm, rfl, fun e he => by cases he⟩
  | cons id ids ih =>
    intro s hnd hrows
    obtain ⟨hid, hnd⟩ := List.nodup_cons.1 hnd
    obtain ⟨m, hm⟩ := Option.ne_none_iff_exists'.1 (hrows id List.mem_cons_self)
    have herase : Store.erase E s id reason = .ok (deleteRow (deleteVec (append E (Store.tick s) .eraseRequest id
        (some { scope := some m.scope, reason }) (some m.hash) (E.now s.clock)) m.rowid) id) := by
      unfold Store.erase
      rw [hm]
    generalize hu : deleteRow (deleteVec (append E (Store.tick s) .eraseRequest id
      (some { scope := some m.scope, reason }) (some m.hash) (E.now s.clock)) m.rowid) id = u at herase
    have hrow : ∀ a, findRow u a = if a = id then none else findRow s a := by
      intro a
      rw [← hu, findRow_deleteRow]
      rfl
    have hne : ∀ a ∈ ids, a ≠ id := fun a ha heq => hid (heq ▸ ha)
    obtain ⟨t, hok, hbatches, hrest, es, hlog, hatoms, htypes⟩ := ih u hnd fun a ha => by
      rw [hrow, if_neg (hne a ha)]
      exact hrows a (List.mem_cons_of_mem _ ha)
    refine ⟨t, ?_, ?_, fun a => ?_, ⟨E.uuid s.drawn, .eraseRequest, id, some { scope := some m.scope, reason },
      some m.hash, E.now s.clock⟩ :: es, ?_, ?_, fun e he => ?_⟩
    · rw [List.foldlM_cons, herase]
      exact hok
    · rw [hbatches, ← hu]
      rfl
    · rw [hrest, hrow]
      by_cases ha : a = id
      · simp [ha]
      · simp [ha]
    · rw [hlog, ← hu, deleteRow_records, deleteVec_records, append_records, List.append_assoc]
      rfl
    · rw [List.map_cons, hatoms]
    · rcases List.mem_cons.1 he with rfl | he
      · rfl
      · exact htypes e he

/-- the loop of `restorePurgeBatch` -/
theorem unpurgeAll (b : BatchId) (now : Time) (ids : List AtomId) : ∀ s : St, ids.Nodup →
    (ids.foldl (unpurgeOne E b now) s).purgeBatches = s.purgeBatches ∧
      (∀ a, findRow (ids.foldl (unpurgeOne E b now) s) a =
        if a ∈ ids then (findRow s a).map (unpurged now) else findRow s a) ∧
      ∃ es, records (ids.foldl (unpurgeOne E b now) s) = records s ++ es ∧ es.map (·.atomId) = ids ∧
        ∀ e ∈ es, e.eventType = .unpurge := by
  induction ids with
  | nil =>
    intro s _
    exact ⟨rfl, fun a => rfl, [], (List.append_nil _).symm, rfl, fun e he => by cases he⟩
  | cons id ids ih =>
    intro s hnd
    obtain ⟨hid, hnd⟩ := List.nodup_cons.1 hnd
    obtain ⟨hbatches, hrest, es, hlog, hatoms, htypes⟩ := ih (unpurgeOne E b now s id) hnd
    have hrow : ∀ a, findRow (unpurgeOne E b now s id) a = (findRow s a).map fun m => if a = id then unpurged now m else m :=
      fun a => findRow_updateRow s id a fun _ => rfl
    refine ⟨hbatches, fun a => ?_, ⟨E.uuid s.drawn, .unpurge, id, some { batchId := some b }, none, now⟩ :: es, ?_, ?_,
      fun e he => ?_⟩
    · rw [List.foldl_cons, hrest, hrow]
      by_cases ha : a = id
      · subst ha
        simp [hid]
      · simp [ha]
    · rw [List.foldl_cons, hlog, unpurgeOne, append_records, List.append_assoc]
      rfl
    · rw [List.map_cons, hatoms]
    · rcases List.mem_cons.1 he with rfl | he
      · rfl
      · exact htypes e he

/-- an operation on the rows a batch holds ends it, if it writes the status last -/
theorem PurgeOk.ends (h : PurgeOk s) {u : St} {r : PurgeBatchRow} {status : PurgeStatus} {ty : MemoryEventType}
    {f : Memory → Option Memory} {g : PurgeBatchRow → PurgeBatchRow} (hb : findBatch s b = some r)
    (hopen : r.status = .openBatch) (hbatches : u.purgeBatches = s.purgeBatches)
    (hrows : ∀ a, findRow u a = if a ∈ purgedRows s b then (findRow s a).bind f else findRow s a)
    (hlog : ∃ es, records u = records s ++ es ∧ es.map (·.atomId) = purgedRows s b ∧ ∀ e ∈ es, e.eventType = ty)
    (ht : t.memories = u.memories) (htlog : t.memoryEvents = u.memoryEvents)
    (htb : ∀ c, findBatch t c = (findBatch u c).map fun r => if r.batchId = b then g r else r)
    (hg : ∀ r, (g r).status = status) : Ends s t b (purgedRows s b).length status ty f where
  hidden a ha := by
    obtain ⟨m, hm, -, hv⟩ := h.hidden ha
    exact ⟨m, hm, hv⟩
  rows a := by
    rw [findRow_congr ht, hrows]
    by_cases ha : a ∈ purgedRows s b
    · rw [if_pos ha, if_pos (h.mem_purgedRows.1 ha)]
    · rw [if_neg ha, if_neg fun hheld => ha (h.mem_purgedRows.2 hheld)]
  log := by
    obtain ⟨es, hes, hatoms, htypes⟩ := hlog
    refine ⟨es, (records_congr htlog).trans hes, ?_, ?_, htypes, fun a => ?_⟩
    · rw [← hatoms, List.length_map]
    · rw [hatoms]
      exact (purgedRows_spec h.ids b).1
    · rw [hatoms]
      exact h.mem_purgedRows
  batch := by
    have hsame : findBatch u b = findBatch s b := by rw [findBatch, hbatches, ← findBatch]
    rw [htb, hsame, hb, Option.map_some, Option.map_some, Option.map_some, if_pos (findBatch_batchId hb), hg, hopen]
    exact ⟨rfl, rfl⟩
  others c hc := by
    have hsame : findBatch u c = findBatch s c := by rw [findBatch, hbatches, ← findBatch]
    rw [htb, hsame]
    cases hrow : findBatch s c with
    | none => rfl
    | some q => exact congrArg some (if_neg fun heq => hc ((findBatch_batchId hrow).symm.trans heq))

/-- **Finalize.** An open batch can be finalized: what it still holds is erased, and nothing else. -/
theorem finalize_ends (h : PurgeOk s) {r : PurgeBatchRow} (hb : findBatch s b = some r) (hopen : r.status = .openBatch) :
    ∃ t n, Store.finalizePurgeBatch E s b = .ok (t, n) ∧ Ends s t b n .finalized .eraseRequest fun _ => none := by
  have hpresent : ∀ a ∈ purgedRows s b, findRow s a ≠ none := by
    intro a ha
    obtain ⟨m, hm, -⟩ := (purgedRows_spec h.ids b).2 a ha
    rw [hm]
    exact Option.some_ne_none m
  obtain ⟨u, hu, hbatches, hrows, hlog⟩ := eraseAll (E := E) (some s!"purge batch {b} finalized") (purgedRows s b) s
    (purgedRows_spec h.ids b).1 hpresent
  refine ⟨updateBatch (Store.tick u) b fun r => { r with status := .finalized, finalizedAt := some (E.now u.clock) },
    (purgedRows s b).length, ?_, h.ends hb hopen hbatches (fun a => ?_) hlog rfl rfl
      (fun c => findBatch_updateBatch fun _ => rfl) fun _ => rfl⟩
  · unfold Store.finalizePurgeBatch
    simp only [hb, hopen, hu]
  · rw [hrows]
    cases findRow s a <;> rfl

/-- **Restore.** An open batch can be restored until its deadline: what it still holds is made current, and nothing
else. -/
theorem restore_ends (h : PurgeOk s) {r : PurgeBatchRow} (hb : findBatch s b = some r) (hopen : r.status = .openBatch)
    (hdeadline : E.now s.clock ≤ r.restoreDeadlineAt) :
    ∃ t n, Store.restorePurgeBatch E s b = .ok (t, n) ∧
      Ends s t b n .restored .unpurge fun m => some (unpurged (E.now s.clock) m) := by
  obtain ⟨hbatches, hrows, hlog⟩ := unpurgeAll (E := E) b (E.now s.clock) (purgedRows s b) (Store.tick s)
    (purgedRows_spec h.ids b).1
  refine ⟨updateBatch ((purgedRows s b).foldl (unpurgeOne E b (E.now s.clock)) (Store.tick s)) b fun r =>
    { r with status := .restored }, (purgedRows s b).length, ?_, h.ends hb hopen hbatches (fun a => ?_) hlog rfl rfl
      (fun c => findBatch_updateBatch fun _ => rfl) fun _ => rfl⟩
  · unfold Store.restorePurgeBatch
    simp only [hb, hopen, if_neg (not_lt.2 hdeadline)]
  · rw [hrows, findRow_tick]
    cases findRow s a <;> rfl

/-- what has ended is not ended again, and what has not been opened is not ended -/
theorem not_open (h : (findBatch s b).map (·.status) ≠ some .openBatch) :
    (∃ e, Store.restorePurgeBatch E s b = .error e) ∧ ∃ e, Store.finalizePurgeBatch E s b = .error e := by
  unfold Store.restorePurgeBatch Store.finalizePurgeBatch
  cases hb : findBatch s b with
  | none => exact ⟨⟨_, rfl⟩, ⟨_, rfl⟩⟩
  | some r =>
    rw [hb] at h
    cases hr : r.status with
    | openBatch => exact absurd (congrArg some hr) h
    | restored =>
      simp only [hr]
      exact ⟨⟨_, rfl⟩, ⟨_, rfl⟩⟩
    | finalized =>
      simp only [hr]
      exact ⟨⟨_, rfl⟩, ⟨_, rfl⟩⟩

/-- a finalize that returns has ended its batch -/
theorem finalizePurgeBatch_ends (h : PurgeOk s) (hok : Store.finalizePurgeBatch E s b = .ok (t, n)) :
    Ends s t b n .finalized .eraseRequest fun _ => none := by
  obtain ⟨r, u, hb, hopen, -, -⟩ := Store.finalizePurgeBatch_ok hok
  obtain ⟨t', n', hok', hends⟩ := finalize_ends (E := E) h hb hopen
  obtain ⟨rfl, rfl⟩ := Prod.mk.inj (Except.ok.inj (hok'.symm.trans hok))
  exact hends

/-- a restore that returns has ended its batch, before the deadline -/
theorem restorePurgeBatch_ends (h : PurgeOk s) (hok : Store.restorePurgeBatch E s b = .ok (t, n)) :
    Ends s t b n .restored .unpurge fun m => some (unpurged (E.now s.clock) m) := by
  obtain ⟨r, hb, hopen, hdeadline, -⟩ := Store.restorePurgeBatch_ok hok
  obtain ⟨t', n', hok', hends⟩ := restore_ends (E := E) h hb hopen hdeadline
  obtain ⟨rfl, rfl⟩ := Prod.mk.inj (Except.ok.inj (hok'.symm.trans hok))
  exact hends

end

/-! ## Runs -/

section

variable {E : Env} {s t : St} {b : BatchId}

theorem Ends.purges {n : ℕ} {status : PurgeStatus} {ty : MemoryEventType} {f : Memory → Option Memory}
    (h : Ends s t b n status ty f) (hty : ty ≠ .purge) : purges t = purges s := by
  obtain ⟨es, hes, -, -, htypes, -⟩ := h.log
  have hnone : es.countP (·.eventType = .purge) = 0 :=
    List.countP_eq_zero.2 fun e he => by simpa [htypes e he] using hty
  rw [Daemon.purges, Daemon.purges, hes, List.countP_append, hnone, Nat.add_zero]

/-- the rounds of `purgeBatch` -/
theorem purgeBatch_rounds (h : PurgeOk s) (ids : List AtomId) (captureSource : String) (days : ℤ) :
    PurgeOk (Store.purgeBatch E s ids captureSource days).1 ∧
      ∃ r, (Store.purgeBatch E s ids captureSource days).1.purgeBatches = s.purgeBatches ++ [r] := by
  have hloop := foldl_rest (fun _ (acc : St × ℕ) => PurgeOk acc.1 ∧ acc.1.purgeBatches = s.purgeBatches)
    (f := purgeOne E (E.uuid s.drawn) captureSource (E.now s.clock) (E.now s.clock + days * 86400000))
    (fun a _ acc hacc => ?_) (l := ids) (b := (tick (draw s), 0))
    ⟨h.silent h.ids rfl h.rows fun _ => rfl, rfl⟩
  · exact ⟨hloop.1.silent hloop.1.ids rfl hloop.1.rows fun _ => rfl, _, congrArg (· ++ _) hloop.2⟩
  · unfold purgeOne
    split
    · exact hacc
    next row hrow =>
      split_ifs with hv
      · exact hacc
      · exact ⟨hacc.1.rewritten _ hrow (.purge (E.uuid s.drawn) (not_not.1 hv)) fun _ => rfl, hacc.2⟩

/-- the log and the rows agree after every local operation -/
theorem PurgeOk.step {op : Op} (h : PurgeOk s) (hpull : op.isPull = false) : PurgeOk (step E s op) := by
  by_cases hop : op.onBatch = false
  · exact h.effects (step_effects h.ids hpull (Permits.all s op)) (step_calm hpull hop).purges
  · cases op with
    | purgeBatch ids captureSource days => exact (purgeBatch_rounds h ids captureSource days).1
    | restorePurgeBatch b =>
      simp only [Daemon.step, exec]
      cases hok : Store.restorePurgeBatch E s b with
      | error e => exact h
      | ok r =>
        refine h.effects (Q := fun _ _ => True) (A := fun _ _ => True) (K := fun _ => True)
          (restorePurgeBatch_effects h.ids hok) ((restorePurgeBatch_ends h hok).purges (by decide))
    | finalizePurgeBatch b =>
      simp only [Daemon.step, exec]
      cases hok : Store.finalizePurgeBatch E s b with
      | error e => exact h
      | ok r =>
        refine h.effects (Q := fun _ _ => True) (A := fun _ _ => True) (K := fun _ => True)
          (finalizePurgeBatch_effects hok) ((finalizePurgeBatch_ends h hok).purges (by decide))
    | _ => exact absurd rfl hop

/-- a batch that has ended stays ended as it is -/
theorem step_batches {op : Op} (h : PurgeOk s) (hpull : op.isPull = false) {r : PurgeBatchRow}
    (hb : findBatch s b = some r) (hended : r.status ≠ .openBatch) : findBatch (step E s op) b = some r := by
  have hother : ∀ {c n status ty f t}, Ends s t c n status ty f → findBatch t b = some r := by
    intro c n status ty f t hends
    refine (hends.others b ?_).trans hb
    rintro rfl
    have hopen := hends.batch.1
    rw [hb, Option.map_some, Option.some.injEq] at hopen
    exact hended hopen
  by_cases hop : op.onBatch = false
  · rw [findBatch, (step_calm hpull hop).batches]
    exact hb
  · cases op with
    | purgeBatch ids captureSource days =>
      obtain ⟨-, q, hq⟩ := purgeBatch_rounds (E := E) h ids captureSource days
      simp only [Daemon.step, exec]
      rw [findBatch] at hb ⊢
      rw [hq, List.find?_append, hb]
      rfl
    | restorePurgeBatch c =>
      simp only [Daemon.step, exec]
      cases hok : Store.restorePurgeBatch E s c with
      | error e => exact hb
      | ok u => exact hother (restorePurgeBatch_ends h hok)
    | finalizePurgeBatch c =>
      simp only [Daemon.step, exec]
      cases hok : Store.finalizePurgeBatch E s c with
      | error e => exact hb
      | ok u => exact hother (finalizePurgeBatch_ends h hok)
    | _ => exact absurd rfl hop

theorem purgeOk_run (E : Env) (sessions : List SessionId) {ops : List Op} (hlocal : ∀ op ∈ ops, op.isPull = false) :
    PurgeOk (run E { sessions } ops) := by
  refine along_inv PurgeOk (fun s op hs hP => hs.step hP) ?_
    (((along_trivial (step E) { sessions } ops).and_forall hlocal).mono fun s op hP => hP.2)
  exact ⟨List.nodup_nil, fun a m hm => (by cases hm), fun a => rfl⟩

end

/-- **Purge batches end once.** In every state of a run of local operations, a batch that is open can be finalized, and
restored until its deadline; either ends it for exactly the memories it still holds. A batch that has ended keeps its row
and is not ended again. -/
theorem purge_batches_end_once (E : Env) (sessions : List SessionId) (ops : List Op)
    (hlocal : ∀ op ∈ ops, op.isPull = false) :
    (∀ pre, pre <+: ops → ∀ b,
      (∀ t n, Store.finalizePurgeBatch E (run E { sessions } pre) b = .ok (t, n) →
        Ends (run E { sessions } pre) t b n .finalized .eraseRequest fun _ => none) ∧
      (∀ t n, Store.restorePurgeBatch E (run E { sessions } pre) b = .ok (t, n) →
        Ends (run E { sessions } pre) t b n .restored .unpurge fun m =>
          some (unpurged (E.now (run E { sessions } pre).clock) m)) ∧
      ∀ r, findBatch (run E { sessions } pre) b = some r → r.status = .openBatch →
        (∃ u, Store.finalizePurgeBatch E (run E { sessions } pre) b = .ok u) ∧
          (E.now (run E { sessions } pre).clock ≤ r.restoreDeadlineAt →
            ∃ u, Store.restorePurgeBatch E (run E { sessions } pre) b = .ok u)) ∧
      ∀ pre post, pre ++ post <+: ops → ∀ b r, findBatch (run E { sessions } pre) b = some r → r.status ≠ .openBatch →
        findBatch (run E { sessions } (pre ++ post)) b = some r ∧
          (∃ e, Store.restorePurgeBatch E (run E { sessions } (pre ++ post)) b = .error e) ∧
            ∃ e, Store.finalizePurgeBatch E (run E { sessions } (pre ++ post)) b = .error e := by
  have hok : ∀ pre, pre <+: ops → PurgeOk (run E { sessions } pre) := fun pre hpre =>
    purgeOk_run E sessions fun op hop => hlocal op (hpre.subset hop)
  constructor
  · intro pre hpre b
    refine ⟨fun t n => finalizePurgeBatch_ends (hok pre hpre), fun t n => restorePurgeBatch_ends (hok pre hpre),
      fun r hb hopen => ⟨?_, fun hdeadline => ?_⟩⟩
    · obtain ⟨t, n, h, -⟩ := finalize_ends (E := E) (hok pre hpre) hb hopen
      exact ⟨(t, n), h⟩
    · obtain ⟨t, n, h, -⟩ := restore_ends (hok pre hpre) hb hopen hdeadline
      exact ⟨(t, n), h⟩
  · intro pre post hpre b r hb hended
    have hrun : PurgeOk (run E { sessions } (pre ++ post)) ∧ findBatch (run E { sessions } (pre ++ post)) b = some r := by
      rw [run, List.foldl_append, ← run]
      refine along_inv (fun s => PurgeOk s ∧ findBatch s b = some r)
        (fun s op hs hP => ⟨hs.1.step hP, step_batches hs.1 hP hs.2 hended⟩)
        ⟨hok pre ((List.prefix_append pre post).trans hpre), hb⟩ ?_
      refine ((along_trivial (step E) _ post).and_forall fun op hop => ?_).mono fun s op hP => hP.2
      exact hlocal op (hpre.subset (List.mem_append_right pre hop))
    refine ⟨hrun.2, not_open ?_⟩
    rw [hrun.2, Option.map_some]
    exact fun hopen => hended (Option.some.inj hopen)

/-- three memories go into a batch; one of them is erased before the batch is restored -/
def purgeOps : List Op :=
  [.remember (rememberInput 1 "a"), .remember (rememberInput 2 "b"), .remember (rememberInput 3 "c"),
    .purgeBatch [0, 2, 4] "proxy" 7, .erase 2 none, .restorePurgeBatch 6, .archive 4 none, .finalizePurgeBatch 6]

theorem purge_batches_end_once_erased :
    (findRow (run countingEnv { sessions := [] } purgeOps) 0).map (·.validTo) = some none ∧
      (findBatch (run countingEnv { sessions := [] } purgeOps) 6).map (·.status) = some .restored ∧
        ∃ e, Store.finalizePurgeBatch countingEnv (run countingEnv { sessions := [] } purgeOps) 6 = .error e := by
  have hbatch : ∃ r, findBatch (run countingEnv { sessions := [] } (purgeOps.take 6)) 6 = some r ∧
      r.status ≠ .openBatch := ⟨_, rfl, by decide⟩
  obtain ⟨r, hb, hended⟩ := hbatch
  have h := (purge_batches_end_once countingEnv [] purgeOps (by decide)).2 (purgeOps.take 6) (purgeOps.drop 6)
    (by rw [List.take_append_drop]) 6 r hb hended
  rw [List.take_append_drop] at h
  exact ⟨by decide, by decide, h.2.2⟩

end AstramemLocal.Daemon
