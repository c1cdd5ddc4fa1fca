/-
What the local operations do, said once. Every operation but a pull is a sequence of `Effect`s: a row goes in with its
'create' event, a row is rewritten and the log says how (`Rewrite`), a row is superseded and loses its links, a row is
erased behind a tombstone, a link or a vector goes in, or only bookkeeping happens (`Frame`). `step_effects` is the
decomposition; an invariant of the local operations is shown of the effects (`effects_inv`). The parameters say what is
known of the operation: `Q` of a supersede, `A` of an insert, `K` of a row that is linked.
-/
import AstramemLocal.Daemon
import AstramemLocal.Sync.PullForks
import Mathlib.Logic.Relation

namespace AstramemLocal.Daemon

open AstramemLocal.Store AstramemLocal.Sync AstramemLocal.Distill AstramemLocal.Core Relation

/-! ## Effects -/

/-- the ways a local operation rewrites the row `m` of an atom, and the type of the event that says so -/
inductive Rewrite (now : Time) (m : Memory) : (Memory → Memory) → MemoryEventType → Prop
  | invalidate : m.validTo = none → Rewrite now m (fun m => { m with validTo := some now, updatedAt := now }) .invalidate
  | archive : m.validTo = none →
      Rewrite now m (fun m => { m with validTo := some now, archived := true, archivedAt := some now, updatedAt := now })
        .archive
  | restore : m.archived = true →
      Rewrite now m (fun m => { m with validTo := none, archived := false, archivedAt := none, updatedAt := now })
        .restore
  | unsupersede : m.archived = false → m.supersededBy ≠ none →
      Rewrite now m (fun m => { m with validTo := none, supersededBy := none, updatedAt := now }) .unsupersede
  | purge (b : BatchId) : m.validTo = none →
      Rewrite now m (fun m => { m with validTo := some now, purgeBatchId := some b, updatedAt := now }) .purge
  | unpurge : m.purgeBatchId ≠ none →
      Rewrite now m (fun m => { m with validTo := none, purgeBatchId := none, updatedAt := now }) .unpurge
  | promoteScope (scope : MemoryScope) :
      Rewrite now m (fun m => { m with scope, updatedAt := now }) .promoteScope

/-- nothing changes but clock and id readings, purge batches, jobs in flight and the shipping columns of the log -/
structure Frame (s t : St) : Prop where
  memories : t.memories = s.memories
  memoriesVec : t.memoriesVec = s.memoriesVec
  records : records t = records s
  memoryEntities : t.memoryEntities = s.memoryEntities
  entityRelations : t.entityRelations = s.entityRelations
  drawn : s.drawn ≤ t.drawn

inductive Effect (E : Env) (Q : AtomId → AtomId → Prop) (A : St → Hash → Prop) (K : Memory → Prop) : St → St → Prop
  | frame {s t} : Frame s t → Effect E Q A K s t
  /-- `insertWithCreateEvent` -/
  | inserted {s} (input : InsertInput) (rowid : ℕ) (now at_ : Time) : A s input.hash → findHash s input.hash = none →
      findRow s (E.uuid s.drawn) = none →
      Effect E Q A K s (append E
        { s with memories := s.memories ++ [{ newRow input (E.uuid s.drawn) now with rowid := rowid }],
                 drawn := s.drawn + 1 }
        .create (E.uuid s.drawn) (some (createPayload input)) (some input.hash) at_)
  | rewritten {s a m f ty} (now : Time) (p : Option Payload) : findRow s a = some m → Rewrite now m f ty →
      Effect E Q A K s (append E (updateRow s a f) ty a p none now)
  /-- the row of a winner, or of a re-indexed atom -/
  | touched {s a} (validFrom : Memory → Time) (now : Time) :
      Effect E Q A K s (updateRow s a fun m => { m with validFrom := validFrom m, updatedAt := now })
  | superseded {s a w m mw} (p : Option SupersedeProvenance) (now : Time) : findRow s a = some m → m.validTo = none →
      findRow s w = some mw → mw.validTo = none → Q a w →
      Effect E Q A K s (append E (dropRelations (unlinkMemory (updateRow s a fun m =>
        { m with validTo := some now, supersededBy := some w, updatedAt := now }) a) a)
        .supersede a (some (supersedePayload w p)) none now)
  /-- a `memory_corrected` event -/
  | noted {s} (a : AtomId) (p : Payload) (now : Time) : Effect E Q A K s (append E s .usefulness a (some p) none now)
  | erased {s a m} (reason : Option String) (now : Time) : findRow s a = some m →
      Effect E Q A K s (deleteRow (deleteVec
        (append E s .eraseRequest a (some { scope := some m.scope, reason }) (some m.hash) now) m.rowid) a)
  | linked {s m} (link : MemoryEntity) : findRow s link.memoryId = some m → K m →
      Effect E Q A K s { s with memoryEntities := s.memoryEntities ++ [link] }
  | related {s m} (r : EntityRelation) : findRow s r.evidenceMemoryId = some m → K m →
      Effect E Q A K s { s with entityRelations := s.entityRelations ++ [r] }
  | vectored {s a m} : findRow s a = some m →
      Effect E Q A K s { s with memoriesVec := s.memoriesVec.filter (· ≠ m.rowid) ++ [m.rowid] }

variable {E : Env} {Q : AtomId → AtomId → Prop} {A : St → Hash → Prop} {K : Memory → Prop} {s t : St}

/-- the row of an insert beside the old ones -/
theorem findRow_inserted {input : InsertInput} {rowid : ℕ} {now at_ : Time} (hn : findRow s (E.uuid s.drawn) = none)
    (a : AtomId) :
    findRow (append E { s with memories := s.memories ++ [{ newRow input (E.uuid s.drawn) now with rowid := rowid }],
                               drawn := s.drawn + 1 }
        .create (E.uuid s.drawn) (some (createPayload input)) (some input.hash) at_) a =
      if a = E.uuid s.drawn then some { newRow input (E.uuid s.drawn) now with rowid := rowid } else findRow s a := by
  rw [findRow_append]
  exact findRow_snoc (s := s) (m := { newRow input (E.uuid s.drawn) now with rowid := rowid }) rfl hn a

/-- **Invariant rule.** -/
theorem effects_inv {I : St → Prop} (hI : ∀ s t, I s → Effect E Q A K s t → I t)
    (h : ReflTransGen (Effect E Q A K) s t) (hs : I s) : I t := by
  induction h with
  | refl => exact hs
  | tail _ hst ih => exact hI _ _ ih hst

theorem Rewrite.id_eq {now : Time} {m : Memory} {f : Memory → Memory} {ty : MemoryEventType} (h : Rewrite now m f ty)
    (x : Memory) : (f x).id = x.id := by
  cases h <;> rfl

theorem Rewrite.key_eq {now : Time} {m : Memory} {f : Memory → Memory} {ty : MemoryEventType} (h : Rewrite now m f ty)
    (k : Key) (x : Memory) : k.of (f x) = k.of x := by
  cases h <;> cases k <;> rfl

/-- the unique columns stay unique -/
theorem Effect.unique {k : Key} (he : Effect E Q A K s t) (h : Unique k s) : Unique k t := by
  cases he with
  | frame hf => exact h.sublist (by rw [hf.memories])
  | inserted input rowid now at_ _ hh hn =>
    exact h.snoc (m := { newRow input _ now with rowid := rowid }) hn hh rfl
  | rewritten now p hm hr => exact h.updateRow _ (hr.key_eq k)
  | touched validFrom now => exact h.updateRow _ fun _ => by cases k <;> rfl
  | superseded p now => exact h.updateRow _ fun _ => by cases k <;> rfl
  | noted a p now => exact h
  | erased reason now hm => exact h.sublist List.filter_sublist
  | linked link => exact h
  | related r => exact h
  | vectored => exact h

/-- the log only grows -/
theorem Effect.records_sub (he : Effect E Q A K s t) : ∀ e ∈ records s, e ∈ records t := by
  intro e hmem
  cases he with
  | frame hf => rwa [hf.records]
  | touched validFrom now => exact hmem
  | linked link => exact hmem
  | related r => exact hmem
  | vectored => exact hmem
  | inserted input rowid now at_ _ _ _ =>
    rw [append_records]
    exact List.mem_append_left _ hmem
  | rewritten now p _ _ =>
    rw [append_records]
    exact List.mem_append_left _ hmem
  | superseded p now _ _ _ _ _ =>
    rw [append_records]
    exact List.mem_append_left _ hmem
  | noted a p now =>
    rw [append_records]
    exact List.mem_append_left _ hmem
  | erased reason now _ =>
    rw [deleteRow_records, deleteVec_records, append_records]
    exact List.mem_append_left _ hmem

theorem Frame.effects (h : Frame s t) : ReflTransGen (Effect E Q A K) s t := .single (.frame h)

theorem Frame.tick (s : St) : Frame s (tick s) := ⟨rfl, rfl, rfl, rfl, rfl, le_rfl⟩

theorem Frame.draw (s : St) : Frame s (draw s) := ⟨rfl, rfl, rfl, rfl, rfl, Nat.le_succ _⟩

/-! ## The lifecycle operations -/

theorem invalidate_effects {a : AtomId} {reason : Option String} (h : Store.invalidate E s a reason = .ok t) :
    ReflTransGen (Effect E Q A K) s t := by
  obtain ⟨row, hrow, hv, rfl⟩ := invalidate_ok h
  exact ((Frame.tick s).effects.tail (.rewritten (E.now s.clock) _ hrow (.invalidate hv))).tail (.noted a _ _)

theorem supersede_effects {a w : AtomId} {p : Option SupersedeProvenance} {src : CorrectionSource} (hQ : Q a w)
    (h : Store.supersede E s a w p src = .ok t) : ReflTransGen (Effect E Q A K) s t := by
  obtain ⟨row, wrow, hrow, hv, hwrow, hw, rfl⟩ := supersede_ok h
  -- the row of the winner is touched between; the statements commute
  exact (((Frame.tick s).effects.tail (.superseded p (E.now s.clock) hrow hv hwrow hw hQ)).tail
    (.touched (a := w) (fun _ => E.now s.clock) (E.now s.clock))).tail (.noted a _ _)

theorem archive_effects {a : AtomId} {reason : Option String} (h : Store.archive E s a reason = .ok t) :
    ReflTransGen (Effect E Q A K) s t := by
  obtain ⟨row, hrow, hv, rfl⟩ := archive_ok h
  exact (Frame.tick s).effects.tail (.rewritten (E.now s.clock) _ hrow (.archive hv))

theorem restore_effects {a : AtomId} (h : Store.restore E s a = .ok t) : ReflTransGen (Effect E Q A K) s t := by
  obtain ⟨row, hrow, ha, rfl⟩ := restore_ok h
  exact (Frame.tick s).effects.tail (.rewritten (E.now s.clock) _ hrow (.restore ha))

theorem unsupersede_effects {a : AtomId} {reason : Option String} (h : Store.unsupersede E s a reason = .ok t) :
    ReflTransGen (Effect E Q A K) s t := by
  obtain ⟨row, w, hrow, ha, hw, rfl⟩ := unsupersede_ok h
  exact (Frame.tick s).effects.tail (.rewritten (E.now s.clock) _ hrow (.unsupersede ha (by rw [hw]; simp)))

theorem promoteScope_effects {a : AtomId} {scope : MemoryScope} (h : Store.promoteScope E s a scope = .ok t) :
    ReflTransGen (Effect E Q A K) s t := by
  obtain ⟨row, hrow, -, rfl⟩ := promoteScope_ok h
  exact (Frame.tick s).effects.tail (.rewritten (E.now s.clock) _ hrow (.promoteScope scope))

theorem erase_effects {a : AtomId} {reason : Option String} (h : Store.erase E s a reason = .ok t) :
    ReflTransGen (Effect E Q A K) s t := by
  obtain ⟨row, hrow, rfl⟩ := erase_ok h
  exact (Frame.tick s).effects.tail (.erased reason (E.now s.clock) hrow)

/-! ## Purge batches -/

theorem purgeBatch_effects {ids : List AtomId} {captureSource : String} {days : ℤ} :
    ReflTransGen (Effect E Q A K) s (Store.purgeBatch E s ids captureSource days).1 := by
  -- every round purges one current row, or none
  have hloop := foldl_rest (fun _ (acc : St × ℕ) => ReflTransGen (Effect E Q A K) s acc.1)
    (f := purgeOne E (E.uuid s.drawn) captureSource (E.now s.clock) (E.now s.clock + days * 86400000))
    (fun a _ acc hacc => ?_) (l := ids) (b := (tick (draw s), 0))
    ((Frame.draw s).effects.trans (Frame.tick (draw s)).effects)
  · exact hloop.tail (.frame ⟨rfl, rfl, rfl, rfl, rfl, le_rfl⟩)
  · unfold purgeOne
    split
    · exact hacc
    · rename_i row hrow
      split_ifs with hv
      · exact hacc
      · rw [not_not] at hv
        exact hacc.tail (.rewritten (E.now s.clock) _ hrow (.purge (E.uuid s.drawn) hv))

theorem purgedRows_spec (h : UniqueIds s) (b : BatchId) : (purgedRows s b).Nodup ∧
    ∀ a ∈ purgedRows s b, ∃ m, findRow s a = some m ∧ m.purgeBatchId = some b := by
  refine ⟨List.Nodup.sublist (List.filter_sublist.map _) h, fun a ha => ?_⟩
  obtain ⟨m, hm, rfl⟩ := List.mem_map.1 ha
  obtain ⟨hmem, hp⟩ := List.mem_filter.1 hm
  simp only [decide_eq_true_eq] at hp
  exact ⟨m, findRow_of_mem h hmem, hp.1⟩

theorem restorePurgeBatch_effects (hids : UniqueIds s) {b : BatchId} {r : St × ℕ}
    (h : Store.restorePurgeBatch E s b = .ok r) : ReflTransGen (Effect E Q A K) s r.1 := by
  obtain ⟨batch, -, -, -, rfl⟩ := restorePurgeBatch_ok h
  obtain ⟨hnd, hmark⟩ := purgedRows_spec hids b
  -- the rows of the rounds to come still carry the mark
  have hloop := foldl_rest
    (fun rest u => ReflTransGen (Effect E Q A K) s u ∧ rest.Nodup ∧
      ∀ a ∈ rest, ∃ m, findRow u a = some m ∧ m.purgeBatchId = some b)
    (f := unpurgeOne E b (E.now s.clock)) ?_ (l := purgedRows s b) (b := tick s)
    ⟨(Frame.tick s).effects, hnd, hmark⟩
  · exact hloop.1.tail (.frame ⟨rfl, rfl, rfl, rfl, rfl, le_rfl⟩)
  · rintro a rest u ⟨hu, hnd, hmark⟩
    obtain ⟨m, hm, hmb⟩ := hmark a List.mem_cons_self
    obtain ⟨har, hnd⟩ := List.nodup_cons.1 hnd
    refine ⟨hu.tail (.rewritten (E.now s.clock) _ hm (.unpurge (by rw [hmb]; simp))), hnd, fun c hc => ?_⟩
    obtain ⟨x, hx, hxb⟩ := hmark c (List.mem_cons_of_mem _ hc)
    have hca : c ≠ a := by
      rintro rfl
      exact har hc
    refine ⟨x, ?_, hxb⟩
    rw [unpurgeOne, findRow_append]
    exact (findRow_updateRow_ne u a c (by intro _; rfl) hca).trans hx

theorem finalizePurgeBatch_effects {b : BatchId} {r : St × ℕ} (h : Store.finalizePurgeBatch E s b = .ok r) :
    ReflTransGen (Effect E Q A K) s r.1 := by
  obtain ⟨batch, u, -, -, hu, rfl⟩ := finalizePurgeBatch_ok h
  have hloop := foldlM_ok (fun _ v => ReflTransGen (Effect E Q A K) s v)
    (fun a _ v v' hv hstep => hv.trans (erase_effects hstep)) .refl hu
  exact hloop.tail (.frame ⟨rfl, rfl, rfl, rfl, rfl, le_rfl⟩)

/-! ## Stage 8 and /remember -/

/-- the INSERT of a row with this hash and session goes through, if its id is fresh -/
def storable (s : St) (hash : Hash) (sessionId : Option SessionId) : Bool :=
  findHash s hash = none ∧ sessionId.all (· ∈ s.sessions)

theorem insert_effects {input : InsertInput} {r : St × Inserted}
    (hA : storable s input.hash input.sessionId = true → ∀ u, Frame s u → u.drawn = s.drawn → A u input.hash)
    (h : insertWithCreateEvent E s input = .ok r) :
    ReflTransGen (Effect E Q A K) s r.1 ∧
      (r.2.created = false ∧ r.1 = s ∧ (∃ m, findHash s input.hash = some m ∧ m.id = r.2.id) ∨
        r.2.created = true ∧ ∃ now rowid, findRow r.1 r.2.id = some { newRow input r.2.id now with rowid := rowid }) := by
  rcases insertWithCreateEvent_ok h with ⟨m, hm, rfl⟩ | ⟨hn, hrow, hses, rfl⟩
  · exact ⟨.refl, Or.inl ⟨rfl, rfl, m, hm, rfl⟩⟩
  · have hst : storable s input.hash input.sessionId = true := by
      simp only [storable, decide_eq_true_eq, Option.all_eq_true]
      exact ⟨hn, fun k hk => hses k hk⟩
    have hf : Frame s (tick (tick s)) := ⟨rfl, rfl, rfl, rfl, rfl, le_rfl⟩
    refine ⟨hf.effects.tail (.inserted input _ (E.now s.clock) _ (hA hst _ hf rfl) hn hrow),
      Or.inr ⟨rfl, E.now s.clock, nextRowid s, ?_⟩⟩
    rw [inserted, findRow_append]
    refine (findRow_snoc (s := s) (m := storedRow E s input) rfl hrow _).trans ?_
    exact if_pos rfl

/-- effects that leave the row of `a` as it is -/
def Beside (E : Env) (Q : AtomId → AtomId → Prop) (A : St → Hash → Prop) (K : Memory → Prop) (s : St) (a : AtomId)
    (m : Memory) (t : St) : Prop :=
  ReflTransGen (Effect E Q A K) s t ∧ findRow t a = some m

theorem Beside.frame {a : AtomId} {m : Memory} {u : St} (h : Beside E Q A K s a m t) (hf : Frame t u) :
    Beside E Q A K s a m u :=
  ⟨h.1.tail (.frame hf), (findRow_congr hf.memories a).trans h.2⟩

theorem linkEntity_effects {a : AtomId} {m : Memory} (hK : K m) {acc : St × List (String × EntityId)}
    {entity : ExtractedEntity} (h : Beside E Q A K s a m acc.1) :
    Beside E Q A K s a m (linkEntity E a acc entity).1 := by
  have hup : Frame acc.1 (upsertEntity E acc.1 entity.name entity.kind).1 := by
    unfold upsertEntity
    simp only
    split
    · exact ⟨rfl, rfl, rfl, rfl, rfl, le_rfl⟩
    · exact ⟨rfl, rfl, rfl, rfl, rfl, Nat.le_succ _⟩
  have hu := h.frame hup
  unfold linkEntity linkWithValidity
  simp only
  split_ifs
  · exact hu.frame (Frame.draw _)
  · refine Beside.frame ⟨hu.1.tail (.linked ⟨a, (upsertEntity E acc.1 entity.name entity.kind).2, entity.validAt,
      entity.invalidAt⟩ hu.2 hK), hu.2⟩ ?_
    exact ⟨rfl, rfl, rfl, rfl, rfl, Nat.le_succ _⟩

theorem writeRelation_effects {a : AtomId} {m : Memory} {mem : NormalizedMemory} {at_ : Time}
    {ids : List (String × EntityId)} (hK : ids ≠ [] → K m) {u : St} {relation : ExtractedRelation}
    (h : Beside E Q A K s a m u) : Beside E Q A K s a m (writeRelation E a mem at_ ids u relation) := by
  unfold writeRelation
  split
  · rename_i hsub _
    have hids : ids ≠ [] := by
      rintro rfl
      cases hsub
    have hu := h.frame (⟨rfl, rfl, rfl, rfl, rfl, Nat.le_succ _⟩ : Frame u (tick (draw u)))
    unfold insertRelation
    simp only
    split_ifs
    · exact hu
    · exact ⟨hu.1.tail (.related _ hu.2 (hK hids)), hu.2⟩
  · exact h

theorem upsertVec_effects {a : AtomId} {m : Memory} (h : Beside E Q A K s a m t) :
    ReflTransGen (Effect E Q A K) s (upsertVec E t a) := by
  unfold upsertVec
  rw [h.2]
  refine ((h.1.tail (.vectored h.2)).tail (.frame (Frame.tick _))).tail ?_
  exact .touched (a := a) (·.validFrom) (E.now t.clock)

theorem embedAndIndex_effects (hids : UniqueIds s) {ctx : EmbedIndexContext} {mem : NormalizedMemory}
    (hA : storable s mem.finalHash ctx.sessionId = true → ∀ u, Frame s u → u.drawn = s.drawn → A u mem.finalHash)
    (hnew : ∀ m : Memory, m.supersededBy = none → K m)
    (hK : mem.entities ≠ [] → ∀ m, findHash s mem.finalHash = some m → K m)
    (h : embedAndIndex E s ctx mem = .ok t) : ReflTransGen (Effect E Q A K) s t := by
  unfold embedAndIndex at h
  simp only at h
  have hf : Frame s (if ctx.capturedAtMs = none then tick s else s) ∧
      (if ctx.capturedAtMs = none then tick s else s).drawn = s.drawn ∧
      (if ctx.capturedAtMs = none then tick s else s).sessions = s.sessions := by
    split_ifs
    · exact ⟨Frame.tick s, rfl, rfl⟩
    · exact ⟨⟨rfl, rfl, rfl, rfl, rfl, le_rfl⟩, rfl, rfl⟩
  generalize (if ctx.capturedAtMs = none then tick s else s) = s1 at h hf
  obtain ⟨hf, hfd, hfs⟩ := hf
  split at h
  · cases h
  rename_i s2 inserted hr
  obtain rfl := Except.ok.inj h
  obtain ⟨heff, hrow⟩ := insert_effects (Q := Q) (A := A) (K := K)
    (fun hst u hu hd => hA (by rwa [storable, findHash, hf.memories, hfs] at hst) u ⟨hu.memories.trans hf.memories, hu.memoriesVec.trans hf.memoriesVec,
      hu.records.trans hf.records, hu.memoryEntities.trans hf.memoryEntities,
      hu.entityRelations.trans hf.entityRelations, hf.drawn.trans hu.drawn⟩ (hd.trans hfd)) hr
  -- the row stage 8 works on: a new one, or the owner of the hash
  obtain ⟨m, hm, hKm⟩ : ∃ m, findRow s2 inserted.id = some m ∧ (mem.entities ≠ [] → K m) := by
    rcases hrow with ⟨-, rfl, m, hm, hid⟩ | ⟨-, now, k, hm⟩
    · rw [findHash, hf.memories] at hm
      refine ⟨m, ?_, fun hne => hK hne m hm⟩
      rw [findRow_congr hf.memories, ← hid]
      exact findRow_of_mem hids (List.mem_of_find?_eq_some hm)
    · exact ⟨_, hm, fun _ => hnew _ rfl⟩
  have hstart : Beside E Q A K s inserted.id m s2 := ⟨hf.effects.trans heff, hm⟩
  have hents := foldl_rest (fun rest (acc : St × List (String × EntityId)) =>
    Beside E Q A K s inserted.id m acc.1 ∧ (∀ e ∈ rest, e ∈ mem.entities) ∧ (acc.2 ≠ [] → K m))
    (f := linkEntity E inserted.id) ?_ (l := mem.entities) (b := (s2, [])) ⟨hstart, fun _ he => he, fun hc => absurd rfl hc⟩
  · generalize mem.entities.foldl (linkEntity E inserted.id) (s2, []) = linked at hents ⊢
    have hrels : Beside E Q A K s inserted.id m (if ctx.capturedAtMs = none then tick linked.1 else linked.1) := by
      split_ifs
      · exact hents.1.frame (Frame.tick _)
      · exact hents.1
    exact upsertVec_effects (foldl_rest (fun _ u => Beside E Q A K s inserted.id m u)
      (fun _ _ _ hu => writeRelation_effects hents.2.2 hu) hrels)
  · rintro e rest acc ⟨hacc, hmem, -⟩
    have hKe : K m := hKm (List.ne_nil_of_mem (hmem e List.mem_cons_self))
    exact ⟨linkEntity_effects hKe hacc, fun x hx => hmem x (List.mem_cons_of_mem _ hx), fun _ => hKe⟩

/-! ## Ship rounds -/

theorem records_map {f : MemoryEvent → MemoryEvent} (hf : ∀ e, (f e).toEventRecord = e.toEventRecord)
    (ht : t.memoryEvents = s.memoryEvents.map f) : records t = records s := by
  rw [records, records, ht, List.map_map]
  exact List.map_congr_left fun e _ => hf e

theorem shipOnce_frame (batchSize : ℕ) (answer : Option ShipAck) : Frame s (shipOnce E s batchSize answer).2 := by
  have hrefl : Frame s s := ⟨rfl, rfl, rfl, rfl, rfl, le_rfl⟩
  unfold shipOnce
  simp only
  split_ifs
  · exact hrefl
  · cases answer with
    | none => exact hrefl
    | some ack =>
      unfold markShipped
      simp only
      have hmark : ∀ (u : St) (seqs : List ℕ) (P : MemoryEvent → Prop) [DecidablePred P]
          (f : MemoryEvent → MemoryEvent), (∀ e, (f e).toEventRecord = e.toEventRecord) → Frame s u →
          Frame s (if seqs = [] then u else
            { tick u with memoryEvents := u.memoryEvents.map fun e => if P e then f e else e }) := by
        intro u seqs P _ f hf hu
        split_ifs
        · exact hu
        · refine ⟨hu.memories, hu.memoriesVec, (records_map (fun e => ?_) rfl).trans hu.records, hu.memoryEntities,
            hu.entityRelations, hu.drawn⟩
          split_ifs
          · exact hf e
          · rfl
      exact hmark _ _ _ _ (fun _ => rfl) (hmark s _ _ _ (fun _ => rfl) hrefl)

/-! ## All of them -/

theorem mapError_ok {ε ε' α : Type} {f : ε → ε'} {x : Except ε α} {a : α} (h : x.mapError f = .ok a) : x = .ok a := by
  cases x with
  | error e => cases h
  | ok b => exact congrArg _ (Except.ok.inj h)

theorem map_ok {ε α β : Type} {f : α → β} {x : Except ε α} {b : β} (h : x.map f = .ok b) : ∃ a, x = .ok a ∧ f a = b := by
  cases x with
  | error e => cases h
  | ok a => exact ⟨a, rfl, Except.ok.inj h⟩

/-- the hash of the row an operation inserts -/
def Op.inserts (s : St) : Op → Option Hash
  | .remember input => if storable s input.hash input.sessionId then some input.hash else none
  | .index ctx mem => if mem ∈ s.inFlight ∧ storable s mem.finalHash ctx.sessionId then some mem.finalHash else none
  | _ => none

def Op.isPull : Op → Bool
  | .pull _ => true
  | _ => false

/-- what the effects of an operation need to know of it -/
structure Permits (Q : AtomId → AtomId → Prop) (A : St → Hash → Prop) (K : Memory → Prop) (s : St) (op : Op) : Prop where
  supersede : ∀ a w p src, op = .supersede a w p src → Q a w
  insert : ∀ h, op.inserts s = some h → ∀ u, Frame s u → u.drawn = s.drawn → A u h
  fresh : ∀ m : Memory, m.supersededBy = none → K m
  link : ∀ ctx mem, op = .index ctx mem → mem ∈ s.inFlight → mem.entities ≠ [] → ∀ m, findHash s mem.finalHash = some m → K m

theorem Permits.all (s : St) (op : Op) : Permits (fun _ _ => True) (fun _ _ => True) (fun _ => True) s op :=
  ⟨fun _ _ _ _ _ => trivial, fun _ _ _ _ _ => trivial, fun _ _ => trivial, fun _ _ _ _ _ _ _ => trivial⟩

/-- **Every operation but a pull is a sequence of effects.** -/
theorem step_effects (hids : UniqueIds s) {op : Op} (hpull : op.isPull = false) (hP : Permits Q A K s op) :
    ReflTransGen (Effect E Q A K) s (step E s op) := by
  unfold step
  cases hx : exec E s op with
  | error e => exact .refl
  | ok t =>
    simp only
    cases op with
    | remember input =>
      obtain ⟨r, hr, rfl⟩ := map_ok hx
      exact (insert_effects (fun hst => hP.insert input.hash (if_pos hst)) (mapError_ok hr)).1
    | screen mem =>
      obtain rfl := Except.ok.inj hx
      unfold screen
      split_ifs
      · exact .refl
      · exact Frame.effects ⟨rfl, rfl, rfl, rfl, rfl, le_rfl⟩
    | discard mem =>
      obtain rfl := Except.ok.inj hx
      exact Frame.effects ⟨rfl, rfl, rfl, rfl, rfl, le_rfl⟩
    | index ctx mem =>
      simp only [exec] at hx
      have hd : Frame s (discard s mem) := ⟨rfl, rfl, rfl, rfl, rfl, le_rfl⟩
      split_ifs at hx with hin
      · split at hx
        · obtain rfl := Except.ok.inj hx
          exact hd.effects
        · rename_i u hu
          obtain rfl := Except.ok.inj hx
          refine hd.effects.trans (embedAndIndex_effects (s := discard s mem) hids (fun hst v hv hd => ?_) hP.fresh
            (fun hne => hP.link ctx mem rfl hin hne) hu)
          exact hP.insert _ (if_pos ⟨hin, hst⟩) v ⟨hv.memories, hv.memoriesVec, hv.records, hv.memoryEntities, hv.entityRelations,
            hv.drawn⟩ hd
      · obtain rfl := Except.ok.inj hx
        exact .refl
    | invalidate a reason => exact invalidate_effects (mapError_ok hx)
    | supersede a w p src => exact supersede_effects (hP.supersede a w p src rfl) (mapError_ok hx)
    | archive a reason => exact archive_effects (mapError_ok hx)
    | restore a => exact restore_effects (mapError_ok hx)
    | unsupersede a reason => exact unsupersede_effects (mapError_ok hx)
    | purgeBatch ids captureSource days =>
      obtain rfl := Except.ok.inj hx
      exact purgeBatch_effects
    | restorePurgeBatch b =>
      obtain ⟨r, hr, rfl⟩ := map_ok hx
      exact restorePurgeBatch_effects hids (mapError_ok hr)
    | finalizePurgeBatch b =>
      obtain ⟨r, hr, rfl⟩ := map_ok hx
      exact finalizePurgeBatch_effects (mapError_ok hr)
    | erase a reason => exact erase_effects (mapError_ok hx)
    | promoteScope a scope => exact promoteScope_effects (mapError_ok hx)
    | ship batchSize answer =>
      obtain rfl := Except.ok.inj hx
      exact (shipOnce_frame batchSize answer).effects
    | pull batch => cases hpull

/-- **Step rule.** An invariant that the effects keep, and the committed pulls. -/
theorem step_inv {I : St → Prop} (hids : UniqueIds s) {op : Op} (hP : Permits Q A K s op)
    (heff : ∀ u v, I u → Effect E Q A K u v → I v)
    (hpull : ∀ batch t, op = .pull batch → pullOnce E s batch = .ok t → I t) (h : I s) : I (step E s op) := by
  cases hop : op.isPull with
  | false => exact effects_inv heff (step_effects hids hop hP) h
  | true =>
    cases op with
    | pull batch =>
      unfold step
      cases hx : exec E s (.pull batch) with
      | error e => exact h
      | ok t => exact hpull batch t rfl (mapError_ok hx)
    | _ => cases hop

/-! ## Runs -/

theorem Unique.step {k : Key} (hids : UniqueIds s) (h : Unique k s) (op : Op) : Unique k (step E s op) := by
  refine step_inv hids (Permits.all s op) (fun _ _ hu he => he.unique hu) (fun batch t _ ht => ?_) h
  rcases pull_rule ht with ⟨-, rfl⟩ | ⟨m, touched, u, hm, rfl, -, hI⟩
  · exact h
  · exact hI _ unique_effects (hm.unique k h)

theorem unique_run (h : ∀ k, Unique k s) (ops : List Op) : ∀ k, Unique k (run E s ops) :=
  along_inv (fun u => ∀ k, Unique k u) (fun _ op hu _ k => Unique.step (hu .id) (hu k) op) h (along_trivial _ _ _)

/-- the log of a run only grows -/
theorem run_records (hids : UniqueIds s) (ops : List Op) : ∀ e ∈ records s, e ∈ records (run E s ops) := by
  have hend : UniqueIds (run E s ops) ∧ ∀ e ∈ records s, e ∈ records (run E s ops) := by
    refine along_inv (fun u => UniqueIds u ∧ ∀ e ∈ records s, e ∈ records u) (fun u op hu _ => ?_)
      ⟨hids, fun _ he => he⟩ (along_trivial _ _ _)
    refine ⟨Unique.step hu.1 hu.1 op, ?_⟩
    exact step_inv (I := fun v => ∀ e ∈ records s, e ∈ records v) hu.1 (Permits.all u op)
      (fun v w hv he e hmem => he.records_sub e (hv e hmem)) (fun _ _ _ ht e hmem => pull_records ht e (hu.2 e hmem)) hu.2
  exact hend.2

end AstramemLocal.Daemon
