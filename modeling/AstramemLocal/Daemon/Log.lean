/-
The rows of the log. `stamped n es` is what AUTOINCREMENT makes of the new events `es`: consecutive seqs after `n`,
neither synced nor rejected. Every operation but a ship round leaves the rows it finds and adds stamped ones
(`step_grows`), so the shipping columns change in ship rounds only. `SeqOrdered` is the order the shipper relies on: seqs
go up along the log and none is above the high-water mark.
-/
import AstramemLocal.Daemon.Effects

namespace AstramemLocal.Daemon

open AstramemLocal.Store AstramemLocal.Sync AstramemLocal.Distill AstramemLocal.Core

/-! ## New rows -/

def stamped : ℕ → List EventRecord → List MemoryEvent
  | _, [] => []
  | n, e :: es => { e with seq := n + 1 } :: stamped (n + 1) es

theorem stamped_append (n : ℕ) (es fs : List EventRecord) :
    stamped n (es ++ fs) = stamped n es ++ stamped (n + es.length) fs := by
  induction es generalizing n with
  | nil => simp [stamped]
  | cons e es ih => simp [stamped, ih, Nat.add_assoc, Nat.add_comm 1]

theorem stamped_seqs (n : ℕ) (es : List EventRecord) : (stamped n es).map (·.seq) = List.range' (n + 1) es.length := by
  induction es generalizing n with
  | nil => rfl
  | cons e es ih => simp [stamped, ih, List.range'_succ]

theorem stamped_unmarked {n : ℕ} {es : List EventRecord} {e : MemoryEvent} (h : e ∈ stamped n es) :
    e.syncedAt = none ∧ e.rejectedAt = none := by
  induction es generalizing n with
  | nil => cases h
  | cons f es ih =>
    rcases List.mem_cons.1 h with rfl | h
    · exact ⟨rfl, rfl⟩
    · exact ih h

theorem stamped_seq {n : ℕ} {es : List EventRecord} {e : MemoryEvent} (h : e ∈ stamped n es) :
    n < e.seq ∧ e.seq ≤ n + es.length := by
  have hmem : e.seq ∈ (stamped n es).map (·.seq) := List.mem_map_of_mem h
  rw [stamped_seqs, List.mem_range'_1] at hmem
  omega

/-- `t` has the log of `s` and new rows after it -/
def Grows (s t : St) : Prop :=
  ∃ es, t.memoryEvents = s.memoryEvents ++ stamped s.seqHigh es ∧ t.seqHigh = s.seqHigh + es.length

section
variable {E : Env} {s t u : St}

theorem Grows.refl (s : St) : Grows s s := ⟨[], by simp [stamped], rfl⟩

theorem Grows.trans (h : Grows s t) (h' : Grows t u) : Grows s u := by
  obtain ⟨es, hlog, hhigh⟩ := h
  obtain ⟨fs, hlog', hhigh'⟩ := h'
  refine ⟨es ++ fs, ?_, ?_⟩
  · rw [hlog', hlog, hhigh, stamped_append, List.append_assoc]
  · rw [hhigh', hhigh, List.length_append, Nat.add_assoc]

/-- the statements on the other tables -/
theorem Grows.same (h : Grows s t) (hlog : u.memoryEvents = t.memoryEvents) (hhigh : u.seqHigh = t.seqHigh) :
    Grows s u := by
  obtain ⟨es, hl, hh⟩ := h
  exact ⟨es, hlog.trans hl, hhigh.trans hh⟩

theorem Grows.append (h : Grows s t) (ty : MemoryEventType) (a : AtomId) (p : Option Payload) (c : Option Hash)
    (at_ : Time) : Grows s (append E t ty a p c at_) :=
  h.trans ⟨[⟨E.uuid t.drawn, ty, a, p, c, at_⟩], rfl, rfl⟩

theorem Grows.logEvent (h : Grows s t) (e : EventRecord) : Grows s (logEvent t e) := h.trans ⟨[e], rfl, rfl⟩

/-! ## The lifecycle operations -/

theorem invalidate_grows {a : AtomId} {reason : Option String} (h : Store.invalidate E s a reason = .ok t) :
    Grows s t := by
  obtain ⟨row, -, -, rfl⟩ := invalidate_ok h
  exact (((Grows.refl s).same rfl rfl).append _ _ _ _ _).append _ _ _ _ _

theorem supersede_grows {a w : AtomId} {p : Option SupersedeProvenance} {src : CorrectionSource}
    (h : Store.supersede E s a w p src = .ok t) : Grows s t := by
  obtain ⟨row, wrow, -, -, -, -, rfl⟩ := supersede_ok h
  exact (((Grows.refl s).same rfl rfl).append _ _ _ _ _).append _ _ _ _ _

theorem archive_grows {a : AtomId} {reason : Option String} (h : Store.archive E s a reason = .ok t) : Grows s t := by
  obtain ⟨row, -, -, rfl⟩ := archive_ok h
  exact ((Grows.refl s).same rfl rfl).append _ _ _ _ _

theorem restore_grows {a : AtomId} (h : Store.restore E s a = .ok t) : Grows s t := by
  obtain ⟨row, -, -, rfl⟩ := restore_ok h
  exact ((Grows.refl s).same rfl rfl).append _ _ _ _ _

theorem unsupersede_grows {a : AtomId} {reason : Option String} (h : Store.unsupersede E s a reason = .ok t) :
    Grows s t := by
  obtain ⟨row, w, -, -, -, rfl⟩ := unsupersede_ok h
  exact ((Grows.refl s).same rfl rfl).append _ _ _ _ _

theorem promoteScope_grows {a : AtomId} {scope : MemoryScope} (h : Store.promoteScope E s a scope = .ok t) :
    Grows s t := by
  obtain ⟨row, -, -, rfl⟩ := promoteScope_ok h
  exact ((Grows.refl s).same rfl rfl).append _ _ _ _ _

theorem erase_grows {a : AtomId} {reason : Option String} (h : Store.erase E s a reason = .ok t) : Grows s t := by
  obtain ⟨row, -, rfl⟩ := erase_ok h
  exact (((Grows.refl s).same rfl rfl).append _ _ _ _ _).same rfl rfl

theorem purgeBatch_grows {ids : List AtomId} {captureSource : String} {days : ℤ} :
    Grows s (Store.purgeBatch E s ids captureSource days).1 := by
  have hloop := foldl_rest (fun _ (acc : St × ℕ) => Grows s acc.1)
    (f := purgeOne E (E.uuid s.drawn) captureSource (E.now s.clock) (E.now s.clock + days * 86400000))
    (fun a _ acc hacc => ?_) (l := ids) (b := (tick (draw s), 0)) ((Grows.refl s).same rfl rfl)
  · exact hloop.same rfl rfl
  · unfold purgeOne
    split
    · exact hacc
    · split_ifs
      · exact hacc
      · exact (hacc.same rfl rfl).append _ _ _ _ _

theorem restorePurgeBatch_grows {b : BatchId} {r : St × ℕ} (h : Store.restorePurgeBatch E s b = .ok r) :
    Grows s r.1 := by
  obtain ⟨batch, -, -, -, rfl⟩ := restorePurgeBatch_ok h
  have hloop := foldl_rest (fun _ u => Grows s u) (f := unpurgeOne E b (E.now s.clock))
    (fun _ _ _ hu => (hu.same rfl rfl).append _ _ _ _ _) (l := purgedRows s b) (b := tick s)
    ((Grows.refl s).same rfl rfl)
  exact hloop.same rfl rfl

theorem finalizePurgeBatch_grows {b : BatchId} {r : St × ℕ} (h : Store.finalizePurgeBatch E s b = .ok r) :
    Grows s r.1 := by
  obtain ⟨batch, u, -, -, hu, rfl⟩ := finalizePurgeBatch_ok h
  have hloop := foldlM_ok (fun _ v => Grows s v) (fun a _ v v' hv hstep => hv.trans (erase_grows hstep))
    (Grows.refl s) hu
  exact hloop.same rfl rfl

/-! ## /remember and stage 8 -/

theorem insert_grows {input : InsertInput} {r : St × Inserted} (h : insertWithCreateEvent E s input = .ok r) :
    Grows s r.1 := by
  rcases insertWithCreateEvent_ok h with ⟨m, -, rfl⟩ | ⟨-, -, -, rfl⟩
  · exact Grows.refl s
  · refine Grows.append (Grows.same (Grows.refl s) ?_ ?_) _ _ _ _ _
    · rfl
    · rfl

theorem upsertVec_log (s : St) (a : AtomId) :
    (upsertVec E s a).memoryEvents = s.memoryEvents ∧ (upsertVec E s a).seqHigh = s.seqHigh := by
  unfold upsertVec
  split <;> exact ⟨rfl, rfl⟩

theorem embedAndIndex_grows {ctx : EmbedIndexContext} {mem : NormalizedMemory}
    (h : embedAndIndex E s ctx mem = .ok t) : Grows s t := by
  apply embedAndIndex_rule (P := Grows s) h (Grows.refl s)
  · intro v hv
    exact hv.same rfl rfl
  · intro v input r hv hr
    exact hv.trans (insert_grows hr)
  · intro a acc entity hacc
    have hwrite := linkEntity_graphWrite E a acc entity
    exact hacc.same hwrite.memoryEvents hwrite.seqHigh
  · intro a at_ named v relation hv
    have hwrite := writeRelation_graphWrite E a mem at_ named v relation
    exact hv.same hwrite.memoryEvents hwrite.seqHigh
  · intro v a hv
    exact hv.same (upsertVec_log v a).1 (upsertVec_log v a).2

/-! ## Pulls -/

theorem mergeEvents_grows {es : List RemotePullEvent} {touched : List AtomId}
    (h : mergeEvents E s es = .ok (t, touched)) : Grows s t := by
  refine foldlM_ok (fun _ (acc : St × List AtomId) => Grows s acc.1) ?_ (b := (s, [])) (Grows.refl s) h
  intro e rest acc r hacc hstep
  by_cases hid : e.eventId ∈ Sync.eventIds acc.1
  · rw [mergeEvent_known hid] at hstep
    obtain rfl := Except.ok.inj hstep
    exact hacc
  by_cases hc : ∃ sn, Carries e sn
  · obtain ⟨sn, hc⟩ := hc
    rw [mergeEvent_create hid hc] at hstep
    cases hm : materializeAtomIfMissing E (Sync.logEvent acc.1 e.toEventRecord) e.atomId sn e.createdAt with
    | error x => rw [hm] at hstep; cases hstep
    | ok u =>
      rw [hm] at hstep
      obtain rfl := Except.ok.inj hstep
      rcases materialize_ok hm with ⟨-, rfl⟩ | ⟨-, -, -, k, now, rfl⟩
      · exact hacc.logEvent _
      · exact (hacc.logEvent _).same rfl rfl
  · rw [mergeEvent_other hid fun sn hsn => hc ⟨sn, hsn⟩] at hstep
    obtain rfl := Except.ok.inj hstep
    exact hacc.logEvent _

theorem grows_effects {R : AtomId → St → Prop} {C : AtomId → AtomId → Time → Prop} {J : St → Prop} :
    Effects E R C J fun _ t => Grows s t where
  weaken _ h := h
  erased _ _ h _ := by
    unfold hardDeleteAtom
    split
    · exact h
    · exact h.same rfl rfl
  absent _ _ h _ _ := h
  quiet _ _ h _ _ _ := h
  unresolved _ _ h _ _ _ := h.same rfl rfl
  invalidated _ _ h _ _ _ := h.same rfl rfl
  superseded _ _ h _ _ _ := h.same rfl rfl
  chain _ h _ _ := h.append _ _ _ _ _

theorem pullOnce_grows {batch : PullBatch} (h : pullOnce E s batch = .ok t) : Grows s t := by
  rcases pullOnce_cases h with ⟨-, rfl⟩ | ⟨m, touched, u, hm, hr, rfl⟩
  · exact Grows.refl _
  · -- the second loop adds synthetic events only
    have hu := ((Traversal.free E).sound_all grows_effects (P := ∅) (fun _ _ _ _ => trivial) trivial
      (mergeEvents_grows hm) hr).2
    exact hu.same rfl rfl

/-! ## All of them -/

def Op.isShip : Op → Bool
  | .ship _ _ => true
  | _ => false

/-- **Every operation but a ship round leaves the rows of the log as they are and adds new ones.** -/
theorem step_grows {op : Op} (hship : op.isShip = false) : Grows s (step E s op) := by
  unfold step
  cases hx : exec E s op with
  | error e => exact Grows.refl s
  | ok t =>
    simp only
    cases op with
    | remember input =>
      obtain ⟨r, hr, rfl⟩ := map_ok hx
      exact insert_grows (mapError_ok hr)
    | screen mem =>
      obtain rfl := Except.ok.inj hx
      unfold screen
      split_ifs
      · exact Grows.refl s
      · exact (Grows.refl s).same rfl rfl
    | discard mem =>
      obtain rfl := Except.ok.inj hx
      exact (Grows.refl s).same rfl rfl
    | index ctx mem =>
      simp only [exec] at hx
      have hd : Grows s (discard s mem) := (Grows.refl s).same rfl rfl
      split_ifs at hx
      · split at hx
        · obtain rfl := Except.ok.inj hx
          exact hd
        · rename_i u hu
          obtain rfl := Except.ok.inj hx
          exact hd.trans (embedAndIndex_grows hu)
      · obtain rfl := Except.ok.inj hx
        exact Grows.refl s
    | invalidate a reason => exact invalidate_grows (mapError_ok hx)
    | supersede a w p src => exact supersede_grows (mapError_ok hx)
    | archive a reason => exact archive_grows (mapError_ok hx)
    | restore a => exact restore_grows (mapError_ok hx)
    | unsupersede a reason => exact unsupersede_grows (mapError_ok hx)
    | purgeBatch ids captureSource days =>
      obtain rfl := Except.ok.inj hx
      exact purgeBatch_grows
    | restorePurgeBatch b =>
      obtain ⟨r, hr, rfl⟩ := map_ok hx
      exact restorePurgeBatch_grows (mapError_ok hr)
    | finalizePurgeBatch b =>
      obtain ⟨r, hr, rfl⟩ := map_ok hx
      exact finalizePurgeBatch_grows (mapError_ok hr)
    | erase a reason => exact erase_grows (mapError_ok hx)
    | promoteScope a scope => exact promoteScope_grows (mapError_ok hx)
    | ship batchSize answer => cases hship
    | pull batch => exact pullOnce_grows (mapError_ok hx)

/-! ## The order of the log -/

/-- `ORDER BY seq` is the order of the log, and a new row comes last -/
structure SeqOrdered (s : St) : Prop where
  sorted : s.memoryEvents.Pairwise fun e f => e.seq < f.seq
  high : ∀ e ∈ s.memoryEvents, e.seq ≤ s.seqHigh

theorem stamped_sorted (n : ℕ) (es : List EventRecord) : (stamped n es).Pairwise fun e f => e.seq < f.seq := by
  have h : ((stamped n es).map (·.seq)).Pairwise (· < ·) := by
    rw [stamped_seqs]
    exact List.pairwise_lt_range'
  exact List.pairwise_map.1 h

theorem SeqOrdered.grows (h : SeqOrdered s) (hg : Grows s t) : SeqOrdered t := by
  obtain ⟨es, hlog, hhigh⟩ := hg
  constructor
  · rw [hlog, List.pairwise_append]
    refine ⟨h.sorted, stamped_sorted _ _, fun e he f hf => ?_⟩
    have hle := h.high e he
    have hlt := (stamped_seq hf).1
    omega
  · intro e he
    rw [hlog, List.mem_append] at he
    rcases he with he | he
    · have hle := h.high e he
      omega
    · rw [hhigh]
      exact (stamped_seq he).2

/-- rows with one seq are one row -/
theorem SeqOrdered.inj (h : SeqOrdered s) {e f : MemoryEvent} (he : e ∈ s.memoryEvents) (hf : f ∈ s.memoryEvents)
    (hseq : e.seq = f.seq) : e = f := by
  have hnd : (s.memoryEvents.map (·.seq)).Nodup := by
    refine List.Pairwise.imp (fun hab => ?_) (List.pairwise_map.2 h.sorted)
    omega
  exact List.inj_on_of_nodup_map hnd he hf hseq

end

end AstramemLocal.Daemon
