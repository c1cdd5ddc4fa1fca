/-
What removes a memory. `Op.removes` says it of the state before: an erase removes its memory, a finalized purge batch
the memories it purged, a pull those for which the log with its batch has an erase_request. `step_keeps`: no other step
removes one.
-/
import AstramemLocal.Daemon.Effects

namespace AstramemLocal.Daemon

open AstramemLocal.Store AstramemLocal.Sync AstramemLocal.Distill AstramemLocal.Core

/-- the ids of the rows -/
def ids (s : St) : List AtomId := s.memories.map (·.id)

def Op.removes (s : St) : Op → AtomId → Prop
  | .erase a _, n => n = a
  | .finalizePurgeBatch b, n => n ∈ purgedRows s b
  | .pull batch, n => Erased (pulledLog s batch) n
  | _, _ => False

section
variable {E : Env} {s t u : St} {a n : AtomId}

theorem mem_ids : n ∈ ids s ↔ findRow s n ≠ none := by
  constructor
  · intro h
    obtain ⟨m, hm, rfl⟩ := List.mem_map.1 h
    exact Option.isSome_iff_ne_none.1 (findRow_isSome_of_mem hm)
  · intro h
    obtain ⟨m, hm⟩ := Option.ne_none_iff_exists'.1 h
    exact List.mem_map.2 ⟨m, findRow_mem hm, findRow_id hm⟩

/-- every row of `s` is there in `t` -/
def KeepsIds (s t : St) : Prop := ids s ⊆ ids t

theorem KeepsIds.refl (s : St) : KeepsIds s s := List.Subset.refl _

theorem KeepsIds.trans (h : KeepsIds s t) (h' : KeepsIds t u) : KeepsIds s u := List.Subset.trans h h'

/-- the statements on the other tables -/
theorem KeepsIds.same (h : KeepsIds s t) (hrows : u.memories = t.memories) : KeepsIds s u := by
  unfold KeepsIds ids at h ⊢
  rw [hrows]
  exact h

/-- an UPDATE that keeps ids -/
theorem KeepsIds.update (h : KeepsIds s t) {a : AtomId} {f : Memory → Memory}
    (hrows : u.memories = (updateRow t a f).memories) (hf : ∀ m, (f m).id = m.id) : KeepsIds s u := by
  refine KeepsIds.same ?_ hrows
  intro n hn
  have hrow : findRow t n ≠ none := mem_ids.1 (h hn)
  rw [mem_ids, findRow_updateRow t a n hf]
  simpa using hrow

/-! ## The lifecycle operations -/

theorem invalidate_keeps {reason : Option String} (h : Store.invalidate E s a reason = .ok t) : KeepsIds s t := by
  obtain ⟨row, -, -, rfl⟩ := invalidate_ok h
  exact (KeepsIds.refl s).update rfl fun _ => rfl

theorem supersede_keeps {w : AtomId} {p : Option SupersedeProvenance} {src : CorrectionSource}
    (h : Store.supersede E s a w p src = .ok t) : KeepsIds s t := by
  obtain ⟨row, wrow, -, -, -, -, rfl⟩ := supersede_ok h
  have hloser : KeepsIds s (updateRow (tick s) a fun m =>
      { m with validTo := some (E.now s.clock), supersededBy := some w, updatedAt := E.now s.clock }) :=
    (KeepsIds.refl s).update rfl fun _ => rfl
  exact hloser.update rfl fun _ => rfl

theorem archive_keeps {reason : Option String} (h : Store.archive E s a reason = .ok t) : KeepsIds s t := by
  obtain ⟨row, -, -, rfl⟩ := archive_ok h
  exact (KeepsIds.refl s).update rfl fun _ => rfl

theorem restore_keeps (h : Store.restore E s a = .ok t) : KeepsIds s t := by
  obtain ⟨row, -, -, rfl⟩ := restore_ok h
  exact (KeepsIds.refl s).update rfl fun _ => rfl

theorem unsupersede_keeps {reason : Option String} (h : Store.unsupersede E s a reason = .ok t) : KeepsIds s t := by
  obtain ⟨row, w, -, -, -, rfl⟩ := unsupersede_ok h
  exact (KeepsIds.refl s).update rfl fun _ => rfl

theorem promoteScope_keeps {scope : MemoryScope} (h : Store.promoteScope E s a scope = .ok t) : KeepsIds s t := by
  obtain ⟨row, -, -, rfl⟩ := promoteScope_ok h
  exact (KeepsIds.refl s).update rfl fun _ => rfl

theorem purgeBatch_keeps {ids : List AtomId} {captureSource : String} {days : ℤ} :
    KeepsIds s (Store.purgeBatch E s ids captureSource days).1 := by
  have hloop := foldl_rest (fun _ (acc : St × ℕ) => KeepsIds s acc.1)
    (f := purgeOne E (E.uuid s.drawn) captureSource (E.now s.clock) (E.now s.clock + days * 86400000))
    (fun a _ acc hacc => ?_) (l := ids) (b := (tick (draw s), 0)) ((KeepsIds.refl s).same rfl)
  · exact hloop.same rfl
  · unfold purgeOne
    split
    · exact hacc
    · split_ifs
      · exact hacc
      · exact hacc.update rfl fun _ => rfl

theorem restorePurgeBatch_keeps {b : BatchId} {r : St × ℕ} (h : Store.restorePurgeBatch E s b = .ok r) :
    KeepsIds s r.1 := by
  obtain ⟨batch, -, -, -, rfl⟩ := restorePurgeBatch_ok h
  have hloop := foldl_rest (fun _ u => KeepsIds s u) (f := unpurgeOne E b (E.now s.clock))
    (fun a _ _ hu => hu.update rfl fun _ => rfl) (l := purgedRows s b) (b := tick s)
    ((KeepsIds.refl s).same rfl)
  exact hloop.same rfl

/-- an erase removes the memory it names only -/
theorem erase_keeps {reason : Option String} (h : Store.erase E s a reason = .ok t) (hn : n ∈ ids s) (hne : n ≠ a) :
    n ∈ ids t := by
  obtain ⟨row, -, rfl⟩ := erase_ok h
  rw [mem_ids, findRow_deleteRow, if_neg hne]
  exact mem_ids.1 hn

theorem finalizePurgeBatch_keeps {b : BatchId} {r : St × ℕ} (h : Store.finalizePurgeBatch E s b = .ok r)
    (hn : n ∈ ids s) (hspared : n ∉ purgedRows s b) : n ∈ ids r.1 := by
  obtain ⟨batch, u, -, -, hu, rfl⟩ := finalizePurgeBatch_ok h
  -- the memory is none of those the rounds to come erase
  have hloop := foldlM_ok (fun rest v => n ∉ rest ∧ n ∈ ids v) (fun a rest v v' hv hstep => ?_) ⟨hspared, hn⟩ hu
  · exact hloop.2
  · obtain ⟨hna, hrest⟩ := not_or.1 (List.mem_cons.not.1 hv.1)
    exact ⟨hrest, erase_keeps hstep hv.2 hna⟩

/-! ## /remember and stage 8 -/

theorem insert_keeps {input : InsertInput} {r : St × Inserted} (h : insertWithCreateEvent E s input = .ok r) :
    KeepsIds s r.1 := by
  rcases insertWithCreateEvent_ok h with ⟨m, -, rfl⟩ | ⟨-, -, -, rfl⟩
  · exact KeepsIds.refl s
  · intro n hn
    show n ∈ (s.memories ++ _).map (·.id)
    rw [List.map_append]
    exact List.mem_append_left _ hn

theorem upsertVec_keeps (h : KeepsIds s t) (a : AtomId) : KeepsIds s (upsertVec E t a) := by
  unfold upsertVec
  split
  · exact h
  · exact h.update rfl fun _ => rfl

theorem embedAndIndex_keeps {ctx : EmbedIndexContext} {mem : NormalizedMemory}
    (h : embedAndIndex E s ctx mem = .ok t) : KeepsIds s t := by
  apply embedAndIndex_rule (P := KeepsIds s) h (KeepsIds.refl s)
  · intro v hv
    exact hv.same rfl
  · intro v input r hv hr
    exact hv.trans (insert_keeps hr)
  · intro a acc entity hacc
    exact hacc.same (linkEntity_graphWrite E a acc entity).memories
  · intro a at_ named v relation hv
    exact hv.same (writeRelation_graphWrite E a mem at_ named v relation).memories
  · intro v a hv
    exact upsertVec_keeps hv a

/-! ## Pulls -/

/-- a recompute deletes a memory for its erase_request only, and logs none -/
theorem keeps_effects {R : AtomId → St → Prop} {C : AtomId → AtomId → Time → Prop} {J : St → Prop} (n : AtomId) :
    Effects E R C J fun _ u => ¬ Erased (records u) n ∧ n ∈ ids u where
  weaken _ h := h
  erased {P u a} _ _ h he := by
    have hna : n ≠ a := by
      rintro rfl
      exact h.1 he
    refine ⟨by rw [hardDeleteAtom_records]; exact h.1, ?_⟩
    rw [mem_ids, findRow_hardDeleteAtom, if_neg hna]
    exact mem_ids.1 h.2
  absent _ _ h _ _ := h
  quiet _ _ h _ _ _ := h
  unresolved _ _ h _ _ _ := h
  invalidated {P u a v} _ _ h _ _ _ := by
    refine ⟨h.1, ?_⟩
    have hrow : findRow u n ≠ none := mem_ids.1 h.2
    rw [mem_ids, findRow_hideInvalidated]
    simpa using hrow
  superseded {P u a w v} _ _ h _ _ _ := by
    refine ⟨h.1, ?_⟩
    have hrow : findRow u n ≠ none := mem_ids.1 h.2
    rw [mem_ids, findRow_hideSuperseded]
    simpa using hrow
  chain {P u y w at_} _ h _ _ := by
    refine ⟨?_, h.2⟩
    rintro ⟨e, he, hea, hty⟩
    rw [chainEvent_records] at he
    rcases List.mem_append.1 he with he | he
    · exact h.1 ⟨e, he, hea, hty⟩
    · rw [List.mem_singleton.1 he] at hty
      cases hty

theorem pull_keeps {batch : PullBatch} (h : pullOnce E s batch = .ok t) (hn : n ∈ ids s)
    (hspared : ¬ Erased (pulledLog s batch) n) : n ∈ ids t := by
  rcases pull_rule h with ⟨-, rfl⟩ | ⟨m, touched, u, hm, rfl, -, hI⟩
  · exact hn
  · have hmerged : ¬ Erased (records m) n ∧ n ∈ ids m := by
      refine ⟨by rw [hm.log]; exact hspared, ?_⟩
      obtain ⟨made, hrows, -⟩ := hm.rows
      rw [ids, hrows, List.map_append]
      exact List.mem_append_left _ hn
    exact (hI _ (keeps_effects n) hmerged).2

/-! ## All of them -/

/-- **No step removes a memory but those it names.** -/
theorem step_keeps {op : Op} (hn : n ∈ ids s) (hspared : ¬ op.removes s n) : n ∈ ids (step E s op) := by
  unfold step
  cases hx : exec E s op with
  | error e => exact hn
  | ok t =>
    simp only
    cases op with
    | remember input =>
      obtain ⟨r, hr, rfl⟩ := map_ok hx
      exact insert_keeps (mapError_ok hr) hn
    | screen mem =>
      obtain rfl := Except.ok.inj hx
      unfold screen
      split_ifs <;> exact hn
    | discard mem =>
      obtain rfl := Except.ok.inj hx
      exact hn
    | index ctx mem =>
      simp only [exec] at hx
      split_ifs at hx
      · split at hx
        · obtain rfl := Except.ok.inj hx
          exact hn
        · rename_i u hu
          obtain rfl := Except.ok.inj hx
          have hdropped : n ∈ ids (discard s mem) := hn
          exact embedAndIndex_keeps hu hdropped
      · obtain rfl := Except.ok.inj hx
        exact hn
    | invalidate a reason => exact invalidate_keeps (mapError_ok hx) hn
    | supersede a w p src => exact supersede_keeps (mapError_ok hx) hn
    | archive a reason => exact archive_keeps (mapError_ok hx) hn
    | restore a => exact restore_keeps (mapError_ok hx) hn
    | unsupersede a reason => exact unsupersede_keeps (mapError_ok hx) hn
    | purgeBatch ids captureSource days =>
      obtain rfl := Except.ok.inj hx
      exact purgeBatch_keeps hn
    | restorePurgeBatch b =>
      obtain ⟨r, hr, rfl⟩ := map_ok hx
      exact restorePurgeBatch_keeps (mapError_ok hr) hn
    | finalizePurgeBatch b =>
      obtain ⟨r, hr, rfl⟩ := map_ok hx
      exact finalizePurgeBatch_keeps (mapError_ok hr) hn hspared
    | erase a reason => exact erase_keeps (mapError_ok hx) hn hspared
    | promoteScope a scope => exact promoteScope_keeps (mapError_ok hx) hn
    | ship batchSize answer =>
      obtain rfl := Except.ok.inj hx
      exact ((KeepsIds.refl s).same (shipOnce_frame batchSize answer).memories) hn
    | pull batch => exact pull_keeps (mapError_ok hx) hn hspared

end

end AstramemLocal.Daemon
