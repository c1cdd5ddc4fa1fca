/-
Rowids. `memories_vec` names a memory by the rowid of its row, and SQLite hands out the rowid of a deleted row again.
`Follows s t` says what `t` has of the rows and vectors of `s`: no vector is new, and the row of a memory keeps its
rowid, its text and its vector, or the memory is erased and the vector went with the row. Every operation of the daemon
but stage 8's index, which writes vectors of its own, leads to a state that follows (`step_follows`).
-/
import AstramemLocal.Daemon.ErasedText

namespace AstramemLocal.Daemon

open AstramemLocal.Store AstramemLocal.Sync AstramemLocal.Distill AstramemLocal.Core Relation

/-- the rowid is the INTEGER PRIMARY KEY behind `memories` -/
def UniqueRowids (s : St) : Prop := (s.memories.map (·.rowid)).Nodup

variable {E : Env} {s t u v : St} {a b : AtomId} {m : Memory}

theorem le_foldl_max (l : List ℕ) (b : ℕ) : b ≤ l.foldl max b ∧ ∀ n ∈ l, n ≤ l.foldl max b := by
  induction l generalizing b with
  | nil => exact ⟨le_rfl, fun n hn => absurd hn List.not_mem_nil⟩
  | cons x l ih =>
    obtain ⟨hb, hl⟩ := ih (max b x)
    refine ⟨(le_max_left b x).trans hb, fun n hn => ?_⟩
    rcases List.mem_cons.1 hn with rfl | hn
    · exact (le_max_right b n).trans hb
    · exact hl n hn

theorem rowid_lt_next (hm : m ∈ s.memories) : m.rowid < nextRowid s := by
  have hle := (le_foldl_max (s.memories.map (·.rowid)) 0).2 m.rowid (List.mem_map_of_mem hm)
  unfold nextRowid
  omega

theorem UniqueRowids.eq (h : UniqueRowids s) {x y : Memory} (hx : x ∈ s.memories) (hy : y ∈ s.memories)
    (hxy : x.rowid = y.rowid) : x = y :=
  List.inj_on_of_nodup_map h hx hy hxy

/-- an INSERT takes the next rowid -/
theorem UniqueRowids.snoc (h : UniqueRowids s) (hrowid : m.rowid = nextRowid s)
    (ht : t.memories = s.memories ++ [m]) : UniqueRowids t := by
  rw [UniqueRowids, ht, List.map_append, List.nodup_append]
  refine ⟨h, List.nodup_singleton _, ?_⟩
  rintro k hk c hc rfl
  obtain ⟨x, hx, rfl⟩ := List.mem_map.1 hk
  have hnew : x.rowid = m.rowid := by simpa using hc
  have hlt := rowid_lt_next hx
  omega

/-- an UPDATE that keeps the rowid -/
theorem UniqueRowids.update (h : UniqueRowids s) {f : Memory → Memory} (hf : ∀ m, (f m).rowid = m.rowid)
    (ht : t.memories = (updateRow s a f).memories) : UniqueRowids t := by
  have hmap : t.memories.map (·.rowid) = s.memories.map (·.rowid) := by
    simp only [ht, updateRow, List.map_map]
    refine List.map_congr_left fun m _ => ?_
    simp only [Function.comp]
    split_ifs
    · exact hf m
    · rfl
  rw [UniqueRowids, hmap]
  exact h

theorem UniqueRowids.sublist (h : UniqueRowids s) (ht : t.memories.Sublist s.memories) : UniqueRowids t :=
  List.Nodup.sublist (ht.map _) h

/-! ## What follows -/

/-- the memory, stored as `m` in `s`, has its rowid, its text and its vector in `t` -/
structure Held (s : St) (a : AtomId) (m : Memory) (t : St) : Prop where
  row : ∃ x, findRow t a = some x ∧ x.rowid = m.rowid ∧ x.text = m.text
  vec : m.rowid ∈ s.memoriesVec → m.rowid ∈ t.memoriesVec

structure Follows (s t : St) : Prop where
  ids : UniqueIds t
  rowids : UniqueRowids t
  vec : ∀ r ∈ t.memoriesVec, r ∈ s.memoriesVec
  log : ∀ e ∈ records s, e ∈ records t
  row : ∀ a m, findRow s a = some m → Held s a m t ∨ Departed a t ∧ m.rowid ∉ t.memoriesVec

theorem Follows.refl (hids : UniqueIds s) (hrowids : UniqueRowids s) : Follows s s where
  ids := hids
  rowids := hrowids
  vec _ h := h
  log _ h := h
  row _ m hm := Or.inl ⟨⟨m, hm, rfl, rfl⟩, id⟩

theorem Departed.of_row (h : Departed a u) (hlog : ∀ e ∈ records u, e ∈ records v) (hrow : findRow v a = none) :
    Departed a v := by
  obtain ⟨e, he, hex⟩ := h.erased
  exact ⟨⟨e, hlog e he, hex⟩, hrow⟩

/-- statements on the other tables -/
theorem Follows.same (h : Follows s u) (hrows : v.memories = u.memories) (hvec : v.memoriesVec = u.memoriesVec)
    (hlog : ∀ e ∈ records u, e ∈ records v) : Follows s v where
  ids := h.ids.sublist (by rw [hrows])
  rowids := h.rowids.sublist (by rw [hrows])
  vec r hr := h.vec r (hvec ▸ hr)
  log e he := hlog e (h.log e he)
  row a m hm := by
    rcases h.row a m hm with hheld | ⟨hdep, hgone⟩
    · refine Or.inl ⟨?_, fun hr => hvec ▸ hheld.vec hr⟩
      rw [findRow_congr hrows]
      exact hheld.row
    · exact Or.inr ⟨hdep.of_row hlog ((findRow_congr hrows a).trans hdep.row), hvec ▸ hgone⟩

/-- an UPDATE of columns other than the id, the rowid and the text -/
theorem Follows.update (h : Follows s u) {f : Memory → Memory} (hrows : v.memories = (updateRow u b f).memories)
    (hvec : v.memoriesVec = u.memoriesVec) (hlog : ∀ e ∈ records u, e ∈ records v)
    (hf : ∀ m, (f m).id = m.id ∧ (f m).rowid = m.rowid ∧ (f m).text = m.text) : Follows s v where
  ids := (Unique.updateRow h.ids b fun m => (hf m).1).sublist (by rw [hrows])
  rowids := h.rowids.update (fun m => (hf m).2.1) hrows
  vec r hr := h.vec r (hvec ▸ hr)
  log e he := hlog e (h.log e he)
  row a m hm := by
    have hrow : findRow v a = (findRow u a).map fun m => if a = b then f m else m :=
      (findRow_congr hrows a).trans (findRow_updateRow u b a fun m => (hf m).1)
    rcases h.row a m hm with ⟨⟨x, hx, hrowid, htext⟩, hheld⟩ | ⟨hdep, hgone⟩
    · refine Or.inl ⟨⟨if a = b then f x else x, by rw [hrow, hx, Option.map_some], ?_⟩, fun hr => hvec ▸ hheld hr⟩
      split_ifs
      · exact ⟨(hf x).2.1.trans hrowid, (hf x).2.2.trans htext⟩
      · exact ⟨hrowid, htext⟩
    · exact Or.inr ⟨hdep.of_row hlog (by rw [hrow, hdep.row, Option.map_none]), hvec ▸ hgone⟩

/-- a row goes behind its erase_request, with its vector -/
theorem Follows.remove (h : Follows s u) {x : Memory} (hx : findRow u b = some x)
    (hrows : v.memories = u.memories.filter (·.id ≠ b)) (hvec : v.memoriesVec = u.memoriesVec.filter (· ≠ x.rowid))
    (hlog : ∀ e ∈ records u, e ∈ records v) (herased : Erased (records v) b) : Follows s v where
  ids := h.ids.sublist (hrows ▸ List.filter_sublist)
  rowids := h.rowids.sublist (hrows ▸ List.filter_sublist)
  vec r hr := h.vec r (List.mem_of_mem_filter (hvec ▸ hr))
  log e he := hlog e (h.log e he)
  row a m hm := by
    have hrow : findRow v a = if a = b then none else findRow u a :=
      (findRow_congr (s := v) (t := deleteRow u b) hrows a).trans (findRow_deleteRow u b a)
    rcases h.row a m hm with ⟨⟨y, hy, hrowid, htext⟩, hheld⟩ | ⟨hdep, hgone⟩
    · by_cases hab : a = b
      · subst hab
        obtain rfl : y = x := Option.some.inj (hy.symm.trans hx)
        refine Or.inr ⟨⟨herased, by rw [hrow, if_pos rfl]⟩, fun hr => ?_⟩
        rw [hvec, ← hrowid] at hr
        simp at hr
      · refine Or.inl ⟨⟨y, by rw [hrow, if_neg hab, hy], hrowid, htext⟩, fun hr => ?_⟩
        -- the rowid that goes is another one
        have hne : m.rowid ≠ x.rowid := by
          intro hc
          have hyx : y = x := h.rowids.eq (findRow_mem hy) (findRow_mem hx) (hrowid.trans hc)
          exact hab ((findRow_id hy).symm.trans (hyx ▸ findRow_id hx))
        rw [hvec, List.mem_filter]
        exact ⟨hheld hr, by simpa using hne⟩
    · refine Or.inr ⟨hdep.of_row hlog ?_, fun hr => hgone (List.mem_of_mem_filter (hvec ▸ hr))⟩
      rw [hrow, hdep.row]
      split_ifs <;> rfl

/-- rows are only added -/
theorem Follows.of_rows {made : List Memory} (hids : UniqueIds t) (hrowids : UniqueRowids t)
    (hrows : t.memories = s.memories ++ made) (hvec : t.memoriesVec = s.memoriesVec)
    (hlog : ∀ e ∈ records s, e ∈ records t) : Follows s t where
  ids := hids
  rowids := hrowids
  vec _ hr := hvec ▸ hr
  log := hlog
  row _ m hm := Or.inl ⟨⟨m, findRow_append_left hrows hm, rfl, rfl⟩, fun hr => hvec ▸ hr⟩

/-! ## The lifecycle operations -/

theorem append_sub (s : St) (ty : MemoryEventType) (a : AtomId) (p : Option Payload) (h : Option Hash) (t : Time) :
    ∀ e ∈ records s, e ∈ records (append E s ty a p h t) := by
  intro e he
  rw [append_records]
  exact List.mem_append_left _ he

theorem Follows.append (h : Follows s u) (ty : MemoryEventType) (a : AtomId) (p : Option Payload) (hash : Option Hash)
    (now : Time) : Follows s (append E u ty a p hash now) :=
  h.same rfl rfl (append_sub u ty a p hash now)

theorem Follows.tick (h : Follows s u) : Follows s (tick u) := h.same rfl rfl fun _ he => he

theorem Follows.dropLinks (h : Follows s u) (a : AtomId) : Follows s (dropRelations (unlinkMemory u a) a) :=
  h.same rfl rfl fun _ he => he

theorem Follows.updateRow (h : Follows s u) (b : AtomId) {f : Memory → Memory}
    (hf : ∀ m, (f m).id = m.id ∧ (f m).rowid = m.rowid ∧ (f m).text = m.text) : Follows s (updateRow u b f) :=
  h.update rfl rfl (fun _ he => he) hf

theorem Follows.insert (h : Follows s s) {x : Memory} (hrowid : x.rowid = nextRowid s) (hids : UniqueIds t)
    (hrows : t.memories = s.memories ++ [x]) (hvec : t.memoriesVec = s.memoriesVec)
    (hlog : ∀ e ∈ records s, e ∈ records t) : Follows s t :=
  .of_rows hids (h.rowids.snoc hrowid hrows) hrows hvec hlog

section
variable {reason : Option String}

theorem invalidate_follows (h : Follows s u) (hop : Store.invalidate E u a reason = .ok v) : Follows s v := by
  obtain ⟨row, -, -, rfl⟩ := invalidate_ok hop
  apply Follows.append
  apply Follows.append
  exact h.tick.updateRow a fun _ => ⟨rfl, rfl, rfl⟩

theorem supersede_follows {p : Option SupersedeProvenance} {src : CorrectionSource} (h : Follows s u)
    (hop : Store.supersede E u a b p src = .ok v) : Follows s v := by
  obtain ⟨row, wrow, -, -, -, -, rfl⟩ := supersede_ok hop
  apply Follows.append
  apply Follows.append
  apply Follows.dropLinks
  apply Follows.updateRow
  · exact h.tick.updateRow a fun _ => ⟨rfl, rfl, rfl⟩
  · exact fun _ => ⟨rfl, rfl, rfl⟩

theorem archive_follows (h : Follows s u) (hop : Store.archive E u a reason = .ok v) : Follows s v := by
  obtain ⟨row, -, -, rfl⟩ := archive_ok hop
  apply Follows.append
  exact h.tick.updateRow a fun _ => ⟨rfl, rfl, rfl⟩

theorem restore_follows (h : Follows s u) (hop : Store.restore E u a = .ok v) : Follows s v := by
  obtain ⟨row, -, -, rfl⟩ := restore_ok hop
  apply Follows.append
  exact h.tick.updateRow a fun _ => ⟨rfl, rfl, rfl⟩

theorem unsupersede_follows (h : Follows s u) (hop : Store.unsupersede E u a reason = .ok v) : Follows s v := by
  obtain ⟨row, w, -, -, -, rfl⟩ := unsupersede_ok hop
  apply Follows.append
  exact h.tick.updateRow a fun _ => ⟨rfl, rfl, rfl⟩

theorem promoteScope_follows {scope : MemoryScope} (h : Follows s u) (hop : Store.promoteScope E u a scope = .ok v) :
    Follows s v := by
  obtain ⟨row, -, -, rfl⟩ := promoteScope_ok hop
  apply Follows.append
  exact h.tick.updateRow a fun _ => ⟨rfl, rfl, rfl⟩

theorem erase_follows (h : Follows s u) (hop : Store.erase E u a reason = .ok v) : Follows s v := by
  obtain ⟨row, hrow, rfl⟩ := erase_ok hop
  refine h.remove hrow rfl rfl (append_sub (tick u) _ _ _ _ _) ?_
  rw [deleteRow_records, deleteVec_records, append_records]
  exact ⟨_, List.mem_append_right _ List.mem_cons_self, rfl, rfl⟩

theorem purgeBatch_follows {ids : List AtomId} {captureSource : String} {days : ℤ} (h : Follows s u) :
    Follows s (Store.purgeBatch E u ids captureSource days).1 := by
  have hloop := foldl_rest (fun _ (acc : St × ℕ) => Follows s acc.1)
    (f := purgeOne E (E.uuid u.drawn) captureSource (E.now u.clock) (E.now u.clock + days * 86400000))
    (fun a _ acc hacc => ?_) (l := ids) (b := (Store.tick (draw u), 0)) (h.same rfl rfl fun _ he => he)
  · exact hloop.same rfl rfl fun _ he => he
  · unfold purgeOne
    split
    · exact hacc
    · split_ifs
      · exact hacc
      · apply Follows.append
        exact hacc.updateRow a fun _ => ⟨rfl, rfl, rfl⟩

theorem restorePurgeBatch_follows {b : BatchId} {r : St × ℕ} (h : Follows s u)
    (hop : Store.restorePurgeBatch E u b = .ok r) : Follows s r.1 := by
  obtain ⟨batch, -, -, -, rfl⟩ := restorePurgeBatch_ok hop
  have hloop := foldl_rest (fun _ v => Follows s v) (f := unpurgeOne E b (E.now u.clock))
    (fun a _ v hv => ?_) (l := purgedRows u b) (b := Store.tick u) h.tick
  · exact hloop.same rfl rfl fun _ he => he
  · apply Follows.append
    exact hv.updateRow a fun _ => ⟨rfl, rfl, rfl⟩

theorem finalizePurgeBatch_follows {b : BatchId} {r : St × ℕ} (h : Follows s u)
    (hop : Store.finalizePurgeBatch E u b = .ok r) : Follows s r.1 := by
  obtain ⟨batch, v, -, -, hv, rfl⟩ := finalizePurgeBatch_ok hop
  have hloop := foldlM_ok (fun _ v => Follows s v) (fun a _ v v' hv hstep => erase_follows hv hstep) h hv
  exact hloop.same rfl rfl fun _ he => he

end

/-! ## /remember, ship rounds and pulls -/

theorem insert_follows {input : InsertInput} {r : St × Inserted} (h : Follows s s)
    (hop : insertWithCreateEvent E s input = .ok r) : Follows s r.1 := by
  rcases insertWithCreateEvent_ok hop with ⟨m, -, rfl⟩ | ⟨hhash, hrow, -, rfl⟩
  · exact h
  · refine h.insert (x := storedRow E s input) rfl (h.ids.snoc hrow hhash rfl) rfl rfl fun e he => ?_
    rw [inserted, append_records]
    exact List.mem_append_left _ he

/-- the first loop of a pull: rows are inserted one at a time -/
theorem mergeEvent_rowids {acc r : St × List AtomId} {e : RemotePullEvent} (h : UniqueRowids acc.1)
    (hop : mergeEvent E acc e = .ok r) : UniqueRowids r.1 := by
  obtain ⟨u, touched⟩ := acc
  by_cases hknown : e.eventId ∈ eventIds u
  · rw [mergeEvent_known hknown, Except.ok.injEq] at hop
    exact hop ▸ h
  by_cases hc : ∃ sn, Carries e sn
  · obtain ⟨sn, hc⟩ := hc
    rw [mergeEvent_create hknown hc] at hop
    obtain ⟨v, hv, rfl⟩ := map_ok hop
    unfold materializeAtomIfMissing at hv
    split_ifs at hv with hex
    · exact Except.ok.inj hv ▸ h
    · obtain ⟨-, -, -, rfl⟩ := insertMemory_ok hv
      have hlogged : UniqueRowids (Store.tick (logEvent u e.toEventRecord)) := h
      exact hlogged.snoc rfl rfl
  · rw [mergeEvent_other hknown fun sn hsn => hc ⟨sn, hsn⟩, Except.ok.injEq] at hop
    exact hop ▸ h

theorem merge_follows {touched : List AtomId} {es : List RemotePullEvent} (h : Follows s s)
    (hop : mergeEvents E s es = .ok (t, touched)) : Follows s t := by
  have hm := mergeEvents_merges hop
  have hrowids : UniqueRowids t :=
    foldlM_ok (fun _ (acc : St × List AtomId) => UniqueRowids acc.1)
      (fun e _ acc r hacc hstep => mergeEvent_rowids hacc hstep) h.rowids hop
  obtain ⟨made, hrows, -⟩ := hm.rows
  refine .of_rows (hm.unique .id h.ids) hrowids hrows (by rw [hm.frame]) fun e he => ?_
  rw [hm.log]
  exact List.mem_append_left _ he

/-- a recompute deletes rows behind their erase_requests, and rewrites columns -/
theorem follows_effects {R : AtomId → St → Prop} {C : AtomId → AtomId → Time → Prop} {J : St → Prop} :
    Effects E R C J fun _ u => Follows s u where
  weaken _ h := h
  erased {P u a} _ _ h he := by
    unfold hardDeleteAtom
    split
    · exact h
    · rename_i row hrow
      exact h.remove hrow rfl rfl (fun _ hmem => hmem) he
  absent _ _ h _ _ := h
  quiet _ _ h _ _ _ := h
  unresolved _ _ h _ _ _ := h.tick
  invalidated {P u a v} _ _ h _ _ _ := h.tick.updateRow a fun _ => ⟨rfl, rfl, rfl⟩
  superseded {P u a w v} _ _ h _ _ _ := h.tick.updateRow a fun _ => ⟨rfl, rfl, rfl⟩
  chain {P u y w at_} _ h _ _ := by
    refine h.same rfl rfl fun e he => ?_
    rw [chainEvent_records]
    exact List.mem_append_left _ he

theorem pull_follows {batch : PullBatch} (h : Follows s s) (hop : pullOnce E s batch = .ok t) : Follows s t := by
  rcases pullOnce_cases hop with ⟨-, rfl⟩ | ⟨m, touched, u, hm, hu, rfl⟩
  · exact h
  · have hfollows := ((Traversal.free E).sound_all follows_effects (P := ∅) (fun _ _ _ _ => trivial) trivial
      (merge_follows h hm) hu).2
    exact hfollows.same rfl rfl fun _ he => he

/-! ## All of them -/

/-- stage 8's index, which writes a vector with its row -/
def Op.isIndex : Op → Bool
  | .index _ _ => true
  | _ => false

/-- **Every operation but stage 8's index follows.** -/
theorem step_follows (hids : UniqueIds s) (hrowids : UniqueRowids s) {op : Op} (hop : op.isIndex = false) :
    Follows s (step E s op) := by
  have h := Follows.refl hids hrowids
  unfold step
  cases hx : exec E s op with
  | error e => exact h
  | ok t =>
    simp only
    cases op with
    | remember input =>
      obtain ⟨r, hr, rfl⟩ := map_ok hx
      exact insert_follows h (mapError_ok hr)
    | screen mem =>
      obtain rfl := Except.ok.inj hx
      unfold screen
      split_ifs
      · exact h
      · exact h.same rfl rfl fun _ he => he
    | discard mem =>
      obtain rfl := Except.ok.inj hx
      exact h.same rfl rfl fun _ he => he
    | index ctx mem => cases hop
    | invalidate a reason => exact invalidate_follows h (mapError_ok hx)
    | supersede a w p src => exact supersede_follows h (mapError_ok hx)
    | archive a reason => exact archive_follows h (mapError_ok hx)
    | restore a => exact restore_follows h (mapError_ok hx)
    | unsupersede a reason => exact unsupersede_follows h (mapError_ok hx)
    | purgeBatch ids captureSource days =>
      obtain rfl := Except.ok.inj hx
      exact purgeBatch_follows h
    | restorePurgeBatch b =>
      obtain ⟨r, hr, rfl⟩ := map_ok hx
      exact restorePurgeBatch_follows h (mapError_ok hr)
    | finalizePurgeBatch b =>
      obtain ⟨r, hr, rfl⟩ := map_ok hx
      exact finalizePurgeBatch_follows h (mapError_ok hr)
    | erase a reason => exact erase_follows h (mapError_ok hx)
    | promoteScope a scope => exact promoteScope_follows h (mapError_ok hx)
    | ship batchSize answer =>
      obtain rfl := Except.ok.inj hx
      have hframe : Frame s (shipOnce E s batchSize answer).2 := shipOnce_frame batchSize answer
      exact h.same hframe.memories hframe.memoriesVec fun e he => by rwa [hframe.records]
    | pull batch => exact pull_follows h (mapError_ok hx)

/-- an erased memory does not come back -/
theorem Departed.step (h : Departed a s) (hids : UniqueIds s) {op : Op} (hfresh : DrawsOther E a s op) :
    Departed a (step E s op) := by
  refine step_inv hids { Permits.all s op with insert := fun x hx v _ hd => ?_ } (fun _ _ hv he => hv.effect he)
    (fun _ _ _ ht => h.pull ht) h
  rw [hd]
  exact hfresh (by rw [hx]; simp)

end AstramemLocal.Daemon
