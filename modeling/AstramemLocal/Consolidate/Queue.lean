/-
Invariants of the proposal queue under the steps of consolidation.
* `Logged`: what a row says superseded it, the log says too. Every operation of the daemon keeps it (`Logged.step`).
* `QueueOk`: ids are unique, at most one proposal is pending for two memories, what is known of every pair of a scan holds
  of it, it carries its resolution time exactly when it is resolved, and an accepted one is backed by a supersede event.
* `Follows`: proposals are only added, and one that is resolved stays as it is.
-/
import AstramemLocal.Consolidate.Steps

namespace AstramemLocal.Consolidate

open AstramemLocal.Store AstramemLocal.Daemon AstramemLocal.Sync AstramemLocal.Core Relation

variable {E : Env} {M : AtomId → AtomId → Prop} {s t : St} {d d' : Desk}

/-! ## Superseded rows and the log -/

def Logged (s : St) : Prop := ∀ a w, SupersededBy s a w → SupersededInLog s a w

theorem SupersededInLog.grow (hlog : ∀ e ∈ records s, e ∈ records t) {a w : AtomId} (h : SupersededInLog s a w) :
    SupersededInLog t a w := by
  obtain ⟨e, he, hkind⟩ := h
  exact ⟨e, hlog e he, hkind⟩

/-- no row gets a winner but one the log names -/
theorem Logged.of_rows (h : Logged s) (hlog : ∀ e ∈ records s, e ∈ records t)
    (hrows : ∀ a w, SupersededBy t a w → SupersededBy s a w ∨ SupersededInLog t a w) : Logged t := by
  intro a w hw
  rcases hrows a w hw with hold | hnew
  · exact (h a w hold).grow hlog
  · exact hnew

theorem Logged.same (h : Logged s) (hlog : ∀ e ∈ records s, e ∈ records t) (hmem : t.memories = s.memories) :
    Logged t :=
  h.of_rows hlog fun a _ ⟨m, hm, hw⟩ => Or.inl ⟨m, (findRow_congr hmem a) ▸ hm, hw⟩

/-- an UPDATE that gives no row a winner -/
theorem supersededBy_updateRow {a : AtomId} {f : Memory → Memory} (hid : ∀ m, (f m).id = m.id)
    (hf : ∀ m, findRow s a = some m → (f m).supersededBy = m.supersededBy ∨ (f m).supersededBy = none) {b w : AtomId}
    (h : SupersededBy (updateRow s a f) b w) : SupersededBy s b w := by
  obtain ⟨x, hx, hw⟩ := h
  rw [findRow_updateRow s a b hid] at hx
  obtain ⟨m, hm, rfl⟩ := Option.map_eq_some_iff.1 hx
  split_ifs at hw with hb
  · subst hb
    rcases hf m hm with heq | hnone
    · exact ⟨m, hm, heq ▸ hw⟩
    · rw [hnone] at hw
      cases hw
  · exact ⟨m, hm, hw⟩

theorem Logged.effect {Q : AtomId → AtomId → Prop} {A : St → Hash → Prop} {K : Memory → Prop} (h : Logged s)
    (he : Effect E Q A K s t) : Logged t := by
  have hlog := he.records_sub
  cases he with
  | frame hf => exact h.same hlog hf.memories
  | inserted input rowid now at_ _ _ hn =>
    refine h.of_rows hlog fun a w ⟨x, hx, hw⟩ => Or.inl ?_
    rw [findRow_inserted hn] at hx
    split_ifs at hx
    · obtain rfl := Option.some.inj hx
      cases hw
    · exact ⟨x, hx, hw⟩
  | rewritten now p hm hr =>
    exact h.of_rows hlog fun a w hw => Or.inl (supersededBy_updateRow hr.id_eq (fun m hm' => by
      rw [Option.some.inj (hm.symm.trans hm')] at hr
      exact hr.supersededBy) hw)
  | touched validFrom now =>
    rename_i b
    exact h.of_rows hlog fun a w hw => Or.inl (supersededBy_updateRow (a := b)
      (f := fun m => { m with validFrom := validFrom m, updatedAt := now }) (fun _ => rfl) (fun _ _ => Or.inl rfl) hw)
  | superseded p now hm hv hmw hvw hQ =>
    rename_i b v m mw
    refine h.of_rows hlog fun a w ⟨x, hx, hw⟩ => ?_
    have hrow := findRow_updateRow s b a
      (f := fun x => { x with validTo := some now, supersededBy := some v, updatedAt := now }) fun _ => rfl
    obtain ⟨y, hy, rfl⟩ := Option.map_eq_some_iff.1 (hrow.symm.trans hx)
    split_ifs at hw with hab
    · subst hab
      obtain rfl := Option.some.inj hw
      refine Or.inr ⟨⟨E.uuid s.drawn, .supersede, a, some (supersedePayload v p), none, now⟩, ?_, rfl, rfl, ?_⟩
      · rw [append_records]
        exact List.mem_append_right _ List.mem_cons_self
      · cases p <;> rfl
    · exact Or.inl ⟨y, hy, hw⟩
  | noted a p now => exact h.same hlog rfl
  | erased reason now hm =>
    refine h.of_rows hlog fun a w ⟨x, hx, hw⟩ => Or.inl ?_
    rw [findRow_deleteRow] at hx
    split_ifs at hx
    exact ⟨x, hx, hw⟩
  | linked link => exact h.same hlog rfl
  | related r => exact h.same hlog rfl
  | vectored => exact h.same hlog rfl

/-- a pull gives a row the winner of its supersede events -/
theorem logged_effects {R : AtomId → St → Prop} {C : AtomId → AtomId → Time → Prop} {J : St → Prop} :
    Sync.Effects E R C J fun _ s => Logged s where
  weaken _ h := h
  erased {_ s a} _ _ h _ := h.of_rows (fun e he => by rwa [hardDeleteAtom_records]) fun b w ⟨x, hx, hw⟩ => Or.inl (by
    rw [findRow_hardDeleteAtom] at hx
    split_ifs at hx
    exact ⟨x, hx, hw⟩)
  absent _ _ h _ _ := h
  quiet _ _ h _ _ _ := h
  unresolved _ _ h _ _ _ := h.same (fun _ he => he) rfl
  invalidated {_ s a v} _ _ h _ _ _ := h.of_rows (fun _ he => he) fun b w hw => Or.inl
    (supersededBy_updateRow (s := tick s) (f := fun m => { m with validTo := some v, updatedAt := E.now s.clock })
      (fun _ => rfl) (fun _ _ => Or.inl rfl) hw)
  superseded {_ s a win v} _ _ h _ hwins _ := by
    refine h.of_rows (fun _ he => he) fun b w ⟨x, hx, hw⟩ => ?_
    rw [findRow_hideSuperseded] at hx
    obtain ⟨m, hm, rfl⟩ := Option.map_eq_some_iff.1 hx
    split_ifs at hw with hb
    · subst hb
      obtain rfl := Option.some.inj hw
      obtain ⟨hsup, htarget⟩ := hwins.1
      exact Or.inr ⟨win.toEventRecord, hsup.1, hsup.2.2, hsup.2.1, htarget⟩
    · exact Or.inl ⟨m, hm, hw⟩
  chain {_ s y w at_} _ h _ _ := h.of_rows (fun e he => by
    rw [chainEvent, append_records]
    exact List.mem_append_left _ he) fun b w hw => Or.inl hw

theorem pull_logged {batch : PullBatch} (h : Logged s) (hpull : pullOnce E s batch = .ok t) : Logged t := by
  rcases pull_rule hpull with ⟨-, rfl⟩ | ⟨m, touched, u, hm, rfl, -, hI⟩
  · exact h
  · refine hI (fun _ v => Logged v) logged_effects (h.of_rows (fun e he => ?_) fun a w ⟨x, hx, hw⟩ => Or.inl ?_)
    · rw [hm.log]
      exact List.mem_append_left _ he
    · cases hs : findRow s a with
      | some y =>
        obtain rfl := Option.some.inj ((hm.findRow_of_some hs).symm.trans hx)
        exact ⟨y, hs, hw⟩
      | none =>
        obtain ⟨e, -, -, sn, now, k, -, rfl⟩ := hm.made_row hx hs
        cases hw

theorem Logged.step (hids : UniqueIds s) (h : Logged s) (op : Op) : Logged (step E s op) :=
  step_inv hids (Permits.all s op) (fun _ _ hu he => hu.effect he) (fun _ _ _ hpull => pull_logged h hpull) h

/-- the log of the daemon only grows -/
theorem step_log (hids : UniqueIds s) (op : Op) : ∀ e ∈ records s, e ∈ records (step E s op) :=
  run_records hids [op]

/-! ## What becomes of a proposal -/

/-- `q` is `p` at a later time: a pending one may have been resolved or annotated, a resolved one is the same -/
structure Later (p q : ConsolidationProposal) : Prop where
  same : q = { p with status := q.status, resolvedAt := q.resolvedAt, metadataJson := q.metadataJson }
  frozen : p.status ≠ .pending → q = p

theorem Later.refl (p : ConsolidationProposal) : Later p p := ⟨rfl, fun _ => rfl⟩

theorem Later.trans {p q r : ConsolidationProposal} (h : Later p q) (h' : Later q r) : Later p r := by
  refine ⟨?_, fun hp => ?_⟩
  · rw [h'.same, h.same]
  · obtain rfl := h.frozen hp
    exact h'.frozen hp

theorem Later.id_eq {p q : ConsolidationProposal} (h : Later p q) : q.id = p.id := by rw [h.same]

theorem Later.winner_eq {p q : ConsolidationProposal} (h : Later p q) : q.winnerId = p.winnerId := by rw [h.same]

theorem Later.loser_eq {p q : ConsolidationProposal} (h : Later p q) : q.loserId = p.loserId := by rw [h.same]

theorem Later.pair_eq {p q : ConsolidationProposal} (h : Later p q) : q.pair = p.pair := by
  rw [ConsolidationProposal.pair, h.winner_eq, h.loser_eq]
  rfl

/-- the proposals of `d` stand in front of those of `d'`, each at a later time -/
def Follows (d d' : Desk) : Prop :=
  ∃ (g : ConsolidationProposal → ConsolidationProposal) (added : List ConsolidationProposal),
    d'.proposals = d.proposals.map g ++ added ∧ ∀ p ∈ d.proposals, Later p (g p)

theorem Follows.of_eq (h : d'.proposals = d.proposals) : Follows d d' :=
  ⟨id, [], by simp [h], fun p _ => Later.refl p⟩

theorem Follows.trans {d'' : Desk} (h : Follows d d') (h' : Follows d' d'') : Follows d d'' := by
  obtain ⟨g, added, hrows, hg⟩ := h
  obtain ⟨g', added', hrows', hg'⟩ := h'
  refine ⟨g' ∘ g, added.map g' ++ added', ?_, fun p hp => (hg p hp).trans (hg' (g p) ?_)⟩
  · rw [hrows', hrows, List.map_append, List.map_map, List.append_assoc]
  · rw [hrows]
    exact List.mem_append_left _ (List.mem_map_of_mem hp)

theorem Follows.update {q : ConsolidationProposal → Prop} [DecidablePred q]
    {f : ConsolidationProposal → ConsolidationProposal} (hrows : d'.proposals = updateWhere q f d.proposals)
    (hf : ∀ p ∈ d.proposals, q p → Later p (f p)) : Follows d d' := by
  refine ⟨fun p => if q p then f p else p, [], by rw [hrows, updateWhere, List.append_nil], fun p hp => ?_⟩
  dsimp only
  split
  next hq => exact hf p hp hq
  next => exact Later.refl p

/-- the proposal with the id is the same one, later -/
theorem Follows.later (h : Follows d d') (hids : Keyed (·.id) d'.proposals) {p q : ConsolidationProposal}
    (hp : p ∈ d.proposals) (hq : q ∈ d'.proposals) (hid : q.id = p.id) : Later p q := by
  obtain ⟨g, added, hrows, hg⟩ := h
  have hmem : g p ∈ d'.proposals := hrows ▸ List.mem_append_left _ (List.mem_map_of_mem hp)
  rw [hids.inj hq hmem (hid.trans (hg p hp).id_eq.symm)]
  exact hg p hp

/-! ## The invariant -/

structure QueueOk (M : AtomId → AtomId → Prop) (d : Desk) : Prop where
  ids : Keyed (·.id) d.proposals
  once : Keyed (·.pair) (d.proposals.filter (·.status = .pending))
  two : ∀ p ∈ d.proposals, M p.winnerId p.loserId
  resolved : ∀ p ∈ d.proposals, p.resolvedAt = none ↔ p.status = .pending
  backed : ∀ p ∈ d.proposals, p.status = .accepted → SupersededInLog d.store p.loserId p.winnerId

/-- nothing happens to the queue -/
theorem QueueOk.same (h : QueueOk M d) (hrows : d'.proposals = d.proposals)
    (hlog : ∀ e ∈ records d.store, e ∈ records d'.store) : QueueOk M d' where
  ids := hrows ▸ h.ids
  once := hrows ▸ h.once
  two := hrows ▸ h.two
  resolved := hrows ▸ h.resolved
  backed p hp ha := (h.backed p (hrows ▸ hp) ha).grow hlog

/-- an UPDATE of pending proposals -/
theorem QueueOk.update (h : QueueOk M d) {q : ConsolidationProposal → Prop} [DecidablePred q]
    {f : ConsolidationProposal → ConsolidationProposal} (hrows : d'.proposals = updateWhere q f d.proposals)
    (hlog : ∀ e ∈ records d.store, e ∈ records d'.store) (hq : ∀ p ∈ d.proposals, q p → p.status = .pending)
    (hsame : ∀ p, f p = { p with status := (f p).status, resolvedAt := (f p).resolvedAt, metadataJson := (f p).metadataJson })
    (hresolved : ∀ p, p.resolvedAt = none → p.status = .pending → ((f p).resolvedAt = none ↔ (f p).status = .pending))
    (hbacked : ∀ p ∈ d.proposals, q p → (f p).status = .accepted → SupersededInLog d'.store p.loserId p.winnerId) :
    QueueOk M d' ∧ Follows d d' := by
  have hlater : ∀ p ∈ d.proposals, q p → Later p (f p) := fun p hp hqp => ⟨hsame p, fun hn => absurd (hq p hp hqp) hn⟩
  have hof : ∀ p ∈ d'.proposals, ∃ p₀ ∈ d.proposals, q p₀ ∧ p = f p₀ ∨ p ∈ d.proposals := by
    intro p hp
    rw [hrows] at hp
    obtain ⟨p₀, hp₀, rfl⟩ := mem_updateWhere.1 hp
    split
    next hq₀ => exact ⟨p₀, hp₀, Or.inl ⟨hq₀, rfl⟩⟩
    next => exact ⟨p₀, hp₀, Or.inr hp₀⟩
  refine ⟨⟨?_, ?_, fun p hp => ?_, fun p hp => ?_, fun p hp ha => ?_⟩, Follows.update hrows hlater⟩
  · rw [hrows]
    exact h.ids.updateWhere fun p => by rw [hsame p]
  · rw [hrows]
    exact h.once.filter_updateWhere fun p hp hqp _ => ⟨by simpa using hq p hp hqp, (hlater p hp hqp).pair_eq⟩
  · obtain ⟨p₀, hp₀, ⟨hq₀, rfl⟩ | hold⟩ := hof p hp
    · rw [(hlater p₀ hp₀ hq₀).winner_eq, (hlater p₀ hp₀ hq₀).loser_eq]
      exact h.two p₀ hp₀
    · exact h.two p hold
  · obtain ⟨p₀, hp₀, ⟨hq₀, rfl⟩ | hold⟩ := hof p hp
    · have hpending := hq p₀ hp₀ hq₀
      exact hresolved p₀ ((h.resolved p₀ hp₀).2 hpending) hpending
    · exact h.resolved p hold
  · obtain ⟨p₀, hp₀, ⟨hq₀, rfl⟩ | hold⟩ := hof p hp
    · rw [(hlater p₀ hp₀ hq₀).winner_eq, (hlater p₀ hp₀ hq₀).loser_eq]
      exact hbacked p₀ hp₀ hq₀ ha
    · exact (h.backed p hold ha).grow hlog

theorem pairPending_eq_false {w l : AtomId} (h : pairPending d w l = false) :
    ∀ p ∈ d.proposals.filter (·.status = .pending), p.pair ≠ (min w l, max w l) := by
  intro p hp hpair
  obtain ⟨hp, hs⟩ := List.mem_filter.1 hp
  have hany : pairPending d w l = true := List.any_eq_true.2 ⟨p, hp, by simpa [hpair] using hs⟩
  rw [h] at hany
  cases hany

/-- an INSERT behind its `WHERE NOT EXISTS` -/
theorem QueueOk.insert (h : QueueOk M d) {p : ConsolidationProposal} (hrows : d'.proposals = d.proposals ++ [p])
    (hlog : ∀ e ∈ records d.store, e ∈ records d'.store) (hid : get d p.id = none)
    (hpair : pairPending d p.winnerId p.loserId = false) (hM : M p.winnerId p.loserId)
    (hpending : p.status = .pending) (hat : p.resolvedAt = none) : QueueOk M d' ∧ Follows d d' := by
  have hof : ∀ q ∈ d'.proposals, q ∈ d.proposals ∨ q = p := by
    intro q hq
    rwa [hrows, List.mem_append, List.mem_singleton] at hq
  refine ⟨⟨?_, ?_, fun q hq => ?_, fun q hq => ?_, fun q hq ha => ?_⟩, ?_⟩
  · rw [hrows]
    exact h.ids.insert fun q hq => lookup_eq_none.1 hid q hq
  · rw [hrows, List.filter_append, List.filter_cons_of_pos (by simpa using hpending), List.filter_nil]
    exact h.once.insert (pairPending_eq_false hpair)
  · rcases hof q hq with hold | rfl
    · exact h.two q hold
    · exact hM
  · rcases hof q hq with hold | rfl
    · exact h.resolved q hold
    · exact iff_of_true hat hpending
  · rcases hof q hq with hold | rfl
    · exact (h.backed q hold ha).grow hlog
    · rw [hpending] at ha
      cases ha
  · exact ⟨id, [p], by simp [hrows], fun q _ => Later.refl q⟩

/-! ## The steps keep it -/

/-- a desk any history leads to -/
structure DeskOk (M : AtomId → AtomId → Prop) (d : Desk) : Prop where
  rows : UniqueIds d.store
  logged : Logged d.store
  queue : QueueOk M d

theorem DeskOk.mono {N : AtomId → AtomId → Prop} (h : DeskOk M d) (hMN : ∀ w l, M w l → N w l) : DeskOk N d where
  rows := h.rows
  logged := h.logged
  queue :=
    { ids := h.queue.ids
      once := h.queue.once
      two := fun p hp => hMN _ _ (h.queue.two p hp)
      resolved := h.queue.resolved
      backed := h.queue.backed }

/-- the log only grows -/
def LogGrows (d d' : Desk) : Prop := ∀ e ∈ records d.store, e ∈ records d'.store

theorem mergeAsSupersede_effects {Q : AtomId → AtomId → Prop} {A : St → Hash → Prop} {K : Memory → Prop} {w l : AtomId}
    {p : Option SupersedeProvenance} {src : CorrectionSource} (hQ : Q l w) (h : mergeAsSupersede E d w l p src = .ok d') :
    ReflTransGen (Effect E Q A K) d.store d'.store := by
  obtain ⟨s, hs, rfl⟩ := mergeAsSupersede_ok h
  exact ((supersede_effects hQ hs).tail (.frame (Frame.tick s))).tail (.touched (a := w) (·.validFrom) (E.now s.clock))

/-- a merge is in the log -/
theorem mergeAsSupersede_log {w l : AtomId} {p : Option SupersedeProvenance} {src : CorrectionSource}
    (h : mergeAsSupersede E d w l p src = .ok d') : SupersededInLog d'.store l w := by
  obtain ⟨s, hs, rfl⟩ := mergeAsSupersede_ok h
  obtain ⟨row, wrow, -, -, -, -, rfl⟩ := supersede_ok hs
  refine ⟨⟨E.uuid d.store.drawn, .supersede, l, some (supersedePayload w p), none, E.now d.store.clock⟩, ?_, rfl, rfl, ?_⟩
  · rw [updateRow_records, tick_records, append_records, append_records]
    exact List.mem_append_left _ (List.mem_append_right _ List.mem_cons_self)
  · cases p <;> rfl

theorem mergeAsSupersede_keeps {w l : AtomId} {p : Option SupersedeProvenance} {src : CorrectionSource}
    (h : mergeAsSupersede E d w l p src = .ok d') (hok : DeskOk M d) : DeskOk M d' ∧ LogGrows d d' ∧
      d'.proposals = d.proposals := by
  have hsteps := mergeAsSupersede_effects (Q := fun _ _ => True) (A := fun _ _ => True) (K := fun _ => True) trivial h
  have hrows : d'.proposals = d.proposals := by
    obtain ⟨s, -, rfl⟩ := mergeAsSupersede_ok h
    rfl
  have hlog : LogGrows d d' := effects_inv (I := fun t => ∀ e ∈ records d.store, e ∈ records t)
    (fun u v hu he e hmem => he.records_sub e (hu e hmem)) hsteps fun _ he => he
  refine ⟨⟨?_, ?_, hok.queue.same hrows hlog⟩, hlog, hrows⟩
  · exact effects_inv (I := UniqueIds) (fun _ _ hu he => he.unique hu) hsteps hok.rows
  · exact effects_inv (I := Logged) (fun _ _ hu he => hu.effect he) hsteps hok.logged

/-- nothing but readings of the clock and the id source -/
theorem DeskOk.reading (hok : DeskOk M d) (hrows : d'.store.memories = d.store.memories)
    (hlog : records d'.store = records d.store) (hq : QueueOk M d') : DeskOk M d' where
  rows := hok.rows.sublist (by rw [hrows])
  logged := hok.logged.same (fun e he => by rwa [hlog]) hrows
  queue := hq

theorem markBulkAccepted_store (d : Desk) (l : AtomId) :
    (markBulkAccepted d l).store = d.store ∧ (markBulkAccepted d l).proposals = d.proposals := by
  unfold markBulkAccepted
  split <;> exact ⟨rfl, rfl⟩

/-- the resolution of one pending proposal -/
theorem QueueOk.resolve (h : QueueOk M d) {p : ConsolidationProposal} (hp : p ∈ d.proposals) (hpending : p.status = .pending)
    {status : ProposalStatus} (hstatus : status ≠ .pending) (metadata : Option ProposalMetadata)
    (hbacked : status = .accepted → SupersededInLog d.store p.loserId p.winnerId) :
    QueueOk M (resolve E d p.id status metadata) ∧ Follows d (resolve E d p.id status metadata) := by
  refine h.update (q := (·.id = p.id)) rfl (fun _ he => he) (fun q hq hid => ?_) (fun q => rfl) (fun q _ _ => ?_)
    fun q hq hid ha => ?_
  · rw [h.ids.inj hq hp hid]
    exact hpending
  · exact iff_of_false (by simp) hstatus
  · rw [h.ids.inj hq hp hid]
    exact hbacked ha

theorem DeskStep.keeps (hok : DeskOk M d) (hs : DeskStep E M d d') : DeskOk M d' ∧ Follows d d' ∧ LogGrows d d' := by
  cases hs with
  | noted => exact ⟨hok.reading rfl rfl (hok.queue.same rfl fun _ he => he), Follows.of_eq rfl, fun _ he => he⟩
  | inserted kind sim metadata hM hpair hid =>
    have hnew : QueueOk M { d with
        store := tick (draw d.store)
        proposals := d.proposals ++ [⟨E.uuid d.store.drawn, kind, _, _, sim, .pending, E.now d.store.clock, none,
          metadata⟩] } ∧ Follows d _ := hok.queue.insert rfl (fun _ he => he) hid hpair hM rfl rfl
    exact ⟨hok.reading rfl rfl hnew.1, hnew.2, fun _ he => he⟩
  | merged hM h =>
    obtain ⟨hok', hlog, hrows⟩ := mergeAsSupersede_keeps h hok
    exact ⟨hok', Follows.of_eq hrows, hlog⟩
  | accepted h =>
    rename_i id prov opts
    obtain ⟨p, u, hget, hpending, hu, rfl⟩ := accept_ok h
    obtain ⟨hok', hlog, hrows⟩ := mergeAsSupersede_keeps hu hok
    have hlast := mergeAsSupersede_log hu
    -- the marker of a bulk accept stands beside the store and the queue
    obtain ⟨v, hv, hstore, hsame⟩ : ∃ v, v = (if opts.bulkAccepted = true then markBulkAccepted u p.loserId else u) ∧
        v.store = u.store ∧ v.proposals = u.proposals := by
      refine ⟨_, rfl, ?_⟩
      split_ifs
      · exact markBulkAccepted_store u p.loserId
      · exact ⟨rfl, rfl⟩
    rw [← hv]
    have hlogv : LogGrows d v := fun e he => hstore ▸ hlog e he
    have hokv : DeskOk M v := hok'.reading (by rw [hstore]) (by rw [hstore])
      (hok'.queue.same hsame fun e he => hstore ▸ he)
    have hmem : p ∈ v.proposals := by
      rw [hsame, hrows]
      exact (get_id hget).1
    have haccepted : ProposalStatus.accepted ≠ .pending := by decide
    obtain ⟨hq, hf⟩ := hokv.queue.resolve (E := E) hmem hpending haccepted opts.metadata fun _ => hstore ▸ hlast
    exact ⟨hokv.reading rfl rfl hq, (Follows.of_eq (hsame.trans hrows)).trans hf, hlogv⟩
  | rejected h =>
    obtain ⟨p, hget, hpending, rfl⟩ := reject_ok h
    rename_i metadata
    have hrejected : ProposalStatus.rejected ≠ .pending := by decide
    obtain ⟨hq, hf⟩ := hok.queue.resolve (E := E) (get_id hget).1 hpending hrejected metadata fun hc => by cases hc
    exact ⟨hok.reading rfl rfl hq, hf, fun _ he => he⟩
  | closed hstatus hbacked =>
    rename_i id status
    have hclosed : QueueOk M (resolveRow E d id status) ∧ Follows d (resolveRow E d id status) :=
      hok.queue.update rfl (fun _ he => he) (fun p _ hp => hp.2) (fun p => rfl)
        (fun p _ _ => iff_of_false (by simp) hstatus) fun p hp hq ha => hbacked ha p hp hq.1
    exact ⟨hok.reading rfl rfl hclosed.1, hclosed.2, fun _ he => he⟩
  | annotated id metadata =>
    have hnoted : QueueOk M (annotateCommandGuardBlocked d id metadata) ∧
        Follows d (annotateCommandGuardBlocked d id metadata) :=
      hok.queue.update rfl (fun _ he => he) (fun p _ hp => hp.2) (fun p => rfl) (fun p hat hs => iff_of_true hat hs)
        fun p hp hq ha => absurd (hq.2.symm.trans ha) (by decide)
    exact ⟨hok.reading rfl rfl hnoted.1, hnoted.2, fun _ he => he⟩

/-- **Step rule.** What a sequence of steps leads to. -/
theorem DeskSteps.keeps (hok : DeskOk M d) (hs : DeskSteps E M d d') : DeskOk M d' ∧ Follows d d' ∧ LogGrows d d' := by
  induction hs with
  | refl => exact ⟨hok, Follows.of_eq rfl, fun _ he => he⟩
  | tail _ hstep ih =>
    obtain ⟨hok, hf, hlog⟩ := ih
    obtain ⟨hok', hf', hlog'⟩ := hstep.keeps hok
    exact ⟨hok', hf.trans hf', fun e he => hlog' e (hlog e he)⟩

end AstramemLocal.Consolidate
