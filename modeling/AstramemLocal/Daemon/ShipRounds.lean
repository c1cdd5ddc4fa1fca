/-
Ship rounds as the daemon runs them. `shipOnce` reads its batch, waits for the cloud, and marks the log afterwards; while
it waits, requests, jobs, pulls and the sweeps of the log go on, and the process can die. `Shipping` is the database with
the request that is out, `ShipOp` one event of such a run.
-/
import AstramemLocal.Daemon.Log
import AstramemLocal.Store.Usefulness

namespace AstramemLocal.Daemon

open AstramemLocal.Store AstramemLocal.Sync AstramemLocal.Core

/-! ## The machine -/

/-- the first UPDATE after an answer -/
def markSynced (E : Env) (s : St) (seqs : List ℕ) : St :=
  if seqs = [] then s else
    { tick s with memoryEvents := s.memoryEvents.map fun e =>
        if e.seq ∈ seqs ∧ e.syncedAt = none then { e with syncedAt := some (E.now s.clock) } else e }

/-- the second UPDATE after an answer -/
def markRejected (E : Env) (s : St) (seqs : List ℕ) : St :=
  if seqs = [] then s else
    { tick s with memoryEvents := s.memoryEvents.map fun e =>
        if e.seq ∈ seqs ∧ e.rejectedAt = none then { e with rejectedAt := some (E.now s.clock) } else e }

/-- `rejectedSeqs`: what the answer names of this batch -/
def rejectedOf (rows : List UnsyncedRow) (ack : ShipAck) : List ℕ :=
  ack.rejectedSeqs.filter (· ∈ rows.map (·.seq))

/-- `shippedAcked` -/
def ackedOf (rows : List UnsyncedRow) (ack : ShipAck) : List ℕ :=
  (rows.map (·.seq)).filter fun q => q ≤ ack.ackedSeq ∧ q ∉ rejectedOf rows ack

structure Shipping where
  db : St
  /-- the rows of the request that is out -/
  sent : Option (List UnsyncedRow) := none
deriving DecidableEq, Repr

inductive ShipOp where
  /-- another operation of the daemon; the rounds themselves are `send` and `answer` -/
  | other (op : Op)
  | send (batchSize : ℕ)
  /-- `none` is a transport or HTTP failure -/
  | answer (answer : Option ShipAck)
  /-- the process dies while the request is out, or between the two UPDATEs of an answer -/
  | crash (answer : Option ShipAck)
  | unreject (seqs : Option (List ℕ))
  | prune (retentionDays : ℤ) (now : Time)
deriving DecidableEq, Repr

def shipStep (E : Env) (st : Shipping) : ShipOp → Shipping
  | .other op => if op.isShip then st else { st with db := step E st.db op }
  | .send batchSize =>
    if st.sent ≠ none ∨ listUnsynced st.db batchSize = [] then st
    else { st with sent := some (listUnsynced st.db batchSize) }
  | .answer answer =>
    match st.sent, answer with
    | some rows, some ack => ⟨markShipped E st.db rows ack, none⟩
    | _, _ => { st with sent := none }
  | .crash answer =>
    match st.sent, answer with
    | some rows, some ack => ⟨markSynced E st.db (ackedOf rows ack), none⟩
    | _, _ => { st with sent := none }
  | .unreject seqs => { st with db := clearRejected st.db seqs }
  | .prune retentionDays now => { st with db := pruneOldRecallServedEvents st.db retentionDays now }

def shipRun (E : Env) (st : Shipping) (ops : List ShipOp) : Shipping := ops.foldl (shipStep E) st

theorem shipRun_append (E : Env) (st : Shipping) (ops ops' : List ShipOp) :
    shipRun E st (ops ++ ops') = shipRun E (shipRun E st ops) ops' := List.foldl_append

theorem shipRun_snoc (E : Env) (st : Shipping) (ops : List ShipOp) (op : ShipOp) :
    shipRun E st (ops ++ [op]) = shipStep E (shipRun E st ops) op := by
  rw [shipRun_append]
  rfl

theorem markShipped_eq (E : Env) (s : St) (rows : List UnsyncedRow) (ack : ShipAck) :
    markShipped E s rows ack = markRejected E (markSynced E s (ackedOf rows ack)) (rejectedOf rows ack) := rfl

/-- **A round without interleaving is `shipOnce`.** -/
theorem shipRun_shipOnce (E : Env) (s : St) (batchSize : ℕ) (answer : Option ShipAck) :
    shipRun E ⟨s, none⟩ [.send batchSize, .answer answer] = ⟨(shipOnce E s batchSize answer).2, none⟩ := by
  simp only [shipRun, List.foldl_cons, List.foldl_nil, shipStep, shipOnce]
  by_cases h : listUnsynced s batchSize = []
  · simp [h]
  · cases answer with
    | none => simp [h]
    | some ack => simp [h]

/-! ## What a round selects -/

/-- a strictly sorted list keeps in its prefix what has few smaller elements -/
theorem mem_take_iff {α : Type*} {f : α → ℕ} {l : List α} (hl : l.Pairwise fun x y => f x < f y) {x : α} (hx : x ∈ l)
    (k : ℕ) : x ∈ l.take k ↔ (l.filter fun y => f y < f x).length < k := by
  induction l generalizing k with
  | nil => cases hx
  | cons a l ih =>
    obtain ⟨ha, hl⟩ := List.pairwise_cons.1 hl
    cases k with
    | zero => simp
    | succ k =>
      rcases List.mem_cons.1 hx with rfl | hx
      · have hnone : l.filter (fun y => f y < f x) = [] := by
          rw [List.filter_eq_nil_iff]
          intro y hy
          have hlt := ha y hy
          simp only [decide_eq_true_eq]
          omega
        simp [hnone]
      · have hlt := ha x hx
        have hne : x ≠ a := by
          rintro rfl
          omega
        simp [hne, hlt, ih hl hx k]

variable {E : Env} {s : St} {st : Shipping} {r : UnsyncedRow} {q : ℕ}

theorem mem_listUnsynced {batchSize : ℕ} (h : r ∈ listUnsynced s batchSize) :
    r.toMemoryEvent ∈ s.memoryEvents ∧ shipEligible s r.toMemoryEvent = true ∧
      r.currentScope = (findRow s r.atomId).map (·.scope) := by
  simp only [listUnsynced, List.mem_map] at h
  obtain ⟨e, he, rfl⟩ := h
  obtain ⟨hmem, helig⟩ := List.mem_filter.1 (List.mem_of_mem_take he)
  exact ⟨hmem, helig, rfl⟩

/-- an eligible event is in the batch unless the batch is full of earlier ones -/
theorem listUnsynced_iff (hs : SeqOrdered s) {e : MemoryEvent} (he : e ∈ s.memoryEvents) (helig : shipEligible s e = true)
    (batchSize : ℕ) : (∃ r ∈ listUnsynced s batchSize, r.seq = e.seq) ↔
      ((s.memoryEvents.filter (shipEligible s)).filter fun f => f.seq < e.seq).length < batchSize := by
  rw [← mem_take_iff (f := (·.seq)) (hs.sorted.filter _) (List.mem_filter.2 ⟨he, helig⟩)]
  simp only [listUnsynced, List.mem_map]
  constructor
  · rintro ⟨-, ⟨f, hf, rfl⟩, hseq⟩
    have hfe : f = e := hs.inj (List.mem_of_mem_filter (List.mem_of_mem_take hf)) he hseq
    exact hfe ▸ hf
  · intro hf
    exact ⟨_, ⟨e, hf, rfl⟩, rfl⟩

/-! ## What one event changes in the log -/

/-- the answer an event brings -/
def ShipOp.ack? : ShipOp → Option ShipAck
  | .answer a => a
  | .crash a => a
  | _ => none

/-- the event acknowledges `q` of the request that is out -/
def Acks (st : Shipping) (op : ShipOp) (q : ℕ) : Prop :=
  ∃ rows ack, st.sent = some rows ∧ op.ack? = some ack ∧ q ∈ rows.map (·.seq) ∧ q ≤ ack.ackedSeq ∧
    q ∉ ack.rejectedSeqs

/-- the event rejects `q` of the request that is out -/
def Rejects (st : Shipping) (op : ShipOp) (q : ℕ) : Prop :=
  ∃ rows ack, st.sent = some rows ∧ op.ack? = some ack ∧ q ∈ rows.map (·.seq) ∧ q ∈ ack.rejectedSeqs

theorem mem_rejectedOf {rows : List UnsyncedRow} {ack : ShipAck} :
    q ∈ rejectedOf rows ack ↔ q ∈ rows.map (·.seq) ∧ q ∈ ack.rejectedSeqs := by
  simp [rejectedOf, and_comm]

theorem mem_ackedOf {rows : List UnsyncedRow} {ack : ShipAck} :
    q ∈ ackedOf rows ack ↔ q ∈ rows.map (·.seq) ∧ q ≤ ack.ackedSeq ∧ q ∉ ack.rejectedSeqs := by
  simp only [ackedOf, List.mem_filter, decide_eq_true_eq, mem_rejectedOf]
  constructor
  · rintro ⟨h1, h2, h3⟩
    exact ⟨h1, h2, fun h => h3 ⟨h1, h⟩⟩
  · rintro ⟨h1, h2, h3⟩
    exact ⟨h1, h2, fun h => h3 h.2⟩

/-- the same event, whatever the shipping columns say -/
def Same (e f : MemoryEvent) : Prop := e.toEventRecord = f.toEventRecord ∧ e.seq = f.seq

/-- the rows of `t` are those of `s`; those of `P` may be synced, those of `Q` rejected -/
structure Relabels (P Q : ℕ → Prop) (s t : St) : Prop where
  rows : ∃ f, t.memoryEvents = s.memoryEvents.map f ∧ ∀ e, Same (f e) e ∧
    ((f e).syncedAt = e.syncedAt ∨ P e.seq) ∧ ((f e).rejectedAt = e.rejectedAt ∨ (f e).rejectedAt = none ∨ Q e.seq)
  seqHigh : t.seqHigh = s.seqHigh

section
variable {P Q : ℕ → Prop} {t u : St}

theorem Relabels.refl (s : St) : Relabels P Q s s :=
  ⟨⟨id, by simp, fun _ => ⟨⟨rfl, rfl⟩, Or.inl rfl, Or.inl rfl⟩⟩, rfl⟩

theorem markSynced_relabels {seqs : List ℕ} (h : ∀ q ∈ seqs, P q) : Relabels P Q s (markSynced E s seqs) := by
  unfold markSynced
  split_ifs
  · exact .refl s
  · refine ⟨⟨_, rfl, fun e => ?_⟩, rfl⟩
    split_ifs with he
    · exact ⟨⟨rfl, rfl⟩, Or.inr (h _ he.1), Or.inl rfl⟩
    · exact ⟨⟨rfl, rfl⟩, Or.inl rfl, Or.inl rfl⟩

theorem Relabels.markRejected {seqs : List ℕ} (ht : Relabels P Q s t) (h : ∀ q ∈ seqs, Q q) :
    Relabels P Q s (markRejected E t seqs) := by
  unfold Daemon.markRejected
  split_ifs
  · exact ht
  · obtain ⟨⟨f, hf, hrows⟩, hhigh⟩ := ht
    refine ⟨⟨fun e => _, by simp only [hf, List.map_map]; rfl, fun e => ?_⟩, hhigh⟩
    obtain ⟨hsame, hsync, hrej⟩ := hrows e
    simp only [Function.comp]
    split_ifs with he
    · exact ⟨hsame, hsync, Or.inr (Or.inr (h _ (hsame.2 ▸ he.1)))⟩
    · exact ⟨hsame, hsync, hrej⟩

theorem clearRejected_relabels (seqs : Option (List ℕ)) : Relabels P Q s (clearRejected s seqs) := by
  refine ⟨⟨_, rfl, fun e => ?_⟩, rfl⟩
  split_ifs
  · exact ⟨⟨rfl, rfl⟩, Or.inl rfl, Or.inr (Or.inl rfl)⟩
  · exact ⟨⟨rfl, rfl⟩, Or.inl rfl, Or.inl rfl⟩

theorem SeqOrdered.relabels (h : SeqOrdered s) (ht : Relabels P Q s t) : SeqOrdered t := by
  obtain ⟨⟨f, hf, hrows⟩, hhigh⟩ := ht
  constructor
  · rw [hf, List.pairwise_map]
    refine h.sorted.imp fun hab => ?_
    rwa [(hrows _).1.2, (hrows _).1.2]
  · intro e he
    rw [hf] at he
    obtain ⟨e0, he0, rfl⟩ := List.mem_map.1 he
    rw [(hrows e0).1.2, hhigh]
    exact h.high e0 he0

end

/-- **One event of a run, seen from the log.** New rows go in, or the answer of a round is written to the rows it is
about, or the sweep deletes rows. -/
theorem shipStep_log (st : Shipping) (op : ShipOp) :
    Grows st.db (shipStep E st op).db ∨ Relabels (Acks st op) (Rejects st op) st.db (shipStep E st op).db ∨
      ∃ days now, op = .prune days now := by
  cases op with
  | other op =>
    refine Or.inl ?_
    simp only [shipStep]
    split_ifs with h
    · exact Grows.refl _
    · exact step_grows (by simpa using h)
  | send batchSize =>
    refine Or.inl ?_
    simp only [shipStep]
    split_ifs
    · exact Grows.refl _
    · exact Grows.refl _
  | answer answer =>
    refine Or.inr (Or.inl ?_)
    cases hsent : st.sent with
    | none => simp only [shipStep, hsent]; exact .refl _
    | some rows =>
      cases answer with
      | none => simp only [shipStep, hsent]; exact .refl _
      | some ack =>
        simp only [shipStep, hsent, markShipped_eq]
        refine (markSynced_relabels fun q hq => ?_).markRejected fun q hq => ?_
        · obtain ⟨h1, h2, h3⟩ := mem_ackedOf.1 hq
          exact ⟨rows, ack, hsent, rfl, h1, h2, h3⟩
        · obtain ⟨h1, h2⟩ := mem_rejectedOf.1 hq
          exact ⟨rows, ack, hsent, rfl, h1, h2⟩
  | crash answer =>
    refine Or.inr (Or.inl ?_)
    cases hsent : st.sent with
    | none => simp only [shipStep, hsent]; exact .refl _
    | some rows =>
      cases answer with
      | none => simp only [shipStep, hsent]; exact .refl _
      | some ack =>
        simp only [shipStep, hsent]
        refine markSynced_relabels fun q hq => ?_
        obtain ⟨h1, h2, h3⟩ := mem_ackedOf.1 hq
        exact ⟨rows, ack, hsent, rfl, h1, h2, h3⟩
  | unreject seqs => exact Or.inr (Or.inl (clearRejected_relabels seqs))
  | prune days now => exact Or.inr (Or.inr ⟨days, now, rfl⟩)

/-- the request that is out: it stays, it ends, or a round starts -/
theorem shipStep_sent (st : Shipping) (op : ShipOp) :
    (shipStep E st op).sent = st.sent ∨ (shipStep E st op).sent = none ∨
      ∃ n, op = .send n ∧ st.sent = none ∧ shipStep E st op = { st with sent := some (listUnsynced st.db n) } := by
  cases op with
  | other op =>
    simp only [shipStep]
    split_ifs
    · exact Or.inl rfl
    · exact Or.inl rfl
  | send n =>
    simp only [shipStep]
    split_ifs with h
    · exact Or.inl rfl
    · exact Or.inr (Or.inr ⟨n, rfl, not_not.1 fun hs => h (Or.inl hs), rfl⟩)
  | answer answer =>
    simp only [shipStep]
    split
    · exact Or.inr (Or.inl rfl)
    · exact Or.inr (Or.inl rfl)
  | crash answer =>
    simp only [shipStep]
    split
    · exact Or.inr (Or.inl rfl)
    · exact Or.inr (Or.inl rfl)
  | unreject seqs => exact Or.inl rfl
  | prune days now => exact Or.inl rfl

theorem SeqOrdered.shipStep (h : SeqOrdered st.db) (op : ShipOp) : SeqOrdered (shipStep E st op).db := by
  rcases shipStep_log (E := E) st op with hg | hr | ⟨days, now, rfl⟩
  · exact h.grows hg
  · exact h.relabels hr
  · exact ⟨h.sorted.filter _, fun e he => h.high e (List.mem_of_mem_filter he)⟩

theorem SeqOrdered.shipRun (h : SeqOrdered st.db) (ops : List ShipOp) : SeqOrdered (shipRun E st ops).db :=
  along_inv (fun v : Shipping => SeqOrdered v.db) (fun _ op hv _ => hv.shipStep op) h (along_trivial _ _ _)

/-- where a row of the log comes from: it is new and unmarked, or an old one, which only the answer of its round marks -/
theorem shipStep_row {op : ShipOp} {e : MemoryEvent} (he : e ∈ (shipStep E st op).db.memoryEvents) :
    (st.db.seqHigh < e.seq ∧ e.syncedAt = none ∧ e.rejectedAt = none) ∨
      ∃ f ∈ st.db.memoryEvents, Same e f ∧ (e.syncedAt = f.syncedAt ∨ Acks st op e.seq) ∧
        (e.rejectedAt = f.rejectedAt ∨ e.rejectedAt = none ∨ Rejects st op e.seq) := by
  rcases shipStep_log (E := E) st op with ⟨es, hlog, -⟩ | ⟨⟨f, hf, hrows⟩, -⟩ | ⟨days, now, rfl⟩
  · rw [hlog, List.mem_append] at he
    rcases he with he | he
    · exact Or.inr ⟨e, he, ⟨rfl, rfl⟩, Or.inl rfl, Or.inl rfl⟩
    · exact Or.inl ⟨(stamped_seq he).1, stamped_unmarked he⟩
  · rw [hf] at he
    obtain ⟨e0, he0, rfl⟩ := List.mem_map.1 he
    obtain ⟨hsame, hsync, hrej⟩ := hrows e0
    exact Or.inr ⟨e0, he0, hsame, hsame.2 ▸ hsync, hsame.2 ▸ hrej⟩
  · exact Or.inr ⟨e, List.mem_of_mem_filter he, ⟨rfl, rfl⟩, Or.inl rfl, Or.inl rfl⟩

/-! ## Acknowledgements -/

/-- the request that is out is about rows of the log -/
def Current (st : Shipping) : Prop :=
  ∀ rows, st.sent = some rows → ∀ r ∈ rows, r.seq ≤ st.db.seqHigh ∧
    ∀ e ∈ st.db.memoryEvents, e.seq = r.seq → Same e r.toMemoryEvent

theorem seqHigh_le (E : Env) (st : Shipping) (op : ShipOp) : st.db.seqHigh ≤ (shipStep E st op).db.seqHigh := by
  rcases shipStep_log (E := E) st op with ⟨es, -, hh⟩ | ⟨-, hh⟩ | ⟨days, now, rfl⟩
  · omega
  · exact hh.ge
  · exact le_rfl

theorem Current.shipStep (hs : SeqOrdered st.db) (h : Current st) (op : ShipOp) : Current (shipStep E st op) := by
  rcases shipStep_sent (E := E) st op with hsent | hsent | ⟨n, rfl, -, heq⟩
  · intro rows hrows r hr
    obtain ⟨hle, hsame⟩ := h rows (hsent ▸ hrows) r hr
    refine ⟨hle.trans (seqHigh_le E st op), fun e he hseq => ?_⟩
    rcases shipStep_row he with ⟨hlt, -, -⟩ | ⟨f, hf, hef, -⟩
    · omega
    · obtain ⟨h1, h2⟩ := hsame f hf (hef.2 ▸ hseq)
      exact ⟨hef.1.trans h1, hseq⟩
  · intro rows hrows
    rw [hsent] at hrows
    cases hrows
  · rw [heq]
    intro rows hrows r hr
    obtain rfl := Option.some.inj hrows
    obtain ⟨hmem, -, -⟩ := mem_listUnsynced hr
    refine ⟨hs.high _ hmem, fun e he hseq => ?_⟩
    rw [hs.inj he hmem hseq]
    exact ⟨rfl, rfl⟩

theorem current_run (hs : SeqOrdered st.db) (h : Current st) (ops : List ShipOp) : Current (shipRun E st ops) := by
  have hend : SeqOrdered (shipRun E st ops).db ∧ Current (shipRun E st ops) :=
    along_inv (fun v : Shipping => SeqOrdered v.db ∧ Current v)
      (fun v op hv _ => ⟨hv.1.shipStep op, hv.2.shipStep hv.1 op⟩) ⟨hs, h⟩ (along_trivial _ _ ops)
  exact hend.2

/-- a round of the run acknowledged the event: it was in the batch, not after `acked_seq`, not rejected -/
def AckedIn (E : Env) (st : Shipping) (ops : List ShipOp) (e : MemoryEvent) : Prop :=
  ∃ pre op post rows ack, ops = pre ++ op :: post ∧ (shipRun E st pre).sent = some rows ∧ op.ack? = some ack ∧
    (∃ r ∈ rows, Same e r.toMemoryEvent) ∧ e.seq ≤ ack.ackedSeq ∧ e.seq ∉ ack.rejectedSeqs

theorem AckedIn.snoc {ops : List ShipOp} {e f : MemoryEvent} (h : AckedIn E st ops f) (hef : Same e f) (op : ShipOp) :
    AckedIn E st (ops ++ [op]) e := by
  obtain ⟨pre, o, post, rows, ack, rfl, hsent, hack, ⟨r, hr, hsame⟩, hle, hrej⟩ := h
  refine ⟨pre, o, post ++ [op], rows, ack, by simp, hsent, hack, ⟨r, hr, ?_⟩, hef.2 ▸ hle, hef.2 ▸ hrej⟩
  exact ⟨hef.1.trans hsame.1, hef.2.trans hsame.2⟩

/-- By induction on the run, from its end. -/
theorem synced_was_acked (hs : SeqOrdered st.db) (hc : Current st) (ops : List ShipOp) :
    ∀ e ∈ (shipRun E st ops).db.memoryEvents, e.syncedAt ≠ none →
      (∃ f ∈ st.db.memoryEvents, Same e f ∧ f.syncedAt ≠ none) ∨ AckedIn E st ops e := by
  induction ops using List.reverseRecOn with
  | nil => exact fun e he hsync => Or.inl ⟨e, he, ⟨rfl, rfl⟩, hsync⟩
  | append_singleton ops op ih =>
    intro e he hsync
    have hlast := he
    rw [shipRun_snoc] at hlast
    rcases shipStep_row hlast with ⟨-, hnone, -⟩ | ⟨f, hf, hef, hmark | ⟨rows, ack, hsent, hack, hq, hle, hrej⟩, -⟩
    · exact absurd hnone hsync
    · rcases ih f hf (hmark ▸ hsync) with ⟨g, hg, hfg, hgs⟩ | hacked
      · exact Or.inl ⟨g, hg, ⟨hef.1.trans hfg.1, hef.2.trans hfg.2⟩, hgs⟩
      · exact Or.inr (hacked.snoc hef op)
    · obtain ⟨r, hr, hseq⟩ := List.mem_map.1 hq
      obtain ⟨h1, h2⟩ := (current_run hs hc ops rows hsent r hr).2 f hf (hef.2 ▸ hseq.symm)
      exact Or.inr ⟨ops, op, [], rows, ack, rfl, hsent, hack, ⟨r, hr, hef.1.trans h1, hef.2.trans h2⟩, hle, hrej⟩

/-! ## What goes out -/

/-- the scope clause of `listUnsynced`: the atom has a team/org row, or the event is an erase that records such a scope -/
def InScope (s : St) (e : MemoryEvent) : Prop :=
  shared ((findRow s e.atomId).map (·.scope)) = true ∨
    e.eventType = .eraseRequest ∧ shared (e.payloadJson.bind (·.scope)) = true

instance (s : St) (e : MemoryEvent) : Decidable (InScope s e) := inferInstanceAs (Decidable (_ ∨ _ ∧ _))

theorem shipEligible_iff {e : MemoryEvent} : shipEligible s e = true ↔
    e.syncedAt = none ∧ e.rejectedAt = none ∧ localOnly e.eventType = false ∧ InScope s e := by
  simp [shipEligible, InScope]

/-- a request holds a batch that `listUnsynced` selected -/
theorem sent_was_listed (ops : List ShipOp) {rows : List UnsyncedRow} (h : (shipRun E st ops).sent = some rows)
    (hst : st.sent = none) : ∃ pre n post, ops = pre ++ .send n :: post ∧
      rows = listUnsynced (shipRun E st pre).db n := by
  induction ops using List.reverseRecOn with
  | nil =>
    rw [show (shipRun E st []).sent = none from hst] at h
    cases h
  | append_singleton ops op ih =>
    rw [shipRun_snoc] at h
    rcases shipStep_sent (E := E) (shipRun E st ops) op with hsent | hsent | ⟨n, rfl, -, heq⟩
    · obtain ⟨pre, n, post, rfl, hrows⟩ := ih (hsent ▸ h)
      exact ⟨pre, n, post ++ [op], by simp, hrows⟩
    · rw [hsent] at h
      cases h
    · rw [heq] at h
      exact ⟨ops, n, [], rfl, (Option.some.inj h).symm⟩

/-- the scope a 'create' event goes out with -/
theorem buildEnvelope_create {rows : List UnsyncedRow} (h : ∀ r ∈ rows, r.eventType = .create → shared r.currentScope)
    {w : WireSyncEvent} (hw : w ∈ buildEnvelope rows) (hty : w.eventType = .create) {p : Payload}
    (hp : w.payloadJson = some p) : shared p.scope = true := by
  obtain ⟨r, hr, rfl⟩ := List.mem_map.1 hw
  simp only at hty hp
  have hscope := h r hr hty
  cases hc : r.currentScope with
  | none => rw [hc] at hscope; cases hscope
  | some scope =>
    cases hpay : r.payloadJson with
    | none => simp [withCurrentScope, hty, hpay] at hp
    | some payload =>
      simp only [withCurrentScope, hty, hpay, hc, Option.map_some, Option.some.injEq] at hp
      rw [← hp]
      exact hc ▸ hscope

/-! ## The tail of a round -/

/-- the event waits in the log to be shipped -/
def Waits (e : MemoryEvent) (s : St) : Prop :=
  ∃ f ∈ s.memoryEvents, Same f e ∧ f.syncedAt = none ∧ f.rejectedAt = none

/-- the answer, if the event of the run is one, neither acknowledges nor rejects `e`, whose atom keeps its scope -/
def Spares (e : MemoryEvent) (st : Shipping) (op : ShipOp) : Prop :=
  ¬ Acks st op e.seq ∧ ¬ Rejects st op e.seq ∧ InScope st.db e

theorem InScope.not_prunable {e f : MemoryEvent} (h : InScope s e) (hf : Same f e) (hs : f.syncedAt = none)
    (cutoff : Time) : recallServedPrunable s cutoff f = false := by
  obtain ⟨hrec, -⟩ := hf
  have hty : f.eventType = e.eventType := congrArg (·.eventType) hrec
  have hatom : f.atomId = e.atomId := congrArg (·.atomId) hrec
  rw [recallServedPrunable, decide_eq_false_iff_not]
  rintro ⟨huse, -, -, hsync | hscope⟩
  · exact hsync hs
  · rcases h with h | ⟨h, -⟩
    · apply hscope
      rw [hatom]
      cases hrow : findRow s e.atomId with
      | none => rw [hrow] at h; cases h
      | some m => simpa [hrow, shared] using h
    · rw [hty, h] at huse
      cases huse

theorem Waits.step {e : MemoryEvent} {op : ShipOp} (h : Waits e st.db) (hop : Spares e st op) :
    Waits e (shipStep E st op).db := by
  obtain ⟨f, hf, hfe, hsync, hrej⟩ := h
  rcases shipStep_log (E := E) st op with ⟨es, hlog, -⟩ | ⟨⟨g, hg, hrows⟩, -⟩ | ⟨days, now, rfl⟩
  · exact ⟨f, by rw [hlog]; exact List.mem_append_left _ hf, hfe, hsync, hrej⟩
  · obtain ⟨hsame, hs, hr⟩ := hrows f
    refine ⟨g f, by rw [hg]; exact List.mem_map_of_mem hf, ⟨hsame.1.trans hfe.1, hsame.2.trans hfe.2⟩, ?_, ?_⟩
    · rcases hs with hs | hs
      · exact hs.trans hsync
      · exact absurd (hfe.2 ▸ hs) hop.1
    · rcases hr with hr | hr | hr
      · exact hr.trans hrej
      · exact hr
      · exact absurd (hfe.2 ▸ hr) hop.2.1
  · refine ⟨f, List.mem_filter.2 ⟨hf, ?_⟩, hfe, hsync, hrej⟩
    simp [hop.2.2.not_prunable hfe hsync]

theorem Waits.run {e : MemoryEvent} {ops : List ShipOp} (h : Waits e st.db)
    (hops : Along (shipStep E) (Spares e) st ops) : Waits e (shipRun E st ops).db :=
  along_inv (fun v : Shipping => Waits e v.db) (fun _ _ hv hop => hv.step hop) h hops

/-- **Ship rounds.** Along every run from an ordered log, whatever the answers, failures and crashes, and whatever runs
in between:
- a row that is synced was synced at the start, or a round whose batch held it acknowledged it and did not reject it;
- a request holds what `listUnsynced` selected: no local-only event, and only events of atoms that are team/org at that
  moment, or erases that record such a scope; a 'create' never goes out under a private scope;
- an event of a batch that no answer acknowledges or rejects waits in the log, and as long as its atom stays in scope
  every round offers it again, unless the batch is full of earlier events. -/
theorem ship_rounds (E : Env) (db : St) (hdb : SeqOrdered db) (ops : List ShipOp) :
    (∀ e ∈ (shipRun E ⟨db, none⟩ ops).db.memoryEvents, e.syncedAt ≠ none →
      (∃ f ∈ db.memoryEvents, Same e f ∧ f.syncedAt ≠ none) ∨ AckedIn E ⟨db, none⟩ ops e) ∧
    (∀ rows, (shipRun E ⟨db, none⟩ ops).sent = some rows → ∃ pre n post, ops = pre ++ .send n :: post ∧
      rows = listUnsynced (shipRun E ⟨db, none⟩ pre).db n ∧
      (∀ r ∈ rows, localOnly r.eventType = false ∧ InScope (shipRun E ⟨db, none⟩ pre).db r.toMemoryEvent) ∧
      ∀ w ∈ buildEnvelope rows, w.eventType = .create → ∀ p, w.payloadJson = some p → shared p.scope = true) ∧
    (∀ pre n post, ops = pre ++ .send n :: post → ∀ r ∈ listUnsynced (shipRun E ⟨db, none⟩ pre).db n,
      Along (shipStep E) (Spares r.toMemoryEvent) (shipRun E ⟨db, none⟩ (pre ++ [.send n])) post →
      InScope (shipRun E ⟨db, none⟩ ops).db r.toMemoryEvent →
      Waits r.toMemoryEvent (shipRun E ⟨db, none⟩ ops).db ∧
      ∀ k, (∃ r' ∈ listUnsynced (shipRun E ⟨db, none⟩ ops).db k, Same r'.toMemoryEvent r.toMemoryEvent) ↔
        (((shipRun E ⟨db, none⟩ ops).db.memoryEvents.filter (shipEligible (shipRun E ⟨db, none⟩ ops).db)).filter
          fun f => f.seq < r.seq).length < k) := by
  refine ⟨synced_was_acked hdb (fun _ h => by cases h) ops, fun rows hrows => ?_, fun pre n post hops r hr hspare hin => ?_⟩
  · obtain ⟨pre, n, post, hops, rfl⟩ := sent_was_listed ops hrows rfl
    have hrow : ∀ r ∈ listUnsynced (shipRun E ⟨db, none⟩ pre).db n,
        localOnly r.eventType = false ∧ InScope (shipRun E ⟨db, none⟩ pre).db r.toMemoryEvent := by
      intro r hr
      obtain ⟨-, -, hlocal, hin⟩ := shipEligible_iff.1 (mem_listUnsynced hr).2.1
      exact ⟨hlocal, hin⟩
    refine ⟨pre, n, post, hops, rfl, hrow, fun w hw hty p hp => ?_⟩
    refine buildEnvelope_create (fun r hr hcreate => ?_) hw hty hp
    rw [(mem_listUnsynced hr).2.2]
    rcases (hrow r hr).2 with hin | ⟨herase, -⟩
    · exact hin
    · rw [hcreate] at herase
      cases herase
  · obtain ⟨hmem, helig, -⟩ := mem_listUnsynced hr
    obtain ⟨hsync, hrej, hlocal, -⟩ := shipEligible_iff.1 helig
    have hsend : (shipRun E ⟨db, none⟩ (pre ++ [.send n])).db = (shipRun E ⟨db, none⟩ pre).db := by
      rw [shipRun_snoc]
      simp only [shipStep]
      split_ifs
      · rfl
      · rfl
    have hw : Waits r.toMemoryEvent (shipRun E ⟨db, none⟩ ops).db := by
      rw [hops, show pre ++ ShipOp.send n :: post = (pre ++ [.send n]) ++ post by simp, shipRun_append]
      exact Waits.run ⟨r.toMemoryEvent, hsend ▸ hmem, ⟨rfl, rfl⟩, hsync, hrej⟩ hspare
    refine ⟨hw, fun k => ?_⟩
    obtain ⟨f, hf, hfr, hfs, hfj⟩ := hw
    have hstart : SeqOrdered (⟨db, none⟩ : Shipping).db := hdb
    have hord : SeqOrdered (shipRun E ⟨db, none⟩ ops).db := hstart.shipRun ops
    have hfe : shipEligible (shipRun E ⟨db, none⟩ ops).db f = true := by
      refine shipEligible_iff.2 ⟨hfs, hfj, ?_, ?_⟩
      · rw [show f.eventType = r.eventType from congrArg (·.eventType) hfr.1]
        exact hlocal
      · rw [InScope, hfr.1]
        exact hin
    rw [← hfr.2, ← listUnsynced_iff hord hf hfe k]
    constructor
    · rintro ⟨r', hr', hsame⟩
      exact ⟨r', hr', hsame.2.trans hfr.2.symm⟩
    · rintro ⟨r', hr', hseq⟩
      have hsame := hord.inj (mem_listUnsynced hr').1 hf hseq
      exact ⟨r', hr', hsame ▸ hfr⟩

theorem seqOrdered_empty : SeqOrdered {} := ⟨List.Pairwise.nil, fun _ he => by cases he⟩

/-- two team atoms are shipped, and the answer acknowledges the first -/
def partialAck : List ShipOp :=
  [.other (.remember { rememberInput 1 "a" with scope := some .team }),
    .other (.remember { rememberInput 2 "b" with scope := some .team }), .send 5, .answer (some ⟨1, []⟩)]

theorem ship_rounds_partialAck :
    (shipRun countingEnv ⟨{}, none⟩ partialAck).db.memoryEvents.map (fun e => (e.seq, e.syncedAt.isSome)) =
      [(1, true), (2, false)] ∧
    ∀ e ∈ (shipRun countingEnv ⟨{}, none⟩ partialAck).db.memoryEvents, e.syncedAt ≠ none →
      (∃ f ∈ ({} : St).memoryEvents, Same e f ∧ f.syncedAt ≠ none) ∨ AckedIn countingEnv ⟨{}, none⟩ partialAck e :=
  ⟨by decide, (ship_rounds countingEnv {} seqOrdered_empty partialAck).1⟩

/-- **Not every event beyond a partial ack is offered again.** The second atom is erased before the next round: its
'create' event stays in the log, not synced and not rejected, and no round selects it. -/
theorem erased_tail_not_offered :
    (shipRun countingEnv ⟨{}, none⟩ (partialAck.take 3)).sent.map (·.map (·.seq)) = some [1, 2] ∧
    ∃ e ∈ (shipRun countingEnv ⟨{}, none⟩ (partialAck ++ [.other (.erase 2 none)])).db.memoryEvents, e.seq = 2 ∧
      e.syncedAt = none ∧ e.rejectedAt = none ∧
      shipEligible (shipRun countingEnv ⟨{}, none⟩ (partialAck ++ [.other (.erase 2 none)])).db e = false := by
  decide

end AstramemLocal.Daemon
