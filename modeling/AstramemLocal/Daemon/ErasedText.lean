/-
What is left of a memory's text after an erase. The row, its links and its vector go; the log is append-only, and the
'create' event of a memory stored on this device has the text in its payload.
* `erased_text_gone`: an erase, local or pulled, leaves no copy exactly when no event of the atom held one. That is never
  so for a memory stored on this device. No later ship round sends what is left.
* `erase_keeps_text`: the create event of an erased memory, with the text.
-/
import AstramemLocal.Daemon.Erasure

namespace AstramemLocal.Daemon

open AstramemLocal.Store AstramemLocal.Sync AstramemLocal.Distill AstramemLocal.Core Relation

def occurs (text x : String) : Bool := text.toList <:+: x.toList

/-- the text occurs in a string of the payload -/
def holdsText (text : String) (e : EventRecord) : Bool := e.payloadJson.any fun p => p.strings.any (occurs text)

/-- an event of the atom holds the text -/
def Copied (L : List EventRecord) (a : AtomId) (text : String) : Prop := ∃ e ∈ L, e.atomId = a ∧ holdsText text e = true

/-- nothing is left of the memory with this rowid and text -/
structure Gone (t : St) (a : AtomId) (rowid : ℕ) (text : String) : Prop where
  row : findRow t a = none
  vec : rowid ∉ t.memoriesVec
  log : ¬ Copied (records t) a text

variable {E : Env} {Q : AtomId → AtomId → Prop} {A : St → Hash → Prop} {K : Memory → Prop} {s t : St}
  {batch : PullBatch} {a : AtomId} {m : Memory} {text : String} {L L' : List EventRecord}

theorem Copied.mono (h : Copied L a text) (hL : ∀ e ∈ L, e ∈ L') : Copied L' a text := by
  obtain ⟨e, he, hx⟩ := h
  exact ⟨e, hL e he, hx⟩

theorem copied_append {ev : EventRecord} (hev : ev.atomId = a) :
    Copied (L ++ [ev]) a text ↔ Copied L a text ∨ holdsText text ev = true := by
  constructor
  · rintro ⟨e, he, hea, hx⟩
    rcases List.mem_append.1 he with he | he
    · exact Or.inl ⟨e, he, hea, hx⟩
    · rw [List.mem_singleton.1 he] at hx
      exact Or.inr hx
  · rintro (h | hx)
    · exact h.mono fun e he => List.mem_append_left _ he
    · exact ⟨ev, List.mem_append_right _ List.mem_cons_self, hev, hx⟩

/-- the atom is erased and has no row -/
structure Departed (a : AtomId) (s : St) : Prop where
  erased : Erased (records s) a
  row : findRow s a = none

/-! ## A local erase -/

theorem step_erase {reason : Option String} (hm : findRow s a = some m) : step E s (.erase a reason) =
    deleteRow (deleteVec (append E (tick s) .eraseRequest a (some { scope := some m.scope, reason }) (some m.hash)
      (E.now s.clock)) m.rowid) a := by
  simp only [step, exec, Store.erase, hm, Except.mapError]

theorem erase_gone_iff {reason : Option String} (hm : findRow s a = some m) :
    Gone (step E s (.erase a reason)) a m.rowid text ↔ ¬ Copied (records s) a text ∧ reason.any (occurs text) = false := by
  have hlog : Copied (records (step E s (.erase a reason))) a text ↔
      Copied (records s) a text ∨ reason.any (occurs text) = true := by
    rw [step_erase hm, deleteRow_records, deleteVec_records, append_records, copied_append rfl]
    cases reason <;> simp [holdsText, Payload.strings]
  constructor
  · rintro ⟨-, -, hno⟩
    rw [hlog, not_or, Bool.not_eq_true] at hno
    exact hno
  · intro hno
    refine ⟨by rw [step_erase hm, findRow_deleteRow_self], fun hc => ?_, by rwa [hlog, not_or, Bool.not_eq_true]⟩
    rw [step_erase hm] at hc
    have hc : m.rowid ∈ s.memoriesVec.filter (· ≠ m.rowid) := hc
    simp at hc

theorem erase_departed {reason : Option String} (hm : findRow s a = some m) :
    Departed a (step E s (.erase a reason)) := by
  rw [step_erase hm]
  refine ⟨?_, findRow_deleteRow_self _ _⟩
  rw [deleteRow_records, deleteVec_records, append_records]
  exact ⟨_, List.mem_append_right _ List.mem_cons_self, rfl, rfl⟩

/-! ## A pulled erase -/

/-- an erased atom has no row once it is recomputed -/
theorem departs_effects {R : AtomId → St → Prop} {C : AtomId → AtomId → Time → Prop} {J : St → Prop} (a : AtomId) :
    Effects E R C J fun P u => Erased (records u) a ∧ (a ∉ P → findRow u a = none) where
  weaken hPP h := ⟨h.1, fun hn => h.2 fun hp => hn (hPP hp)⟩
  erased {P u b} _ _ h _ := by
    refine ⟨by rw [hardDeleteAtom_records]; exact h.1, fun hn => ?_⟩
    rw [findRow_hardDeleteAtom]
    split_ifs with hab
    · rfl
    · exact h.2 fun hp => hn ⟨hp, hab⟩
  absent {P u b} _ _ h hk _ := ⟨h.1, fun hn => h.2 fun hp => hn ⟨hp, by rintro rfl; exact hk h.1⟩⟩
  quiet {P u b} _ _ h hp _ _ := ⟨h.1, fun hn => h.2 fun hP => hn ⟨hP, by rintro rfl; exact hp.kept h.1⟩⟩
  unresolved {P u b} _ _ h hp _ _ := ⟨h.1, fun hn => h.2 fun hP => hn ⟨hP, by rintro rfl; exact hp.kept h.1⟩⟩
  invalidated {P u b v} _ _ h hp _ _ := by
    refine ⟨h.1, fun hn => ?_⟩
    rw [findRow_hideInvalidated, Option.map_eq_none_iff]
    exact h.2 fun hP => hn ⟨hP, by rintro rfl; exact hp.kept h.1⟩
  superseded {P u b w v} _ _ h hp _ _ := by
    refine ⟨h.1, fun hn => ?_⟩
    rw [findRow_hideSuperseded, Option.map_eq_none_iff]
    exact h.2 fun hP => hn ⟨hP, by rintro rfl; exact hp.kept h.1⟩
  chain {P u y w at_} _ h _ _ := by
    obtain ⟨⟨e, he, hex⟩, hrow⟩ := h
    refine ⟨⟨e, ?_, hex⟩, fun hn => hrow fun hp => hn (Or.inr hp)⟩
    rw [chainEvent_records]
    exact List.mem_append_left _ he

/-- a recompute changes the rowid of no memory, and takes its vector with its row -/
theorem vec_effects {R : AtomId → St → Prop} {C : AtomId → AtomId → Time → Prop} {J : St → Prop} (a : AtomId) (k : ℕ) :
    Effects E R C J fun _ u => (∀ x, findRow u a = some x → x.rowid = k) ∧ (findRow u a = none → k ∉ u.memoriesVec) where
  weaken _ h := h
  erased {P u b} _ _ h _ := by
    refine ⟨fun x hx => ?_, fun hn => ?_⟩
    · rw [findRow_hardDeleteAtom] at hx
      split_ifs at hx
      exact h.1 x hx
    · cases hb : findRow u b with
      | none =>
        have hdel : hardDeleteAtom u b = u := by simp only [hardDeleteAtom, hb]
        rw [hdel] at hn ⊢
        exact h.2 hn
      | some row =>
        have hdel : hardDeleteAtom u b = deleteRow (deleteVec u row.rowid) b := by simp only [hardDeleteAtom, hb]
        have hvec : (deleteRow (deleteVec u row.rowid) b).memoriesVec = u.memoriesVec.filter (· ≠ row.rowid) := rfl
        rw [hdel, findRow_deleteRow] at hn
        rw [hdel, hvec, List.mem_filter]
        rintro ⟨hk, hne⟩
        split_ifs at hn with hab
        · subst hab
          simp [h.1 row hb] at hne
        · exact h.2 hn hk
  absent _ _ h _ _ := h
  quiet _ _ h _ _ _ := h
  unresolved _ _ h _ _ _ := h
  invalidated {P u b v} _ _ h _ _ _ := by
    refine ⟨fun x hx => ?_, fun hn => ?_⟩
    · rw [findRow_hideInvalidated, Option.map_eq_some_iff] at hx
      obtain ⟨y, hy, rfl⟩ := hx
      rw [← h.1 y hy]
      split_ifs <;> rfl
    · rw [findRow_hideInvalidated, Option.map_eq_none_iff] at hn
      exact h.2 hn
  superseded {P u b w v} _ _ h _ _ _ := by
    refine ⟨fun x hx => ?_, fun hn => ?_⟩
    · rw [findRow_hideSuperseded, Option.map_eq_some_iff] at hx
      obtain ⟨y, hy, rfl⟩ := hx
      rw [← h.1 y hy]
      split_ifs <;> rfl
    · rw [findRow_hideSuperseded, Option.map_eq_none_iff] at hn
      exact h.2 hn
  chain _ h _ _ := h

/-- what a recompute logs has a `conflict_merge` payload -/
theorem mergePayload_effects {R : AtomId → St → Prop} {C : AtomId → AtomId → Time → Prop} {J : St → Prop}
    (L : List EventRecord) :
    Effects E R C J fun _ u => ∀ e ∈ records u, e ∈ L ∨ ∃ w, e.payloadJson = some (mergePayload w) where
  weaken _ h := h
  erased _ _ h _ := by rwa [hardDeleteAtom_records]
  absent _ _ h _ _ := h
  quiet _ _ h _ _ _ := h
  unresolved _ _ h _ _ _ := h
  invalidated _ _ h _ _ _ := h
  superseded _ _ h _ _ _ := h
  chain {P u y w at_} _ h _ _ e he := by
    rw [chainEvent_records] at he
    rcases List.mem_append.1 he with he | he
    · exact h e he
    · rw [List.mem_singleton.1 he]
      exact Or.inr ⟨w, rfl⟩

/-- an atom with an erase_request does not come back -/
theorem pull_departs (hp : pullOnce E s batch = .ok t) (he : Erased (pulledLog s batch) a)
    (hrow : findRow s a = none ∨ Touched s batch a) : Departed a t := by
  have herased : Erased (records t) a := by
    obtain ⟨e, he, hex⟩ := he
    exact ⟨e, pulledLog_records hp e he, hex⟩
  refine ⟨herased, ?_⟩
  rcases pull_rule hp with ⟨hnil, rfl⟩ | ⟨m, touched, u, hm, rfl, -, hI⟩
  · refine hrow.resolve_right ?_
    rintro ⟨e, he, -⟩
    rw [incoming, hnil] at he
    exact absurd he List.not_mem_nil
  · refine (hI _ (departs_effects a) ⟨by rw [hm.log]; exact he, fun hn => ?_⟩).2 (Set.notMem_empty a)
    -- only a new 'create' event of the atom makes a row
    have hrow := hrow.resolve_right hn
    by_contra hc
    obtain ⟨x, hx⟩ := Option.ne_none_iff_exists'.1 hc
    obtain ⟨e, he, hea, -⟩ := hm.made_row hx hrow
    exact hn ⟨e, he, hea⟩

/-- a pulled erase_request -/
theorem pull_gone (text : String) (hm : findRow s a = some m) (hp : pullOnce E s batch = .ok t)
    (he : ∃ e ∈ incoming s batch, e.atomId = a ∧ e.eventType = .eraseRequest) :
    (Gone t a m.rowid text → ¬ Copied (pulledLog s batch) a text) ∧
      (¬ Copied (pulledLog s batch) a text → ¬ (pullForks E s batch).Chained a ∨ occurs text conflictMerge = false →
        Gone t a m.rowid text) := by
  obtain ⟨e, he, hea, hty⟩ := he
  have herased : Erased (pulledLog s batch) a :=
    ⟨_, List.mem_append_right _ (List.mem_map_of_mem he), hea, hty⟩
  have hrow := (pull_departs hp herased (Or.inr ⟨e, he, hea⟩)).row
  rcases pull_rule hp with ⟨hnil, -⟩ | ⟨n, touched, u, hn, rfl, hu, hI⟩
  · rw [incoming, hnil] at he
    exact absurd he List.not_mem_nil
  refine ⟨fun hg hc => hg.log (hc.mono hu.base), fun hno hmerge => ⟨hrow, ?_, ?_⟩⟩
  · refine (hI _ (vec_effects a m.rowid) ⟨fun x hx => ?_, fun hx => ?_⟩).2 hrow
    · rw [hn.findRow_of_some hm, Option.some.injEq] at hx
      rw [hx]
    · rw [hn.findRow_of_some hm] at hx
      cases hx
  · rintro ⟨f, hf, hfa, hx⟩
    have hlog := hI _ (mergePayload_effects (pulledLog s batch)) fun f hf => Or.inl (by rwa [hn.log] at hf)
    rcases hlog f hf with hf' | ⟨w, hw⟩
    · exact hno ⟨f, hf', hfa, hx⟩
    · rcases hmerge with hch | hocc
      · exact hno ⟨f, ((hu.sameLog hch) f hfa).1 hf, hfa, hx⟩
      · have hmp : holdsText text f = occurs text conflictMerge := by
          simp [holdsText, hw, mergePayload, Payload.strings]
        rw [hmp, hocc] at hx
        cases hx

/-! ## Memories stored on this device -/

/-- the row of the atom has its text in an event of its own -/
def Recorded (a : AtomId) (s : St) : Prop :=
  ∀ x, findRow s a = some x → ∃ e ∈ records s, e.atomId = a ∧ e.payloadJson.bind (·.text) = some x.text

theorem Recorded.of_rows (h : Recorded a s) (hlog : ∀ e ∈ records s, e ∈ records t)
    (hrows : ∀ x, findRow t a = some x → ∃ y, findRow s a = some y ∧ y.text = x.text) : Recorded a t := by
  intro x hx
  obtain ⟨y, hy, hyx⟩ := hrows x hx
  obtain ⟨e, he, hea, htext⟩ := h y hy
  exact ⟨e, hlog e he, hea, hyx ▸ htext⟩

theorem findRow_updateRow_text {b : AtomId} {f : Memory → Memory} (hid : ∀ m, (f m).id = m.id)
    (htext : ∀ m, (f m).text = m.text) {x : Memory} (hx : findRow (updateRow s b f) a = some x) :
    ∃ y, findRow s a = some y ∧ y.text = x.text := by
  rw [findRow_updateRow s b a hid] at hx
  obtain ⟨y, hy, rfl⟩ := Option.map_eq_some_iff.1 hx
  refine ⟨y, hy, ?_⟩
  split_ifs
  · exact (htext y).symm
  · rfl

theorem Recorded.effect (h : Recorded a s) (he : Effect E Q A K s t) : Recorded a t := by
  have hlog := he.records_sub
  have hsame : (∀ x, findRow t a = some x → findRow s a = some x) → Recorded a t := fun hrow =>
    h.of_rows hlog fun x hx => ⟨x, hrow x hx, rfl⟩
  cases he with
  | frame hf => exact hsame fun x hx => by rwa [findRow_congr hf.memories] at hx
  | inserted input rowid now at_ _ _ hn =>
    intro x hx
    rw [findRow_inserted hn] at hx
    split_ifs at hx with ha
    · obtain rfl := Option.some.inj hx
      rw [append_records]
      exact ⟨_, List.mem_append_right _ List.mem_cons_self, ha.symm, rfl⟩
    · obtain ⟨e, he, hex⟩ := h x hx
      exact ⟨e, hlog e he, hex⟩
  | rewritten now p _ hr =>
    exact h.of_rows hlog fun x hx => findRow_updateRow_text hr.id_eq (fun _ => by cases hr <;> rfl) hx
  | touched validFrom now =>
    exact h.of_rows hlog fun x hx => findRow_updateRow_text (by intro _; rfl) (by intro _; rfl) hx
  | superseded p now =>
    exact h.of_rows hlog fun x hx => findRow_updateRow_text (by intro _; rfl) (by intro _; rfl) hx
  | noted b p now => exact hsame fun x hx => hx
  | erased reason now _ =>
    refine hsame fun x hx => ?_
    rw [findRow_deleteRow] at hx
    split_ifs at hx
    exact hx
  | linked link => exact hsame fun x hx => hx
  | related r => exact hsame fun x hx => hx
  | vectored => exact hsame fun x hx => hx

theorem occurs_self (text : String) : occurs text text = true := by
  simp [occurs]

theorem holdsText_of_text {e : EventRecord} (h : e.payloadJson.bind (·.text) = some text) : holdsText text e = true := by
  obtain ⟨p, hp, htext⟩ := Option.bind_eq_some_iff.1 h
  simp [holdsText, hp, Payload.strings, htext, occurs_self]

/-- a memory that a local operation stores leaves its text in the log -/
theorem stored_copied (hids : UniqueIds s) {op : Op} (hop : op.isPull = false) (hn : findRow s a = none)
    (hm : findRow (step E s op) a = some m) : Copied (records (step E s op)) a m.text := by
  have hstart : Recorded a s := fun x hx => by
    rw [hn] at hx
    cases hx
  have hend : Recorded a (step E s op) :=
    effects_inv (fun _ _ h he => h.effect he) (step_effects hids hop (Permits.all s op)) hstart
  obtain ⟨e, he, hea, htext⟩ := hend m hm
  exact ⟨e, he, hea, holdsText_of_text htext⟩

/-! ## Ship rounds after an erase -/

/-- a ship round sends nothing of an atom without a row but its erase_requests -/
theorem shipOnce_absent {batchSize : ℕ} {answer : Option ShipAck} (hn : findRow s a = none) :
    ∀ e ∈ (shipOnce E s batchSize answer).1, e.atomId = a → e.eventType = .eraseRequest := by
  intro e he hea
  unfold shipOnce at he
  simp only at he
  split_ifs at he
  · exact absurd he List.not_mem_nil
  · obtain ⟨r, hr, rfl⟩ := List.mem_map.1 he
    obtain ⟨f, hf, rfl⟩ := List.mem_map.1 hr
    have helig := (List.mem_filter.1 (List.mem_of_mem_take hf)).2
    simp only at hea
    simp only [shipEligible, hea, hn, Option.map_none, decide_eq_true_eq] at helig
    rcases helig.2.2.2 with hsh | hty
    · simp [shared] at hsh
    · exact hty.1

theorem Departed.effect (h : Departed a s) (he : Effect E Q (fun u _ => E.uuid u.drawn ≠ a) K s t) : Departed a t := by
  obtain ⟨e, hmem, hex⟩ := h.erased
  refine ⟨⟨e, he.records_sub e hmem, hex⟩, ?_⟩
  cases he with
  | frame hf => exact (findRow_congr hf.memories a).trans h.row
  | inserted input rowid now at_ hA _ hn =>
    rw [findRow_inserted hn, if_neg]
    · exact h.row
    · exact fun hc => hA hc.symm
  | rewritten now p _ hr => rw [findRow_append, findRow_updateRow _ _ _ hr.id_eq, h.row, Option.map_none]
  | touched validFrom now =>
    refine (findRow_updateRow s _ a (by intro _; rfl)).trans ?_
    rw [h.row, Option.map_none]
  | superseded p now =>
    refine (findRow_updateRow s _ a (by intro _; rfl)).trans ?_
    rw [h.row, Option.map_none]
  | noted b p now => exact h.row
  | erased reason now _ =>
    rw [findRow_deleteRow]
    split_ifs
    · rfl
    · exact h.row
  | linked link => exact h.row
  | related r => exact h.row
  | vectored => exact h.row

theorem Departed.pull (h : Departed a s) (hp : pullOnce E s batch = .ok t) : Departed a t := by
  obtain ⟨e, he, hex⟩ := h.erased
  exact pull_departs hp ⟨e, List.mem_append_left _ he, hex⟩ (Or.inl h.row)

/-- no insert draws the id of the atom -/
abbrev DrawsOther (E : Env) (a : AtomId) (s : St) (op : Op) : Prop := op.inserts s ≠ none → E.uuid s.drawn ≠ a

theorem Departed.run (h : Departed a s) (hids : ∀ k, Unique k s) {ops : List Op}
    (hfresh : Along (step E) (DrawsOther E a) s ops) : Departed a (run E s ops) := by
  have hend : (∀ k, Unique k (Daemon.run E s ops)) ∧ Departed a (Daemon.run E s ops) := by
    refine along_inv (fun u => (∀ k, Unique k u) ∧ Departed a u) (fun u op hu hop => ?_) ⟨hids, h⟩ hfresh
    refine ⟨fun k => Unique.step (hu.1 .id) (hu.1 k) op, ?_⟩
    refine step_inv (hu.1 .id) { Permits.all u op with insert := fun x hx v _ hd => ?_ }
      (fun _ _ hv he => hv.effect he) (fun _ _ _ ht => hu.2.pull ht) hu.2
    rw [hd]
    exact hop (by rw [hx]; simp)
  exact hend.2

/-! ## Runs -/

/-- an operation of the run other than a pull stored memory `a` with this text -/
def StoredHere (E : Env) (s : St) (ops : List Op) (a : AtomId) (text : String) : Prop :=
  ∃ pre op post m, ops = pre ++ op :: post ∧ op.isPull = false ∧ findRow (run E s pre) a = none ∧
    findRow (run E s (pre ++ [op])) a = some m ∧ m.text = text

/-- no ship round from here on sends anything of the atom but its erase_requests -/
def NeverShips (E : Env) (a : AtomId) (t : St) : Prop :=
  ∀ later, Along (step E) (DrawsOther E a) t later → ∀ batchSize answer,
    ∀ e ∈ (shipOnce E (run E t later) batchSize answer).1, e.atomId = a → e.eventType = .eraseRequest

theorem StoredHere.copied {ops : List Op} (h : StoredHere E s ops a text) (hids : ∀ k, Unique k s) :
    Copied (records (run E s ops)) a text := by
  obtain ⟨pre, op, post, m, rfl, hop, hn, hm, rfl⟩ := h
  have hpre : ∀ k, Unique k (run E s pre) := unique_run hids pre
  rw [run, List.foldl_append] at hm
  refine (stored_copied (hpre .id) hop hn hm).mono fun e he => ?_
  rw [run, List.foldl_append]
  exact run_records (Unique.step (hpre .id) (hpre .id) op) post e he

theorem Departed.neverShips (h : Departed a t) (hids : ∀ k, Unique k t) : NeverShips E a t :=
  fun _ hlater _ _ => shipOnce_absent (h.run hids hlater).row

/-- **What an erase leaves.** After an erase of a memory, local or pulled, nothing is left of it exactly when no event of
the atom held its text (a reason or a `conflict_merge` event apart). For a memory stored on this device one always does.
What is left is never shipped. -/
theorem erased_text_gone (E : Env) (sessions : List SessionId) (ops : List Op) (a : AtomId) (m : Memory)
    (hm : findRow (run E { sessions } ops) a = some m) :
    (∀ reason, (Gone (step E (run E { sessions } ops) (.erase a reason)) a m.rowid m.text ↔
        ¬ Copied (records (run E { sessions } ops)) a m.text ∧ reason.any (occurs m.text) = false) ∧
      NeverShips E a (step E (run E { sessions } ops) (.erase a reason))) ∧
    (∀ batch t, pullOnce E (run E { sessions } ops) batch = .ok t →
      (∃ e ∈ incoming (run E { sessions } ops) batch, e.atomId = a ∧ e.eventType = .eraseRequest) →
      (Gone t a m.rowid m.text → ¬ Copied (pulledLog (run E { sessions } ops) batch) a m.text) ∧
      (¬ Copied (pulledLog (run E { sessions } ops) batch) a m.text →
        ¬ (pullForks E (run E { sessions } ops) batch).Chained a ∨ occurs m.text conflictMerge = false →
        Gone t a m.rowid m.text) ∧
      NeverShips E a t) ∧
    (StoredHere E { sessions } ops a m.text → Copied (records (run E { sessions } ops)) a m.text) := by
  have hstart : ∀ k, Unique k { sessions } := fun _ => List.nodup_nil
  have hids : ∀ k, Unique k (run E { sessions } ops) := unique_run hstart ops
  refine ⟨fun reason => ⟨erase_gone_iff hm, ?_⟩, fun batch t hp he => ?_, fun hs => hs.copied hstart⟩
  · exact (erase_departed hm).neverShips fun k => Unique.step (hids .id) (hids k) _
  · obtain ⟨hgone, hback⟩ := pull_gone m.text hm hp he
    refine ⟨hgone, hback, ?_⟩
    obtain ⟨e, he, hea, hty⟩ := he
    have herased : Erased (pulledLog (run E { sessions } ops) batch) a :=
      ⟨_, List.mem_append_right _ (List.mem_map_of_mem he), hea, hty⟩
    have hstep : step E (run E { sessions } ops) (.pull batch) = t := by rw [step, exec, hp]; rfl
    exact (pull_departs hp herased (Or.inr ⟨e, he, hea⟩)).neverShips fun k => hstep ▸ Unique.step (hids .id) (hids k) _

/-- a memory pulled without a payload leaves nothing -/
theorem erased_text_gone_pulled : ∃ m, findRow (run countingEnv { sessions := [] } [.pull createBatch]) 1 = some m ∧
    Gone (step countingEnv (run countingEnv { sessions := [] } [.pull createBatch]) (.erase 1 none)) 1 m.rowid m.text := by
  obtain ⟨m, hm⟩ := Option.isSome_iff_exists.1
    (show (findRow (run countingEnv { sessions := [] } [.pull createBatch]) 1).isSome = true by decide)
  have hnone : ∀ e ∈ records (run countingEnv { sessions := [] } [.pull createBatch]), e.payloadJson = none := by decide
  refine ⟨m, hm, ((erased_text_gone countingEnv [] [.pull createBatch] 1 m hm).1 none).1.2 ⟨?_, rfl⟩⟩
  rintro ⟨e, he, -, hx⟩
  rw [holdsText, hnone e he] at hx
  cases hx

/-- **The create event keeps the text.** The erased memory's row is gone, its create event is not. -/
theorem erase_keeps_text : (findRow (run countingEnv {} eraseOps) 0).isNone = true ∧
    (records (run countingEnv {} eraseOps)).any (fun e => e.atomId = 0 ∧ holdsText "text" e) = true := by
  decide

end AstramemLocal.Daemon
