/-
Implicit-positive credit. `UsefulnessOp` is one event of a run: a served, used or corrected event, a pass, or anything
else the daemon does to its database. The retention sweep deletes `recall_served` events only, so what a pass reads
against an atom stays in the log (`creditStep_log`); hence a pass credits no atom twice (`credited_once`), and an atom
with a correction never (`spent_uncredited`).
-/
import AstramemLocal.Daemon.ShipRounds

namespace AstramemLocal.Daemon

open AstramemLocal.Store AstramemLocal.Sync AstramemLocal.Core

/-! ## The machine -/

/-- the daemon's database with the usefulness keys of its log -/
structure Crediting where
  shipping : Shipping
  keys : ℕ → UsefulnessKeys

def Crediting.useful (st : Crediting) : UsefulnessDb := ⟨st.shipping.db, st.keys⟩

def Crediting.put (st : Crediting) (d : UsefulnessDb) : Crediting := ⟨{ st.shipping with db := d.db }, d.keys⟩

inductive UsefulnessOp where
  | served (input : RecordRecallServedInput)
  | used (input : RecordRecallUsedInput)
  | corrected (input : RecordMemoryCorrectedInput)
  /-- the cleanup job's pass; `now` is the clock -/
  | pass (groupOrder : AtomId → AtomId → Bool) (opts : ImplicitPositiveOpts)
  /-- a lifecycle operation, a ship round, a pull, the sweep of the log. `added`: the usefulness keys of the rows it
  adds; only pulled payloads have any. -/
  | device (op : ShipOp) (added : ℕ → UsefulnessKeys)

/-- the database the pass starts from, its clock read -/
def Crediting.ticked (st : Crediting) : UsefulnessDb := ⟨tick st.shipping.db, st.keys⟩

def creditStep (E : Env) (hashQuery : String → String) (st : Crediting) : UsefulnessOp → Crediting
  | .served input =>
    match recordRecallServed E hashQuery st.useful input with
    | .ok d => st.put d
    | .error _ => st
  | .used input => st.put (recordRecallUsed E st.useful input)
  | .corrected input => st.put (recordMemoryCorrected E st.useful input)
  | .pass groupOrder opts =>
    st.put (runImplicitPositivePass E groupOrder st.ticked opts (E.now st.shipping.db.clock)).1
  | .device op added =>
    ⟨shipStep E st.shipping op, fun q => if q ≤ st.shipping.db.seqHigh then st.keys q else added q⟩

def creditRun (E : Env) (hashQuery : String → String) (st : Crediting) (ops : List UsefulnessOp) : Crediting :=
  ops.foldl (creditStep E hashQuery) st

/-- the atoms the event credits -/
def creditedBy (E : Env) (st : Crediting) : UsefulnessOp → List AtomId
  | .pass groupOrder opts => implicitPositiveRows groupOrder st.ticked opts (E.now st.shipping.db.clock)
  | _ => []

/-- the atoms the passes of a run credit, in order -/
def credited (E : Env) (hashQuery : String → String) : Crediting → List UsefulnessOp → List AtomId
  | _, [] => []
  | st, op :: ops => creditedBy E st op ++ credited E hashQuery (creditStep E hashQuery st op) ops

/-- the event brings no heuristic credit of another writer: explicit use, and no pulled heuristic event -/
def UsefulnessOp.Explicit : UsefulnessOp → Prop
  | .used input => input.signal = .explicit
  | .device _ added => ∀ q, (added q).signal ≠ some "heuristic"
  | _ => True

/-! ## What a pass reads -/

/-- the events of the log with their keys -/
def usefulLog (d : UsefulnessDb) : List (EventRecord × UsefulnessKeys) :=
  d.db.memoryEvents.map fun e => (e.toEventRecord, d.keys e.seq)

/-- the log without the `recall_served` events -/
def keptLog (d : UsefulnessDb) : List (EventRecord × UsefulnessKeys) :=
  (usefulLog d).filter fun r => ¬ ofFamily "recall_served" r.1

def heuristicOf (a : AtomId) (r : EventRecord × UsefulnessKeys) : Bool := r.1.atomId = a ∧ isHeuristic r.1 r.2

def correctionOf (a : AtomId) (r : EventRecord × UsefulnessKeys) : Bool := r.1.atomId = a ∧ isCorrection r.1

/-- how many heuristic positive events the atom has -/
def heuristicCount (d : UsefulnessDb) (a : AtomId) : ℕ := (usefulLog d).countP (heuristicOf a)

def hasCorrection (d : UsefulnessDb) (a : AtomId) : Bool := (usefulLog d).any (correctionOf a)

/-- the pass is done with the atom -/
def Spent (d : UsefulnessDb) (a : AtomId) : Prop := hasCorrection d a = true ∨ heuristicCount d a ≠ 0

variable {E : Env} {hashQuery : String → String} {d d' : UsefulnessDb} {st : Crediting} {a : AtomId}

theorem family_ne {f g : String} {e : EventRecord} (h : ofFamily f e = true) (hfg : f ≠ g) : ofFamily g e = false := by
  simp only [ofFamily, decide_eq_true_eq] at h
  simp [ofFamily, h.2, hfg]

theorem heuristic_kept {r : EventRecord × UsefulnessKeys} (h : heuristicOf a r = true) :
    ofFamily "recall_served" r.1 = false := by
  simp only [heuristicOf, isHeuristic, decide_eq_true_eq] at h
  exact family_ne h.2.1 (by decide)

theorem correction_kept {r : EventRecord × UsefulnessKeys} (h : correctionOf a r = true) :
    ofFamily "recall_served" r.1 = false := by
  simp only [correctionOf, decide_eq_true_eq] at h
  exact family_ne h.2 (by decide)

theorem heuristicCount_kept (d : UsefulnessDb) (a : AtomId) : heuristicCount d a = (keptLog d).countP (heuristicOf a) := by
  rw [heuristicCount, keptLog, List.countP_filter]
  refine List.countP_congr fun r _ => ?_
  constructor
  · intro h
    simp [h, heuristic_kept h]
  · intro h
    simp only [Bool.and_eq_true] at h
    exact h.1

theorem hasCorrection_iff : hasCorrection d a = true ↔ ∃ r ∈ keptLog d, correctionOf a r = true := by
  rw [hasCorrection, List.any_eq_true]
  constructor
  · rintro ⟨r, hr, h⟩
    exact ⟨r, List.mem_filter.2 ⟨hr, by simp [correction_kept h]⟩, h⟩
  · rintro ⟨r, hr, h⟩
    exact ⟨r, List.mem_of_mem_filter hr, h⟩

theorem uncredited_iff : uncredited d a = true ↔ ¬ Spent d a := by
  simp only [uncredited, Spent, List.all_eq_true, decide_eq_true_eq, hasCorrection, List.any_eq_true, usefulLog,
    List.mem_map, heuristicCount, ne_eq, List.countP_eq_zero, correctionOf, heuristicOf, not_or, not_not]
  constructor
  · intro h
    refine ⟨?_, ?_⟩
    · rintro ⟨-, ⟨e, he, rfl⟩, ha, hc⟩
      rw [(h e he ha).1] at hc
      cases hc
    · rintro - ⟨e, he, rfl⟩ ⟨ha, hh⟩
      rw [(h e he ha).2] at hh
      cases hh
  · intro ⟨hc, hh⟩ e he ha
    constructor
    · by_contra hne
      exact hc ⟨_, ⟨e, he, rfl⟩, ha, by simpa using hne⟩
    · by_contra hne
      exact hh _ ⟨e, he, rfl⟩ ⟨ha, by simpa using hne⟩

theorem sqlLimit_sublist {α : Type} (n : ℤ) (rows : List α) : (sqlLimit n rows).Sublist rows := by
  unfold sqlLimit
  split_ifs
  · exact List.Sublist.refl rows
  · exact List.take_sublist _ _

/-- **What a pass selects**: no atom twice, and none that is spent -/
theorem implicitPositiveRows_spec (groupOrder : AtomId → AtomId → Bool) (d : UsefulnessDb) (opts : ImplicitPositiveOpts)
    (now : Time) : (implicitPositiveRows groupOrder d opts now).Nodup ∧
      ∀ a ∈ implicitPositiveRows groupOrder d opts now, ¬ Spent d a := by
  constructor
  · refine (sqlLimit_sublist _ _).nodup (List.Nodup.filter _ ?_)
    exact (List.perm_insertionSort _ _).nodup_iff.2 (List.nodup_dedup _)
  · intro a ha
    have hmem := List.mem_filter.1 ((sqlLimit_sublist _ _).subset ha)
    simp only [decide_eq_true_eq] at hmem
    exact uncredited_iff.1 hmem.2.2

/-! ## What an event of the run leaves of the log -/

/-- `d'` has the events of `d` and `new` after them -/
def Appends (d d' : UsefulnessDb) (new : List (EventRecord × UsefulnessKeys)) : Prop :=
  Grows d.db d'.db ∧ usefulLog d' = usefulLog d ++ new

theorem appendUsefulness_appends (h : SeqOrdered d.db) (b : AtomId) (p : Payload) (keys : UsefulnessKeys) (now : Time) :
    Appends d (appendUsefulness E d b p keys now)
      [(⟨E.uuid d.db.drawn, .usefulness, b, some p, none, now⟩, keys)] := by
  refine ⟨(Grows.refl d.db).append .usefulness b (some p) none now, ?_⟩
  have hold : ∀ e ∈ d.db.memoryEvents,
      (e.toEventRecord, Function.update d.keys (d.db.seqHigh + 1) keys e.seq) = (e.toEventRecord, d.keys e.seq) := by
    intro e he
    have hle := h.high e he
    rw [Function.update_of_ne (by omega)]
  simp only [usefulLog, appendUsefulness, append, List.map_append, List.map_congr_left hold, List.map_cons,
    List.map_nil, Function.update_self]

theorem appendUsefulnessNow_appends (h : SeqOrdered d.db) (b : AtomId) (p : Payload) (keys : UsefulnessKeys) :
    Appends d (appendUsefulnessNow E d b p keys)
      [(⟨E.uuid d.db.drawn, .usefulness, b, some p, none, E.now d.db.clock⟩, keys)] :=
  appendUsefulness_appends (d := ⟨tick d.db, d.keys⟩) ⟨h.sorted, h.high⟩ b p keys _

/-- a loop that appends one event a round -/
theorem foldl_appends {α : Type} {f : UsefulnessDb → α → UsefulnessDb} {R : α → EventRecord × UsefulnessKeys → Prop}
    (hf : ∀ d x, SeqOrdered d.db → ∃ r, Appends d (f d x) [r] ∧ R x r) (h : SeqOrdered d.db) (l : List α) :
    ∃ new, Appends d (l.foldl f d) new ∧ List.Forall₂ R l new := by
  induction l generalizing d with
  | nil => exact ⟨[], ⟨Grows.refl d.db, (List.append_nil _).symm⟩, .nil⟩
  | cons x l ih =>
    obtain ⟨r, ⟨hgrow, hlog⟩, hr⟩ := hf d x h
    obtain ⟨new, ⟨hgrows, hlogs⟩, hnew⟩ := ih (h.grows hgrow)
    refine ⟨r :: new, ⟨hgrow.trans hgrows, ?_⟩, .cons hr hnew⟩
    rw [List.foldl_cons, hlogs, hlog, List.append_assoc]
    rfl

/-- the events of the passes, counted by atom -/
theorem countP_granted {rows : List AtomId} {new : List (EventRecord × UsefulnessKeys)}
    (h : List.Forall₂ (fun b r => r.1.atomId = b ∧ isHeuristic r.1 r.2 = true) rows new) (a : AtomId) :
    new.countP (heuristicOf a) = rows.count a := by
  induction h with
  | nil => rfl
  | cons hr _ ih =>
    obtain ⟨rfl, hh⟩ := hr
    rw [List.countP_cons, List.count_cons, ih]
    simp [heuristicOf, hh, beq_iff_eq]

theorem countP_unheuristic {new : List (EventRecord × UsefulnessKeys)} (h : ∀ r ∈ new, isHeuristic r.1 r.2 = false)
    (a : AtomId) : new.countP (heuristicOf a) = 0 := by
  rw [List.countP_eq_zero]
  intro r hr
  simp [heuristicOf, h r hr]

theorem keptLog_appends {new : List (EventRecord × UsefulnessKeys)} (h : Appends d d' new) :
    keptLog d' = keptLog d ++ new.filter fun r => ¬ ofFamily "recall_served" r.1 := by
  rw [keptLog, h.2, List.filter_append, keptLog]

/-- an operation of the daemon beside the usefulness code -/
theorem device_log (E : Env) (hashQuery : String → String) (h : SeqOrdered st.shipping.db) (op : ShipOp) (added : ℕ → UsefulnessKeys) :
    ∃ new, keptLog (creditStep E hashQuery st (.device op added)).useful = keptLog st.useful ++ new ∧
      ∀ r ∈ new, ∃ q, r.2 = added q := by
  set st' := creditStep E hashQuery st (.device op added) with hst'
  have hkeys : ∀ q ≤ st.shipping.db.seqHigh, st'.keys q = st.keys q := by
    intro q hq
    rw [hst', creditStep]
    exact if_pos hq
  have hnew : ∀ q, st.shipping.db.seqHigh < q → st'.keys q = added q := by
    intro q hq
    rw [hst', creditStep]
    exact if_neg (by omega)
  have hold : ∀ e ∈ st.shipping.db.memoryEvents,
      (e.toEventRecord, st'.keys e.seq) = (e.toEventRecord, st.keys e.seq) := by
    intro e he
    rw [hkeys e.seq (h.high e he)]
  rcases shipStep_log (E := E) st.shipping op with ⟨es, hlog, -⟩ | ⟨⟨f, hf, hrows⟩, -⟩ | ⟨days, now, hop⟩
  · refine ⟨((stamped st.shipping.db.seqHigh es).map fun e => (e.toEventRecord, st'.keys e.seq)).filter
      fun r => ¬ ofFamily "recall_served" r.1, ?_, ?_⟩
    · have hview : usefulLog st'.useful = usefulLog st.useful ++
          (stamped st.shipping.db.seqHigh es).map fun e => (e.toEventRecord, st'.keys e.seq) := by
        have hrows : st'.useful.db.memoryEvents = st.shipping.db.memoryEvents ++ stamped st.shipping.db.seqHigh es := hlog
        rw [usefulLog, hrows, List.map_append]
        exact congrArg (· ++ _) (List.map_congr_left hold)
      rw [keptLog, hview, List.filter_append, keptLog]
    · intro r hr
      obtain ⟨e, he, rfl⟩ := List.mem_map.1 (List.mem_of_mem_filter hr)
      exact ⟨e.seq, hnew e.seq (stamped_seq he).1⟩
  · refine ⟨[], ?_, fun r hr => by cases hr⟩
    have hview : usefulLog st'.useful = usefulLog st.useful := by
      have hrel : st'.useful.db.memoryEvents = st.shipping.db.memoryEvents.map f := hf
      rw [usefulLog, hrel, List.map_map]
      refine List.map_congr_left fun e he => ?_
      obtain ⟨hrec, hseq⟩ := (hrows e).1
      rw [Function.comp_apply, hrec, hseq]
      exact hold e he
    rw [List.append_nil, keptLog, hview, keptLog]
  · subst hop
    refine ⟨[], ?_, fun r hr => by cases hr⟩
    have hpruned : st'.useful.db.memoryEvents = (pruneOldRecallServedEvents st.shipping.db days now).memoryEvents := rfl
    rw [List.append_nil, keptLog, usefulLog, hpruned, keptLog, usefulLog]
    simp only [pruneOldRecallServedEvents, List.filter_map, List.filter_filter]
    refine (List.map_congr_left fun e he => hold e (List.mem_of_mem_filter he)).trans ?_
    refine congrArg _ (List.filter_congr fun e _ => ?_)
    -- what the sweep deletes is a `recall_served` event
    by_cases hserved : ofFamily "recall_served" e.toEventRecord = true
    · simp [hserved]
    · have hkept : recallServedPrunable st.shipping.db (now - days * 24 * 60 * 60 * 1000) e = false := by
        simp only [ofFamily, decide_eq_true_eq, not_and] at hserved
        rw [recallServedPrunable, decide_eq_false_iff_not]
        intro hprunable
        exact hserved hprunable.1 hprunable.2.1
      simp [hkept]

theorem appendServed_appends (E : Env) (input : RecordRecallServedInput) (queryHash : String) (h : SeqOrdered d.db)
    (atom : AtomId × ℕ) :
    ∃ r, Appends d (appendServed E input queryHash d atom) [r] ∧ ofFamily "recall_served" r.1 = true :=
  ⟨_, appendUsefulnessNow_appends h _ _ _, by simp [ofFamily]⟩

theorem grantHeuristic_appends (h : SeqOrdered d.db) (now : Time) (b : AtomId) :
    ∃ r, Appends d (grantHeuristic E now d b) [r] ∧ r.1.atomId = b ∧ isHeuristic r.1 r.2 = true :=
  ⟨_, appendUsefulness_appends h b _ _ now, rfl, by simp [isHeuristic, ofFamily]⟩

theorem recordRecallServed_appends (h : SeqOrdered d.db) {input : RecordRecallServedInput}
    (hd : recordRecallServed E hashQuery d input = .ok d') :
    ∃ new, Appends d d' new ∧ ∀ r ∈ new, ofFamily "recall_served" r.1 = true := by
  unfold recordRecallServed at hd
  split_ifs at hd
  · obtain rfl := Except.ok.inj hd
    exact ⟨[], ⟨Grows.refl d.db, (List.append_nil _).symm⟩, fun r hr => by cases hr⟩
  · split at hd
    · cases hd
    · obtain rfl := Except.ok.inj hd
      rename_i queryHash _
      obtain ⟨new, happ, hall⟩ := foldl_appends (fun d atom hd =>
        appendServed_appends E input queryHash hd atom) h input.atomIds.zipIdx
      refine ⟨new, happ, ?_⟩
      exact ((List.forall₂_and_left (R := fun _ _ => True) new _).1 (hall.flip.imp fun _ _ hr => ⟨hr, trivial⟩)).1

/-- **One event of a run, seen from the log.** The events a pass reads against an atom stay; new ones come after them,
the heuristic ones from the pass, if no other writer brings any. -/
theorem creditStep_log (E : Env) (hashQuery : String → String) (h : SeqOrdered st.shipping.db) (op : UsefulnessOp) :
    SeqOrdered (creditStep E hashQuery st op).shipping.db ∧
      ∃ new, keptLog (creditStep E hashQuery st op).useful = keptLog st.useful ++ new ∧
        (op.Explicit → ∀ a, new.countP (heuristicOf a) = (creditedBy E st op).count a) := by
  cases op with
  | served input =>
    cases hd : recordRecallServed E hashQuery st.useful input with
    | error e =>
      simp only [creditStep, hd]
      exact ⟨h, [], (List.append_nil _).symm, fun _ a => rfl⟩
    | ok d =>
      simp only [creditStep, hd]
      obtain ⟨new, happ, hserved⟩ := recordRecallServed_appends (d := st.useful) h hd
      refine ⟨h.grows happ.1, _, keptLog_appends happ, fun _ a => countP_unheuristic (fun r hr => ?_) a⟩
      simp [isHeuristic, family_ne (hserved r (List.mem_of_mem_filter hr)) (by decide : "recall_served" ≠ "recall_used")]
  | used input =>
    have happ := appendUsefulnessNow_appends (E := E) (d := st.useful) h input.atomId { family := some "recall_used" }
      { surface := some input.surface, signal := some input.signal.text, basis := input.basis }
    refine ⟨h.grows happ.1, _, keptLog_appends happ, fun hexp a => countP_unheuristic (fun r hr => ?_) a⟩
    obtain rfl := List.mem_singleton.1 (List.mem_of_mem_filter hr)
    have hsignal : input.signal = .explicit := hexp
    simp [isHeuristic, hsignal, UsefulnessSignal.text]
  | corrected input =>
    have happ := appendUsefulnessNow_appends (E := E) (d := st.useful) h input.atomId
      (Store.corrected input.action.text (input.source.getD .external)) {}
    refine ⟨h.grows happ.1, _, keptLog_appends happ, fun hexp a => countP_unheuristic (fun r hr => ?_) a⟩
    obtain rfl := List.mem_singleton.1 (List.mem_of_mem_filter hr)
    simp [isHeuristic]
  | pass groupOrder opts =>
    obtain ⟨new, happ, hall⟩ := foldl_appends (d := st.ticked)
      (fun d b hd => grantHeuristic_appends (E := E) (d := d) hd (E.now st.shipping.db.clock) b) ⟨h.sorted, h.high⟩
      (creditedBy E st (.pass groupOrder opts))
    refine ⟨h.grows happ.1, _, keptLog_appends happ, fun _ a => ?_⟩
    rw [List.countP_filter]
    refine Eq.trans (List.countP_congr fun r _ => ?_) (countP_granted hall a)
    constructor
    · intro hr
      simp only [Bool.and_eq_true] at hr
      exact hr.1
    · intro hr
      simp [hr, heuristic_kept hr]
  | device op added =>
    obtain ⟨new, hlog, hkeys⟩ := device_log E hashQuery h op added
    refine ⟨h.shipStep op, new, hlog, fun hexp a => countP_unheuristic (fun r hr => ?_) a⟩
    obtain ⟨q, hq⟩ := hkeys r hr
    have hsignal : (added q).signal ≠ some "heuristic" := hexp q
    simp [isHeuristic, hq, hsignal]

/-! ## Runs -/

/-- what a pass reads against an atom is never taken back -/
theorem Spent.step (h : SeqOrdered st.shipping.db) (hspent : Spent st.useful a) (op : UsefulnessOp) :
    Spent (creditStep E hashQuery st op).useful a := by
  obtain ⟨-, new, hlog, -⟩ := creditStep_log E hashQuery h op
  rcases hspent with hc | hh
  · obtain ⟨r, hr, hra⟩ := hasCorrection_iff.1 hc
    exact Or.inl (hasCorrection_iff.2 ⟨r, hlog ▸ List.mem_append_left new hr, hra⟩)
  · right
    rw [heuristicCount_kept] at hh ⊢
    rw [hlog, List.countP_append]
    omega

/-- an event credits no atom twice, and none that is spent -/
theorem creditedBy_spec (E : Env) (st : Crediting) (op : UsefulnessOp) :
    (creditedBy E st op).Nodup ∧ ∀ a ∈ creditedBy E st op, ¬ Spent st.useful a := by
  cases op with
  | pass groupOrder opts => exact implicitPositiveRows_spec groupOrder st.ticked opts _
  | served input => exact ⟨List.nodup_nil, fun a ha => by cases ha⟩
  | used input => exact ⟨List.nodup_nil, fun a ha => by cases ha⟩
  | corrected input => exact ⟨List.nodup_nil, fun a ha => by cases ha⟩
  | device op added => exact ⟨List.nodup_nil, fun a ha => by cases ha⟩

/-- whom an event credits has a heuristic event after it -/
theorem credited_spent (h : SeqOrdered st.shipping.db) {op : UsefulnessOp} (ha : a ∈ creditedBy E st op) :
    Spent (creditStep E hashQuery st op).useful a := by
  obtain ⟨-, new, hlog, hcount⟩ := creditStep_log E hashQuery h op
  have hexp : op.Explicit := by
    cases op with
    | pass groupOrder opts => trivial
    | _ => cases ha
  have hpos : 0 < (creditedBy E st op).count a := List.count_pos_iff.2 ha
  right
  rw [heuristicCount_kept, hlog, List.countP_append, hcount hexp a]
  omega

/-- **Spent atoms get no credit any more**, along every run -/
theorem spent_uncredited (E : Env) (hashQuery : String → String) (h : SeqOrdered st.shipping.db) (hspent : Spent st.useful a) (ops : List UsefulnessOp) :
    a ∉ credited E hashQuery st ops := by
  induction ops generalizing st with
  | nil => intro ha; cases ha
  | cons op ops ih =>
    intro ha
    rcases List.mem_append.1 ha with ha | ha
    · exact (creditedBy_spec E st op).2 a ha hspent
    · exact ih (creditStep_log E hashQuery h op).1 (hspent.step h op) ha

/-- **The passes of a run credit an atom at most once.** -/
theorem credited_once (h : SeqOrdered st.shipping.db) (ops : List UsefulnessOp) :
    (credited E hashQuery st ops).Nodup := by
  induction ops generalizing st with
  | nil => exact List.nodup_nil
  | cons op ops ih =>
    have hord := (creditStep_log E hashQuery h op).1
    refine List.Nodup.append (creditedBy_spec E st op).1 (ih hord) fun a ha hlater => ?_
    exact spent_uncredited E hashQuery hord (credited_spent h ha) ops hlater

/-- the heuristic events of an atom are those it had and those the passes appended -/
theorem heuristicCount_run (h : SeqOrdered st.shipping.db) {ops : List UsefulnessOp} (hops : ∀ op ∈ ops, op.Explicit)
    (a : AtomId) : heuristicCount (creditRun E hashQuery st ops).useful a =
      heuristicCount st.useful a + (credited E hashQuery st ops).count a := by
  induction ops generalizing st with
  | nil => rfl
  | cons op ops ih =>
    obtain ⟨hord, new, hlog, hcount⟩ := creditStep_log E hashQuery h op
    have hstep : heuristicCount (creditStep E hashQuery st op).useful a =
        heuristicCount st.useful a + (creditedBy E st op).count a := by
      rw [heuristicCount_kept, hlog, List.countP_append, hcount (hops op List.mem_cons_self) a, heuristicCount_kept]
    calc heuristicCount (creditRun E hashQuery st (op :: ops)).useful a
        = heuristicCount (creditStep E hashQuery st op).useful a +
            (credited E hashQuery (creditStep E hashQuery st op) ops).count a :=
          ih hord fun o ho => hops o (List.mem_cons_of_mem op ho)
      _ = heuristicCount st.useful a + (credited E hashQuery st (op :: ops)).count a := by
          rw [hstep, credited, List.count_append, Nat.add_assoc]

theorem SeqOrdered.creditRun (E : Env) (hashQuery : String → String) (h : SeqOrdered st.shipping.db) (ops : List UsefulnessOp) :
    SeqOrdered (creditRun E hashQuery st ops).shipping.db :=
  along_inv (fun st : Crediting => SeqOrdered st.shipping.db) (fun _ op hs _ => (creditStep_log E hashQuery hs op).1) h
    (along_trivial _ _ _)

/-- **Implicit-positive credit.** Along every run from an ordered log, whatever comes between the passes: the passes
credit an atom at most once, and none that has a correction at that moment. Where no other writer brings a heuristic
event, an atom that had none ends with at most one, and the ones of a corrected atom stay as they are. -/
theorem implicit_positive_once (E : Env) (hashQuery : String → String) (st : Crediting)
    (hst : SeqOrdered st.shipping.db) (ops : List UsefulnessOp) (a : AtomId) :
    (credited E hashQuery st ops).count a ≤ 1 ∧
    (∀ pre post, pre ++ post = ops → hasCorrection (creditRun E hashQuery st pre).useful a = true →
      a ∉ credited E hashQuery (creditRun E hashQuery st pre) post) ∧
    ((∀ op ∈ ops, op.Explicit) →
      heuristicCount (creditRun E hashQuery st ops).useful a ≤ max 1 (heuristicCount st.useful a) ∧
      ∀ pre post, pre ++ post = ops → hasCorrection (creditRun E hashQuery st pre).useful a = true →
        heuristicCount (creditRun E hashQuery st ops).useful a =
          heuristicCount (creditRun E hashQuery st pre).useful a) := by
  have honce : (credited E hashQuery st ops).count a ≤ 1 := List.nodup_iff_count_le_one.1 (credited_once hst ops) a
  refine ⟨honce, ?_, fun hops => ⟨?_, ?_⟩⟩
  · rintro pre post - hc
    exact spent_uncredited E hashQuery (hst.creditRun E hashQuery pre) (Or.inl hc) post
  · rw [heuristicCount_run hst hops]
    by_cases hzero : heuristicCount st.useful a = 0
    · omega
    · have hnone := List.count_eq_zero.2 (spent_uncredited E hashQuery hst (Or.inr hzero) ops)
      omega
  · rintro pre post rfl hc
    have hord := hst.creditRun E hashQuery pre
    have hrun : creditRun E hashQuery st (pre ++ post) = creditRun E hashQuery (creditRun E hashQuery st pre) post :=
      List.foldl_append
    rw [hrun, heuristicCount_run hord fun op hop => hops op (List.mem_append_right pre hop),
      List.count_eq_zero.2 (spent_uncredited E hashQuery hord (Or.inl hc) post), Nat.add_zero]

def emptyCrediting : Crediting := ⟨⟨{}, none⟩, fun _ => {}⟩

def servedInput (queryHash : String) (atomIds : List AtomId) : RecordRecallServedInput :=
  { queryHash := some queryHash, atomIds, surface := .rest }

def cleanupPass : UsefulnessOp := .pass (fun a b => a ≤ b) ⟨30, 2, 500⟩

/-- two atoms served for two queries, one corrected; a pass, more use, a pass -/
def creditOps : List UsefulnessOp :=
  [.served (servedInput "q1" [0, 1]), .served (servedInput "q2" [0, 1]), .corrected ⟨1, .demoted, none⟩, cleanupPass,
    .used ⟨0, .mcp, .explicit, none⟩, .served (servedInput "q3" [0, 1]), cleanupPass]

theorem implicit_positive_once_served :
    credited countingEnv id emptyCrediting creditOps = [0] ∧
      heuristicCount (creditRun countingEnv id emptyCrediting creditOps).useful 0 ≤
        max 1 (heuristicCount emptyCrediting.useful 0) :=
  ⟨by decide +kernel, ((implicit_positive_once countingEnv id emptyCrediting ⟨List.Pairwise.nil, by simp [emptyCrediting]⟩
    creditOps 0).2.2 (by simp [creditOps, cleanupPass, UsefulnessOp.Explicit])).1⟩

end AstramemLocal.Daemon
