/-
Exactly once: ingests with an idempotency key, drains of spool files, the distiller's backfills of the idempotency row,
the daemon's operations on memories, and prunes, in any order. `Ledger` records what was accepted, as long as no prune
has passed it.
* `ingest_exactly_once`: no placeholder stays, a replay and a conflict change nothing, and an accepted body is a replay
  from then on, in every run whose steps spare the targets of the idempotency rows (`SparesTargets`).
* `alwaysOnce_iff`: the runs in which it is one are exactly those that keep the targets.
* `erased_memory_reingests`: the backfill moves the row from the transcript to a memory, and with the erase of the memory
  the row counts as dangling, while the transcript is still there.
-/
import AstramemLocal.Core.Runs
import AstramemLocal.Daemon.Removal
import AstramemLocal.Ingest.SpoolDrain
import AstramemLocal.Server.IngestSpec

namespace AstramemLocal.Server

open AstramemLocal.Core AstramemLocal.Store AstramemLocal.Ingest

inductive Op where
  /-- `POST /ingest/transcript`, with the `Idempotency-Key` header or without -/
  | post (idempotencyKey : Option String) (body : Json)
  /-- a drain tick comes to a spool file -/
  | drain (file : SpoolFile)
  /-- the distill handler has its memories -/
  | backfill (transcriptId memoryId : ℕ)
  /-- the cleanup handler -/
  | prune
  | daemon (op : Daemon.Op)

section
variable (E : Ingest.Env) (db : Db)

def step : Op → Db
  | .post idempotencyKey body => (postTranscript E db idempotencyKey body).2
  | .drain file => (drainFile E db file).2
  | .backfill transcriptId memoryId => backfillSummaryMemoryId db transcriptId memoryId
  | .prune => pruneIngestIdempotency E db
  | .daemon op => { db with store := Daemon.step E.toEnv db.store op }

/-- the key and the body an operation delivers. The legacy envelope has no key, and the spool takes transcripts only. -/
def delivery : Op → Option (String × Envelope)
  | .post (some key) body => if looksCanonical body then (safeParse E.isDatetime body).map (key, ·) else none
  | .drain file =>
    if E.config.spoolMaxBytes < file.size then none
    else ((file.content.bind (safeParse E.isDatetime)).filter (·.kind = .transcript)).map (file.key, ·)
  | _ => none

inductive Report where
  | stored | replay | conflict | other
deriving DecidableEq, Repr

def Response.report : Response → Report
  | .stored .. => .stored
  | .idempotent .. => .replay
  | .idempotencyConflict _ => .conflict
  | _ => .other

def verdictReport : DrainVerdict → Report
  | .stored => .stored
  | .replayed => .replay
  | .conflict => .conflict
  | _ => .other

/-- what the sender hears, or what the drain does with the file -/
def report : Op → Report
  | .post idempotencyKey body => (postTranscript E db idempotencyKey body).1.report
  | .drain file => verdictReport (drainFile E db file).1
  | _ => .other

end

/-! ## The ledger -/

/-- a delivery that stored a transcript -/
structure Accepted where
  key : String
  data : Envelope
  transcriptId : ℕ
  createdAt : Time
deriving DecidableEq, Repr

structure Ledger where
  db : Db
  accepted : List Accepted := []

section
variable (E : Ingest.Env)

def Ledger.step (l : Ledger) (op : Op) : Ledger :=
  { db := Server.step E l.db op
    accepted :=
      match delivery E op with
      | some (key, data) =>
        match ingestCanonical E l.db data (some key) with
        | .ok (result, _) => l.accepted ++ [⟨key, data, result.transcriptId, E.now l.db.store.clock⟩]
        | .error _ => l.accepted
      | none =>
        match op with
        | .prune => deleteWhere (·.createdAt < pruneCutoff E (E.now l.db.store.clock)) l.accepted
        | _ => l.accepted }

/-- the next delivery of the accepted body under its key is a replay, reported as one, and changes nothing -/
def Once (db : Db) (a : Accepted) : Prop :=
  (∃ n, ingestCanonical E db a.data (some a.key) = .error (.idempotentReplay n)) ∧
    ∀ op, delivery E op = some (a.key, a.data) → report E db op = .replay ∧ Server.step E db op = db

/-- no step of the daemon names a memory that an idempotency row points to for removal, and no backfill points a row to a
memory that is gone -/
def SparesTargets (db : Db) : Op → Prop
  | .daemon op => ∀ row ∈ db.idempotency, ∀ n, row.summaryMemoryId = some (.id n) → stillExists db n = true →
      op.removes db.store n → db.transcripts.any (·.id = n) = true
  | .backfill transcriptId memoryId =>
    (∃ row ∈ db.idempotency, row.summaryMemoryId = some (.id transcriptId)) → stillExists db memoryId = true
  | _ => True

/-- the same, read off the state after: the targets are still there -/
def KeepsTargets (db : Db) : Op → Prop
  | .daemon op => ∀ row ∈ db.idempotency, ∀ n, row.summaryMemoryId = some (.id n) → stillExists db n = true →
      stillExists (Server.step E db (.daemon op)) n = true
  | .backfill transcriptId memoryId =>
    (∃ row ∈ db.idempotency, row.summaryMemoryId = some (.id transcriptId)) → stillExists db memoryId = true
  | _ => True

end

/-! ## What a step does -/

variable {E : Ingest.Env} {db after : Db} {op : Op} {key : String} {data : Envelope} {n : ℕ} {row : IdempotencyRow}

/-- the two ways to deliver a body under a key -/
theorem delivery_cases (h : delivery E op = some (key, data)) :
    (∃ body, op = .post (some key) body ∧ looksCanonical body = true ∧ safeParse E.isDatetime body = some data) ∨
    ∃ file value, op = .drain file ∧ file.key = key ∧ ¬ E.config.spoolMaxBytes < file.size ∧
      file.content = some value ∧ safeParse E.isDatetime value = some data ∧ data.kind = .transcript := by
  cases op with
  | post idempotencyKey body =>
    cases idempotencyKey with
    | none => cases h
    | some k =>
      simp only [delivery] at h
      split_ifs at h with hcanonical
      obtain ⟨d, hparse, hpair⟩ := Option.map_eq_some_iff.1 h
      cases hpair
      exact Or.inl ⟨body, rfl, hcanonical, hparse⟩
  | drain file =>
    simp only [delivery] at h
    split_ifs at h with hsize
    obtain ⟨d, hfilter, hpair⟩ := Option.map_eq_some_iff.1 h
    cases hpair
    obtain ⟨hparse, hkind⟩ := Option.filter_eq_some_iff.1 hfilter
    obtain ⟨value, hvalue, hdata⟩ := Option.bind_eq_some_iff.1 hparse
    exact Or.inr ⟨file, value, rfl, rfl, hsize, hvalue, hdata, of_decide_eq_true hkind⟩
  | _ => cases h

theorem step_delivery (h : delivery E op = some (key, data)) :
    Server.step E db op =
      match ingestCanonical E db data (some key) with
      | .ok (_, after) => after
      | .error _ => db := by
  obtain ⟨body, rfl, hcanonical, hparse⟩ | ⟨file, value, rfl, rfl, hsize, hvalue, hparse, hkind⟩ := delivery_cases h
  · simp only [Server.step, postTranscript, hcanonical, if_true, hparse]
    cases ingestCanonical E db data (some key) <;> rfl
  · simp only [Server.step, drainFile, if_neg hsize, hvalue, hparse, ingestCanonicalTranscript_eq hkind]
    cases ingestCanonical E db data (some file.key) with
    | ok written => rfl
    | error e => cases e <;> rfl

theorem report_replay (h : delivery E op = some (key, data))
    (hreplay : ingestCanonical E db data (some key) = .error (.idempotentReplay n)) : report E db op = .replay := by
  obtain ⟨body, rfl, hcanonical, hparse⟩ | ⟨file, value, rfl, rfl, hsize, hvalue, hparse, hkind⟩ := delivery_cases h
  · simp only [report, postTranscript, hcanonical, if_true, hparse, hreplay]
    rfl
  · simp only [report, drainFile, if_neg hsize, hvalue, hparse, ingestCanonicalTranscript_eq hkind, hreplay]
    rfl

theorem post_unchanged (idempotencyKey : Option String) (body : Json) :
    (postTranscript E db idempotencyKey body).2 = db ∨
      (postTranscript E db idempotencyKey body).1.report ∈ [Report.stored, .other] := by
  unfold postTranscript
  split
  · split
    · exact Or.inl rfl
    · split
      · exact Or.inr (by simp [Response.report])
      · exact Or.inl rfl
  · split
    · exact Or.inl rfl
    · split
      · exact Or.inr (by simp [Response.report])
      · exact Or.inl rfl

theorem drain_unchanged (file : SpoolFile) : (drainFile E db file).2 = db ∨ (drainFile E db file).1 = .stored := by
  unfold drainFile
  split
  · exact Or.inl rfl
  · split
    · exact Or.inl rfl
    · split
      · exact Or.inl rfl
      · split
        · exact Or.inr rfl
        · exact Or.inl rfl
        · exact Or.inl rfl
        · exact Or.inl rfl

/-- a replay and a conflict leave the database as it was -/
theorem refused_unchanged (h : report E db op = .replay ∨ report E db op = .conflict) : Server.step E db op = db := by
  cases op with
  | post idempotencyKey body =>
    obtain hsame | hreport : (postTranscript E db idempotencyKey body).2 = db ∨ _ := post_unchanged idempotencyKey body
    · exact hsame
    · rcases h with h | h <;> simp [report] at h <;> simp [h] at hreport
  | drain file =>
    obtain hsame | hverdict : (drainFile E db file).2 = db ∨ _ := drain_unchanged file
    · exact hsame
    · simp [report, hverdict, verdictReport] at h
  | _ => simp [report] at h

/-- no target is lost between the two databases -/
structure KeepsRows (db after : Db) : Prop where
  transcripts : ∀ t ∈ db.transcripts, t ∈ after.transcripts
  memories : after.store.memories = db.store.memories

theorem KeepsRows.exists (h : KeepsRows db after) (hn : stillExists db n = true) : stillExists after n = true := by
  simp only [stillExists, Bool.or_eq_true, List.any_eq_true, findRow, h.memories] at hn ⊢
  rcases hn with ⟨t, ht, hid⟩ | hrow
  · exact Or.inl ⟨t, h.transcripts t ht, hid⟩
  · exact Or.inr hrow

theorem Wrote.keepsRows {t : Transcript} (h : Wrote db t after) : KeepsRows db after where
  transcripts u hu := by
    rw [h.transcripts]
    exact List.mem_append_left _ hu
  memories := h.memories

theorem KeepsRows.refl : KeepsRows db db := ⟨fun _ ht => ht, rfl⟩

/-- without a key, an ingest leaves the idempotency table alone -/
theorem ingest_without_key {session : Session} {transcript : ℕ → Transcript} {events : List String} {now : Time}
    {kind : Pipeline.JobKind} {hash : String} {result : IngestResult}
    (h : ingestTx E (tickDb db) none hash now session transcript events kind = .ok (result, after)) :
    KeepsRows db after ∧ after.idempotency = db.idempotency := by
  obtain ⟨hwrote, hsame⟩ := writeRows_ok h
  exact ⟨⟨hwrote.keepsRows.transcripts, hwrote.memories⟩, hsame⟩

def Op.ingests : Op → Prop
  | .post .. | .drain _ => True
  | _ => False

/-- an ingest that delivers nothing under a key leaves the idempotency table alone -/
theorem step_undelivered (h : delivery E op = none) (hop : op.ingests) :
    KeepsRows db (Server.step E db op) ∧ (Server.step E db op).idempotency = db.idempotency := by
  have hsame : KeepsRows db db ∧ db.idempotency = db.idempotency := ⟨.refl, rfl⟩
  cases op with
  | post idempotencyKey body =>
    simp only [Server.step]
    unfold postTranscript
    split
    · rename_i hcanonical
      split
      · exact hsame
      · rename_i data hparse
        cases idempotencyKey with
        | some key => simp [delivery, hcanonical, hparse] at h
        | none =>
          split
          · rename_i result after hingest
            obtain ⟨session, transcript, events, kind, -, heq⟩ := ingestCanonical_eq (admitted_of_ok hingest) db none
            exact ingest_without_key (heq.symm.trans hingest)
          · exact hsame
    · split
      · exact hsame
      · split
        · rename_i result after hingest
          unfold ingestLegacy at hingest
          exact ingest_without_key hingest
        · exact hsame
  | drain file =>
    simp only [Server.step]
    unfold drainFile
    split
    · exact hsame
    · rename_i hsize
      split
      · exact hsame
      · rename_i value hvalue
        split
        · exact hsame
        · rename_i data hparse
          have hevents : data.kind = .events := by
            cases hkind : data.kind with
            | events => rfl
            | transcript => simp [delivery, hsize, hvalue, hparse, hkind] at h
          have hthrows : ingestCanonicalTranscript E db data (some file.key) none = .error .requiresTurns := by
            unfold ingestCanonicalTranscript
            exact if_pos (Or.inl hevents)
          rw [hthrows]
          exact hsame
  | _ => exact hop.elim

/-! ## The invariants -/

/-- every row is that of an accepted delivery, and no row is a placeholder -/
structure Tracked (E : Ingest.Env) (l : Ledger) : Prop where
  keyed : Keyed (·.key) l.db.idempotency
  rows : ∀ row ∈ l.db.idempotency, ∃ a ∈ l.accepted,
    a.key = row.key ∧ bodyHash E a.data = row.bodyHash ∧ a.createdAt = row.createdAt
  targets : ∀ row ∈ l.db.idempotency, ∃ n, row.summaryMemoryId = some (.id n)
  admitted : ∀ a ∈ l.accepted, Admitted E a.data
  stored : ∀ a ∈ l.accepted, ∃ t ∈ l.db.transcripts, t.id = a.transcriptId

/-- the row of an accepted delivery -/
structure RowOf (E : Ingest.Env) (a : Accepted) (row : IdempotencyRow) : Prop where
  key : row.key = a.key
  hash : row.bodyHash = bodyHash E a.data
  createdAt : row.createdAt = a.createdAt

/-- every accepted delivery has its row, and the target of the row exists -/
def Recognised (E : Ingest.Env) (l : Ledger) : Prop :=
  ∀ a ∈ l.accepted, ∃ row ∈ l.db.idempotency, RowOf E a row ∧
    ∃ n, row.summaryMemoryId = some (.id n) ∧ stillExists l.db n = true

variable {l : Ledger}

theorem Recognised.once (htracked : Tracked E l) (h : Recognised E l) : ∀ a ∈ l.accepted, Once E l.db a := by
  intro a ha
  obtain ⟨row, hrow, hof, n, hid, hexists⟩ := h a ha
  have hfind : findKey l.db a.key = some row := by
    rw [← hof.key]
    exact lookup_of_mem htracked.keyed hrow
  have hreplay : ingestCanonical E l.db a.data (some a.key) = .error (.idempotentReplay n) :=
    (ingestCanonical_replay (htracked.admitted a ha)).2 ⟨row, hfind, hof.hash, hid, hexists⟩
  refine ⟨⟨n, hreplay⟩, ?_⟩
  intro op hop
  refine ⟨report_replay hop hreplay, ?_⟩
  rw [step_delivery hop, hreplay]

/-- a row without target makes the next delivery of its body something else than a replay -/
theorem not_once_of_dangling (htracked : Tracked E l) (hrow : row ∈ l.db.idempotency)
    (hid : row.summaryMemoryId = some (.id n)) (hgone : ¬ stillExists l.db n = true) :
    ∃ a ∈ l.accepted, ¬ Once E l.db a := by
  obtain ⟨a, ha, hkey, hhash, -⟩ := htracked.rows row hrow
  refine ⟨a, ha, ?_⟩
  rintro ⟨⟨m, hreplay⟩, -⟩
  obtain ⟨found, hfind, -, hfound, hexists⟩ := (ingestCanonical_replay (htracked.admitted a ha)).1 hreplay
  have hsame : found = row := by
    have hlookup : findKey l.db row.key = some row := lookup_of_mem htracked.keyed hrow
    rw [← hkey, hfind] at hlookup
    exact Option.some.inj hlookup
  rw [hsame, hid] at hfound
  cases hfound
  exact hgone hexists

/-! ## One step -/

theorem Tracked.frame (h : Tracked E l) (hrows : after.idempotency = l.db.idempotency)
    (htranscripts : ∀ t ∈ l.db.transcripts, t ∈ after.transcripts) : Tracked E { l with db := after } where
  keyed := by
    rw [hrows]
    exact h.keyed
  rows := by
    rw [hrows]
    exact h.rows
  targets := by
    rw [hrows]
    exact h.targets
  admitted := h.admitted
  stored a ha := by
    obtain ⟨t, ht, hid⟩ := h.stored a ha
    exact ⟨t, htranscripts t ht, hid⟩

theorem Recognised.frame (h : Recognised E l) (hrows : after.idempotency = l.db.idempotency)
    (htargets : ∀ row ∈ l.db.idempotency, ∀ n, row.summaryMemoryId = some (.id n) → stillExists l.db n = true →
      stillExists after n = true) : Recognised E { l with db := after } := by
  intro a ha
  obtain ⟨row, hrow, hof, n, hid, hexists⟩ := h a ha
  refine ⟨row, ?_, hof, n, hid, htargets row hrow n hid hexists⟩
  rw [hrows]
  exact hrow

/-- the ledger after an ingest of `data` under `key` has returned -/
def acceptedLedger (l : Ledger) (after : Db) (key : String) (data : Envelope) (transcriptId : ℕ) (now : Time) : Ledger :=
  { db := after, accepted := l.accepted ++ [⟨key, data, transcriptId, now⟩] }

theorem Tracked.accept {result : IngestResult} (h : Tracked E l)
    (hok : ingestCanonical E l.db data (some key) = .ok (result, after)) :
    Tracked E (acceptedLedger l after key data result.transcriptId (E.now l.db.store.clock)) := by
  obtain ⟨⟨t, hid, hwrote⟩, hrows⟩ := ingestCanonical_ok hok
  have hmem : ∀ row ∈ after.idempotency, row ∈ l.db.idempotency ∨
      row = ⟨key, bodyHash E data, some (.id result.transcriptId), E.now l.db.store.clock⟩ := by
    intro row hrow
    rw [hrows, List.mem_append, List.mem_singleton] at hrow
    exact hrow.imp_left fun hold => (mem_deleteWhere.1 hold).1
  constructor
  · show Keyed (·.key) after.idempotency
    rw [hrows]
    apply h.keyed.deleteWhere.insert
    intro row hrow
    exact (mem_deleteWhere.1 hrow).2
  · intro row hrow
    rcases hmem row hrow with hold | rfl
    · obtain ⟨a, ha, htwin⟩ := h.rows row hold
      exact ⟨a, List.mem_append_left _ ha, htwin⟩
    · exact ⟨_, List.mem_append_right _ (List.mem_singleton_self _), rfl, rfl, rfl⟩
  · intro row hrow
    rcases hmem row hrow with hold | rfl
    · exact h.targets row hold
    · exact ⟨_, rfl⟩
  · intro a ha
    rcases List.mem_append.1 ha with hold | hnew
    · exact h.admitted a hold
    · rw [List.mem_singleton.1 hnew]
      exact admitted_of_ok hok
  · intro a ha
    show ∃ u ∈ after.transcripts, u.id = a.transcriptId
    rw [hwrote.transcripts]
    rcases List.mem_append.1 ha with hold | hnew
    · obtain ⟨u, hu, huid⟩ := h.stored a hold
      exact ⟨u, List.mem_append_left _ hu, huid⟩
    · rw [List.mem_singleton.1 hnew]
      exact ⟨t, List.mem_append_right _ (List.mem_singleton_self _), hid⟩

theorem Recognised.accept {result : IngestResult} (htracked : Tracked E l) (h : Recognised E l)
    (hok : ingestCanonical E l.db data (some key) = .ok (result, after)) :
    Recognised E (acceptedLedger l after key data result.transcriptId (E.now l.db.store.clock)) := by
  obtain ⟨⟨t, hid, hwrote⟩, hrows⟩ := ingestCanonical_ok hok
  intro a ha
  rcases List.mem_append.1 ha with hold | hnew
  · obtain ⟨row, hrow, hof, n, hn, hexists⟩ := h a hold
    -- a live row of the key would have made the ingest throw
    have hother : ¬ row.key = key := by
      intro hkey
      have hfind : findKey l.db key = some row := by
        rw [← hkey]
        exact lookup_of_mem htracked.keyed hrow
      exact ingestCanonical_dangling hok hfind hn hexists
    refine ⟨row, ?_, hof, n, hn, hwrote.keepsRows.exists hexists⟩
    show row ∈ after.idempotency
    rw [hrows]
    exact List.mem_append_left _ (mem_deleteWhere.2 ⟨hrow, hother⟩)
  · rw [List.mem_singleton.1 hnew]
    refine ⟨⟨key, bodyHash E data, some (.id result.transcriptId), E.now l.db.store.clock⟩, ?_, ⟨rfl, rfl, rfl⟩, _, rfl, ?_⟩
    · show _ ∈ after.idempotency
      rw [hrows]
      exact List.mem_append_right _ (List.mem_singleton_self _)
    · show stillExists after result.transcriptId = true
      simp [stillExists, hwrote.transcripts, hid]

/-- the ledger after a prune of everything older than `cutoff` -/
def prunedLedger (l : Ledger) (cutoff : Time) : Ledger :=
  { db := tickDb { l.db with idempotency := deleteWhere (·.createdAt < cutoff) l.db.idempotency }
    accepted := deleteWhere (·.createdAt < cutoff) l.accepted }

theorem Tracked.prune (h : Tracked E l) (cutoff : Time) : Tracked E (prunedLedger l cutoff) where
  keyed := h.keyed.deleteWhere
  rows row hrow := by
    obtain ⟨hold, hkept⟩ := mem_deleteWhere.1 hrow
    obtain ⟨a, ha, hkey, hhash, hcreated⟩ := h.rows row hold
    exact ⟨a, mem_deleteWhere.2 ⟨ha, hcreated ▸ hkept⟩, hkey, hhash, hcreated⟩
  targets row hrow := h.targets row (mem_deleteWhere.1 hrow).1
  admitted a ha := h.admitted a (mem_deleteWhere.1 ha).1
  stored a ha := h.stored a (mem_deleteWhere.1 ha).1

/-- a row and its delivery have one age -/
theorem Recognised.prune (h : Recognised E l) (cutoff : Time) : Recognised E (prunedLedger l cutoff) := by
  intro a ha
  obtain ⟨hold, hkept⟩ := mem_deleteWhere.1 ha
  obtain ⟨row, hrow, hof, htarget⟩ := h a hold
  exact ⟨row, mem_deleteWhere.2 ⟨hrow, hof.createdAt.symm ▸ hkept⟩, hof, htarget⟩

section
variable {t m : ℕ}

/-- what a backfill makes of a row -/
def repointed (t m : ℕ) (row : IdempotencyRow) : IdempotencyRow :=
  if row.summaryMemoryId = some (.id t) then { row with summaryMemoryId := some (.id m) } else row

theorem mem_backfill : row ∈ (backfillSummaryMemoryId db t m).idempotency ↔
    ∃ old ∈ db.idempotency, repointed t m old = row := mem_updateWhere

theorem repointed_kept (t m : ℕ) (row : IdempotencyRow) : (repointed t m row).key = row.key ∧ (repointed t m row).bodyHash = row.bodyHash ∧
    (repointed t m row).createdAt = row.createdAt := by
  unfold repointed
  split <;> exact ⟨rfl, rfl, rfl⟩

theorem Tracked.backfill (h : Tracked E l) : Tracked E { l with db := backfillSummaryMemoryId l.db t m } where
  keyed := h.keyed.updateWhere fun _ => rfl
  rows row hrow := by
    obtain ⟨old, hold, rfl⟩ := mem_backfill.1 hrow
    obtain ⟨hkey, hhash, hcreated⟩ := repointed_kept t m old
    rw [hkey, hhash, hcreated]
    exact h.rows old hold
  targets row hrow := by
    obtain ⟨old, hold, rfl⟩ := mem_backfill.1 hrow
    unfold repointed
    split
    · exact ⟨m, rfl⟩
    · exact h.targets old hold
  admitted := h.admitted
  stored := h.stored

theorem Recognised.backfill (h : Recognised E l) (hkeeps : KeepsTargets E l.db (.backfill t m)) :
    Recognised E { l with db := backfillSummaryMemoryId l.db t m } := by
  intro a ha
  obtain ⟨row, hrow, hof, n, hid, hexists⟩ := h a ha
  obtain ⟨hkey, hhash, hcreated⟩ := repointed_kept t m row
  refine ⟨repointed t m row, mem_backfill.2 ⟨row, hrow, rfl⟩,
    ⟨hkey.trans hof.key, hhash.trans hof.hash, hcreated.trans hof.createdAt⟩, ?_⟩
  by_cases hpoints : row.summaryMemoryId = some (.id t)
  · refine ⟨m, ?_, hkeeps ⟨row, hrow, hpoints⟩⟩
    rw [repointed, if_pos hpoints]
  · refine ⟨n, ?_, hexists⟩
    rw [repointed, if_neg hpoints]
    exact hid

end

/-- what one step makes of the ledger -/
inductive Moves (E : Ingest.Env) (l : Ledger) : Op → Ledger → Prop where
  | accept {op : Op} {key : String} {data : Envelope} {result : IngestResult} {after : Db}
      (hok : ingestCanonical E l.db data (some key) = .ok (result, after)) :
      Moves E l op (acceptedLedger l after key data result.transcriptId (E.now l.db.store.clock))
  | leave {op : Op} {after : Db} (hkept : KeepsRows l.db after) (hrows : after.idempotency = l.db.idempotency) :
      Moves E l op { l with db := after }
  | prune : Moves E l .prune (prunedLedger l (pruneCutoff E (E.now l.db.store.clock)))
  | backfill (t m : ℕ) : Moves E l (.backfill t m) { l with db := backfillSummaryMemoryId l.db t m }
  | daemon (o : Daemon.Op) : Moves E l (.daemon o) { l with db := Server.step E l.db (.daemon o) }

theorem ledger_moves (l : Ledger) (op : Op) : Moves E l op (l.step E op) := by
  cases hdelivery : delivery E op with
  | some delivered =>
    obtain ⟨key, data⟩ := delivered
    cases hingest : ingestCanonical E l.db data (some key) with
    | ok written =>
      obtain ⟨result, after⟩ := written
      have hstep : l.step E op = acceptedLedger l after key data result.transcriptId (E.now l.db.store.clock) := by
        simp only [Ledger.step, step_delivery hdelivery, hdelivery, hingest, acceptedLedger]
      rw [hstep]
      exact .accept hingest
    | error e =>
      have hstep : l.step E op = l := by simp only [Ledger.step, step_delivery hdelivery, hdelivery, hingest]
      rw [hstep]
      exact .leave .refl rfl
  | none =>
    cases op with
    | prune => exact .prune
    | backfill t m => exact .backfill t m
    | daemon o => exact .daemon o
    | post idempotencyKey body =>
      have hstep : l.step E (.post idempotencyKey body) = { l with db := Server.step E l.db (.post idempotencyKey body) } := by
        simp only [Ledger.step, hdelivery]
      obtain ⟨hkept, hrows⟩ := step_undelivered hdelivery trivial
      rw [hstep]
      exact .leave hkept hrows
    | drain file =>
      have hstep : l.step E (.drain file) = { l with db := Server.step E l.db (.drain file) } := by
        simp only [Ledger.step, hdelivery]
      obtain ⟨hkept, hrows⟩ := step_undelivered hdelivery trivial
      rw [hstep]
      exact .leave hkept hrows

theorem Tracked.step (h : Tracked E l) : Tracked E (l.step E op) := by
  have hmoves : Moves E l op (l.step E op) := ledger_moves l op
  generalize l.step E op = next at hmoves ⊢
  cases hmoves with
  | accept hok => exact h.accept hok
  | leave hkept hrows => exact h.frame hrows hkept.transcripts
  | prune => exact h.prune _
  | backfill t m => exact h.backfill
  | daemon o => exact h.frame rfl fun t ht => ht

theorem Recognised.step (htracked : Tracked E l) (h : Recognised E l) (hkeeps : KeepsTargets E l.db op) :
    Recognised E (l.step E op) := by
  have hmoves : Moves E l op (l.step E op) := ledger_moves l op
  generalize l.step E op = next at hmoves ⊢
  cases hmoves with
  | accept hok => exact h.accept htracked hok
  | leave hkept hrows => exact h.frame hrows fun _ _ _ _ => hkept.exists
  | prune => exact h.prune _
  | backfill t m => exact h.backfill hkeeps
  | daemon o => exact h.frame rfl hkeeps

theorem SparesTargets.keeps (h : SparesTargets db op) : KeepsTargets E db op := by
  cases op with
  | daemon o =>
    intro row hrow n hid hexists
    have hstored : stillExists db n = true := hexists
    rw [stillExists, Bool.or_eq_true] at hexists ⊢
    by_cases htranscript : db.transcripts.any (·.id = n) = true
    · exact Or.inl htranscript
    · refine Or.inr ?_
      have hn : n ∈ Daemon.ids db.store := by
        rw [Daemon.mem_ids, ← Option.isSome_iff_ne_none]
        exact hexists.resolve_left htranscript
      have hspared : ¬ o.removes db.store n := fun hremoved => htranscript (h row hrow n hid hstored hremoved)
      rw [Option.isSome_iff_ne_none]
      exact Daemon.mem_ids.1 (Daemon.step_keeps hn hspared)
  | backfill t m => exact h
  | _ => trivial

/-- a step that loses a target leaves a body whose next delivery is no replay -/
theorem not_once_step (h : Tracked E l) (hloses : ¬ KeepsTargets E l.db op) :
    ∃ a ∈ (l.step E op).accepted, ¬ Once E (l.step E op).db a := by
  have hafter : Tracked E (l.step E op) := h.step
  cases op with
  | daemon o =>
    simp only [KeepsTargets, not_forall] at hloses
    obtain ⟨row, hrow, n, hid, -, hgone⟩ := hloses
    exact not_once_of_dangling hafter hrow hid hgone
  | backfill t m =>
    simp only [KeepsTargets, not_forall] at hloses
    obtain ⟨⟨row, hrow, hpoints⟩, hgone⟩ := hloses
    have hid : (repointed t m row).summaryMemoryId = some (.id m) := by rw [repointed, if_pos hpoints]
    exact not_once_of_dangling hafter (mem_backfill.2 ⟨row, hrow, rfl⟩) hid hgone
  | _ => exact absurd trivial hloses

/-! ## Runs -/

def run (E : Ingest.Env) (db : Db) (ops : List Op) : Db := ops.foldl (Server.step E) db

/-- the ledger of a run -/
def ledgerOf (E : Ingest.Env) (db : Db) (ops : List Op) : Ledger := ops.foldl (Ledger.step E) { db }

variable {ops : List Op}

theorem ledgerOf_db (E : Ingest.Env) (db : Db) (ops : List Op) : (ledgerOf E db ops).db = run E db ops :=
  (List.foldl_hom (fun l : Ledger => l.db) fun _ _ => rfl).symm

theorem tracked_run (hstart : db.idempotency = []) : Tracked E (ledgerOf E db ops) := by
  have hempty : Tracked E { db } := by
    constructor
    · show Keyed (·.key) db.idempotency
      rw [hstart]
      exact List.nodup_nil
    · intro row hrow
      rw [hstart] at hrow
      cases hrow
    · intro row hrow
      rw [hstart] at hrow
      cases hrow
    · intro a ha
      cases ha
    · intro a ha
      cases ha
  exact along_inv (Tracked E) (fun _ _ h _ => h.step) hempty (along_trivial _ _ _)

theorem recognised_run (hstart : db.idempotency = []) (hkeeps : Along (Server.step E) (KeepsTargets E) db ops) :
    Recognised E (ledgerOf E db ops) := by
  have hledger : Along (Ledger.step E) (fun l op => KeepsTargets E l.db op) { db } ops :=
    (along_comap fun _ _ => rfl).2 hkeeps
  have hboth : Tracked E (ledgerOf E db ops) ∧ Recognised E (ledgerOf E db ops) := by
    apply along_inv (fun l => Tracked E l ∧ Recognised E l) _ _ hledger
    · intro l op h hop
      exact ⟨h.1.step, h.2.step h.1 hop⟩
    · have hempty : Tracked E (ledgerOf E db []) := tracked_run hstart
      refine ⟨hempty, ?_⟩
      intro a ha
      cases ha
  exact hboth.2

/-- every accepted body is recognised, all through the run -/
def AlwaysOnce (E : Ingest.Env) (db : Db) (ops : List Op) : Prop :=
  ∀ pre, pre <+: ops → ∀ a ∈ (ledgerOf E db pre).accepted, Once E (run E db pre) a

theorem alwaysOnce_iff (hstart : db.idempotency = []) :
    AlwaysOnce E db ops ↔ Along (Server.step E) (KeepsTargets E) db ops := by
  constructor
  · intro honce
    rw [along_iff]
    intro pre op hpre
    by_contra hloses
    have htracked : Tracked E (ledgerOf E db pre) := tracked_run hstart
    have hledger : ¬ KeepsTargets E (ledgerOf E db pre).db op := by
      rw [ledgerOf_db]
      exact hloses
    obtain ⟨a, ha, hnot⟩ := not_once_step htracked hledger
    have hafter : ledgerOf E db (pre ++ [op]) = (ledgerOf E db pre).step E op := by
      rw [ledgerOf, List.foldl_append]
      rfl
    rw [← hafter] at ha hnot
    apply hnot
    rw [ledgerOf_db]
    exact honce _ hpre a ha
  · intro hkeeps pre hpre
    have hrecognised : Recognised E (ledgerOf E db pre) := recognised_run hstart (hkeeps.initial hpre)
    rw [← ledgerOf_db]
    exact hrecognised.once (tracked_run hstart)

/-- **Exactly once.** In every run that starts with an empty idempotency table: no placeholder is left behind, every
accepted delivery has its transcript, a replay and a conflict change nothing; and where every step spares the targets of
the idempotency rows, an accepted body is a replay from then on. -/
theorem ingest_exactly_once (E : Ingest.Env) (db : Db) (hstart : db.idempotency = []) (ops : List Op) :
    (∀ pre, pre <+: ops →
      (∀ row ∈ (run E db pre).idempotency, row.summaryMemoryId ≠ some .pending) ∧
      (∀ a ∈ (ledgerOf E db pre).accepted, ∃ t ∈ (run E db pre).transcripts, t.id = a.transcriptId) ∧
      ∀ op, report E (run E db pre) op = .replay ∨ report E (run E db pre) op = .conflict →
        Server.step E (run E db pre) op = run E db pre) ∧
    (Along (Server.step E) SparesTargets db ops → AlwaysOnce E db ops) := by
  constructor
  · intro pre _
    have htracked : Tracked E (ledgerOf E db pre) := tracked_run hstart
    rw [← ledgerOf_db]
    refine ⟨?_, htracked.stored, fun _ => refused_unchanged⟩
    intro row hrow hpending
    obtain ⟨n, hid⟩ := htracked.targets row hrow
    rw [hid] at hpending
    cases hpending
  · intro hspares
    apply (alwaysOnce_iff hstart).2
    exact hspares.mono fun _ _ => SparesTargets.keeps

def greeting : Envelope :=
  { event := .sessionEnd
    sessionId := "claude-s1"
    projectId := "repo"
    capturedAt := "2026-01-01T00:00:00.000Z"
    turns := some [{ role := .user, text := "hi" }]
    clientScrubApplied := false
    clientScrubHits := 0
    clientVersion := "1"
    clientScrubVersion := "none"
    wireVersion := "v1.0" }

/-- what is hashed of it -/
def greetingText : String :=
  "\x7b\"captured_at\":\"2026-01-01T00:00:00.000Z\",\"client_scrub_applied\":false,\"client_scrub_hits\":0," ++
  "\"client_scrub_version\":\"none\",\"client_version\":\"1\",\"event\":\"session_end\"," ++
  "\"kind\":\"transcript\",\"project_id\":\"repo\",\"session_id\":\"claude-s1\"," ++
  "\"turns\":[\x7b\"role\":\"user\",\"text\":\"hi\"\x7d],\"wire_version\":\"v1.0\"\x7d"

def greetingEnv : Ingest.Env :=
  tableEnv [(greetingText, "5d154006ea9f4a9691d825264ad1e4814c02b505d61b90d9cf2f495f7e308f08")]
    [("2026-01-01T00:00:00.000Z", 1767225600000)]

def redelivery : Op := .post (some "k") greeting.toJson

/-- deliver, distill, backfill, deliver again: the transcript and its job have the ids 0 and 1, the memory has 2 -/
def deliverTwice : List Op :=
  [.post (some "k") greeting.toJson, .daemon (.remember (Daemon.rememberInput 7 "text")), .backfill 0 2, redelivery]

set_option maxRecDepth 4000 in
theorem ingest_exactly_once_backfilled :
    Along (Server.step greetingEnv) SparesTargets {} deliverTwice ∧ AlwaysOnce greetingEnv {} deliverTwice ∧
      (ledgerOf greetingEnv {} deliverTwice).accepted = [⟨"k", greeting, 0, 0⟩] := by
  have hspares : Along (Server.step greetingEnv) SparesTargets {} deliverTwice := by
    refine ⟨trivial, ?_, ?_, trivial, trivial⟩
    · intro row hrow n hid hexists hremoved
      exact hremoved.elim
    · intro hpoints
      decide
  exact ⟨hspares, (ingest_exactly_once greetingEnv {} rfl deliverTwice).2 hspares, by decide +kernel⟩

/-- the memory is erased -/
def deliverErased : List Op := deliverTwice ++ [.daemon (.erase 2 none)]

set_option maxRecDepth 4000 in
/-- The row points to the memory only, so without it the same body is stored again, beside its first transcript. -/
theorem erased_memory_reingests :
    ((run greetingEnv {} deliverErased).transcripts.map (·.id) = [0] ∧
      report greetingEnv (run greetingEnv {} deliverErased) redelivery = .stored ∧
      (Server.step greetingEnv (run greetingEnv {} deliverErased) redelivery).transcripts.length = 2 ∧
      (Server.step greetingEnv (run greetingEnv {} deliverErased) redelivery).jobs.map (·.kind) = [.distill, .distill]) ∧
    ¬ AlwaysOnce greetingEnv {} deliverErased := by
  have hruns : (run greetingEnv {} deliverErased).transcripts.map (·.id) = [0] ∧
      report greetingEnv (run greetingEnv {} deliverErased) redelivery = .stored ∧
      (Server.step greetingEnv (run greetingEnv {} deliverErased) redelivery).transcripts.length = 2 ∧
      (Server.step greetingEnv (run greetingEnv {} deliverErased) redelivery).jobs.map (·.kind) = [.distill, .distill] := by
    decide +kernel
  refine ⟨hruns, ?_⟩
  intro honce
  obtain ⟨-, hstored, -, -⟩ := hruns
  have haccepted : ⟨"k", greeting, 0, 0⟩ ∈ (ledgerOf greetingEnv {} deliverErased).accepted := by decide +kernel
  obtain ⟨-, hreplay⟩ := honce deliverErased List.prefix_rfl _ haccepted
  have hdelivery : delivery greetingEnv redelivery = some ("k", greeting) := by decide
  rw [(hreplay redelivery hdelivery).1] at hstored
  cases hstored

end AstramemLocal.Server
