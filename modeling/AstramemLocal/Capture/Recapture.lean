/-
Capturing the same content again. The two captures have one key (`idempotencyKey_eq`); under it the daemon compares the
hash of the whole body, and that shows the moment and the session (`bodyText_inj`).
* `recapture_replays`: draining the one capture and then the other is a replay exactly when moment and session are the
  same, besides what the first drain needs.
* `conflict_of_drained`: otherwise the second file is quarantined as a conflict.
-/
import AstramemLocal.Capture.Envelopes
import AstramemLocal.Server.IngestSpec

namespace AstramemLocal.Capture

open AstramemLocal.Core AstramemLocal.Store AstramemLocal.Ingest AstramemLocal.Server

variable {E : Ingest.Env}

/-! ## One key -/

theorem contentKey_eq {dropped : List String} {e e' : CaptureEnvelope}
    (h : e.slots.filter (fun slot => decide (slot.1 ∉ dropped)) = e'.slots.filter fun slot => decide (slot.1 ∉ dropped)) :
    contentKey E dropped e = contentKey E dropped e' := by
  have hmembers := congrArg present h
  rw [← present_filter (fun key => decide (key ∉ dropped)), ← present_filter (fun key => decide (key ∉ dropped))]
    at hmembers
  rw [contentKey, contentKey, hmembers]

/-- the key of a capture is that of its content -/
theorem idempotencyKey_eq (c : Content) (capturedAt capturedAt' uuid uuid' : String) :
    c.idempotencyKey E capturedAt' uuid' = c.idempotencyKey E capturedAt uuid := by
  cases c with
  | claude parsed event clientVersion captureSource attribution => exact contentKey_eq rfl
  | proxy turns clientVersion usage => exact contentKey_eq rfl

theorem spooled_key (c : Content) (capturedAt capturedAt' uuid uuid' : String) (now now' : Time) :
    (c.spooled E capturedAt' uuid' now').key = (c.spooled E capturedAt uuid now).key :=
  idempotencyKey_eq c capturedAt capturedAt' uuid uuid'

/-! ## What the drain reads -/

def Turn.redacted (redact : String → String) (t : Turn) : Turn := { t with text := redact t.text }

def CaptureEnvelope.redacted (redact : String → String) (e : CaptureEnvelope) : CaptureEnvelope :=
  { e with turns := e.turns.map (·.redacted redact) }

variable {redact : String → String} {known : Option ResolvedField} {path : String}

theorem walk_turn (t : Turn) :
    walk redact (itemField (childField canonicalEnvelopeShape "turns")) ("turns" ++ "[]") t.toJson =
      (t.redacted redact).toJson := by
  simp only [Turn.toJson, walk]
  rw [walkMembers_present _ (by simp [Turn.slots])]
  rfl

theorem walk_usage (u : ProxyUsageMetadata) :
    walk redact (childField canonicalEnvelopeShape "proxy_usage") "proxy_usage" u.toJson = u.toJson := by
  simp only [ProxyUsageMetadata.toJson, walk]
  rw [walkMembers_present _ (by simp [ProxyUsageMetadata.slots])]
  congr 2
  simp only [ProxyUsageMetadata.slots, List.map_cons, List.map_nil, Option.map_some]
  rw [walk_nullable Json.str fun _ => rfl, walk_nullable Json.num fun _ => rfl, walk_nullable Json.num fun _ => rfl,
    walk_nullable Json.num fun _ => rfl, walk_nullable Json.num fun _ => rfl, walk_nullable Json.num fun _ => rfl,
    walk_nullable Json.str fun _ => rfl]
  rfl

/-- the spool redacts the texts of the turns -/
theorem redactSpooledEnvelope_capture (e : CaptureEnvelope) :
    redactSpooledEnvelope redact e.toJson = (e.redacted redact).toJson := by
  simp only [redactSpooledEnvelope, CaptureEnvelope.toJson, walk]
  rw [walkMembers_present _ (by simp [CaptureEnvelope.slots])]
  congr 2
  have hturns : walk redact (childField canonicalEnvelopeShape "turns") "turns" (.arr (e.turns.map (·.toJson))) =
      .arr ((e.turns.map (·.redacted redact)).map (·.toJson)) := by
    simp only [walk, walkItems_eq, List.map_map, Function.comp_def, walk_turn]
  have hchild (key : String) : childPath "" key = key := rfl
  simp only [CaptureEnvelope.slots, CaptureEnvelope.redacted, List.map_cons, List.map_nil, Option.map_some,
    Option.map_map, hchild, Option.bind_some, Function.comp_def, hturns, walk_usage]
  rfl

def Turn.toTurn (t : Turn) : TranscriptTurn := { role := t.role, text := t.text }

/-- the envelope the schema reads, given what it reads of the usage -/
def CaptureEnvelope.parsed (usage : Option ProxyUsage) (e : CaptureEnvelope) : Envelope :=
  { event := e.event
    sessionId := e.sessionId
    projectId := e.projectId
    agentType := e.agentType
    cwd := e.cwd
    capturedAt := e.capturedAt
    turns := some (e.turns.map (·.toTurn))
    tool := some e.tool
    captureSource := e.captureSource
    proxyUsage := usage
    clientScrubApplied := false
    clientScrubHits := 0
    clientVersion := e.clientVersion
    clientScrubVersion := "none"
    wireVersion := "v1.0" }

def readUsage : Option ProxyUsageMetadata → Option (Option ProxyUsage)
  | none => some none
  | some usage => (readProxyUsage usage.toJson).map some

theorem readTurns_capture (turns : List Turn) :
    array? readTurn (.arr (turns.map (·.toJson))) = some (turns.map (·.toTurn)) := by
  have hitems : turns.map (·.toJson) = (turns.map (·.toTurn)).map (·.toJson) := by
    rw [List.map_map]
    rfl
  rw [hitems]
  exact mapM_map_some readTurn_toJson _

theorem readEnvelope_capture (e : CaptureEnvelope) :
    readEnvelope e.toJson = (readUsage e.proxyUsage).map fun usage => e.parsed usage := by
  have hnodup : (e.slots.map (·.1)).Nodup := by simp [CaptureEnvelope.slots]
  have hevent : enum? [.preCompact, .sessionEnd, .subagentStop] CaptureEvent.name (.str e.event.name) = some e.event := by
    cases e.event <;> rfl
  have hkind : enum? [.transcript, .events] EnvelopeKind.name (.str EnvelopeKind.transcript.name) = some .transcript := rfl
  have hsource (c : CaptureSource) :
      enum? [.autoCapture, .hookClose, .proxy, .meetingCaptions] CaptureSource.name (.str c.name) = some c := by
    cases c <;> rfl
  simp only [readEnvelope, CaptureEnvelope.toJson, required_slot _ hnodup "event" rfl hevent,
    required_slot str? hnodup "session_id" rfl rfl, required_slot str? hnodup "project_id" rfl rfl,
    optional_slot str? .str hnodup "agent_type" rfl fun _ => rfl, optional_slot str? .str hnodup "cwd" rfl fun _ => rfl,
    required_slot str? hnodup "captured_at" rfl rfl, optional_some _ hnodup "kind" rfl hkind,
    optional_some _ hnodup "turns" rfl (readTurns_capture e.turns), optional_absent _ hnodup "events" rfl,
    optional_some str? hnodup "tool" rfl rfl,
    optional_slot _ (fun c : CaptureSource => .str c.name) hnodup "capture_source" rfl hsource,
    optional_absent _ hnodup "platform" rfl, optional_absent _ hnodup "meeting_id" rfl,
    optional_absent _ hnodup "consent_disclosed" rfl, optional_absent _ hnodup "extract_profile" rfl,
    required_slot bool? hnodup "client_scrub_applied" rfl rfl,
    required_slot nat? hnodup "client_scrub_hits" rfl (nat?_natJson _),
    required_slot str? hnodup "client_version" rfl rfl, required_slot str? hnodup "client_scrub_version" rfl rfl,
    optional_absent _ hnodup "client_scrub_hits_by_label" rfl, required_slot str? hnodup "wire_version" rfl rfl]
  have husage : Ingest.optional readProxyUsage "proxy_usage" (present e.slots) = readUsage e.proxyUsage := by
    have hslot : (present e.slots).lookup "proxy_usage" = e.proxyUsage.map (·.toJson) := lookup_present hnodup _
    rw [Ingest.optional, hslot]
    cases e.proxyUsage <;> rfl
  rw [husage]
  cases readUsage e.proxyUsage <;> rfl

/-! ## Two captures of one content -/

variable {c : Content} {capturedAt capturedAt' uuid uuid' : String} {now now' : Time} {data data' : Envelope}

theorem envelope_recaptured : c.envelope capturedAt' uuid' =
    { c.envelope capturedAt uuid with
      capturedAt := capturedAt'
      sessionId := (c.envelope capturedAt' uuid').sessionId } := by
  cases c <;> rfl

/-- the drain reads `data` from the file -/
def Reads (E : Ingest.Env) (file : SpoolFile) (data : Envelope) : Prop :=
  file.content.bind (safeParse E.isDatetime) = some data

theorem reads_spooled (h : Reads E (c.spooled E capturedAt uuid now) data) :
    ∃ usage, readUsage (c.envelope capturedAt uuid).proxyUsage = some usage ∧
      data = ((c.envelope capturedAt uuid).redacted (redactText E)).parsed usage ∧ data.accepts E.isDatetime = true := by
  have hparse : safeParse E.isDatetime ((c.envelope capturedAt uuid).redacted (redactText E)).toJson = some data := by
    rw [← redactSpooledEnvelope_capture]
    exact h
  rw [safeParse, readEnvelope_capture] at hparse
  obtain ⟨hread, haccepts⟩ := Option.filter_eq_some_iff.1 hparse
  obtain ⟨usage, husage, rfl⟩ := Option.map_eq_some_iff.1 hread
  exact ⟨usage, husage, rfl, haccepts⟩

/-- an envelope the schema accepts is read -/
theorem reads_of_accepts {usage : Option ProxyUsage} (husage : readUsage (c.envelope capturedAt uuid).proxyUsage = some usage)
    (h : (((c.envelope capturedAt uuid).redacted (redactText E)).parsed usage).accepts E.isDatetime = true) :
    Reads E (c.spooled E capturedAt uuid now) (((c.envelope capturedAt uuid).redacted (redactText E)).parsed usage) := by
  show safeParse E.isDatetime (redactSpooledEnvelope (redactText E) (c.envelope capturedAt uuid).toJson) = _
  have hread : readUsage ((c.envelope capturedAt uuid).redacted (redactText E)).proxyUsage = some usage := husage
  rw [redactSpooledEnvelope_capture, safeParse, readEnvelope_capture, hread, Option.map_some, Option.filter_some, if_pos h]

/-- what is read of the two differs in the moment and the session only -/
theorem reads_recaptured (h : Reads E (c.spooled E capturedAt uuid now) data)
    (h' : Reads E (c.spooled E capturedAt' uuid' now') data') :
    data' = { data with
      capturedAt := capturedAt'
      sessionId := (c.envelope capturedAt' uuid').sessionId } := by
  obtain ⟨usage, husage, rfl, -⟩ := reads_spooled h
  obtain ⟨usage', husage', rfl, -⟩ := reads_spooled h'
  have henvelope : c.envelope capturedAt' uuid' =
      { c.envelope capturedAt uuid with
        capturedAt := capturedAt'
        sessionId := (c.envelope capturedAt' uuid').sessionId } := envelope_recaptured
  rw [henvelope] at husage' ⊢
  have hsame : usage' = usage := Option.some.inj (husage'.symm.trans husage)
  rw [hsame]
  rfl

/-- the moment and the session put in -/
def retaken (capturedAt sessionId key : String) (value : Json) : Json :=
  if key = "captured_at" then .str capturedAt else if key = "session_id" then .str sessionId else value

theorem members_retaken (data : Envelope) (capturedAt sessionId : String) :
    ({ data with capturedAt, sessionId } : Envelope).members =
      data.members.map fun member => (member.1, retaken capturedAt sessionId member.1 member.2) := by
  rw [Envelope.members, Envelope.members, present_map]
  congr 1
  simp [Envelope.slots, retaken, Function.comp_def]

/-- the hashed text of a body shows both -/
theorem bodyText_inj {numberText : ℚ → List Char} {data : Envelope} {capturedAt sessionId : String}
    (h : stableStringify numberText data.toJson =
      stableStringify numberText ({ data with capturedAt, sessionId } : Envelope).toJson) :
    capturedAt = data.capturedAt ∧ sessionId = data.sessionId := by
  have hnodup := data.slots_nodup
  -- a member under one of the two keys is a string
  have hvalue : ∀ key value old, (key, some value) ∈ data.slots → (key, some (Json.str old)) ∈ data.slots →
      value = .str old := by
    intro key value old hmem hold
    have hslot := List.inj_on_of_nodup_map hnodup hmem hold rfl
    exact Option.some.inj (congrArg Prod.snd hslot)
  have hcaptured : ("captured_at", some (Json.str data.capturedAt)) ∈ data.slots := by simp [Envelope.slots]
  have hsession : ("session_id", some (Json.str data.sessionId)) ∈ data.slots := by simp [Envelope.slots]
  have hsame : data.members.map (fun member => (member.1, retaken capturedAt sessionId member.1 member.2)) =
      data.members := by
    have hrewrites : ∀ member ∈ data.members, (member.1, retaken capturedAt sessionId member.1 member.2) = member ∨
        ∃ s t, member.2 = .str s ∧ retaken capturedAt sessionId member.1 member.2 = .str t := by
      rintro ⟨key, value⟩ hmember
      have hslot := mem_present.1 hmember
      by_cases hkey : key = "captured_at"
      · subst hkey
        exact Or.inr ⟨_, _, hvalue _ _ _ hslot hcaptured, rfl⟩
      · by_cases hkey' : key = "session_id"
        · subst hkey'
          exact Or.inr ⟨_, _, hvalue _ _ _ hslot hsession, rfl⟩
        · exact Or.inl (by rw [retaken, if_neg hkey, if_neg hkey'])
    have htext : stableStringify numberText (.obj data.members) = stableStringify numberText (.obj
        (data.members.map fun member => (member.1, retaken capturedAt sessionId member.1 member.2))) := by
      rw [← members_retaken]
      exact h
    exact stableStringify_map_inj (fun _ => rfl) hrewrites htext
  have hmembers : ({ data with capturedAt, sessionId } : Envelope).members = data.members :=
    (members_retaken data capturedAt sessionId).trans hsame
  have hlookup : ∀ key, (({ data with capturedAt, sessionId } : Envelope).slots.lookup key).join =
      (data.slots.lookup key).join := by
    intro key
    rw [← lookup_present (Envelope.slots_nodup _), ← lookup_present hnodup]
    exact congrArg (List.lookup key) hmembers
  constructor
  · exact Json.str.inj (Option.some.inj (hlookup "captured_at"))
  · exact Json.str.inj (Option.some.inj (hlookup "session_id"))

/-! ## The two drains -/

theorem transcript_of_reads (h : Reads E (c.spooled E capturedAt uuid now) data) : data.kind = .transcript := by
  obtain ⟨usage, -, rfl, -⟩ := reads_spooled h
  rfl

theorem admitted_of_reads (h : Reads E (c.spooled E capturedAt uuid now) data) : Admitted E data := by
  obtain ⟨usage, -, hdata, haccepts⟩ := reads_spooled h
  intro hkind
  have hsource : data.captureSource ≠ some .meetingCaptions := by
    rw [hdata]
    cases c with
    | claude parsed event clientVersion captureSource attribution =>
      rcases captureSource with _ | _ | _ <;> exact fun hc => by cases hc
    | proxy turns clientVersion usage => exact fun hc => by cases hc
  refine ⟨?_, fun hcaptions => hsource hcaptions.1⟩
  intro hturns
  have hrefined : data.refined = true := (Bool.and_eq_true _ _ ▸ haccepts).2
  rw [Envelope.refined, hkind] at hrefined
  cases hsome : data.turns with
  | none => simp [hsome] at hrefined
  | some turns =>
    rw [hsome] at hturns hrefined
    subst hturns
    simp at hrefined

variable {db : Db} {file : SpoolFile}

/-- a file that the drain can read is ingested under its key -/
theorem drainFile_reads (hsize : ¬ E.config.spoolMaxBytes < file.size) (h : Reads E file data)
    (hkind : data.kind = .transcript) :
    drainFile E db file =
      match ingestCanonical E db data (some file.key) with
      | .ok (_, after) => (.stored, after)
      | .error (.idempotentReplay _) => (.replayed, db)
      | .error (.idempotencyConflict _) => (.conflict, db)
      | .error e => (.failed (.ingest e), db) := by
  obtain ⟨value, hvalue, hparse⟩ := Option.bind_eq_some_iff.1 h
  cases hingest : ingestCanonical E db data (some file.key) with
  | ok written => simp [drainFile, hsize, hvalue, hparse, ingestCanonicalTranscript_eq hkind, hingest]
  | error e =>
    cases e <;> simp [drainFile, hsize, hvalue, hparse, ingestCanonicalTranscript_eq hkind, hingest]

/-- what was drained without a complaint could be read -/
theorem reads_of_drained (h : (drainFile E db file).1 = .stored ∨ (drainFile E db file).1 = .replayed) :
    ¬ E.config.spoolMaxBytes < file.size ∧ ∃ data, Reads E file data := by
  unfold drainFile at h
  split at h
  · simp at h
  · rename_i hsize
    refine ⟨hsize, ?_⟩
    split at h
    · simp at h
    · rename_i value hvalue
      split at h
      · simp at h
      · rename_i data hparse
        exact ⟨data, Option.bind_eq_some_iff.2 ⟨value, hvalue, hparse⟩⟩

/-- the file fits, the schema accepts it, and no other body holds its key -/
def Drainable (E : Ingest.Env) (db : Db) (file : SpoolFile) : Prop :=
  ¬ E.config.spoolMaxBytes < file.size ∧ ∃ data, Reads E file data ∧ SlotFree db file.key (bodyHash E data)

/-- one file is drained, and the other after it is a replay; neither is quarantined -/
structure Replayed (E : Ingest.Env) (st : DrainState) (file file' : SpoolFile) : Prop where
  first : (drainFile E st.db file).1 = .stored ∨ (drainFile E st.db file).1 = .replayed
  second : (drainFile E (drainNext E st file).db file').1 = .replayed
  kept : (drainNext E (drainNext E st file) file').spool.quarantine = st.spool.quarantine

/-- no two of the texts that are hashed have one digest -/
def CollisionFree (E : Ingest.Env) (file file' : SpoolFile) : Prop :=
  ∀ data data', Reads E file data → Reads E file' data' → bodyHash E data = bodyHash E data' →
    stableStringify E.numberText data.toJson = stableStringify E.numberText data'.toJson

section
variable {st : DrainState}

theorem drainNext_kept (h : (drainFile E st.db file).1 = .stored ∨ (drainFile E st.db file).1 = .replayed) :
    (drainNext E st file).spool.quarantine = st.spool.quarantine := by
  unfold drainNext
  rcases h with h | h
  · simp only [h]
    rfl
  · simp only [h]
    rfl

/-- after a drain without a complaint the row of the key is live under the hash of the body -/
theorem live_of_drained (h : Reads E file data) (hkind : data.kind = .transcript) (hadmitted : Admitted E data)
    (hdrained : (drainFile E db file).1 = .stored ∨ (drainFile E db file).1 = .replayed) :
    ∃ n, Live (drainFile E db file).2 file.key (bodyHash E data) n := by
  obtain ⟨hsize, -⟩ := reads_of_drained hdrained
  rw [drainFile_reads hsize h hkind] at hdrained ⊢
  cases hingest : ingestCanonical E db data (some file.key) with
  | ok written =>
    obtain ⟨result, after⟩ := written
    exact ⟨_, live_of_ok hingest⟩
  | error e =>
    rw [hingest] at hdrained
    cases e with
    | idempotentReplay n => exact ⟨n, (ingestCanonical_replay hadmitted).1 hingest⟩
    | _ => simp at hdrained

theorem replayed_iff_live (hsize : ¬ E.config.spoolMaxBytes < file.size) (h : Reads E file data)
    (hkind : data.kind = .transcript) (hadmitted : Admitted E data) :
    (drainFile E db file).1 = .replayed ↔ ∃ n, Live db file.key (bodyHash E data) n := by
  rw [drainFile_reads hsize h hkind]
  simp only [← ingestCanonical_replay hadmitted]
  cases ingestCanonical E db data (some file.key) with
  | ok written => simp
  | error e => cases e <;> simp

theorem slotFree_of_drained (h : Reads E file data) (hkind : data.kind = .transcript) (hadmitted : Admitted E data)
    (hdrained : (drainFile E db file).1 = .stored ∨ (drainFile E db file).1 = .replayed) :
    SlotFree db file.key (bodyHash E data) := by
  by_contra hheld
  obtain ⟨hsize, -⟩ := reads_of_drained hdrained
  rw [drainFile_reads hsize h hkind, (ingestCanonical_conflict hadmitted).2 hheld] at hdrained
  simp at hdrained

/-- another body under the key of a drained one is a conflict, and is quarantined -/
theorem conflict_of_drained {file' : SpoolFile} (h : Reads E file data) (hkind : data.kind = .transcript)
    (hadmitted : Admitted E data) (hdrained : (drainFile E st.db file).1 = .stored ∨ (drainFile E st.db file).1 = .replayed)
    (hkey : file'.key = file.key) (hsize' : ¬ E.config.spoolMaxBytes < file'.size) (h' : Reads E file' data')
    (hkind' : data'.kind = .transcript) (hadmitted' : Admitted E data') (hother : bodyHash E data ≠ bodyHash E data') :
    (drainFile E (drainNext E st file).db file').1 = .conflict ∧
      (drainNext E (drainNext E st file) file').quarantined = (drainNext E st file).quarantined + 1 := by
  have hheld : ¬ SlotFree (drainNext E st file).db file'.key (bodyHash E data') := by
    intro hfree
    obtain ⟨n, row, hrow, hhash, hid, -⟩ := live_of_drained h hkind hadmitted hdrained
    rw [hkey, drainNext_db] at hfree
    rcases hfree row hrow with hpending | hsame
    · rw [hid] at hpending
      cases hpending
    · exact hother (hhash.symm.trans hsame)
  have hconflict : (drainFile E (drainNext E st file).db file').1 = .conflict := by
    rw [drainFile_reads hsize' h' hkind', (ingestCanonical_conflict hadmitted').2 hheld]
  refine ⟨hconflict, ?_⟩
  rw [drainNext, hconflict]
  rfl

theorem drained_of_slotFree (hsize : ¬ E.config.spoolMaxBytes < file.size) (h : Reads E file data)
    (hkind : data.kind = .transcript) (hadmitted : Admitted E data) (hids : FreshIds E db)
    (hfree : SlotFree db file.key (bodyHash E data)) :
    (drainFile E db file).1 = .stored ∨ (drainFile E db file).1 = .replayed := by
  rw [drainFile_reads hsize h hkind]
  rcases ingestCanonical_fresh hadmitted hids hfree with ⟨written, hok⟩ | ⟨n, hreplay⟩
  · rw [hok]
    exact Or.inl rfl
  · rw [hreplay]
    exact Or.inr rfl

end

/-- **Recapture.** Two captures of one content have one key. Draining the one and then the other is a replay exactly when
they are of one moment and one session, besides what the first drain needs. -/
theorem recapture_replays (E : Ingest.Env) (c : Content) (capturedAt capturedAt' uuid uuid' : String) (now now' : Time)
    (st : DrainState) (hids : FreshIds E st.db)
    (hsha : CollisionFree E (c.spooled E capturedAt uuid now) (c.spooled E capturedAt' uuid' now')) :
    (c.spooled E capturedAt' uuid' now').key = (c.spooled E capturedAt uuid now).key ∧
      (Replayed E st (c.spooled E capturedAt uuid now) (c.spooled E capturedAt' uuid' now') ↔
        (capturedAt' = capturedAt ∧
          (c.envelope capturedAt' uuid').sessionId = (c.envelope capturedAt uuid).sessionId) ∧
        Drainable E st.db (c.spooled E capturedAt uuid now)) := by
  have hkey := spooled_key (E := E) c capturedAt capturedAt' uuid uuid' now now'
  refine ⟨hkey, ?_⟩
  constructor
  · rintro ⟨hfirst, hsecond, -⟩
    obtain ⟨hsize, data, hread⟩ := reads_of_drained hfirst
    obtain ⟨hsize', data', hread'⟩ := reads_of_drained (Or.inr hsecond)
    have hkind := transcript_of_reads hread
    have hadmitted := admitted_of_reads hread
    -- both bodies are live under the one key, so their hashes are equal
    obtain ⟨n, row, hrow, hhash, -⟩ := live_of_drained hread hkind hadmitted hfirst
    have hlive := (replayed_iff_live hsize' hread' (transcript_of_reads hread') (admitted_of_reads hread')).1 hsecond
    obtain ⟨n', row', hrow', hhash', -⟩ := hlive
    have hsame : row' = row := by
      rw [hkey, drainNext_db, hrow] at hrow'
      exact (Option.some.inj hrow').symm
    have htext := hsha data data' hread hread' (by rw [← hhash, ← hhash', hsame])
    obtain ⟨usage, -, hdata, -⟩ := reads_spooled hread
    rw [reads_recaptured hread hread'] at htext
    obtain ⟨hcaptured, hsession⟩ := bodyText_inj htext
    refine ⟨⟨?_, ?_⟩, hsize, data, hread, slotFree_of_drained hread hkind hadmitted hfirst⟩
    · rw [hcaptured, hdata]
      cases c <;> rfl
    · rw [hsession, hdata]
      rfl
  · rintro ⟨⟨rfl, hsession⟩, hsize, data, hread, hfree⟩
    have hkind := transcript_of_reads hread
    have hadmitted := admitted_of_reads hread
    have henvelope : c.envelope capturedAt' uuid' = c.envelope capturedAt' uuid := by
      calc c.envelope capturedAt' uuid'
          = { c.envelope capturedAt' uuid with
              capturedAt := capturedAt'
              sessionId := (c.envelope capturedAt' uuid').sessionId } := envelope_recaptured
        _ = { c.envelope capturedAt' uuid with capturedAt := capturedAt' } := by rw [hsession]
        _ = c.envelope capturedAt' uuid := by cases c <;> rfl
    have hfile : c.spooled E capturedAt' uuid' now' = { c.spooled E capturedAt' uuid now with mtime := now' } := by
      rw [Content.spooled, henvelope, idempotencyKey_eq c capturedAt' capturedAt' uuid uuid']
      rfl
    rw [hfile]
    have hfirst := drained_of_slotFree hsize hread hkind hadmitted hids hfree
    have hsecond : (drainFile E (drainNext E st (c.spooled E capturedAt' uuid now)).db
        { c.spooled E capturedAt' uuid now with mtime := now' }).1 = .replayed := by
      apply (replayed_iff_live hsize hread hkind hadmitted).2
      rw [drainNext_db]
      exact live_of_drained hread hkind hadmitted hfirst
    exact ⟨hfirst, hsecond, (drainNext_kept (Or.inr hsecond)).trans (drainNext_kept hfirst)⟩

/-! ## A capture and its repetition -/

/-- one exchange, captured when its session closes -/
def greeting : Content :=
  .claude { sessionId := "s1", cwd := none, turns := [{ role := .user, text := "hi" }] } .sessionEnd "1"
    (some .hookClose) {}

def midnight : String := "2026-01-01T00:00:00.000+00:00"
def afterMidnight : String := "2026-01-01T00:00:00.001+00:00"

/-- what the schema makes of it -/
def greetingData (capturedAt : String) : Envelope := (greeting.envelope capturedAt "").parsed none

def numerals (n : ℚ) : List Char := (toString n.num).toList

/-- the digests of the two bodies and of their content -/
def greetingDigests : List (List Char × String) :=
  [(stableStringify numerals (greetingData midnight).toJson,
    "de9ef5763903a29bba109e3a0199ad8a8511a8afacf9efc725f254db49949c84"),
   (stableStringify numerals (greetingData afterMidnight).toJson,
    "e347af2ea3e8a7018cae3975e4d37e2dd5ea66b2fed556fb5d0d8e16dc31dca1"),
   (stableStringify numerals (.obj ((greetingData midnight).members.filter fun member => member.1 ≠ "captured_at")),
    "7498767222c07c5e684296b765787849c703828c4cb80ae041a864a3955445ed")]

def greetingEnv : Ingest.Env :=
  { tableEnv [] [(midnight, 1767225600000), (afterMidnight, 1767225600001)] with
    numberText := numerals
    sha256 := fun text => (greetingDigests.lookup text).getD "" }

def idle : DrainState := { db := {}, spool := {} }

section
variable {capturedAt : String} {now : Time}

theorem greeting_reads (h : capturedAt = midnight ∨ capturedAt = afterMidnight) :
    Reads greetingEnv (greeting.spooled greetingEnv capturedAt "" now) (greetingData capturedAt) := by
  have husage : readUsage (greeting.envelope capturedAt "").proxyUsage = some none := rfl
  apply reads_of_accepts husage
  rcases h with rfl | rfl
  · decide
  · decide

theorem greeting_drainable (h : capturedAt = midnight ∨ capturedAt = afterMidnight) :
    Drainable greetingEnv {} (greeting.spooled greetingEnv capturedAt "" now) := by
  refine ⟨?_, _, greeting_reads h, ?_⟩
  · show ¬ 32 * 1024 * 1024 < 512
    decide
  · intro row hrow
    cases hrow

theorem idle_fresh : FreshIds greetingEnv idle.db := by
  intro i _
  refine ⟨?_, ?_⟩
  · intro t ht
    cases ht
  · intro job hjob
    cases hjob

theorem greeting_hashes : bodyHash greetingEnv (greetingData midnight) ≠ bodyHash greetingEnv (greetingData afterMidnight) := by
  have hother : (stableStringify numerals (greetingData afterMidnight).toJson ==
      stableStringify numerals (greetingData midnight).toJson) = false := by
    apply beq_eq_false_iff_ne.2
    intro hsame
    obtain ⟨hcaptured, -⟩ := bodyText_inj hsame.symm
    exact absurd hcaptured (by decide)
  have hfirst : bodyHash greetingEnv (greetingData midnight) =
      "de9ef5763903a29bba109e3a0199ad8a8511a8afacf9efc725f254db49949c84" := by
    simp [bodyHash, greetingEnv, greetingDigests, List.lookup_cons]
  have hsecond : bodyHash greetingEnv (greetingData afterMidnight) =
      "e347af2ea3e8a7018cae3975e4d37e2dd5ea66b2fed556fb5d0d8e16dc31dca1" := by
    simp [bodyHash, greetingEnv, greetingDigests, List.lookup_cons, hother]
  rw [hfirst, hsecond]
  decide

end

theorem recapture_replays_retry :
    Replayed greetingEnv idle (greeting.spooled greetingEnv midnight "" 0) (greeting.spooled greetingEnv midnight "" 1) := by
  have hsha : CollisionFree greetingEnv (greeting.spooled greetingEnv midnight "" 0)
      (greeting.spooled greetingEnv midnight "" 1) := by
    intro data data' h h' _
    rw [Option.some.inj (h.symm.trans h')]
  have hiff := (recapture_replays greetingEnv greeting midnight midnight "" "" 0 1 idle idle_fresh hsha).2
  exact hiff.2 ⟨⟨rfl, rfl⟩, greeting_drainable (Or.inl rfl)⟩

/-- The same content captured a millisecond later has the same key, and is quarantined as a conflict. -/
theorem recapture_conflicts :
    (greeting.spooled greetingEnv afterMidnight "" 1).key = (greeting.spooled greetingEnv midnight "" 0).key ∧
    (drainFile greetingEnv idle.db (greeting.spooled greetingEnv midnight "" 0)).1 = .stored ∧
    (drainFile greetingEnv (drainNext greetingEnv idle (greeting.spooled greetingEnv midnight "" 0)).db
      (greeting.spooled greetingEnv afterMidnight "" 1)).1 = .conflict ∧
    (drainNext greetingEnv (drainNext greetingEnv idle (greeting.spooled greetingEnv midnight "" 0))
      (greeting.spooled greetingEnv afterMidnight "" 1)).quarantined = 1 := by
  have hkey := spooled_key (E := greetingEnv) greeting midnight afterMidnight "" "" 0 1
  have hread : Reads greetingEnv (greeting.spooled greetingEnv midnight "" 0) (greetingData midnight) :=
    greeting_reads (Or.inl rfl)
  have hread' : Reads greetingEnv (greeting.spooled greetingEnv afterMidnight "" 1) (greetingData afterMidnight) :=
    greeting_reads (Or.inr rfl)
  have hsize : ¬ greetingEnv.config.spoolMaxBytes < (greeting.spooled greetingEnv midnight "" 0).size :=
    (greeting_drainable (Or.inl rfl)).1
  have hfree : SlotFree idle.db (greeting.spooled greetingEnv midnight "" 0).key
      (bodyHash greetingEnv (greetingData midnight)) := by
    intro row hrow
    cases hrow
  have hdrained := drained_of_slotFree hsize hread rfl (admitted_of_reads hread) idle_fresh hfree
  have hstored : (drainFile greetingEnv idle.db (greeting.spooled greetingEnv midnight "" 0)).1 = .stored := by
    refine hdrained.resolve_right ?_
    rw [replayed_iff_live hsize hread rfl (admitted_of_reads hread)]
    rintro ⟨n, row, hrow, -⟩
    cases hrow
  obtain ⟨hconflict, hquarantined⟩ := conflict_of_drained hread rfl (admitted_of_reads hread) hdrained hkey hsize hread' rfl
    (admitted_of_reads hread') greeting_hashes
  refine ⟨hkey, hstored, hconflict, ?_⟩
  rw [hquarantined, drainNext, hstored]
  rfl

end AstramemLocal.Capture
