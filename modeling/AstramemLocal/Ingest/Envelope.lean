/-
The wire envelope: `CanonicalIngestSchema` (`src/server/routes/ingest.ts`), from JSON to the parsed object and back.
`readEnvelope` reads the shape, with the schema's defaults and without unknown keys; `Envelope.accepts` holds the checks
on values. The texts of the issues a rejected body gets are left out. An object the schema returned is read back as
itself (`readEnvelope_toJson`).
-/
import AstramemLocal.Core.Json
import AstramemLocal.Store.Schema

namespace AstramemLocal.Ingest

open AstramemLocal.Core AstramemLocal.Store

/-! ## The parsed object -/

inductive CaptureEvent where
  | preCompact | sessionEnd | subagentStop
deriving DecidableEq, Repr

def CaptureEvent.name : CaptureEvent → String
  | .preCompact => "pre_compact"
  | .sessionEnd => "session_end"
  | .subagentStop => "subagent_stop"

inductive EnvelopeKind where
  | transcript | events
deriving DecidableEq, Repr

def EnvelopeKind.name : EnvelopeKind → String
  | .transcript => "transcript"
  | .events => "events"

inductive TurnRole where
  | user | assistant
deriving DecidableEq, Repr

def TurnRole.name : TurnRole → String
  | .user => "user"
  | .assistant => "assistant"

inductive EventType where
  | decision | fact | lesson | command | todo | note | event
deriving DecidableEq, Repr

def EventType.name : EventType → String
  | .decision => "decision"
  | .fact => "fact"
  | .lesson => "lesson"
  | .command => "command"
  | .todo => "todo"
  | .note => "note"
  | .event => "event"

inductive CaptureSource where
  | autoCapture | hookClose | proxy | meetingCaptions
deriving DecidableEq, Repr

def CaptureSource.name : CaptureSource → String
  | .autoCapture => "auto_capture"
  | .hookClose => "hook_close"
  | .proxy => "proxy"
  | .meetingCaptions => "meeting_captions"

inductive ExtractProfile where
  | engineering | conversational
deriving DecidableEq, Repr

def ExtractProfile.name : ExtractProfile → String
  | .engineering => "engineering"
  | .conversational => "conversational"

inductive Provider where
  | anthropic | openai
deriving DecidableEq, Repr

def Provider.name : Provider → String
  | .anthropic => "anthropic"
  | .openai => "openai"

structure TranscriptTurn where
  role : TurnRole
  text : String
  ts : Option String := none
  speaker : Option String := none
deriving DecidableEq, Repr

structure CanonicalEventItem where
  type : EventType
  text : String
  importance : Option ℚ := none
  confidence : Option ℚ := none
  evidence : Option String := none
  occurredAt : Option ℚ := none
deriving DecidableEq, Repr

structure ProxyUsage where
  provider : Provider
  model : Option String
  inputTokens : Option ℕ
  outputTokens : Option ℕ
  totalTokens : Option ℕ
  cacheCreationInputTokens : Option ℕ
  cacheReadInputTokens : Option ℕ
  stopReason : Option String
  truncated : Bool
deriving DecidableEq, Repr

/-- `z.infer<typeof CanonicalIngestSchema>`; an absent key is `none` -/
structure Envelope where
  event : CaptureEvent
  sessionId : String
  projectId : String
  agentType : Option String := none
  cwd : Option String := none
  capturedAt : String
  kind : EnvelopeKind := .transcript
  turns : Option (List TranscriptTurn) := none
  events : Option (List CanonicalEventItem) := none
  tool : Option String := none
  captureSource : Option CaptureSource := none
  platform : Option String := none
  meetingId : Option String := none
  consentDisclosed : Option Bool := none
  extractProfile : Option ExtractProfile := none
  proxyUsage : Option ProxyUsage := none
  clientScrubApplied : Bool
  clientScrubHits : ℕ
  clientVersion : String
  clientScrubVersion : String
  clientScrubHitsByLabel : Option (List (String × ℕ)) := none
  wireVersion : String
deriving DecidableEq, Repr

/-! ## As JSON -/

def natJson (n : ℕ) : Json := .num n

/-- `null` for a nullable field without value -/
def orNull (value : Option Json) : Json := value.getD .null

def TranscriptTurn.slots (t : TranscriptTurn) : List (String × Option Json) :=
  [("role", some (.str t.role.name)), ("text", some (.str t.text)), ("ts", t.ts.map .str), ("speaker", t.speaker.map .str)]

def TranscriptTurn.toJson (t : TranscriptTurn) : Json := .obj (present t.slots)

def CanonicalEventItem.slots (e : CanonicalEventItem) : List (String × Option Json) :=
  [("type", some (.str e.type.name)), ("text", some (.str e.text)), ("importance", e.importance.map .num),
   ("confidence", e.confidence.map .num), ("evidence", e.evidence.map .str), ("occurred_at", e.occurredAt.map .num)]

def CanonicalEventItem.toJson (e : CanonicalEventItem) : Json := .obj (present e.slots)

def ProxyUsage.slots (u : ProxyUsage) : List (String × Option Json) :=
  [("provider", some (.str u.provider.name)), ("model", some (orNull (u.model.map .str))),
   ("input_tokens", some (orNull (u.inputTokens.map natJson))),
   ("output_tokens", some (orNull (u.outputTokens.map natJson))),
   ("total_tokens", some (orNull (u.totalTokens.map natJson))),
   ("cache_creation_input_tokens", some (orNull (u.cacheCreationInputTokens.map natJson))),
   ("cache_read_input_tokens", some (orNull (u.cacheReadInputTokens.map natJson))),
   ("stop_reason", some (orNull (u.stopReason.map .str))), ("truncated", some (.bool u.truncated))]

def ProxyUsage.toJson (u : ProxyUsage) : Json := .obj (present u.slots)

def hitsJson (hits : List (String × ℕ)) : Json := .obj (hits.map fun hit => (hit.1, natJson hit.2))

def Envelope.slots (e : Envelope) : List (String × Option Json) :=
  [("event", some (.str e.event.name)),
   ("session_id", some (.str e.sessionId)),
   ("project_id", some (.str e.projectId)),
   ("agent_type", e.agentType.map .str),
   ("cwd", e.cwd.map .str),
   ("captured_at", some (.str e.capturedAt)),
   ("kind", some (.str e.kind.name)),
   ("turns", e.turns.map fun turns => .arr (turns.map (·.toJson))),
   ("events", e.events.map fun events => .arr (events.map (·.toJson))),
   ("tool", e.tool.map .str),
   ("capture_source", e.captureSource.map fun source => .str source.name),
   ("platform", e.platform.map .str),
   ("meeting_id", e.meetingId.map .str),
   ("consent_disclosed", e.consentDisclosed.map .bool),
   ("extract_profile", e.extractProfile.map fun profile => .str profile.name),
   ("proxy_usage", e.proxyUsage.map (·.toJson)),
   ("client_scrub_applied", some (.bool e.clientScrubApplied)),
   ("client_scrub_hits", some (natJson e.clientScrubHits)),
   ("client_version", some (.str e.clientVersion)),
   ("client_scrub_version", some (.str e.clientScrubVersion)),
   ("client_scrub_hits_by_label", e.clientScrubHitsByLabel.map hitsJson),
   ("wire_version", some (.str e.wireVersion))]

def Envelope.members (e : Envelope) : List (String × Json) := present e.slots

def Envelope.toJson (e : Envelope) : Json := .obj e.members

/-! ## `CanonicalIngestSchema.safeParse` -/

def str? : Json → Option String
  | .str s => some s
  | _ => none

def bool? : Json → Option Bool
  | .bool b => some b
  | _ => none

def num? : Json → Option ℚ
  | .num n => some n
  | _ => none

/-- `z.number().int().nonnegative()`; the safe range is checked in `accepts` -/
def nat? : Json → Option ℕ
  | .num n => if n.den = 1 ∧ 0 ≤ n.num then some n.num.toNat else none
  | _ => none

def enum? {α : Type} (values : List α) (name : α → String) : Json → Option α
  | .str s => values.find? fun v => name v = s
  | _ => none

def nullable? {α : Type} (read : Json → Option α) : Json → Option (Option α)
  | .null => some none
  | value => (read value).map some

def array? {α : Type} (read : Json → Option α) : Json → Option (List α)
  | .arr items => items.mapM read
  | _ => none

def record? {α : Type} (read : Json → Option α) : Json → Option (List (String × α))
  | .obj members => members.mapM fun m => (read m.2).map (m.1, ·)
  | _ => none

section
variable {α : Type} (read : Json → Option α) (key : String) (members : List (String × Json))

def required : Option α := (members.lookup key).bind read

def optional : Option (Option α) :=
  match members.lookup key with
  | none => some none
  | some value => (read value).map some

end

def readTurn : Json → Option TranscriptTurn
  | .obj o => do
    let role ← required (enum? [.user, .assistant] TurnRole.name) "role" o
    let text ← required str? "text" o
    let ts ← optional str? "ts" o
    let speaker ← optional str? "speaker" o
    return { role, text, ts, speaker }
  | _ => none

def readEventItem : Json → Option CanonicalEventItem
  | .obj o => do
    let type ← required (enum? [.decision, .fact, .lesson, .command, .todo, .note, .event] EventType.name) "type" o
    let text ← required str? "text" o
    let importance ← optional num? "importance" o
    let confidence ← optional num? "confidence" o
    let evidence ← optional str? "evidence" o
    let occurredAt ← optional num? "occurred_at" o
    return { type, text, importance, confidence, evidence, occurredAt }
  | _ => none

def readProxyUsage : Json → Option ProxyUsage
  | .obj o => do
    let provider ← required (enum? [.anthropic, .openai] Provider.name) "provider" o
    let model ← required (nullable? str?) "model" o
    let inputTokens ← required (nullable? nat?) "input_tokens" o
    let outputTokens ← required (nullable? nat?) "output_tokens" o
    let totalTokens ← required (nullable? nat?) "total_tokens" o
    let cacheCreationInputTokens ← required (nullable? nat?) "cache_creation_input_tokens" o
    let cacheReadInputTokens ← required (nullable? nat?) "cache_read_input_tokens" o
    let stopReason ← required (nullable? str?) "stop_reason" o
    let truncated ← required bool? "truncated" o
    return { provider, model, inputTokens, outputTokens, totalTokens, cacheCreationInputTokens, cacheReadInputTokens,
             stopReason, truncated }
  | _ => none

def readEnvelope : Json → Option Envelope
  | .obj o => do
    let event ← required (enum? [.preCompact, .sessionEnd, .subagentStop] CaptureEvent.name) "event" o
    let sessionId ← required str? "session_id" o
    let projectId ← required str? "project_id" o
    let agentType ← optional str? "agent_type" o
    let cwd ← optional str? "cwd" o
    let capturedAt ← required str? "captured_at" o
    let kind ← optional (enum? [.transcript, .events] EnvelopeKind.name) "kind" o
    let turns ← optional (array? readTurn) "turns" o
    let events ← optional (array? readEventItem) "events" o
    let tool ← optional str? "tool" o
    let captureSource ←
      optional (enum? [.autoCapture, .hookClose, .proxy, .meetingCaptions] CaptureSource.name) "capture_source" o
    let platform ← optional str? "platform" o
    let meetingId ← optional str? "meeting_id" o
    let consentDisclosed ← optional bool? "consent_disclosed" o
    let extractProfile ← optional (enum? [.engineering, .conversational] ExtractProfile.name) "extract_profile" o
    let proxyUsage ← optional readProxyUsage "proxy_usage" o
    let clientScrubApplied ← required bool? "client_scrub_applied" o
    let clientScrubHits ← required nat? "client_scrub_hits" o
    let clientVersion ← required str? "client_version" o
    let clientScrubVersion ← required str? "client_scrub_version" o
    let clientScrubHitsByLabel ← optional (record? nat?) "client_scrub_hits_by_label" o
    let wireVersion ← required str? "wire_version" o
    return { event, sessionId, projectId, agentType, cwd, capturedAt, kind := kind.getD .transcript, turns, events, tool,
             captureSource, platform, meetingId, consentDisclosed, extractProfile, proxyUsage, clientScrubApplied,
             clientScrubHits, clientVersion, clientScrubVersion, clientScrubHitsByLabel, wireVersion }
  | _ => none

/-! ### The checks on values -/

/-- the digits of `0|[1-9][0-9]*` -/
def isNumeral : List Char → Bool
  | ['0'] => true
  | c :: rest => c.isDigit && c != '0' && rest.all Char.isDigit
  | [] => false

/-- `^v(?:0|[1-9][0-9]*)\.(?:0|[1-9][0-9]*)$` -/
def isWireVersion (s : String) : Bool :=
  match s.toList with
  | 'v' :: rest => isNumeral (rest.takeWhile (· ≠ '.')) && isNumeral ((rest.dropWhile (· ≠ '.')).drop 1)
  | _ => false

/-- the integers `.int()` takes -/
def isSafeInteger (n : ℕ) : Bool := n ≤ 9007199254740991

def isFraction (q : ℚ) : Bool := 0 ≤ q && q ≤ 1

def TranscriptTurn.accepts (t : TranscriptTurn) : Bool := t.speaker.all (· ≠ "")

def CanonicalEventItem.accepts (e : CanonicalEventItem) : Bool :=
  e.text ≠ "" && e.importance.all isFraction && e.confidence.all isFraction

def ProxyUsage.accepts (u : ProxyUsage) : Bool :=
  [u.inputTokens, u.outputTokens, u.totalTokens, u.cacheCreationInputTokens, u.cacheReadInputTokens].all
    (·.all isSafeInteger)

/-- the schema's `superRefine` -/
def Envelope.refined (e : Envelope) : Bool :=
  (match e.kind with
    | .events => e.events.any fun events => ¬ events.isEmpty
    | .transcript => e.turns.any fun turns => ¬ turns.isEmpty) &&
  (e.captureSource ≠ some .meetingCaptions || e.consentDisclosed = some true)

/-- `isDatetime` is `z.string().datetime({ offset: true })` -/
def Envelope.accepts (isDatetime : String → Bool) (e : Envelope) : Bool :=
  isDatetime e.capturedAt &&
  (e.turns.all fun turns => ¬ turns.isEmpty && turns.all (·.accepts)) &&
  (e.events.all fun events => ¬ events.isEmpty && events.length ≤ 500 && events.all (·.accepts)) &&
  e.proxyUsage.all (·.accepts) && isSafeInteger e.clientScrubHits &&
  (e.clientScrubHitsByLabel.all fun hits => hits.all fun hit => isSafeInteger hit.2) &&
  isWireVersion e.wireVersion && e.refined

/-- `CanonicalIngestSchema.safeParse` -/
def safeParse (isDatetime : String → Bool) (body : Json) : Option Envelope :=
  (readEnvelope body).filter (·.accepts isDatetime)

/-- `LegacyIngestSchema`; `repo`, `project`, `branch` and `agent` may be null -/
structure LegacyEnvelope where
  sessionId : String
  source : String
  content : String
  repo : Option String := none
  project : Option String := none
  branch : Option String := none
  agent : Option String := none
deriving DecidableEq, Repr

def readLegacy : Json → Option LegacyEnvelope
  | .obj o => do
    let sessionId ← required str? "session_id" o
    let source ← required str? "source" o
    let content ← required str? "content" o
    let repo ← optional (nullable? str?) "repo" o
    let project ← optional (nullable? str?) "project" o
    let branch ← optional (nullable? str?) "branch" o
    let agent ← optional (nullable? str?) "agent" o
    return { sessionId, source, content, repo := repo.join, project := project.join, branch := branch.join,
             agent := agent.join }
  | _ => none

def safeParseLegacy (body : Json) : Option LegacyEnvelope :=
  (readLegacy body).filter fun e => e.sessionId ≠ "" && e.source ≠ "" && e.content ≠ ""

/-- `'wire_version' in body` -/
def looksCanonical : Json → Bool
  | .obj o => (o.lookup "wire_version").isSome
  | _ => false

/-! ## What is read back -/

section
variable {α : Type} {slots : List (String × Option Json)}

theorem required_slot (read : Json → Option α) (hnodup : (slots.map (·.1)).Nodup) (key : String) {value : Json} {a : α}
    (hslot : slots.lookup key = some (some value)) (hread : read value = some a) :
    required read key (present slots) = some a := by
  rw [required, lookup_present hnodup, hslot]
  exact hread

theorem optional_slot (read : Json → Option α) (write : α → Json) (hnodup : (slots.map (·.1)).Nodup) (key : String)
    {x : Option α} (hslot : slots.lookup key = some (x.map write)) (hread : ∀ a, read (write a) = some a) :
    optional read key (present slots) = some x := by
  rw [optional, lookup_present hnodup, hslot]
  cases x with
  | none => rfl
  | some a => simp [hread]

theorem optional_some (read : Json → Option α) (hnodup : (slots.map (·.1)).Nodup) (key : String) {value : Json} {a : α}
    (hslot : slots.lookup key = some (some value)) (hread : read value = some a) :
    optional read key (present slots) = some (some a) := by
  rw [optional, lookup_present hnodup, hslot]
  simp [hread]

theorem optional_absent (read : Json → Option α) (hnodup : (slots.map (·.1)).Nodup) (key : String)
    (hslot : slots.lookup key = none) : optional read key (present slots) = some none := by
  rw [optional, lookup_present hnodup, hslot]
  rfl

theorem nullable_orNull (read : Json → Option α) (write : α → Json) (hread : ∀ a, read (write a) = some a)
    (hnull : ∀ a, write a ≠ .null) (x : Option α) : nullable? read (orNull (x.map write)) = some x := by
  cases x with
  | none => rfl
  | some a =>
    have hvalue : orNull ((some a).map write) = write a := rfl
    have hpass : nullable? read (write a) = (read (write a)).map some := by
      unfold nullable?
      split
      · rename_i heq
        exact absurd heq (hnull a)
      · rfl
    rw [hvalue, hpass, hread]
    rfl

theorem mapM_map_some {β γ : Type} {write : γ → β} {read : β → Option γ} (hread : ∀ a, read (write a) = some a)
    (l : List γ) : (l.map write).mapM read = some l := by
  induction l with
  | nil => rfl
  | cons a l ih => simp [List.mapM_cons, hread, ih]

end

theorem nat?_natJson (n : ℕ) : nat? (natJson n) = some n := by
  simp [nat?, natJson]

theorem readTurn_toJson (t : TranscriptTurn) : readTurn t.toJson = some t := by
  have hnodup : (t.slots.map (·.1)).Nodup := by simp [TranscriptTurn.slots]
  have hrole : enum? [.user, .assistant] TurnRole.name (.str t.role.name) = some t.role := by cases t.role <;> rfl
  simp only [readTurn, TranscriptTurn.toJson, required_slot _ hnodup "role" rfl hrole,
    required_slot str? hnodup "text" rfl rfl, optional_slot str? .str hnodup "ts" rfl fun _ => rfl,
    optional_slot str? .str hnodup "speaker" rfl fun _ => rfl]
  rfl

theorem readEventItem_toJson (e : CanonicalEventItem) : readEventItem e.toJson = some e := by
  have hnodup : (e.slots.map (·.1)).Nodup := by simp [CanonicalEventItem.slots]
  have htype : enum? [.decision, .fact, .lesson, .command, .todo, .note, .event] EventType.name (.str e.type.name) =
      some e.type := by cases e.type <;> rfl
  simp only [readEventItem, CanonicalEventItem.toJson, required_slot _ hnodup "type" rfl htype,
    required_slot str? hnodup "text" rfl rfl, optional_slot num? .num hnodup "importance" rfl fun _ => rfl,
    optional_slot num? .num hnodup "confidence" rfl fun _ => rfl,
    optional_slot str? .str hnodup "evidence" rfl fun _ => rfl,
    optional_slot num? .num hnodup "occurred_at" rfl fun _ => rfl]
  rfl

theorem readProxyUsage_toJson (u : ProxyUsage) : readProxyUsage u.toJson = some u := by
  have hnodup : (u.slots.map (·.1)).Nodup := by simp [ProxyUsage.slots]
  have hprovider : enum? [.anthropic, .openai] Provider.name (.str u.provider.name) = some u.provider := by
    cases u.provider <;> rfl
  have hstr := nullable_orNull str? .str (fun _ => rfl) fun _ => by simp
  have hnat := nullable_orNull nat? natJson nat?_natJson fun _ => by simp [natJson]
  simp only [readProxyUsage, ProxyUsage.toJson, required_slot _ hnodup "provider" rfl hprovider,
    required_slot _ hnodup "model" rfl (hstr u.model), required_slot _ hnodup "input_tokens" rfl (hnat u.inputTokens),
    required_slot _ hnodup "output_tokens" rfl (hnat u.outputTokens),
    required_slot _ hnodup "total_tokens" rfl (hnat u.totalTokens),
    required_slot _ hnodup "cache_creation_input_tokens" rfl (hnat u.cacheCreationInputTokens),
    required_slot _ hnodup "cache_read_input_tokens" rfl (hnat u.cacheReadInputTokens),
    required_slot _ hnodup "stop_reason" rfl (hstr u.stopReason), required_slot bool? hnodup "truncated" rfl rfl]
  rfl

theorem record?_hitsJson (hits : List (String × ℕ)) : record? nat? (hitsJson hits) = some hits :=
  mapM_map_some (fun hit => by simp [nat?_natJson]) hits

theorem Envelope.slots_nodup (e : Envelope) : (e.slots.map (·.1)).Nodup := by
  simp [Envelope.slots]

/-- **Round trip.** What the schema returned is read back as itself. -/
theorem readEnvelope_toJson (e : Envelope) : readEnvelope e.toJson = some e := by
  have hnodup := e.slots_nodup
  have hevent : enum? [.preCompact, .sessionEnd, .subagentStop] CaptureEvent.name (.str e.event.name) = some e.event := by
    cases e.event <;> rfl
  have hkind (k : EnvelopeKind) : enum? [.transcript, .events] EnvelopeKind.name (.str k.name) = some k := by
    cases k <;> rfl
  have hsource (c : CaptureSource) :
      enum? [.autoCapture, .hookClose, .proxy, .meetingCaptions] CaptureSource.name (.str c.name) = some c := by
    cases c <;> rfl
  have hprofile (p : ExtractProfile) :
      enum? [.engineering, .conversational] ExtractProfile.name (.str p.name) = some p := by cases p <;> rfl
  simp only [readEnvelope, Envelope.toJson, Envelope.members, required_slot _ hnodup "event" rfl hevent,
    required_slot str? hnodup "session_id" rfl rfl, required_slot str? hnodup "project_id" rfl rfl,
    optional_slot str? .str hnodup "agent_type" rfl fun _ => rfl, optional_slot str? .str hnodup "cwd" rfl fun _ => rfl,
    required_slot str? hnodup "captured_at" rfl rfl,
    optional_slot _ (fun k : EnvelopeKind => .str k.name) hnodup "kind" (x := some e.kind) rfl hkind,
    optional_slot (array? readTurn) (fun turns => .arr (turns.map TranscriptTurn.toJson)) hnodup "turns" rfl
      fun turns => mapM_map_some readTurn_toJson turns,
    optional_slot (array? readEventItem) (fun events => .arr (events.map CanonicalEventItem.toJson)) hnodup "events" rfl
      fun events => mapM_map_some readEventItem_toJson events,
    optional_slot str? .str hnodup "tool" rfl fun _ => rfl,
    optional_slot _ (fun c : CaptureSource => .str c.name) hnodup "capture_source" rfl hsource,
    optional_slot str? .str hnodup "platform" rfl fun _ => rfl,
    optional_slot str? .str hnodup "meeting_id" rfl fun _ => rfl,
    optional_slot bool? .bool hnodup "consent_disclosed" rfl fun _ => rfl,
    optional_slot _ (fun p : ExtractProfile => .str p.name) hnodup "extract_profile" rfl hprofile,
    optional_slot _ ProxyUsage.toJson hnodup "proxy_usage" rfl readProxyUsage_toJson,
    required_slot bool? hnodup "client_scrub_applied" rfl rfl,
    required_slot nat? hnodup "client_scrub_hits" rfl (nat?_natJson _),
    required_slot str? hnodup "client_version" rfl rfl, required_slot str? hnodup "client_scrub_version" rfl rfl,
    optional_slot _ hitsJson hnodup "client_scrub_hits_by_label" rfl record?_hitsJson,
    required_slot str? hnodup "wire_version" rfl rfl]
  rfl

theorem safeParse_toJson (isDatetime : String → Bool) (e : Envelope) (h : e.accepts isDatetime = true) :
    safeParse isDatetime e.toJson = some e := by
  rw [safeParse, readEnvelope_toJson]
  simp [h]

end AstramemLocal.Ingest
