/-
What is captured (`src/capture/claude.ts`, `src/capture/proxy.ts`): the envelope of a transcript or of a proxied
exchange, its idempotency key, and the spool file that is written under the key. The key hashes the envelope without the
fields that differ from one capture to the next.
-/
import AstramemLocal.Ingest.Project
import AstramemLocal.Ingest.SpoolDrain

namespace AstramemLocal.Capture

open AstramemLocal.Core AstramemLocal.Store AstramemLocal.Ingest AstramemLocal.Server

/-! ## The envelope -/

/-- `ClaudeTurn` and `ProxyTurn` -/
structure Turn where
  role : TurnRole
  text : String
deriving DecidableEq, Repr

/-- the counts are whatever numbers the provider sent -/
structure ProxyUsageMetadata where
  provider : Provider
  model : Option String
  inputTokens : Option ℚ
  outputTokens : Option ℚ
  totalTokens : Option ℚ
  cacheCreationInputTokens : Option ℚ
  cacheReadInputTokens : Option ℚ
  stopReason : Option String
  truncated : Bool
deriving DecidableEq, Repr

/-- `ClaudeCaptureEnvelope` and `ProxyCaptureEnvelope`; an absent key is `none` -/
structure CaptureEnvelope where
  event : CaptureEvent
  sessionId : String
  projectId : String
  agentType : Option String := none
  cwd : Option String := none
  capturedAt : String
  tool : String
  turns : List Turn
  clientVersion : String
  captureSource : Option CaptureSource := none
  proxyUsage : Option ProxyUsageMetadata := none
deriving DecidableEq, Repr

def Turn.slots (t : Turn) : List (String × Option Json) :=
  [("role", some (.str t.role.name)), ("text", some (.str t.text))]

def Turn.toJson (t : Turn) : Json := .obj (present t.slots)

def ProxyUsageMetadata.slots (u : ProxyUsageMetadata) : List (String × Option Json) :=
  [("provider", some (.str u.provider.name)), ("model", some (orNull (u.model.map .str))),
   ("input_tokens", some (orNull (u.inputTokens.map .num))),
   ("output_tokens", some (orNull (u.outputTokens.map .num))),
   ("total_tokens", some (orNull (u.totalTokens.map .num))),
   ("cache_creation_input_tokens", some (orNull (u.cacheCreationInputTokens.map .num))),
   ("cache_read_input_tokens", some (orNull (u.cacheReadInputTokens.map .num))),
   ("stop_reason", some (orNull (u.stopReason.map .str))), ("truncated", some (.bool u.truncated))]

def ProxyUsageMetadata.toJson (u : ProxyUsageMetadata) : Json := .obj (present u.slots)

def CaptureEnvelope.slots (e : CaptureEnvelope) : List (String × Option Json) :=
  [("event", some (.str e.event.name)),
   ("session_id", some (.str e.sessionId)),
   ("project_id", some (.str e.projectId)),
   ("agent_type", e.agentType.map .str),
   ("cwd", e.cwd.map .str),
   ("captured_at", some (.str e.capturedAt)),
   ("kind", some (.str EnvelopeKind.transcript.name)),
   ("tool", some (.str e.tool)),
   ("turns", some (.arr (e.turns.map (·.toJson)))),
   ("client_scrub_applied", some (.bool false)),
   ("client_scrub_hits", some (natJson 0)),
   ("client_version", some (.str e.clientVersion)),
   ("client_scrub_version", some (.str "none")),
   ("wire_version", some (.str "v1.0")),
   ("capture_source", e.captureSource.map fun source => .str source.name),
   ("proxy_usage", e.proxyUsage.map (·.toJson))]

def CaptureEnvelope.toJson (e : CaptureEnvelope) : Json := .obj (present e.slots)

/-! ## `src/capture/claude.ts` -/

structure ParsedClaudeTranscript where
  sessionId : String
  cwd : Option String
  turns : List Turn
deriving DecidableEq, Repr

inductive ClaudeCaptureEvent where
  | subagentStop | sessionEnd
deriving DecidableEq, Repr

def ClaudeCaptureEvent.toEvent : ClaudeCaptureEvent → CaptureEvent
  | .subagentStop => .subagentStop
  | .sessionEnd => .sessionEnd

inductive ClaudeCaptureSource where
  | autoCapture | hookClose
deriving DecidableEq, Repr

def ClaudeCaptureSource.toSource : ClaudeCaptureSource → CaptureSource
  | .autoCapture => .autoCapture
  | .hookClose => .hookClose

structure Attribution where
  agentType : Option String := none
  transcriptId : Option String := none
deriving DecidableEq, Repr

/-- white space and line terminators -/
def isTrimmed (c : Char) : Bool :=
  c.toNat ∈ [9, 10, 11, 12, 13, 32, 160, 0x1680, 0x2028, 0x2029, 0x202F, 0x205F, 0x3000, 0xFEFF] ||
    (0x2000 ≤ c.toNat && c.toNat ≤ 0x200A)

def trim (s : String) : String :=
  String.ofList ((s.toList.dropWhile isTrimmed).reverse.dropWhile isTrimmed).reverse

/-- the file name of a subagent's transcript -/
def isSidecar (transcriptId : String) : Bool := "agent-".toList.isPrefixOf transcriptId.toList

def buildClaudeEnvelope (parsed : ParsedClaudeTranscript) (event : ClaudeCaptureEvent) (clientVersion capturedAt : String)
    (captureSource : Option ClaudeCaptureSource) (attribution : Attribution) : CaptureEnvelope :=
  let agentType := truthy (attribution.agentType.map trim)
  let session := "claude-" ++ parsed.sessionId
  { event := event.toEvent
    sessionId :=
      match agentType, attribution.transcriptId with
      | some _, some transcriptId => if isSidecar transcriptId then session ++ ":" ++ transcriptId else session
      | _, _ => session
    projectId := (deriveWorktreeSafeBasename parsed.cwd).getD "claude-code"
    agentType := some (agentType.getD "claude-code")
    cwd := truthy parsed.cwd
    capturedAt
    tool := "claude-code"
    turns := parsed.turns
    clientVersion
    captureSource := captureSource.map (·.toSource) }

/-! ## `src/capture/proxy.ts` -/

/-- `uuid` is the `randomUUID()` of the exchange -/
def buildProxyEnvelope (turns : List Turn) (clientVersion : String) (usage : Option ProxyUsageMetadata)
    (capturedAt uuid : String) : CaptureEnvelope :=
  { event := .sessionEnd
    sessionId := "proxy-" ++ uuid
    projectId := "llm-proxy"
    capturedAt
    tool := "llm-proxy"
    turns
    clientVersion
    captureSource := some .proxy
    proxyUsage := usage }

/-! ## The key -/

section
variable (E : Ingest.Env)

/-- the digest of the envelope without some of its fields -/
def contentKey (dropped : List String) (e : CaptureEnvelope) : String :=
  E.sha256 (stableStringify E.numberText (.obj ((present e.slots).filter fun member => member.1 ∉ dropped)))

def claudeIdempotencyKey (e : CaptureEnvelope) : String := contentKey E ["captured_at"] e

def proxyIdempotencyKey (e : CaptureEnvelope) : String := contentKey E ["captured_at", "session_id"] e

/-! ## The two capture paths -/

/-- what is captured, but for the moment and the random id of an exchange -/
inductive Content where
  | claude (parsed : ParsedClaudeTranscript) (event : ClaudeCaptureEvent) (clientVersion : String)
      (captureSource : Option ClaudeCaptureSource) (attribution : Attribution)
  | proxy (turns : List Turn) (clientVersion : String) (usage : Option ProxyUsageMetadata)
deriving DecidableEq, Repr

def Content.envelope (capturedAt uuid : String) : Content → CaptureEnvelope
  | .claude parsed event clientVersion captureSource attribution =>
    buildClaudeEnvelope parsed event clientVersion capturedAt captureSource attribution
  | .proxy turns clientVersion usage => buildProxyEnvelope turns clientVersion usage capturedAt uuid

def Content.idempotencyKey (capturedAt uuid : String) (c : Content) : String :=
  match c with
  | .claude .. => claudeIdempotencyKey E (c.envelope capturedAt uuid)
  | .proxy .. => proxyIdempotencyKey E (c.envelope capturedAt uuid)

/-- the file `writeToSpool` leaves for a capture -/
def Content.spooled (capturedAt uuid : String) (now : Time) (c : Content) : SpoolFile :=
  spooledFile E (c.idempotencyKey E capturedAt uuid) (c.envelope capturedAt uuid).toJson now

end

end AstramemLocal.Capture
