/-
The configuration record and its defaults. A setting whose type in the source is a union of string literals is a string
here, as it is at run time. Of `sync` only `experimental` is here: its connection fields are kept in another file.
-/
import AstramemLocal.Core.Decimal

namespace AstramemLocal.Config

open Core

structure Network where
  host : String

structure Auth where
  devNoAuth : Bool

/-- the model one of the pipeline's stages calls -/
structure LlmModel where
  provider : String
  model : String

structure RateLimit where
  callsPerMinute : Option Number := none

structure QuotaBreaker where
  mode : Option String := none
  consecutiveFailureThreshold : Option Number := none

structure Llm where
  compaction : LlmModel
  extraction : LlmModel
  rateLimit : Option RateLimit := none
  quotaBreaker : Option QuotaBreaker := none

structure Embedding where
  provider : String
  model : String
  dim : Number
  queryPrefix : Option String := none

structure Vector where
  store : String

structure Budget where
  daily_usd : Number

structure Ollama where
  baseUrl : String
  keepAlive : Option String := none

structure Azure where
  endpoint : Option String := none
  deployment : Option String := none
  apiVersion : String

structure OpenaiCompatible where
  baseUrl : Option String := none
  apiKeyEnv : String

structure CodexSubscription where
  authPath : Option String := none

structure Anthropic where
  apiKeyEnv : String

structure OnnxEmbed where
  cacheDir : Option String := none
  modelPath : Option String := none
  numThreads : Option Number := none
  dtype : Option String := none
  pooling : Option String := none

structure Governance where
  maxComponentWeight : Number

structure ImplicitPositive where
  enabled : Bool
  windowDays : Number
  minDistinctQueries : Number
  weight : Number
  maxGrantsPerRun : Number

structure Usefulness where
  implicitPositive : ImplicitPositive

structure QueryRewrite where
  mode : String
  provider : String
  model : Option String := none
  maxVariants : Number
  timeoutMs : Number
  maxCandidates : Number

structure Search where
  alpha : Number
  beta : Number
  gamma : Number
  delta : Number
  epsilon : Number
  zeta : Number
  eta : Number
  theta : Number
  governance : Governance
  usefulness : Usefulness
  queryRewrite : QueryRewrite
  normalization : String

structure CrossEncoderOnnx where
  cacheDir : Option String := none
  modelPath : Option String := none
  hfModelId : Option String := none
  revision : Option String := none
  dtype : Option String := none
  numThreads : Option Number := none
  batchSize : Option Number := none

structure CrossEncoder where
  enabled : Bool
  provider : String
  topK : Number
  timeoutMs : Number
  sidecarUrl : Option String := none
  model : Option String := none
  onnx : Option CrossEncoderOnnx := none

structure MultiHop where
  enabled : Bool
  provider : String
  minQueryWords : Number
  maxSubQueries : Number
  maxSupplemental : Number
  supplementalWeight : Number
  timeoutMs : Number
  model : Option String := none

structure EvidenceBundling where
  enabled : Bool
  maxExtra : Number
  minDistinctSessions : Number
  sameEntity : Bool
  sameSession : Bool

structure RecallPackPolicy where
  enabled : Bool
  minScore : Number
  minPromptChars : Number

structure RecallPack where
  enabled : Bool
  budgetTokens : Number
  policy : RecallPackPolicy

structure Sync where
  experimental : Bool

structure Redaction where
  enabled : Bool
  entropyThreshold : Number
  customPatterns : List String

structure Enabled where
  enabled : Bool

structure Security where
  redaction : Redaction
  encryption : Enabled

structure TagHygiene where
  tier2Enabled : Bool
  tier2ConfidenceThreshold : Number

structure Archival where
  enabled : Bool
  ageThresholdDays : Number
  usefulnessFloor : Number

structure HeavyArtifact where
  minSizeBytes : Number
  types : List String

structure TierScope where
  media : List String
  lean : List String

structure Retention where
  mode : String
  tier : String
  ageThresholdDays : Number
  artifactsDir : Option String := none
  heavyArtifact : HeavyArtifact
  tierScope : TierScope

structure IngestIdempotency where
  retentionDays : Number

structure MemoryEvents where
  recallServedRetentionDays : Number

structure Pipeline where
  concurrency : Number

structure ContradictionDetection where
  minSimilarity : Number
  minConfidence : Number
  maxPerRun : Number
  maxWallClockMs : Number
  mode : String
  provider : Option String := none
  model : Option String := none

structure DupJudge where
  mode : String
  minConfidence : Number
  batchSize : Number
  maxPerRun : Number
  maxWallClockMs : Number
  provider : Option String := none
  model : Option String := none

structure Consolidation where
  /-- `none` is the `null` of the source, here and in `maxCandidatePairsPerRun` -/
  autoAcceptThreshold : Option Number
  contradictionDetection : ContradictionDetection
  dupJudge : DupJudge
  candidateSelection : String
  knnK : Number
  maxCandidatePairsPerRun : Option Number

structure ExtractionPassB where
  provider : Option String := none
  model : Option String := none
  evidenceGate : Option String := none
  sweepOnlyBelowAtoms : Option Number := none
  maxTokens : Option Number := none
  numCtxCap : Option Number := none

structure CostCap where
  enabled : Bool
  maxCallsPerJob : Option Number := none
  maxWallClockMs : Option Number := none

/-- `atomTriage` and `gatekeeper` -/
structure AtomJudge where
  mode : String
  provider : Option String := none
  model : Option String := none
  batchSize : Number
  maxPerRun : Number
  maxWallClockMs : Number

structure Distill where
  durabilityGate : String
  typeHints : String
  chunkConcurrency : Number
  extractProfile : String
  compaction : String
  maxChunkChars : Number
  extractionPasses : Number
  extractionPassB : Option ExtractionPassB := none
  costCap : Option CostCap := none
  atomTriage : AtomJudge
  gatekeeper : AtomJudge

structure MemoryHealth where
  llmJudgedJunkSample : Enabled

structure Ingest where
  spoolMaxBytes : Number

structure RelevanceGate where
  minChars : Number
  maxBytes : Number
  dedupWindow : Number

structure AutoCapture where
  enabled : Bool
  relevanceGate : RelevanceGate

structure Purge where
  restoreWindowDays : Number

structure Capture where
  autoCapture : AutoCapture
  purge : Purge

structure Audio where
  mode : String
  modelPath : Option String := none
  disclosureAcknowledged : Option Bool := none

structure Proxy where
  enabled : Bool
  experimental : Bool
  port : Number
  upstream : String
  upstreamTimeoutMs : Number
  capture : Enabled

structure CaptureSource where
  meetingCaptions : Enabled

structure Config where
  port : Number
  dataDir : String
  network : Network
  auth : Auth
  llm : Llm
  embedding : Embedding
  vector : Vector
  budget : Budget
  ollama : Ollama
  azure : Azure
  openaiCompatible : OpenaiCompatible
  codexSubscription : CodexSubscription
  anthropic : Anthropic
  onnxEmbed : Option OnnxEmbed := none
  search : Search
  crossEncoder : CrossEncoder
  multiHop : MultiHop
  evidenceBundling : EvidenceBundling
  recallPack : RecallPack
  sync : Sync
  security : Security
  tagHygiene : TagHygiene
  archival : Archival
  retention : Retention
  ingestIdempotency : IngestIdempotency
  memoryEvents : MemoryEvents
  pipeline : Pipeline
  consolidation : Consolidation
  distill : Distill
  memoryHealth : MemoryHealth
  ingest : Ingest
  capture : Capture
  audio : Audio
  proxy : Proxy
  captureSource : CaptureSource

/-- `dataDir` is the platform's default data directory -/
def defaultConfig (dataDir : String) : Config where
  port := 7777
  dataDir := dataDir
  network := { host := "127.0.0.1" }
  auth := { devNoAuth := false }
  llm :=
    { compaction := { provider := "codex-subscription", model := "gpt-6-luna" }
      extraction := { provider := "codex-subscription", model := "gpt-6-luna" } }
  embedding := { provider := "onnx", model := "mxbai-embed-large", dim := 1024 }
  onnxEmbed := some { dtype := some "q8", pooling := some "cls" }
  vector := { store := "sqlite-vec" }
  budget := { daily_usd := 10 }
  ollama := { baseUrl := "http://127.0.0.1:11434" }
  azure := { apiVersion := "2024-10-21" }
  openaiCompatible := { apiKeyEnv := "OPENAI_COMPAT_API_KEY" }
  codexSubscription := {}
  anthropic := { apiKeyEnv := "ANTHROPIC_API_KEY" }
  search :=
    { alpha := 0.4, beta := 0.4, gamma := 0.1, delta := 0.1, epsilon := 0.1, zeta := 0, eta := 0, theta := 0
      governance := { maxComponentWeight := 1.0 }
      usefulness :=
        { implicitPositive :=
            { enabled := true, windowDays := 30, minDistinctQueries := 2, weight := 0.35, maxGrantsPerRun := 500 } }
      queryRewrite := { mode := "off", provider := "mock", maxVariants := 3, timeoutMs := 1500, maxCandidates := 200 }
      normalization := "minmax" }
  crossEncoder := { enabled := false, provider := "onnx", topK := 40, timeoutMs := 1500 }
  multiHop :=
    { enabled := false, provider := "mock", minQueryWords := 6, maxSubQueries := 3
      maxSupplemental := 5, supplementalWeight := 0.5, timeoutMs := 800 }
  evidenceBundling := { enabled := false, maxExtra := 5, minDistinctSessions := 2, sameEntity := true, sameSession := true }
  recallPack :=
    { enabled := false, budgetTokens := 1500
      policy := { enabled := true, minScore := 0.15, minPromptChars := 12 } }
  sync := { experimental := false }
  security :=
    { redaction := { enabled := true, entropyThreshold := 4.0, customPatterns := [] }
      encryption := { enabled := true } }
  tagHygiene := { tier2Enabled := false, tier2ConfidenceThreshold := 0.7 }
  archival := { enabled := false, ageThresholdDays := 183, usefulnessFloor := 0.0 }
  retention :=
    { mode := "off", tier := "media", ageThresholdDays := 90
      heavyArtifact := { minSizeBytes := 1048576, types := [] }
      tierScope := { media := [], lean := [] } }
  ingestIdempotency := { retentionDays := 7 }
  memoryEvents := { recallServedRetentionDays := 30 }
  pipeline := { concurrency := 2 }
  consolidation :=
    { autoAcceptThreshold := none
      contradictionDetection :=
        { mode := "enabled", minSimilarity := 0.6, minConfidence := 0.7, maxPerRun := 200, maxWallClockMs := 300000 }
      dupJudge := { mode := "off", minConfidence := 0.7, batchSize := 20, maxPerRun := 200, maxWallClockMs := 300000 }
      candidateSelection := "full", knnK := 30, maxCandidatePairsPerRun := none }
  memoryHealth := { llmJudgedJunkSample := { enabled := false } }
  ingest := { spoolMaxBytes := 33554432 }
  distill :=
    { durabilityGate := "lenient", extractProfile := "engineering", chunkConcurrency := 2, compaction := "auto"
      maxChunkChars := 3200, extractionPasses := 2, costCap := some { enabled := false }, typeHints := "on"
      atomTriage := { mode := "off", batchSize := 20, maxPerRun := 200, maxWallClockMs := 300000 }
      gatekeeper := { mode := "off", batchSize := 20, maxPerRun := 200, maxWallClockMs := 300000 } }
  capture :=
    { autoCapture := { enabled := false, relevanceGate := { minChars := 8, maxBytes := 65536, dedupWindow := 20 } }
      purge := { restoreWindowDays := 30 } }
  audio := { mode := "off", disclosureAcknowledged := some false }
  proxy :=
    { enabled := false, experimental := false, port := 7778, upstream := "", upstreamTimeoutMs := 30000
      capture := { enabled := false } }
  captureSource := { meetingCaptions := { enabled := false } }

/-- the defaults of the distill stage depend on the provider that extracts -/
def applyProviderAwareDistillDefaults (base : Config) (effectiveExtractionProvider : String) : Config :=
  if effectiveExtractionProvider ≠ "codex-subscription" then base
  else { base with distill := { base.distill with compaction := "never", chunkConcurrency := 3 } }

end AstramemLocal.Config
