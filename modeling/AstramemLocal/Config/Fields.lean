/-
The fields of the configuration in the order they are written, each with how it is written, and the object a
configuration is (`toObject`).
-/
import AstramemLocal.Config.Config
import AstramemLocal.Core.PlainValue
import Mathlib.Logic.Function.Basic

namespace AstramemLocal.Config

open Core

/-- what `yamlScalar` is given -/
inductive Scalar where
  | null
  | bool (b : Bool)
  | num (n : Number)
  | str (s : String)

def Scalar.value : Scalar → PlainValue
  | .null => .null
  | .bool b => .bool b
  | .num n => .num n
  | .str s => .str s

/-- a setting of a record of type `C`, and when it is written -/
inductive Setting (C : Type) where
  /-- `line(indent, key, v)` -/
  | always (get : C → Scalar)
  /-- `line(indent, key, v ?? fallback)` -/
  | orElse (get : C → Option Bool) (fallback : Bool)
  /-- `v !== undefined ? [line(indent, key, v)] : []` -/
  | ifDefined (get : C → Option Scalar)
  /-- `v ? [line(indent, key, v)] : []` -/
  | ifTruthy (get : C → Option String)
  /-- `v.length > 0 ? [arrayLine(indent, key, v)] : []` -/
  | ifNonempty (get : C → List String)
  | never (get : C → PlainValue)

def optional {α : Type} (f : α → PlainValue) : Option α → PlainValue
  | none => .undefined
  | some a => f a

def Setting.value {C : Type} (c : C) : Setting C → PlainValue
  | .always get => (get c).value
  | .orElse get _ => optional .bool (get c)
  | .ifDefined get => optional Scalar.value (get c)
  | .ifTruthy get => optional .str (get c)
  | .ifNonempty get => .arr ((get c).map .str)
  | .never get => get c

/-- The fields of a record of type `C`. A block is the record `get` gives; where there is none, `fallback` is written. -/
inductive Fields : Type → Type 1 where
  | nil {C : Type} : Fields C
  /-- an empty line -/
  | blank {C : Type} (rest : Fields C) : Fields C
  | setting {C : Type} (key : String) (how : Setting C) (rest : Fields C) : Fields C
  | block {C D : Type} (key : String) (get : C → Option D) (fallback : Option D) (inner : Fields D) (rest : Fields C) : Fields C

namespace Fields

variable {C D : Type}

@[simp] def text (key : String) (get : C → String) (rest : Fields C) : Fields C :=
  .setting key (.always fun c => .str (get c)) rest

@[simp] def number (key : String) (get : C → Number) (rest : Fields C) : Fields C :=
  .setting key (.always fun c => .num (get c)) rest

@[simp] def flag (key : String) (get : C → Bool) (rest : Fields C) : Fields C :=
  .setting key (.always fun c => .bool (get c)) rest

@[simp] def numberOrNull (key : String) (get : C → Option Number) (rest : Fields C) : Fields C :=
  .setting key (.always fun c => ((get c).map Scalar.num).getD .null) rest

@[simp] def textIfDefined (key : String) (get : C → Option String) (rest : Fields C) : Fields C :=
  .setting key (.ifDefined fun c => (get c).map .str) rest

@[simp] def numberIfDefined (key : String) (get : C → Option Number) (rest : Fields C) : Fields C :=
  .setting key (.ifDefined fun c => (get c).map .num) rest

@[simp] def textIfTruthy (key : String) (get : C → Option String) (rest : Fields C) : Fields C :=
  .setting key (.ifTruthy get) rest

@[simp] def listIfNonempty (key : String) (get : C → List String) (rest : Fields C) : Fields C :=
  .setting key (.ifNonempty get) rest

@[simp] def textNever (key : String) (get : C → Option String) (rest : Fields C) : Fields C :=
  .setting key (.never fun c => optional .str (get c)) rest

@[simp] def blockAlways (key : String) (get : C → D) (inner : Fields D) (rest : Fields C) : Fields C :=
  .block key (fun c => some (get c)) none inner rest

@[simp] def blockIfDefined (key : String) (get : C → Option D) (inner : Fields D) (rest : Fields C) : Fields C :=
  .block key get none inner rest

/-- the members of the record as an object has them -/
def members : {C : Type} → Fields C → C → String → PlainValue
  | _, .nil, _ => fun _ => .undefined
  | _, .blank rest, c => rest.members c
  | _, .setting key how rest, c => Function.update (rest.members c) key (how.value c)
  | _, .block key get _ inner rest, c =>
    Function.update (rest.members c) key (optional (fun d => .obj (inner.members d)) (get c))

end Fields

/-! ## The fields in the order of `configToYaml` -/

/-- an object with these members -/
def object (members : List (String × PlainValue)) : PlainValue := .obj fun k => (members.lookup k).getD .undefined

@[simp] def llmModelFields : Fields LlmModel :=
  .text "provider" (·.provider) <|
  .text "model" (·.model) .nil

def RateLimit.toObject (r : RateLimit) : PlainValue := object [("callsPerMinute", optional .num r.callsPerMinute)]

def QuotaBreaker.toObject (q : QuotaBreaker) : PlainValue :=
  object [("mode", optional .str q.mode), ("consecutiveFailureThreshold", optional .num q.consecutiveFailureThreshold)]

@[simp] def llmFields : Fields Llm :=
  .blockAlways "compaction" (·.compaction) llmModelFields <|
  .blockAlways "extraction" (·.extraction) llmModelFields <|
  .setting "rateLimit" (.never fun l => optional RateLimit.toObject l.rateLimit) <|
  .setting "quotaBreaker" (.never fun l => optional QuotaBreaker.toObject l.quotaBreaker) .nil

@[simp] def embeddingFields : Fields Embedding :=
  .text "provider" (·.provider) <|
  .text "model" (·.model) <|
  .number "dim" (·.dim) <|
  .textIfDefined "queryPrefix" (·.queryPrefix) .nil

@[simp] def ollamaFields : Fields Ollama :=
  .text "baseUrl" (·.baseUrl) <|
  .textNever "keepAlive" (·.keepAlive) .nil

@[simp] def azureFields : Fields Azure :=
  .text "apiVersion" (·.apiVersion) <|
  .textIfTruthy "endpoint" (·.endpoint) <|
  .textIfTruthy "deployment" (·.deployment) .nil

@[simp] def openaiCompatibleFields : Fields OpenaiCompatible :=
  .text "apiKeyEnv" (·.apiKeyEnv) <|
  .textIfTruthy "baseUrl" (·.baseUrl) .nil

@[simp] def onnxEmbedFields : Fields OnnxEmbed :=
  .textIfDefined "cacheDir" (·.cacheDir) <|
  .textIfDefined "modelPath" (·.modelPath) <|
  .numberIfDefined "numThreads" (·.numThreads) <|
  .textIfDefined "dtype" (·.dtype) <|
  .textIfDefined "pooling" (·.pooling) <|
  .blank .nil

@[simp] def implicitPositiveFields : Fields ImplicitPositive :=
  .flag "enabled" (·.enabled) <|
  .number "windowDays" (·.windowDays) <|
  .number "minDistinctQueries" (·.minDistinctQueries) <|
  .number "weight" (·.weight) <|
  .number "maxGrantsPerRun" (·.maxGrantsPerRun) .nil

@[simp] def queryRewriteFields : Fields QueryRewrite :=
  .text "mode" (·.mode) <|
  .text "provider" (·.provider) <|
  .textIfTruthy "model" (·.model) <|
  .number "maxVariants" (·.maxVariants) <|
  .number "timeoutMs" (·.timeoutMs) <|
  .number "maxCandidates" (·.maxCandidates) .nil

@[simp] def searchFields : Fields Search :=
  .number "alpha" (·.alpha) <|
  .number "beta" (·.beta) <|
  .number "gamma" (·.gamma) <|
  .number "delta" (·.delta) <|
  .number "epsilon" (·.epsilon) <|
  .number "zeta" (·.zeta) <|
  .number "eta" (·.eta) <|
  .number "theta" (·.theta) <|
  .text "normalization" (·.normalization) <|
  .blockAlways "governance" (·.governance) (.number "maxComponentWeight" (·.maxComponentWeight) .nil) <|
  .blockAlways "usefulness" (·.usefulness) (.blockAlways "implicitPositive" (·.implicitPositive) implicitPositiveFields .nil) <|
  .blockAlways "queryRewrite" (·.queryRewrite) queryRewriteFields .nil

@[simp] def crossEncoderOnnxFields : Fields CrossEncoderOnnx :=
  .textIfDefined "cacheDir" (·.cacheDir) <|
  .textIfDefined "modelPath" (·.modelPath) <|
  .textIfDefined "hfModelId" (·.hfModelId) <|
  .textIfDefined "revision" (·.revision) <|
  .textIfDefined "dtype" (·.dtype) <|
  .numberIfDefined "numThreads" (·.numThreads) <|
  .numberIfDefined "batchSize" (·.batchSize) .nil

@[simp] def crossEncoderFields : Fields CrossEncoder :=
  .flag "enabled" (·.enabled) <|
  .text "provider" (·.provider) <|
  .number "topK" (·.topK) <|
  .number "timeoutMs" (·.timeoutMs) <|
  .textIfTruthy "sidecarUrl" (·.sidecarUrl) <|
  .textIfTruthy "model" (·.model) <|
  .blockIfDefined "onnx" (·.onnx) crossEncoderOnnxFields .nil

@[simp] def multiHopFields : Fields MultiHop :=
  .flag "enabled" (·.enabled) <|
  .text "provider" (·.provider) <|
  .number "minQueryWords" (·.minQueryWords) <|
  .number "maxSubQueries" (·.maxSubQueries) <|
  .number "maxSupplemental" (·.maxSupplemental) <|
  .number "supplementalWeight" (·.supplementalWeight) <|
  .number "timeoutMs" (·.timeoutMs) <|
  .textIfTruthy "model" (·.model) .nil

@[simp] def evidenceBundlingFields : Fields EvidenceBundling :=
  .flag "enabled" (·.enabled) <|
  .number "maxExtra" (·.maxExtra) <|
  .number "minDistinctSessions" (·.minDistinctSessions) <|
  .flag "sameEntity" (·.sameEntity) <|
  .flag "sameSession" (·.sameSession) .nil

@[simp] def recallPackPolicyFields : Fields RecallPackPolicy :=
  .flag "enabled" (·.enabled) <|
  .number "minScore" (·.minScore) <|
  .number "minPromptChars" (·.minPromptChars) .nil

@[simp] def recallPackFields : Fields RecallPack :=
  .flag "enabled" (·.enabled) <|
  .number "budgetTokens" (·.budgetTokens) <|
  .blockAlways "policy" (·.policy) recallPackPolicyFields .nil

@[simp] def enabledFields : Fields Enabled := .flag "enabled" (·.enabled) .nil

@[simp] def redactionFields : Fields Redaction :=
  .flag "enabled" (·.enabled) <|
  .number "entropyThreshold" (·.entropyThreshold) <|
  .listIfNonempty "customPatterns" (·.customPatterns) .nil

@[simp] def securityFields : Fields Security :=
  .blockAlways "redaction" (·.redaction) redactionFields <|
  .blockAlways "encryption" (·.encryption) enabledFields .nil

@[simp] def tagHygieneFields : Fields TagHygiene :=
  .flag "tier2Enabled" (·.tier2Enabled) <|
  .number "tier2ConfidenceThreshold" (·.tier2ConfidenceThreshold) .nil

@[simp] def contradictionDetectionFields : Fields ContradictionDetection :=
  .text "mode" (·.mode) <|
  .number "minSimilarity" (·.minSimilarity) <|
  .number "minConfidence" (·.minConfidence) <|
  .number "maxPerRun" (·.maxPerRun) <|
  .number "maxWallClockMs" (·.maxWallClockMs) <|
  .textNever "provider" (·.provider) <|
  .textNever "model" (·.model) .nil

@[simp] def dupJudgeFields : Fields DupJudge :=
  .text "mode" (·.mode) <|
  .number "minConfidence" (·.minConfidence) <|
  .number "batchSize" (·.batchSize) <|
  .number "maxPerRun" (·.maxPerRun) <|
  .number "maxWallClockMs" (·.maxWallClockMs) <|
  .textNever "provider" (·.provider) <|
  .textNever "model" (·.model) .nil

@[simp] def consolidationFields : Fields Consolidation :=
  .numberOrNull "autoAcceptThreshold" (·.autoAcceptThreshold) <|
  .blockAlways "contradictionDetection" (·.contradictionDetection) contradictionDetectionFields <|
  .blockAlways "dupJudge" (·.dupJudge) dupJudgeFields <|
  .text "candidateSelection" (·.candidateSelection) <|
  .number "knnK" (·.knnK) <|
  .numberOrNull "maxCandidatePairsPerRun" (·.maxCandidatePairsPerRun) .nil

@[simp] def archivalFields : Fields Archival :=
  .flag "enabled" (·.enabled) <|
  .number "ageThresholdDays" (·.ageThresholdDays) <|
  .number "usefulnessFloor" (·.usefulnessFloor) .nil

@[simp] def heavyArtifactFields : Fields HeavyArtifact :=
  .number "minSizeBytes" (·.minSizeBytes) <|
  .listIfNonempty "types" (·.types) .nil

@[simp] def tierScopeFields : Fields TierScope :=
  .listIfNonempty "media" (·.media) <|
  .listIfNonempty "lean" (·.lean) .nil

@[simp] def retentionFields : Fields Retention :=
  .text "mode" (·.mode) <|
  .text "tier" (·.tier) <|
  .number "ageThresholdDays" (·.ageThresholdDays) <|
  .textIfTruthy "artifactsDir" (·.artifactsDir) <|
  .blockAlways "heavyArtifact" (·.heavyArtifact) heavyArtifactFields <|
  .blockAlways "tierScope" (·.tierScope) tierScopeFields .nil

@[simp] def costCapFields : Fields CostCap :=
  .flag "enabled" (·.enabled) <|
  .numberIfDefined "maxCallsPerJob" (·.maxCallsPerJob) <|
  .numberIfDefined "maxWallClockMs" (·.maxWallClockMs) .nil

@[simp] def atomJudgeFields : Fields AtomJudge :=
  .text "mode" (·.mode) <|
  .number "batchSize" (·.batchSize) <|
  .number "maxPerRun" (·.maxPerRun) <|
  .number "maxWallClockMs" (·.maxWallClockMs) <|
  .textNever "provider" (·.provider) <|
  .textNever "model" (·.model) .nil

def ExtractionPassB.toObject (e : ExtractionPassB) : PlainValue :=
  object
    [("provider", optional .str e.provider), ("model", optional .str e.model), ("evidenceGate", optional .str e.evidenceGate),
      ("sweepOnlyBelowAtoms", optional .num e.sweepOnlyBelowAtoms), ("maxTokens", optional .num e.maxTokens),
      ("numCtxCap", optional .num e.numCtxCap)]

@[simp] def distillFields : Fields Distill :=
  .text "durabilityGate" (·.durabilityGate) <|
  .text "extractProfile" (·.extractProfile) <|
  .text "compaction" (·.compaction) <|
  .number "chunkConcurrency" (·.chunkConcurrency) <|
  .number "maxChunkChars" (·.maxChunkChars) <|
  .number "extractionPasses" (·.extractionPasses) <|
  .block "costCap" (·.costCap) (some { enabled := false }) costCapFields <|
  .blockAlways "atomTriage" (·.atomTriage) atomJudgeFields <|
  .blockAlways "gatekeeper" (·.gatekeeper) atomJudgeFields <|
  .text "typeHints" (·.typeHints) <|
  .setting "extractionPassB" (.never fun d => optional ExtractionPassB.toObject d.extractionPassB) .nil

@[simp] def relevanceGateFields : Fields RelevanceGate :=
  .number "minChars" (·.minChars) <|
  .number "maxBytes" (·.maxBytes) <|
  .number "dedupWindow" (·.dedupWindow) .nil

@[simp] def autoCaptureFields : Fields AutoCapture :=
  .flag "enabled" (·.enabled) <|
  .blockAlways "relevanceGate" (·.relevanceGate) relevanceGateFields .nil

@[simp] def captureFields : Fields Capture :=
  .blockAlways "autoCapture" (·.autoCapture) autoCaptureFields <|
  .blockAlways "purge" (·.purge) (.number "restoreWindowDays" (·.restoreWindowDays) .nil) .nil

@[simp] def audioFields : Fields Audio :=
  .text "mode" (·.mode) <|
  .setting "disclosureAcknowledged" (.orElse (·.disclosureAcknowledged) false) <|
  .textIfTruthy "modelPath" (·.modelPath) .nil

@[simp] def proxyFields : Fields Proxy :=
  .flag "enabled" (·.enabled) <|
  .flag "experimental" (·.experimental) <|
  .number "port" (·.port) <|
  .text "upstream" (·.upstream) <|
  .number "upstreamTimeoutMs" (·.upstreamTimeoutMs) <|
  .blockAlways "capture" (·.capture) enabledFields .nil

def blockFields : Fields Config :=
  .blockAlways "network" (·.network) (.text "host" (·.host) .nil) <| .blank <|
  .blockAlways "auth" (·.auth) (.flag "devNoAuth" (·.devNoAuth) .nil) <| .blank <|
  .blockAlways "llm" (·.llm) llmFields <| .blank <|
  .blockAlways "embedding" (·.embedding) embeddingFields <| .blank <|
  .blockAlways "vector" (·.vector) (.text "store" (·.store) .nil) <| .blank <|
  .blockAlways "budget" (·.budget) (.number "daily_usd" (·.daily_usd) .nil) <| .blank <|
  .blockAlways "ollama" (·.ollama) ollamaFields <| .blank <|
  .blockAlways "azure" (·.azure) azureFields <| .blank <|
  .blockAlways "openaiCompatible" (·.openaiCompatible) openaiCompatibleFields <| .blank <|
  .blockAlways "codexSubscription" (·.codexSubscription) (.textIfTruthy "authPath" (·.authPath) .nil) <| .blank <|
  .blockAlways "anthropic" (·.anthropic) (.text "apiKeyEnv" (·.apiKeyEnv) .nil) <| .blank <|
  .blockIfDefined "onnxEmbed" (·.onnxEmbed) onnxEmbedFields <|
  .blockAlways "search" (·.search) searchFields <| .blank <|
  .blockAlways "crossEncoder" (·.crossEncoder) crossEncoderFields <| .blank <|
  .blockAlways "multiHop" (·.multiHop) multiHopFields <| .blank <|
  .blockAlways "evidenceBundling" (·.evidenceBundling) evidenceBundlingFields <| .blank <|
  .blockAlways "recallPack" (·.recallPack) recallPackFields <| .blank <|
  .blockAlways "sync" (·.sync) (.flag "experimental" (·.experimental) .nil) <| .blank <|
  .blockAlways "security" (·.security) securityFields <| .blank <|
  .blockAlways "tagHygiene" (·.tagHygiene) tagHygieneFields <| .blank <|
  .blockAlways "pipeline" (·.pipeline) (.number "concurrency" (·.concurrency) .nil) <| .blank <|
  .blockAlways "consolidation" (·.consolidation) consolidationFields <| .blank <|
  .blockAlways "archival" (·.archival) archivalFields <| .blank <|
  .blockAlways "retention" (·.retention) retentionFields <| .blank <|
  .blockAlways "ingestIdempotency" (·.ingestIdempotency) (.number "retentionDays" (·.retentionDays) .nil) <| .blank <|
  .blockAlways "memoryEvents" (·.memoryEvents)
    (.number "recallServedRetentionDays" (·.recallServedRetentionDays) .nil) <| .blank <|
  .blockAlways "distill" (·.distill) distillFields <| .blank <|
  .blockAlways "memoryHealth" (·.memoryHealth)
    (.blockAlways "llmJudgedJunkSample" (·.llmJudgedJunkSample) enabledFields .nil) <| .blank <|
  .blockAlways "ingest" (·.ingest) (.number "spoolMaxBytes" (·.spoolMaxBytes) .nil) <| .blank <|
  .blockAlways "capture" (·.capture) captureFields <| .blank <|
  .blockAlways "audio" (·.audio) audioFields <| .blank <|
  .blockAlways "proxy" (·.proxy) proxyFields <| .blank <|
  .blockAlways "captureSource" (·.captureSource)
    (.blockAlways "meetingCaptions" (·.meetingCaptions) enabledFields .nil) <| .blank <|
  .nil

def configFields : Fields Config :=
  .number "port" (·.port) <|
  .text "dataDir" (·.dataDir) <|
  .blank blockFields

def Config.toObject (cfg : Config) : PlainValue := .obj (configFields.members cfg)

end AstramemLocal.Config
