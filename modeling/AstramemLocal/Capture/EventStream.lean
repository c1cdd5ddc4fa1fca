/-
What the proxy reads of a response body (`extractResponseTurn` and `extractUsageMetadata` of `src/capture/proxy.ts`): the
assistant's turn and the token usage, from a JSON response or from an event stream of either vocabulary. How JSON numbers
are rounded and which are finite are parameters.
-/
import AstramemLocal.Capture.Envelopes
import AstramemLocal.Core.EventLines
import AstramemLocal.Core.JsAccess
import AstramemLocal.Core.JsonLines
import AstramemLocal.Core.ObjectMap
import Mathlib.Data.List.Sort

namespace AstramemLocal.Capture.EventStream

open AstramemLocal.Core AstramemLocal.Ingest
open JsonText (jsonParse)
open JsValue (Thrown member child isText stringOrNull numberValue)

/-! ## Values -/

variable {N : Type}

/-- the text of a content block of type `text` -/
def blockText (part : JsValue N) : JsString :=
  if isText (part.get "type") "text" then (stringOrNull (part.get "text")).getD [] else []

def extractContentBlockText (content : Option (JsValue N)) : JsString :=
  match content with
  | some (.str text) => text
  | some (.arr items) => [JsString.newline].intercalate ((items.map blockText).filter (· ≠ []))
  | _ => []

/-! ## The turn of a response -/

structure ProxyTurn where
  role : TurnRole
  text : JsString
deriving DecidableEq, Repr

/-- no turn without a text -/
def assistantTurn (text : JsString) : Option ProxyTurn := if text = [] then none else some ⟨.assistant, text⟩

/-- the turn of a body that is JSON; a TypeError is caught with those of JSON.parse -/
def wholeResponseTurn (parsed : JsValue N) : Except Thrown (Option ProxyTurn) := do
  match ← member parsed "choices" with
  | some (.arr (first :: _)) =>
    -- a message that is falsy or no object has no content either
    let message ← member first "message"
    return assistantTurn (extractContentBlockText (child message "content")).trim
  | _ =>
    match parsed.get "content" with
    | some (.arr items) => return assistantTurn (extractContentBlockText (some (.arr items))).trim
    | _ => return none

/-- the payload of a data line, given without the white space around the line -/
def dataPayload (line : JsString) : Option JsString :=
  if JsString.ofString "data:" <+: line then
    let payload := JsString.trim (line.drop 5)
    if payload = [] ∨ payload = JsString.ofString "[DONE]" then none else some payload
  else none

variable (number : JsString → N)

/-- the values of the data lines; a line that does not parse is passed over -/
def ssePayloads (trimmed : JsString) : List (JsValue N) :=
  trimmed.lines.filterMap fun rawLine => (dataPayload rawLine.trim).bind (jsonParse number)

section
variable [LinearOrder N]

structure SseText (N : Type) where
  openaiAcc : JsString := []
  anthropicTextBlocks : OwnMap N JsString := []

def textStep (acc : SseText N) (v : JsValue N) : Except Thrown (SseText N) :=
  match v.get "choices" with
  | some (.arr (first :: _)) => do
    let delta ← member first "delta"
    return { acc with openaiAcc := acc.openaiAcc ++ (stringOrNull (child delta "content")).getD [] }
  | _ =>
    let delta := v.get "delta"
    if isText (v.get "type") "content_block_delta" ∧ isText (child delta "type") "text_delta" then
      match numberValue (v.get "index"), stringOrNull (child delta "text") with
      | some index, some text =>
        let blocks := acc.anthropicTextBlocks
        .ok { acc with anthropicTextBlocks := OwnMap.set blocks index ((OwnMap.get blocks index).getD [] ++ text) }
      | _, _ => .ok acc
    else .ok acc

/-- the blocks' texts by ascending index -/
def joinBlocks (blocks : OwnMap N JsString) : JsString :=
  [JsString.newline].intercalate ((blocks.insertionSort fun a b => a.1 ≤ b.1).map Prod.snd)

def extractSseResponseTurn (trimmed : JsString) : Except Thrown (Option ProxyTurn) := do
  let acc ← (ssePayloads number trimmed).foldlM textStep {}
  let openaiText := acc.openaiAcc.trim
  if openaiText ≠ [] then return assistantTurn openaiText
  return assistantTurn (joinBlocks acc.anthropicTextBlocks).trim

def extractResponseTurn (rawBody : JsString) : Except Thrown (Option ProxyTurn) :=
  let trimmed := rawBody.trim
  if trimmed = [] then .ok none
  else
    match (jsonParse number trimmed).map wholeResponseTurn with
    | some (.ok turn) => .ok turn
    | _ => extractSseResponseTurn number trimmed

end

/-! ## Usage -/

structure ProxyUsage (N : Type) where
  provider : Provider
  model : Option JsString
  inputTokens : Option N
  outputTokens : Option N
  totalTokens : Option N
  cacheCreationInputTokens : Option N
  cacheReadInputTokens : Option N
  stopReason : Option JsString
  truncated : Bool

variable (isFinite : N → Bool)

def numberOrNull (v : Option (JsValue N)) : Option N := (numberValue v).filter (isFinite ·)

def extractRequestModel (rawBody : JsString) : Option JsString :=
  ((jsonParse number rawBody).bind fun parsed => stringOrNull (parsed.get "model")).filter (· ≠ [])

/-- the token counts of a chat response or chunk -/
structure OpenAiCounts (N : Type) where
  inputTokens : Option N := none
  outputTokens : Option N := none
  totalTokens : Option N := none

structure AnthropicCounts (N : Type) where
  inputTokens : Option N := none
  outputTokens : Option N := none
  cacheCreation : Option N := none
  cacheRead : Option N := none

def openAiCounts (usage : Option (JsValue N)) : OpenAiCounts N where
  inputTokens := numberOrNull isFinite (child usage "prompt_tokens")
  outputTokens := numberOrNull isFinite (child usage "completion_tokens")
  totalTokens := numberOrNull isFinite (child usage "total_tokens")

def anthropicCounts (usage : Option (JsValue N)) : AnthropicCounts N where
  inputTokens := numberOrNull isFinite (child usage "input_tokens")
  outputTokens := numberOrNull isFinite (child usage "output_tokens")
  cacheCreation := numberOrNull isFinite (child usage "cache_creation_input_tokens")
  cacheRead := numberOrNull isFinite (child usage "cache_read_input_tokens")

def openAiUsage (model : Option JsString) (counts : OpenAiCounts N) (stopReason : Option JsString) : ProxyUsage N where
  provider := .openai
  model := model
  inputTokens := counts.inputTokens
  outputTokens := counts.outputTokens
  totalTokens := counts.totalTokens
  cacheCreationInputTokens := none
  cacheReadInputTokens := none
  stopReason := stopReason
  truncated := stopReason = some (JsString.ofString "length")

def anthropicUsage (model : Option JsString) (counts : AnthropicCounts N) (stopReason : Option JsString) :
    ProxyUsage N where
  provider := .anthropic
  model := model
  inputTokens := counts.inputTokens
  outputTokens := counts.outputTokens
  totalTokens := none
  cacheCreationInputTokens := counts.cacheCreation
  cacheReadInputTokens := counts.cacheRead
  stopReason := stopReason
  truncated := stopReason = some (JsString.ofString "max_tokens")

structure SseUsage (N : Type) where
  sawOpenAI : Bool := false
  sawAnthropic : Bool := false
  openai : OpenAiCounts N := {}
  openaiFinishReason : Option JsString := none
  anthropic : AnthropicCounts N := {}
  anthropicStopReason : Option JsString := none

/-- `asRecord(v)` -/
def asRecord (v : Option (JsValue N)) : Option (JsValue N) := v.filter (·.isObject)

def usageStep (acc : SseUsage N) (v : JsValue N) : SseUsage N :=
  match v.get "choices" with
  | some (.arr choices) =>
    let finishReason := stringOrNull (child choices.head? "finish_reason")
    let usage := asRecord (v.get "usage")
    { acc with
      sawOpenAI := true
      openaiFinishReason := finishReason.or acc.openaiFinishReason
      openai := if usage.isSome then openAiCounts isFinite usage else acc.openai }
  | _ =>
    if isText (v.get "type") "message_start" then
      let usage := asRecord (child (v.get "message") "usage")
      if usage.isSome then
        let counts := anthropicCounts isFinite usage
        { acc with
          sawAnthropic := true
          -- a placeholder that a later message_delta overwrites
          anthropic := { counts with outputTokens := acc.anthropic.outputTokens.or counts.outputTokens } }
      else { acc with sawAnthropic := true }
    else if isText (v.get "type") "message_delta" then
      let outputTokens := numberOrNull isFinite (child (v.get "usage") "output_tokens")
      { acc with
        sawAnthropic := true
        anthropicStopReason := (stringOrNull (child (v.get "delta") "stop_reason")).or acc.anthropicStopReason
        anthropic := { acc.anthropic with outputTokens := outputTokens.or acc.anthropic.outputTokens } }
    else acc

def extractSseUsageMetadata (model : Option JsString) (trimmed : JsString) : Option (ProxyUsage N) :=
  let acc := (ssePayloads number trimmed).foldl (usageStep isFinite) {}
  if acc.sawAnthropic then some (anthropicUsage model acc.anthropic acc.anthropicStopReason)
  else if acc.sawOpenAI then some (openAiUsage model acc.openai acc.openaiFinishReason)
  else none

/-- the usage of a body that is JSON; `none` where the access throws -/
def wholeUsage (model : Option JsString) (parsed : JsValue N) : Except Thrown (Option (ProxyUsage N)) := do
  match ← member parsed "choices" with
  | some (.arr choices) =>
    return some (openAiUsage model (openAiCounts isFinite (asRecord (parsed.get "usage")))
      (stringOrNull (child choices.head? "finish_reason")))
  | _ =>
    match parsed.get "content" with
    | some (.arr _) =>
      return some (anthropicUsage model (anthropicCounts isFinite (asRecord (parsed.get "usage")))
        (stringOrNull (parsed.get "stop_reason")))
    | _ => return none

def extractUsageMetadata (reqBody resBody : JsString) : Option (ProxyUsage N) :=
  let model := extractRequestModel number reqBody
  let trimmed := resBody.trim
  if trimmed = [] then none
  else
    match (jsonParse number trimmed).map (wholeUsage isFinite model) with
    | some (.ok usage) => usage
    | _ => extractSseUsageMetadata number isFinite model trimmed

end AstramemLocal.Capture.EventStream
