/-
What comes back of an event stream (`src/capture/proxy.ts`). A stream is a list of lines: data lines with any payload, and
any others, each ending in LF or in CR LF.

- `reassembly_iff`: a stream gives back the text of its deltas, and no number that it did not state, exactly when no chunk
  of it has null as its first choice.
- `null_choice_throws`: one such chunk in a stream that has text.
-/
import AstramemLocal.Capture.EventStream
import Mathlib.Data.List.Dedup

namespace AstramemLocal.Capture.EventStream

open AstramemLocal.Core AstramemLocal.Ingest
open JsonText (jsonParse jsonParse_of_line)
open JsValue (Thrown member member_of_ne child isText stringOrNull numberValue)

/-! ## Streams -/

/-- a line without its end: a data line, or any other (the name of an event, a comment, a blank) -/
inductive StreamLine where
  | data (payload : JsString) (h : JsString.newline ∉ payload)
  | other (text : JsString) (h : JsString.newline ∉ text) (hother : ¬ JsString.ofString "data:" <+: text.trim)

def StreamLine.text : StreamLine → JsString
  | .data payload _ => JsString.ofString "data:" ++ payload
  | .other text _ _ => text

/-- the lines with their ends, and what follows the last end -/
structure Stream where
  lines : List (StreamLine × JsString.LineEnd)
  last : Option StreamLine := none

def Stream.body (s : Stream) : JsString :=
  JsString.terminated (s.lines.map fun l => (l.1.text, l.2)) (s.last.elim [] StreamLine.text)

section
variable {N : Type} (number : JsString → N)

/-- the value a line carries; a malformed one carries none -/
def StreamLine.event : StreamLine → Option (JsValue N)
  | .data payload _ => jsonParse number payload.trim
  | .other _ _ _ => none

/-- the events of the stream -/
def Stream.events (s : Stream) : List (JsValue N) :=
  (s.lines.map Prod.fst ++ s.last.toList).filterMap (StreamLine.event number)

/-- the text a chat chunk adds -/
def contentDelta (v : JsValue N) : Option JsString :=
  match v.get "choices" with
  | some (.arr (first :: _)) => stringOrNull (child (first.get "delta") "content")
  | _ => none

/-- the text an event that is no chat chunk adds to a block -/
def textDelta (v : JsValue N) : Option (N × JsString) :=
  match v.get "choices" with
  | some (.arr (_ :: _)) => none
  | _ =>
    let delta := v.get "delta"
    if isText (v.get "type") "content_block_delta" ∧ isText (child delta "type") "text_delta" then
      match numberValue (v.get "index"), stringOrNull (child delta "text") with
      | some index, some text => some (index, text)
      | _, _ => none
    else none

/-- a chat chunk whose first choice is null -/
def NullChoice (v : JsValue N) : Prop := ∃ others, v.get "choices" = some (.arr (.null :: others))

/-! ## The lines -/

variable {number}

theorem parse_nil : jsonParse number [] = none := rfl

theorem parse_done : jsonParse number (JsString.ofString "[DONE]") = none := rfl

theorem tight_data : JsString.Tight (JsString.ofString "data:") := by
  constructor
  · intro u hu
    have hd : u = 0x64 := by simpa [JsString.ofString, codeUnits] using hu.symm
    rw [hd]
    decide
  · intro u hu
    have hcolon : u = 0x3a := by simpa [JsString.ofString, codeUnits] using hu.symm
    rw [hcolon]
    decide

theorem payload_of_line (line : StreamLine) :
    (dataPayload line.text.trim).bind (jsonParse number) = line.event number := by
  cases line with
  | data payload h =>
    rw [StreamLine.text, JsString.trim_append_of_tight tight_data (by decide), dataPayload,
      if_pos (List.prefix_append _ _)]
    have hdrop : (JsString.ofString "data:" ++ payload.trimEnd).drop 5 = payload.trimEnd :=
      List.drop_left' (by decide)
    rw [hdrop, JsString.trim_trimEnd, StreamLine.event]
    dsimp only
    split_ifs with hskip
    · rcases hskip with hskip | hskip
      · rw [hskip, parse_nil]
        rfl
      · rw [hskip, parse_done]
        rfl
    · rfl
  | other text h hother =>
    rw [StreamLine.text, dataPayload, if_neg hother]
    rfl

theorem newline_notMem_text (line : StreamLine) : JsString.newline ∉ line.text := by
  cases line with
  | data payload h =>
    rw [StreamLine.text, List.mem_append, not_or]
    exact ⟨by decide, h⟩
  | other text h => exact h

theorem trimmedLines_body (s : Stream) : JsString.trimmedLines s.body =
    s.lines.map (fun l => l.1.text.trim) ++ [JsString.trim (s.last.elim [] StreamLine.text)] := by
  rw [Stream.body, JsString.trimmedLines_terminated, List.map_map]
  · rfl
  · intro l hl
    obtain ⟨m, -, rfl⟩ := List.mem_map.1 hl
    exact newline_notMem_text m.1
  · cases s.last with
    | none => exact List.not_mem_nil
    | some line => exact newline_notMem_text line

/-- **The data lines of the trimmed body carry the events of the stream.** -/
theorem ssePayloads_body (s : Stream) : ssePayloads number s.body.trim = s.events number := by
  have hfilter : ssePayloads number s.body.trim =
      (JsString.trimmedLines s.body.trim).filterMap fun line => (dataPayload line).bind (jsonParse number) := by
    rw [JsString.trimmedLines, List.filterMap_map]
    rfl
  have hlast : [JsString.trim (s.last.elim [] StreamLine.text)].filterMap (fun line => (dataPayload line).bind
      (jsonParse number)) = s.last.toList.filterMap (StreamLine.event number) := by
    cases s.last with
    | none => rfl
    | some line =>
      have hevent : (dataPayload line.text.trim).bind (jsonParse number) = line.event number := payload_of_line line
      simp only [Option.elim_some, Option.toList_some, List.filterMap_cons, List.filterMap_nil, hevent]
  rw [hfilter, JsString.filterMap_trimmedLines rfl, trimmedLines_body, List.filterMap_append, hlast, Stream.events,
    List.filterMap_append, List.filterMap_map, List.filterMap_map]
  congr 1
  apply List.filterMap_congr
  intro l _
  exact payload_of_line l.1

theorem trim_body_ne_nil {s : Stream} (h : s.events number ≠ []) : s.body.trim ≠ [] := by
  intro hnil
  apply h
  rw [← ssePayloads_body, hnil]
  rfl

/-- a body with an event is no JSON as a whole -/
theorem jsonParse_body {s : Stream} (h : s.events number ≠ []) : jsonParse number s.body.trim = none := by
  rw [← ssePayloads_body] at h
  obtain ⟨v, hv⟩ := List.exists_mem_of_ne_nil _ h
  obtain ⟨rawLine, hline, hpayload⟩ := List.mem_filterMap.1 hv
  obtain ⟨payload, hdata, -⟩ := Option.bind_eq_some_iff.1 hpayload
  have hprefix : JsString.ofString "data:" <+: rawLine.trim := by
    by_contra hnot
    rw [dataPayload, if_neg hnot] at hdata
    cases hdata
  obtain ⟨tail, htail⟩ := hprefix
  have hmem : 0x64 :: (JsString.ofString "ata:" ++ tail) ∈ JsString.trimmedLines s.body.trim := by
    have heq : 0x64 :: (JsString.ofString "ata:" ++ tail) = rawLine.trim := htail
    rw [heq]
    exact List.mem_map_of_mem hline
  exact jsonParse_of_line hmem (by decide)

/-! ## The text -/

section
variable [LinearOrder N]

def blockConcat (deltas : List (N × JsString)) (index : N) : JsString :=
  (deltas.filter (·.1 = index)).flatMap Prod.snd

/-- the indices of the blocks, ascending -/
def blockIndices (deltas : List (N × JsString)) : List N := (deltas.map Prod.fst).dedup.insertionSort (· ≤ ·)

/-- what the deltas say: each block's own, the blocks by ascending index -/
def blocksText (deltas : List (N × JsString)) : JsString :=
  JsString.trim ([JsString.newline].intercalate ((blockIndices deltas).map (blockConcat deltas)))

def addDelta (blocks : OwnMap N JsString) (delta : N × JsString) : OwnMap N JsString :=
  OwnMap.set blocks delta.1 ((OwnMap.get blocks delta.1).getD [] ++ delta.2)

/-- the accumulator behind a payload that does not throw -/
def addText (acc : SseText N) (v : JsValue N) : SseText N where
  openaiAcc := acc.openaiAcc ++ (contentDelta v).getD []
  anthropicTextBlocks := (textDelta v).elim acc.anthropicTextBlocks (addDelta acc.anthropicTextBlocks)

/-- what one payload can do: throw for a null choice, otherwise add its text -/
theorem textStep_of_null {acc : SseText N} {v : JsValue N} (h : NullChoice v) : textStep acc v = .error .typeError := by
  obtain ⟨others, hothers⟩ := h
  unfold textStep
  rw [hothers]
  rfl

theorem textStep_eq {acc : SseText N} {v : JsValue N} (h : ¬ NullChoice v) : textStep acc v = .ok (addText acc v) := by
  unfold textStep addText contentDelta textDelta
  split
  next first others hchoices =>
    have hfirst : first ≠ .null := by
      rintro rfl
      exact h ⟨others, hchoices⟩
    simp only [member_of_ne hfirst, hchoices]
    rfl
  next =>
    dsimp only
    split_ifs with htext
    · cases numberValue (v.get "index") <;> cases stringOrNull (child (v.get "delta") "text") <;> simp [addDelta]
    · simp

/-- the loop over payloads none of which throws -/
theorem foldlM_textStep {events : List (JsValue N)} (h : ∀ v ∈ events, ¬ NullChoice v) (acc : SseText N) :
    events.foldlM textStep acc = .ok (events.foldl addText acc) := by
  induction events generalizing acc with
  | nil => rfl
  | cons v events ih =>
    rw [List.foldlM_cons, textStep_eq (h v List.mem_cons_self)]
    exact ih (fun w hw => h w (List.mem_cons_of_mem v hw)) _

/-- a payload that throws ends the loop, wherever it stands -/
theorem foldlM_textStep_null {events : List (JsValue N)} (h : ∃ v ∈ events, NullChoice v) (acc : SseText N) :
    events.foldlM textStep acc = .error .typeError := by
  induction events generalizing acc with
  | nil =>
    obtain ⟨v, hv, -⟩ := h
    cases hv
  | cons v events ih =>
    rw [List.foldlM_cons]
    by_cases hnull : NullChoice v
    · rw [textStep_of_null hnull]
      rfl
    · rw [textStep_eq hnull]
      apply ih
      obtain ⟨w, hw, hwnull⟩ := h
      rcases List.mem_cons.1 hw with rfl | hw
      · exact absurd hwnull hnull
      · exact ⟨w, hw, hwnull⟩

theorem foldl_addText (events : List (JsValue N)) (acc : SseText N) : events.foldl addText acc =
    ⟨acc.openaiAcc ++ (events.filterMap contentDelta).flatten,
      (events.filterMap textDelta).foldl addDelta acc.anthropicTextBlocks⟩ := by
  induction events generalizing acc with
  | nil => simp
  | cons v events ih =>
    rw [List.foldl_cons, ih, addText]
    cases hcontent : contentDelta v <;> cases htext : textDelta v <;> simp [hcontent, htext]

/-! ## The blocks -/

theorem blockConcat_concat (deltas : List (N × JsString)) (delta : N × JsString) (index : N) :
    blockConcat (deltas ++ [delta]) index = blockConcat deltas index ++ if delta.1 = index then delta.2 else [] := by
  unfold blockConcat
  rw [List.filter_append, List.flatMap_append]
  split_ifs with h <;> simp [h]

theorem blockConcat_of_notMem {deltas : List (N × JsString)} {index : N} (h : index ∉ deltas.map Prod.fst) :
    blockConcat deltas index = [] := by
  have hnone : deltas.filter (·.1 = index) = [] := by
    rw [List.filter_eq_nil_iff]
    intro d hd heq
    exact h (of_decide_eq_true heq ▸ List.mem_map_of_mem hd)
  rw [blockConcat, hnone]
  rfl

/-- what the map of blocks holds behind some deltas: each block once, with its text -/
structure Blocks (deltas : List (N × JsString)) (blocks : OwnMap N JsString) : Prop where
  keyed : (blocks.map Prod.fst).Nodup
  indices : ∀ index, index ∈ blocks.map Prod.fst ↔ index ∈ deltas.map Prod.fst
  texts : ∀ e ∈ blocks, e.2 = blockConcat deltas e.1

theorem Blocks.addDelta {deltas : List (N × JsString)} {blocks : OwnMap N JsString} (h : Blocks deltas blocks)
    (delta : N × JsString) : Blocks (deltas ++ [delta]) (EventStream.addDelta blocks delta) := by
  unfold EventStream.addDelta
  refine ⟨OwnMap.keyed_set h.keyed, fun index => ?_, fun e he => ?_⟩
  · cases hget : OwnMap.get blocks delta.1 with
    | none =>
      rw [OwnMap.set_new hget, List.map_append, List.map_append, List.mem_append, List.mem_append, h.indices]
      rfl
    | some old =>
      have hkey : (delta.1, old).1 ∈ blocks.map Prod.fst := List.mem_map_of_mem (OwnMap.mem_of_get hget)
      have hmem := (h.indices delta.1).1 hkey
      rw [OwnMap.map_fst_set_own hget, h.indices, List.map_append, List.mem_append]
      constructor
      · exact .inl
      · rintro (hin | hin)
        · exact hin
        · exact List.mem_singleton.1 hin ▸ hmem
  · rw [blockConcat_concat]
    cases hget : OwnMap.get blocks delta.1 with
    | none =>
      rw [hget, OwnMap.set_new hget, List.mem_append] at he
      have hnew : delta.1 ∉ deltas.map Prod.fst := fun hin => OwnMap.get_eq_none.1 hget ((h.indices delta.1).2 hin)
      rcases he with he | he
      · have hne : delta.1 ≠ e.1 := fun heq => OwnMap.get_eq_none.1 hget (heq ▸ List.mem_map_of_mem he)
        rw [if_neg hne, List.append_nil]
        exact h.texts e he
      · rw [List.mem_singleton.1 he, if_pos rfl, blockConcat_of_notMem hnew]
        rfl
    | some old =>
      rw [hget, OwnMap.set_own hget] at he
      obtain ⟨f, hf, rfl⟩ := List.mem_map.1 he
      have hold := h.texts _ (OwnMap.mem_of_get hget)
      by_cases heq : f.1 = delta.1
      · rw [if_pos heq, if_pos rfl, ← hold]
        rfl
      · rw [if_neg heq, if_neg (Ne.symm heq), List.append_nil]
        exact h.texts f hf

theorem blocks_foldl (deltas : List (N × JsString)) : Blocks deltas (deltas.foldl addDelta []) := by
  induction deltas using List.reverseRecOn with
  | nil => exact ⟨List.nodup_nil, fun _ => Iff.rfl, fun e he => by cases he⟩
  | append_singleton deltas delta ih =>
    rw [List.foldl_concat]
    exact ih.addDelta delta

/-- the blocks come out in the order of their indices -/
theorem Blocks.join {deltas : List (N × JsString)} {blocks : OwnMap N JsString} (h : Blocks deltas blocks) :
    (joinBlocks blocks).trim = blocksText deltas := by
  have hblocks : blocks = (blocks.map Prod.fst).map fun index => (index, blockConcat deltas index) := by
    rw [List.map_map]
    conv_lhs => rw [← List.map_id blocks]
    apply List.map_congr_left
    intro e he
    exact Prod.ext rfl (h.texts e he)
  have hperm : (blocks.map Prod.fst).Perm (deltas.map Prod.fst).dedup := by
    apply (List.perm_ext_iff_of_nodup h.keyed (deltas.map Prod.fst).nodup_dedup).2
    intro index
    rw [h.indices, List.mem_dedup]
  have hsort : (blocks.map Prod.fst).insertionSort (· ≤ ·) = blockIndices deltas := by
    apply List.Perm.eq_of_pairwise' (r := (· ≤ ·)) (List.pairwise_insertionSort _ _) (List.pairwise_insertionSort _ _)
    exact ((List.perm_insertionSort _ _).trans hperm).trans (List.perm_insertionSort _ _).symm
  have hjoin : (blocks.insertionSort fun a b => a.1 ≤ b.1).map Prod.snd =
      (blockIndices deltas).map (blockConcat deltas) := by
    conv_lhs => rw [hblocks]
    rw [← List.map_insertionSort (r := (· ≤ ·)), hsort, List.map_map]
    · rfl
    · intro a _ b _
      rfl
  rw [joinBlocks, hjoin, blocksText]

/-- the text of a stream: of its chat chunks, if they have any, and of its blocks otherwise -/
def streamText (events : List (JsValue N)) : JsString :=
  let openaiText := JsString.trim (events.filterMap contentDelta).flatten
  if openaiText ≠ [] then openaiText else blocksText (events.filterMap textDelta)

theorem extractSse_body {s : Stream} (h : ∀ v ∈ s.events number, ¬ NullChoice v) :
    extractSseResponseTurn number s.body.trim = .ok (assistantTurn (streamText (s.events number))) := by
  have hblocks := (blocks_foldl ((s.events number).filterMap textDelta)).join
  unfold extractSseResponseTurn streamText
  rw [ssePayloads_body, foldlM_textStep h, foldl_addText]
  simp only [bind, Except.bind, pure, Except.pure, List.nil_append, hblocks]
  split_ifs <;> rfl

theorem extractSse_null {s : Stream} (h : ∃ v ∈ s.events number, NullChoice v) :
    extractSseResponseTurn number s.body.trim = .error .typeError := by
  unfold extractSseResponseTurn
  rw [ssePayloads_body, foldlM_textStep_null h]
  rfl

/-- a body with an event is read line by line -/
theorem extractResponseTurn_body {s : Stream} (h : s.events number ≠ []) :
    extractResponseTurn number s.body = extractSseResponseTurn number s.body.trim := by
  unfold extractResponseTurn
  dsimp only
  rw [if_neg (trim_body_ne_nil h), jsonParse_body h]
  rfl

theorem extractResponseTurn_returns {s : Stream} (h : ∀ v ∈ s.events number, ¬ NullChoice v) :
    ∃ turn, extractResponseTurn number s.body = .ok turn := by
  unfold extractResponseTurn
  dsimp only
  rw [extractSse_body h]
  split_ifs
  · exact ⟨none, rfl⟩
  · split
    · exact ⟨_, rfl⟩
    · exact ⟨_, rfl⟩

end

/-! ## The numbers -/

inductive UsageField where
  | inputTokens | outputTokens | totalTokens | cacheCreationInputTokens | cacheReadInputTokens
deriving DecidableEq, Repr

def ProxyUsage.count (u : ProxyUsage N) : UsageField → Option N
  | .inputTokens => u.inputTokens
  | .outputTokens => u.outputTokens
  | .totalTokens => u.totalTokens
  | .cacheCreationInputTokens => u.cacheCreationInputTokens
  | .cacheReadInputTokens => u.cacheReadInputTokens

/-- the name a provider has for the field -/
def wireName : Provider → UsageField → Option String
  | .openai, .inputTokens => some "prompt_tokens"
  | .openai, .outputTokens => some "completion_tokens"
  | .openai, .totalTokens => some "total_tokens"
  | .anthropic, .inputTokens => some "input_tokens"
  | .anthropic, .outputTokens => some "output_tokens"
  | .anthropic, .cacheCreationInputTokens => some "cache_creation_input_tokens"
  | .anthropic, .cacheReadInputTokens => some "cache_read_input_tokens"
  | _, _ => none

/-- the usage object states the number under the name -/
def StatesIn (usage : Option (JsValue N)) (provider : Provider) (field : UsageField) (n : N) : Prop :=
  ∃ name, wireName provider field = some name ∧ child usage name = some (.num n)

/-- the event states the number for the field -/
def States (v : JsValue N) (provider : Provider) (field : UsageField) (n : N) : Prop :=
  match provider with
  | .openai => StatesIn (v.get "usage") .openai field n
  | .anthropic =>
    isText (v.get "type") "message_start" ∧ StatesIn (child (v.get "message") "usage") .anthropic field n ∨
      isText (v.get "type") "message_delta" ∧ StatesIn (v.get "usage") .anthropic field n

variable {isFinite : N → Bool} {field : UsageField} {n : N} {usage : Option (JsValue N)}

theorem numberOrNull_eq {v : Option (JsValue N)} (h : numberOrNull isFinite v = some n) : v = some (.num n) := by
  unfold numberOrNull numberValue at h
  split at h
  · rw [Option.filter_eq_some_iff] at h
    rw [Option.some.inj h.1]
  · cases h

theorem child_asRecord {name : String} {w : JsValue N} (h : child (asRecord usage) name = some w) :
    child usage name = some w := by
  unfold child asRecord at h
  obtain ⟨v, hv, hget⟩ := Option.bind_eq_some_iff.1 h
  rw [Option.filter_eq_some_iff] at hv
  rw [hv.1]
  exact hget

theorem openAiCounts_states {model stopReason : Option JsString}
    (h : (openAiUsage model (openAiCounts isFinite (asRecord usage)) stopReason).count field = some n) :
    StatesIn usage .openai field n := by
  cases field with
  | cacheCreationInputTokens | cacheReadInputTokens => cases h
  | inputTokens | outputTokens | totalTokens => exact ⟨_, rfl, child_asRecord (numberOrNull_eq h)⟩

theorem anthropicCounts_states {model stopReason : Option JsString}
    (h : (anthropicUsage model (anthropicCounts isFinite (asRecord usage)) stopReason).count field = some n) :
    StatesIn usage .anthropic field n := by
  cases field with
  | totalTokens => cases h
  | inputTokens | outputTokens | cacheCreationInputTokens | cacheReadInputTokens =>
    exact ⟨_, rfl, child_asRecord (numberOrNull_eq h)⟩

/-- each number the accumulator holds was stated by an event -/
structure Stated (events : List (JsValue N)) (acc : SseUsage N) : Prop where
  openai : ∀ field n, (openAiUsage none acc.openai none).count field = some n → ∃ v ∈ events, States v .openai field n
  anthropic : ∀ field n, (anthropicUsage none acc.anthropic none).count field = some n →
    ∃ v ∈ events, States v .anthropic field n

theorem stated_start : Stated ([] : List (JsValue N)) {} where
  openai field n h := by cases field <;> cases h
  anthropic field n h := by cases field <;> cases h

/-- a step keeps it -/
theorem Stated.step {events : List (JsValue N)} {acc : SseUsage N} (h : Stated events acc) (v : JsValue N) :
    Stated (events ++ [v]) (usageStep isFinite acc v) := by
  have hopenai : ∀ field n, (openAiUsage none acc.openai none).count field = some n →
      ∃ w ∈ events ++ [v], States w .openai field n := by
    intro field n hcount
    obtain ⟨w, hw, hstates⟩ := h.openai field n hcount
    exact ⟨w, List.mem_append_left _ hw, hstates⟩
  have hanthropic : ∀ field n, (anthropicUsage none acc.anthropic none).count field = some n →
      ∃ w ∈ events ++ [v], States w .anthropic field n := by
    intro field n hcount
    obtain ⟨w, hw, hstates⟩ := h.anthropic field n hcount
    exact ⟨w, List.mem_append_left _ hw, hstates⟩
  have hv : v ∈ events ++ [v] := List.mem_append_right _ (List.mem_singleton_self v)
  unfold usageStep
  split
  · refine ⟨fun field n hcount => ?_, hanthropic⟩
    dsimp only at hcount
    split_ifs at hcount
    · exact ⟨v, hv, openAiCounts_states hcount⟩
    · exact hopenai field n hcount
  · dsimp only
    split_ifs with hstart husage hdelta
    · refine ⟨hopenai, fun field n hcount => ?_⟩
      by_cases houtput : field = .outputTokens ∧ acc.anthropic.outputTokens ≠ none
      · obtain ⟨rfl, hne⟩ := houtput
        obtain ⟨m, hm⟩ := Option.ne_none_iff_exists'.1 hne
        apply hanthropic .outputTokens n
        have hor : (acc.anthropic.outputTokens.or _) = some n := hcount
        rw [hm] at hor
        exact hm.trans hor
      · refine ⟨v, hv, .inl ⟨hstart, ?_⟩⟩
        apply @anthropicCounts_states N isFinite _ _ _ none none
        cases field with
        | outputTokens =>
          have hnone : acc.anthropic.outputTokens = none := by
            by_contra hne
            exact houtput ⟨rfl, hne⟩
          have hor : (acc.anthropic.outputTokens.or _) = some n := hcount
          rw [hnone] at hor
          exact hor
        | _ => exact hcount
    · exact ⟨hopenai, hanthropic⟩
    · refine ⟨hopenai, fun field n hcount => ?_⟩
      cases field with
      | outputTokens =>
        have hor : (numberOrNull isFinite (child (v.get "usage") "output_tokens")).or acc.anthropic.outputTokens = some n := hcount
        cases hnumber : numberOrNull isFinite (child (v.get "usage") "output_tokens") with
        | none =>
          rw [hnumber] at hor
          exact hanthropic .outputTokens n hor
        | some m =>
          rw [hnumber] at hor
          obtain rfl : m = n := Option.some.inj hor
          exact ⟨v, hv, .inr ⟨hdelta, _, rfl, numberOrNull_eq hnumber⟩⟩
      | _ => exact hanthropic _ n hcount
    · exact ⟨hopenai, hanthropic⟩

theorem stated_foldl (events : List (JsValue N)) : Stated events (events.foldl (usageStep isFinite) {}) := by
  induction events using List.reverseRecOn with
  | nil => exact stated_start
  | append_singleton events v ih =>
    rw [List.foldl_concat]
    exact ih.step v

/-- a reported number was stated by an event of the stream -/
theorem usage_stated {s : Stream} {reqBody : JsString} {u : ProxyUsage N} (h : s.events number ≠ [])
    (hu : extractUsageMetadata number isFinite reqBody s.body = some u) (hcount : u.count field = some n) :
    ∃ v ∈ s.events number, States v u.provider field n := by
  have hstated : Stated (s.events number) ((s.events number).foldl (usageStep isFinite) {}) := stated_foldl _
  unfold extractUsageMetadata at hu
  dsimp only at hu
  rw [if_neg (trim_body_ne_nil h), jsonParse_body h] at hu
  have hsse : extractSseUsageMetadata number isFinite (extractRequestModel number reqBody) s.body.trim = some u := hu
  unfold extractSseUsageMetadata at hsse
  rw [ssePayloads_body] at hsse
  dsimp only at hsse
  split_ifs at hsse
  · cases hsse
    apply hstated.anthropic field n
    cases field <;> exact hcount
  · cases hsse
    apply hstated.openai field n
    cases field <;> exact hcount

end

/-! ## The law -/

section
variable {N : Type} [LinearOrder N] (number : JsString → N) (isFinite : N → Bool)

/-- what a stream owes: its text as one turn, and no number that was not stated -/
structure Reassembles (s : Stream) : Prop where
  returns : ∃ turn, extractResponseTurn number s.body = .ok turn
  /-- a stream of blocks -/
  anthropic : (s.events number).filterMap contentDelta = [] → (s.events number).filterMap textDelta ≠ [] →
    extractResponseTurn number s.body = .ok (assistantTurn (blocksText ((s.events number).filterMap textDelta)))
  /-- a stream of chat chunks -/
  openai : (s.events number).filterMap textDelta = [] → (s.events number).filterMap contentDelta ≠ [] →
    extractResponseTurn number s.body = .ok (assistantTurn (JsString.trim ((s.events number).filterMap contentDelta).flatten))
  usage : s.events number ≠ [] → ∀ reqBody u, extractUsageMetadata number isFinite reqBody s.body = some u →
    ∀ field n, u.count field = some n → ∃ v ∈ s.events number, States v u.provider field n

/-- **Reassembly.** -/
theorem reassembly_iff (s : Stream) :
    Reassembles number isFinite s ↔ ∀ v ∈ s.events number, ¬ NullChoice v := by
  constructor
  · intro h v hv hnull
    obtain ⟨turn, hturn⟩ := h.returns
    rw [extractResponseTurn_body (List.ne_nil_of_mem hv), extractSse_null ⟨v, hv, hnull⟩] at hturn
    cases hturn
  · intro h
    refine ⟨extractResponseTurn_returns h, fun hcontents hdeltas => ?_, fun hdeltas hcontents => ?_,
      fun hevents reqBody u hu field n hcount => usage_stated hevents hu hcount⟩
    · have hevents : s.events number ≠ [] := by
        intro hnil
        rw [hnil] at hdeltas
        exact hdeltas rfl
      rw [extractResponseTurn_body hevents, extractSse_body h, streamText, hcontents]
      rfl
    · have hevents : s.events number ≠ [] := by
        intro hnil
        rw [hnil] at hcontents
        exact hcontents rfl
      rw [extractResponseTurn_body hevents, extractSse_body h, streamText, hdeltas]
      split_ifs with hempty
      · rfl
      · rw [not_not.1 hempty]
        rfl

/-! ## A null choice -/

/-- a delta of block 0, then a chunk with null as its only choice -/
def nulledStream : Stream where
  lines := [(.data (JsString.ofString
      " \x7b\"type\":\"content_block_delta\",\"index\":0,\"delta\":\x7b\"type\":\"text_delta\",\"text\":\"hi\"\x7d\x7d") (by decide), .lf),
    (.other [] (by decide) (by decide), .lf), (.data (JsString.ofString " \x7b\"choices\":[null]\x7d") (by decide), .crlf)]

/-- The text of the first event does not come back: the look-up of the delta throws, outside of the try. -/
theorem null_choice_throws :
    (nulledStream.events fun _ => (0 : ℕ)).filterMap textDelta = [(0, JsString.ofString "hi")] ∧
    (nulledStream.events fun _ => (0 : ℕ)).filterMap contentDelta = [] ∧
    extractResponseTurn (fun _ => (0 : ℕ)) nulledStream.body = .error .typeError ∧
    ¬ Reassembles (fun _ => (0 : ℕ)) (fun _ => true) nulledStream := by
  have hdeltas : (nulledStream.events fun _ => (0 : ℕ)).filterMap textDelta = [(0, JsString.ofString "hi")] := by
    decide +kernel
  have hthrows : extractResponseTurn (fun _ => (0 : ℕ)) nulledStream.body = .error .typeError := by decide +kernel
  refine ⟨hdeltas, by decide +kernel, hthrows, fun h => ?_⟩
  obtain ⟨turn, hturn⟩ := h.returns
  rw [hthrows] at hturn
  cases hturn

end

end AstramemLocal.Capture.EventStream
