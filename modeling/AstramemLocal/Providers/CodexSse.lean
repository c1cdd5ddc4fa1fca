/-
The event stream of the Codex backend (`parseSseResponse` of `src/providers/llm/codex-subscription.ts`). A stream is a list
of blocks of lines, each with its own line ends, and a blank line behind each. How JSON numbers are rounded is a parameter.

- `codex_reassembly_iff`: the text and the usage come back exactly when at most one text part is there, it is in a block that
  is read, and so is the usage. A block is read if no event stands before it in the run of blocks up to an LF LF.
- `parts_and_blocks_lost`: two text parts, and two blocks that end in CR LF.
-/
import AstramemLocal.Core.EventLines
import AstramemLocal.Core.JsAccess
import AstramemLocal.Core.JsonText
import Mathlib.Data.List.Flatten

namespace AstramemLocal.Providers.CodexSse

open AstramemLocal.Core
open JsString (blocks lines newline LineEnd Filled)
open JsonText (jsonParse Tree render value)
open JsValue (Thrown member member_of_ne child isText stringOrNull)

variable {N : Type}

/-! ## The parser -/

structure CodexChatResult (N : Type) where
  text : JsString
  inputTokens : JsValue N
  outputTokens : JsValue N

def dataPrefix : JsString := JsString.ofString "data: "

/-- what `for .. of v ?? []` goes through; the characters of a string have no members, so they are left out -/
def iterate (v : Option (JsValue N)) : Except Thrown (List (JsValue N)) :=
  match v with
  | none | some .null | some (.str _) => .ok []
  | some (.arr items) => .ok items
  | _ => .error .typeError

def readPart (text : JsString) (part : JsValue N) : Except Thrown JsString := do
  match stringOrNull (← member part "text") with
  | some t => return if t ≠ [] then t else text
  | none => return text

/-- `for (const part of item.content ?? [])` -/
def readContent (text : JsString) (content : Option (JsValue N)) : Except Thrown JsString := do
  (← iterate content).foldlM readPart text

def readOutputItem (text : JsString) (item : JsValue N) : Except Thrown JsString := do
  if isText (← member item "type") "message" then readContent text (item.get "content") else return text

/-- `v ?? 0` -/
def orZero [Zero N] (v : Option (JsValue N)) : JsValue N :=
  match v with
  | none | some .null => .num 0
  | some v => v

def readEvent [Zero N] (acc : CodexChatResult N) (evt : JsValue N) : Except Thrown (CodexChatResult N) := do
  let type ← member evt "type"
  let item := evt.get "item"
  let text ←
    if isText type "response.output_item.done" ∧ isText (child item "type") "message" then
      readContent acc.text (child item "content")
    else pure acc.text
  if isText type "response.completed" then
    let response := evt.get "response"
    let usage := child response "usage"
    let text ← if text = [] then (do (← iterate (child response "output")).foldlM readOutputItem text) else pure text
    return ⟨text, orZero (child usage "input_tokens"), orZero (child usage "output_tokens")⟩
  else return { acc with text := text }

variable (number : JsString → N)

/-- the event of a block: that of its first data line -/
def blockEvent (block : JsString) : Option (JsValue N) :=
  ((lines block).find? fun l => dataPrefix <+: l).bind fun dataLine => jsonParse number (dataLine.drop 6)

def parseSseResponse [Zero N] (raw : JsString) : Except Thrown (CodexChatResult N) :=
  ((blocks raw).filterMap (blockEvent number)).foldlM readEvent ⟨[], .num 0, .num 0⟩

/-! ## Events -/

/-- an array of values none of which is null, or nothing -/
def Listable (v : Option (JsValue N)) : Prop :=
  v = none ∨ v = some .null ∨ ∃ items, v = some (.arr items) ∧ ∀ item ∈ items, item ≠ .null

instance (v : JsValue N) : Decidable (v = .null) :=
  match v with
  | .null => isTrue rfl
  | .bool _ | .num _ | .str _ | .arr _ | .obj _ _ => isFalse nofun

instance (v : Option (JsValue N)) : Decidable (Listable v) :=
  match v with
  | none => isTrue (.inl rfl)
  | some .null => isTrue (.inr (.inl rfl))
  | some (.arr items) => decidable_of_iff (∀ item ∈ items, item ≠ .null) (by simp [Listable])
  | some (.bool _) | some (.num _) | some (.str _) | some (.obj _ _) => isFalse (by simp [Listable])

/-- the items of the list -/
def listed (v : Option (JsValue N)) : List (JsValue N) :=
  match v with
  | some (.arr items) => items
  | _ => []

def IsMessage (item : Option (JsValue N)) : Prop := isText (child item "type") "message" = true

instance (item : Option (JsValue N)) : Decidable (IsMessage item) := by unfold IsMessage; infer_instance

/-- the event closes a message item -/
def IsMessageDone (evt : JsValue N) : Prop :=
  isText (evt.get "type") "response.output_item.done" = true ∧ IsMessage (evt.get "item")

instance (evt : JsValue N) : Decidable (IsMessageDone evt) := by unfold IsMessageDone; infer_instance

def IsCompleted (evt : JsValue N) : Prop := isText (evt.get "type") "response.completed" = true

instance (evt : JsValue N) : Decidable (IsCompleted evt) := by unfold IsCompleted; infer_instance

/-- an event as its interface declares it, where it is read -/
structure WellFormed (evt : JsValue N) : Prop where
  ne_null : evt ≠ .null
  content : IsMessageDone evt → Listable (child (evt.get "item") "content")
  output : IsCompleted evt → Listable (child (evt.get "response") "output")
  outputs : IsCompleted evt → ∀ item ∈ listed (child (evt.get "response") "output"), IsMessage (some item) →
    Listable (item.get "content")

/-- the text of a text part that is not empty -/
def partText (part : JsValue N) : Option JsString :=
  match stringOrNull (part.get "text") with
  | some text => if text ≠ [] then some text else none
  | none => none

def partTexts (content : Option (JsValue N)) : List JsString := (listed content).filterMap partText

/-- the texts of the message item that the event closes -/
def doneTexts (evt : JsValue N) : List JsString :=
  if IsMessageDone evt then partTexts (child (evt.get "item") "content") else []

/-- the texts of the message items that the completed envelope repeats -/
def outputTexts (evt : JsValue N) : List JsString :=
  if IsCompleted evt then
    (listed (child (evt.get "response") "output")).flatMap fun item =>
      if IsMessage (some item) then partTexts (item.get "content") else []
  else []

/-- the usage of a completed event -/
def completedUsage [Zero N] (evt : JsValue N) : Option (JsValue N × JsValue N) :=
  if IsCompleted evt then
    let usage := child (evt.get "response") "usage"
    some (orZero (child usage "input_tokens"), orZero (child usage "output_tokens"))
  else none

/-- what a stream of events says: the texts of the message items, of the envelope where these have none -/
def streamText (events : List (JsValue N)) : JsString :=
  if events.flatMap doneTexts ≠ [] then (events.flatMap doneTexts).flatten else (events.flatMap outputTexts).flatten

/-- the usage of the completed event -/
def streamUsage [Zero N] (events : List (JsValue N)) : JsValue N × JsValue N :=
  (events.filterMap completedUsage).getLast?.getD (.num 0, .num 0)

/-! ## What the parser makes of events -/

/-- each text overwrites the one before -/
def overwrite (text : JsString) (texts : List JsString) : JsString := texts.getLast?.getD text

theorem overwrite_cons (text t : JsString) (texts : List JsString) : overwrite text (t :: texts) = overwrite t texts := by
  cases texts with
  | nil => rfl
  | cons u texts => simp [overwrite, List.getLast?_cons]

theorem overwrite_append (text : JsString) (a b : List JsString) :
    overwrite text (a ++ b) = overwrite (overwrite text a) b := by
  induction a generalizing text with
  | nil => rfl
  | cons t a ih => rw [List.cons_append, overwrite_cons, ih, overwrite_cons]

theorem overwrite_eq_nil {texts : List JsString} (h : ∀ t ∈ texts, t ≠ []) {text : JsString} :
    overwrite text texts = [] ↔ text = [] ∧ texts = [] := by
  rcases List.eq_nil_or_concat texts with rfl | ⟨init, last, rfl⟩
  · simp [overwrite]
  · have hlast : last ≠ [] := h last (by simp)
    simp [overwrite, hlast]

/-- the fallback: the last text of the first completed event that has one -/
def fallbackText (events : List (JsValue N)) : JsString :=
  ((events.map outputTexts).find? (· ≠ [])).elim [] (overwrite [])

theorem ne_nil_of_mem_partTexts {content : Option (JsValue N)} {text : JsString} (h : text ∈ partTexts content) :
    text ≠ [] := by
  obtain ⟨part, -, hpart⟩ := List.mem_filterMap.1 h
  unfold partText at hpart
  split at hpart
  · split_ifs at hpart with hne
    exact Option.some.inj hpart ▸ hne
  · cases hpart

theorem ne_nil_of_mem_doneTexts {evt : JsValue N} {text : JsString} (h : text ∈ doneTexts evt) : text ≠ [] := by
  unfold doneTexts at h
  split_ifs at h
  · exact ne_nil_of_mem_partTexts h
  · cases h

theorem ne_nil_of_mem_outputTexts {evt : JsValue N} {text : JsString} (h : text ∈ outputTexts evt) : text ≠ [] := by
  unfold outputTexts at h
  split_ifs at h
  · obtain ⟨item, -, hitem⟩ := List.mem_flatMap.1 h
    split_ifs at hitem
    · exact ne_nil_of_mem_partTexts hitem
    · cases hitem
  · cases h

theorem isText_ne {v : Option (JsValue N)} {a b : String} (ha : isText v a = true) (hab : JsString.ofString a ≠ JsString.ofString b) :
    isText v b = false := by
  unfold isText at ha ⊢
  split at ha
  next s =>
    have hs := of_decide_eq_true ha
    simp [hs, hab]
  · cases ha

/-- an event closes an item or completes the response -/
theorem not_completed_of_done {evt : JsValue N} (h : IsMessageDone evt) : ¬ IsCompleted evt := by
  have hno := isText_ne h.1 (b := "response.completed") (by decide)
  simp [IsCompleted, hno]

theorem readPart_eq {text : JsString} {part : JsValue N} (h : part ≠ .null) :
    readPart text part = .ok ((partText part).getD text) := by
  unfold readPart partText
  rw [member_of_ne h]
  cases htext : stringOrNull (part.get "text") with
  | none => simp [bind, Except.bind, pure, Except.pure, htext]
  | some t =>
    by_cases hnil : t = []
    · simp [bind, Except.bind, pure, Except.pure, htext, hnil]
    · simp [bind, Except.bind, pure, Except.pure, htext, hnil]

/-- each part with a text overwrites it -/
theorem foldlM_readPart {parts : List (JsValue N)} (h : ∀ part ∈ parts, part ≠ .null) (text : JsString) :
    parts.foldlM readPart text = .ok (overwrite text (parts.filterMap partText)) := by
  induction parts generalizing text with
  | nil => rfl
  | cons part parts ih =>
    rw [List.foldlM_cons, readPart_eq (h part List.mem_cons_self)]
    refine (ih (fun q hq => h q (List.mem_cons_of_mem part hq)) _).trans ?_
    cases htext : partText part with
    | none => rw [List.filterMap_cons_none htext]; rfl
    | some t => rw [List.filterMap_cons_some htext, overwrite_cons]; rfl

theorem iterate_eq {v : Option (JsValue N)} (h : Listable v) : iterate v = .ok (listed v) := by
  obtain rfl | rfl | ⟨items, rfl, -⟩ := h <;> rfl

theorem ne_null_of_listable {v : Option (JsValue N)} {x : JsValue N} (h : Listable v) (hx : x ∈ listed v) :
    x ≠ .null := by
  obtain rfl | rfl | ⟨items, rfl, hitems⟩ := h
  · cases hx
  · cases hx
  · exact hitems x hx

theorem readContent_eq {content : Option (JsValue N)} (h : Listable content) (text : JsString) :
    readContent text content = .ok (overwrite text (partTexts content)) := by
  unfold readContent
  rw [iterate_eq h]
  exact foldlM_readPart (fun part hpart => ne_null_of_listable h hpart) text

theorem readOutputItem_eq {item : JsValue N} (hne : item ≠ .null) (h : IsMessage (some item) → Listable (item.get "content"))
    (text : JsString) : readOutputItem text item =
      .ok (overwrite text (if IsMessage (some item) then partTexts (item.get "content") else [])) := by
  unfold readOutputItem
  rw [member_of_ne hne]
  by_cases hmessage : IsMessage (some item)
  · have htype : isText (item.get "type") "message" = true := hmessage
    rw [if_pos hmessage]
    simp only [bind, Except.bind, htype, if_true]
    exact readContent_eq (h hmessage) text
  · have htype : ¬ isText (item.get "type") "message" = true := hmessage
    rw [if_neg hmessage]
    simp only [bind, Except.bind, htype]
    rfl

theorem foldlM_readOutputItem {items : List (JsValue N)} (hne : ∀ item ∈ items, item ≠ .null)
    (h : ∀ item ∈ items, IsMessage (some item) → Listable (item.get "content")) (text : JsString) :
    items.foldlM readOutputItem text = .ok (overwrite text (items.flatMap fun item =>
      if IsMessage (some item) then partTexts (item.get "content") else [])) := by
  induction items generalizing text with
  | nil => rfl
  | cons item items ih =>
    rw [List.foldlM_cons, readOutputItem_eq (hne item List.mem_cons_self) (h item List.mem_cons_self)]
    refine (ih (fun x hx => hne x (List.mem_cons_of_mem item hx)) (fun x hx => h x (List.mem_cons_of_mem item hx)) _).trans ?_
    rw [List.flatMap_cons, overwrite_append]

/-- what a well-formed event does to the result -/
theorem readEvent_eq [Zero N] {evt : JsValue N} (h : WellFormed evt) (acc : CodexChatResult N) :
    readEvent acc evt = .ok {
      text := overwrite acc.text (if acc.text = [] then doneTexts evt ++ outputTexts evt else doneTexts evt)
      inputTokens := ((completedUsage evt).map Prod.fst).getD acc.inputTokens
      outputTokens := ((completedUsage evt).map Prod.snd).getD acc.outputTokens } := by
  unfold readEvent
  rw [member_of_ne h.ne_null]
  by_cases hdone : IsMessageDone evt
  · have hcompleted := not_completed_of_done hdone
    have houtput : outputTexts evt = [] := if_neg hcompleted
    have husage : completedUsage evt = none := if_neg hcompleted
    have htexts : doneTexts evt = partTexts (child (evt.get "item") "content") := if_pos hdone
    have hdone' : isText (evt.get "type") "response.output_item.done" = true ∧
        isText (child (evt.get "item") "type") "message" = true := hdone
    have hcompleted' : ¬ isText (evt.get "type") "response.completed" = true := hcompleted
    simp only [bind, Except.bind, if_pos hdone', readContent_eq (h.content hdone), if_neg hcompleted', houtput, husage,
      htexts, List.append_nil, ite_self]
    rfl
  · have hdone' : ¬ (isText (evt.get "type") "response.output_item.done" = true ∧
        isText (child (evt.get "item") "type") "message" = true) := hdone
    have htexts : doneTexts evt = [] := if_neg hdone
    by_cases hcompleted : IsCompleted evt
    · have hcompleted' : isText (evt.get "type") "response.completed" = true := hcompleted
      have houtput : outputTexts evt = (listed (child (evt.get "response") "output")).flatMap fun item =>
          if IsMessage (some item) then partTexts (item.get "content") else [] := if_pos hcompleted
      have husage : completedUsage evt = some (orZero (child (child (evt.get "response") "usage") "input_tokens"),
          orZero (child (child (evt.get "response") "usage") "output_tokens")) := if_pos hcompleted
      have hlist := h.output hcompleted
      simp only [bind, Except.bind, if_neg hdone', if_pos hcompleted', pure, Except.pure, iterate_eq hlist,
        foldlM_readOutputItem (fun item hitem => ne_null_of_listable hlist hitem) (h.outputs hcompleted),
        htexts, houtput, husage, List.nil_append]
      by_cases hempty : acc.text = []
      · simp [hempty]
      · simp [hempty, overwrite]
    · have hcompleted' : ¬ isText (evt.get "type") "response.completed" = true := hcompleted
      have houtput : outputTexts evt = [] := if_neg hcompleted
      have husage : completedUsage evt = none := if_neg hcompleted
      simp only [bind, Except.bind, if_neg hdone', if_neg hcompleted', pure, Except.pure, htexts, houtput, husage]
      simp [overwrite]

/-! ## Runs of events -/

theorem fallbackText_concat (events : List (JsValue N)) (evt : JsValue N) : fallbackText (events ++ [evt]) =
    if events.flatMap outputTexts = [] then overwrite [] (outputTexts evt) else fallbackText events := by
  unfold fallbackText
  rw [List.map_append, List.find?_append]
  split_ifs with hnone
  · have hall : (events.map outputTexts).find? (· ≠ []) = none := by
      rw [List.find?_eq_none]
      intro texts htexts hne
      obtain ⟨e, he, rfl⟩ := List.mem_map.1 htexts
      exact of_decide_eq_true hne (List.flatMap_eq_nil_iff.1 hnone e he)
    rw [hall, Option.none_or]
    by_cases hempty : outputTexts evt = []
    · simp [hempty, overwrite]
    · simp [hempty]
  · cases hfind : (events.map outputTexts).find? (· ≠ []) with
    | some texts => rfl
    | none =>
      rw [List.find?_eq_none] at hfind
      refine absurd (List.flatMap_eq_nil_iff.2 fun e he => ?_) hnone
      simpa using hfind (outputTexts e) (List.mem_map_of_mem he)

theorem fallbackText_eq_nil {events : List (JsValue N)} : fallbackText events = [] ↔ events.flatMap outputTexts = [] := by
  induction events using List.reverseRecOn with
  | nil => exact iff_of_true rfl rfl
  | append_singleton events evt ih =>
    rw [fallbackText_concat, List.flatMap_append, List.append_eq_nil_iff, List.flatMap_singleton]
    split_ifs with hnone
    · rw [overwrite_eq_nil fun t ht => ne_nil_of_mem_outputTexts ht]
      exact and_congr_left fun _ => iff_of_true rfl hnone
    · rw [ih]
      exact iff_of_false hnone fun h => hnone h.1

/-- an event is no message item and a completed response at once -/
theorem doneTexts_or_outputTexts (evt : JsValue N) : doneTexts evt = [] ∨ outputTexts evt = [] := by
  by_cases hdone : IsMessageDone evt
  · exact .inr (if_neg (not_completed_of_done hdone))
  · exact .inl (if_neg hdone)

/-- the text behind some events -/
def lastText (events : List (JsValue N)) : JsString := overwrite (fallbackText events) (events.flatMap doneTexts)

theorem lastText_of_ne {events : List (JsValue N)} (h : events.flatMap doneTexts ≠ []) (text : JsString) :
    overwrite text (events.flatMap doneTexts) = lastText events := by
  obtain ⟨init, last, hsplit⟩ : ∃ init last, events.flatMap doneTexts = init ++ [last] :=
    ⟨_, _, (List.dropLast_append_getLast h).symm⟩
  unfold lastText
  rw [hsplit, overwrite_append, overwrite_append]
  rfl

theorem lastText_concat (events : List (JsValue N)) (evt : JsValue N) : lastText (events ++ [evt]) =
    overwrite (lastText events) (if lastText events = [] then doneTexts evt ++ outputTexts evt else doneTexts evt) := by
  have hnil : lastText events = [] ↔ events.flatMap outputTexts = [] ∧ events.flatMap doneTexts = [] := by
    rw [lastText, overwrite_eq_nil, fallbackText_eq_nil]
    intro t ht
    obtain ⟨e, -, ht⟩ := List.mem_flatMap.1 ht
    exact ne_nil_of_mem_doneTexts ht
  have hsplit : lastText (events ++ [evt]) = overwrite (overwrite (if events.flatMap outputTexts = [] then
      overwrite [] (outputTexts evt) else fallbackText events) (events.flatMap doneTexts)) (doneTexts evt) := by
    rw [lastText, fallbackText_concat, List.flatMap_append, List.flatMap_singleton, overwrite_append]
  rw [hsplit]
  rcases doneTexts_or_outputTexts evt with hdone | houtput
  · rw [hdone, List.nil_append]
    by_cases hempty : lastText events = []
    · obtain ⟨houts, hdones⟩ := hnil.1 hempty
      rw [if_pos hempty, if_pos houts, hempty, hdones]
      rfl
    · rw [if_neg hempty]
      by_cases hdones : events.flatMap doneTexts = []
      · have houts : events.flatMap outputTexts ≠ [] := fun houts => hempty (hnil.2 ⟨houts, hdones⟩)
        rw [if_neg houts]
        rfl
      · rw [lastText_of_ne hdones]
  · rw [houtput, List.append_nil, ite_self]
    by_cases houts : events.flatMap outputTexts = []
    · rw [if_pos houts, show overwrite [] [] = fallbackText events from (fallbackText_eq_nil.2 houts).symm]
      rfl
    · rw [if_neg houts]
      rfl

theorem streamUsage_concat [Zero N] (events : List (JsValue N)) (evt : JsValue N) :
    streamUsage (events ++ [evt]) = (completedUsage evt).getD (streamUsage events) := by
  unfold streamUsage
  rw [List.filterMap_append]
  cases husage : completedUsage evt with
  | none => rw [List.filterMap_cons_none husage]; simp
  | some usage => rw [List.filterMap_cons_some husage]; simp

/-- **What the parser makes of well-formed events.** -/
theorem foldlM_readEvent [Zero N] {events : List (JsValue N)} (h : ∀ evt ∈ events, WellFormed evt) :
    events.foldlM readEvent ⟨[], .num 0, .num 0⟩ =
      .ok ⟨lastText events, (streamUsage events).1, (streamUsage events).2⟩ := by
  induction events using List.reverseRecOn with
  | nil => rfl
  | append_singleton events evt ih =>
    rw [List.foldlM_append, ih fun e he => h e (List.mem_append_left _ he)]
    have hstep := readEvent_eq (h evt (by simp)) ⟨lastText events, (streamUsage events).1, (streamUsage events).2⟩
    simp only [bind, Except.bind, List.foldlM_cons, List.foldlM_nil, hstep, pure, Except.pure, lastText_concat,
      streamUsage_concat]
    cases completedUsage evt <;> rfl

/-! ## Streams -/

variable {number}

/-- a line that is no data line -/
structure OtherLine where
  text : JsString
  filled : Filled text
  other : ¬ dataPrefix <+: text

/-- a data line, with a JSON text of one event -/
structure DataLine (number : JsString → N) where
  tree : Tree
  noBreak : newline ∉ render tree
  wellFormed : WellFormed (value number tree)

def DataLine.text (l : DataLine number) : JsString := dataPrefix ++ render l.tree

structure Block (number : JsString → N) where
  before : List OtherLine
  data : Option (DataLine number)
  after : List OtherLine
  nonempty : before ≠ [] ∨ data ≠ none ∨ after ≠ []

def Block.lines (b : Block number) : List JsString :=
  b.before.map OtherLine.text ++ (b.data.map DataLine.text).toList ++ b.after.map OtherLine.text

def Block.event (b : Block number) : Option (JsValue N) := b.data.map fun l => value number l.tree

/-- a block with its line ends -/
abbrev Ended (number : JsString → N) := Block number × LineEnd

def Ended.text (b : Ended number) : JsString := b.1.lines.flatMap (· ++ b.2.text)

/-- blocks, each with a blank line behind it, and what follows the last blank line -/
structure Stream (number : JsString → N) where
  blocks : List (Ended number)
  last : Option (Ended number) := none

def Stream.raw (s : Stream number) : JsString :=
  (s.blocks.flatMap fun b => Ended.text b ++ b.2.text) ++ s.last.elim [] Ended.text

def Stream.ended (s : Stream number) : List (Ended number) := s.blocks ++ s.last.toList

def Stream.events (s : Stream number) : List (JsValue N) := s.ended.filterMap fun b => b.1.event

/-- the events that are read: of a run of blocks up to one that ends in LF LF the first. `found`: the run has had one. -/
def readEvents (found : Bool) : List (Ended number) → List (JsValue N)
  | [] => []
  | b :: rest =>
    (if found then [] else b.1.event.toList) ++
      readEvents (match b.2 with
        | .lf => false
        | .crlf => found || b.1.event.isSome) rest

def Stream.read (s : Stream number) : List (JsValue N) := readEvents false s.ended

/-! ## What is read -/

/-- the lines as the split at LF leaves them -/
def Ended.kept (b : Ended number) : List JsString := b.1.lines.map (· ++ b.2.kept)

/-- the first data line -/
def dataLine? (ls : List JsString) : Option JsString := ls.find? fun l => dataPrefix <+: l

def eventOf (number : JsString → N) (ls : List JsString) : Option (JsValue N) :=
  (dataLine? ls).bind fun l => jsonParse number (l.drop 6)

theorem filled_append_kept {line : JsString} (h : Filled line) (e : LineEnd) : Filled (line ++ e.kept) := by
  refine ⟨fun hnil => h.1 (List.append_eq_nil_iff.1 hnil).1, ?_⟩
  rw [List.mem_append, not_or]
  exact ⟨h.2, by cases e <;> decide⟩

theorem filled_data (l : DataLine number) : Filled l.text := by
  refine ⟨by simp [DataLine.text, dataPrefix, JsString.ofString, codeUnits], ?_⟩
  rw [DataLine.text, List.mem_append, not_or]
  exact ⟨by decide, l.noBreak⟩

theorem filled_kept (b : Ended number) : ∀ line ∈ b.kept, Filled line := by
  intro line hline
  obtain ⟨l, hl, rfl⟩ := List.mem_map.1 hline
  apply filled_append_kept
  rw [Block.lines, List.mem_append, List.mem_append] at hl
  rcases hl with (hl | hl) | hl
  · obtain ⟨o, -, rfl⟩ := List.mem_map.1 hl
    exact o.filled
  · rw [Option.mem_toList] at hl
    obtain ⟨d, -, rfl⟩ := Option.map_eq_some_iff.1 hl
    exact filled_data d
  · obtain ⟨o, -, rfl⟩ := List.mem_map.1 hl
    exact o.filled

theorem kept_ne_nil (b : Ended number) : b.kept ≠ [] := by
  have hlines : b.1.lines ≠ [] := by
    obtain h | h | h := b.1.nonempty
    · simp [Block.lines, h]
    · obtain ⟨d, hd⟩ := Option.ne_none_iff_exists'.1 h
      simp [Block.lines, hd]
    · simp [Block.lines, h]
  simpa [Ended.kept] using hlines

theorem text_eq_opening (b : Ended number) : Ended.text b = opening newline b.kept := by
  rw [Ended.text, opening, Ended.kept, List.flatMap_map]
  congr 1
  funext line
  cases b.2 <;> simp [LineEnd.text, LineEnd.kept]

/-- a line end does not turn another line into a data line -/
theorem not_data_of_kept (o : OtherLine) (e : LineEnd) : ¬ dataPrefix <+: o.text ++ e.kept := by
  cases e with
  | lf => simpa [LineEnd.kept] using o.other
  | crlf =>
    intro h
    rcases List.prefix_concat_iff.1 h with heq | hprefix
    · have hlast : dataPrefix.getLast? = some 0xd := by rw [heq]; exact List.getLast?_concat
      exact absurd hlast (by decide)
    · exact o.other hprefix

theorem dataLine?_others (others : List OtherLine) (e : LineEnd) :
    dataLine? ((others.map OtherLine.text).map (· ++ e.kept)) = none := by
  rw [dataLine?, List.find?_eq_none]
  intro line hline
  rw [List.map_map] at hline
  obtain ⟨o, -, rfl⟩ := List.mem_map.1 hline
  simpa using not_data_of_kept o e

theorem dataLine?_append (a b : List JsString) : dataLine? (a ++ b) = (dataLine? a).or (dataLine? b) := List.find?_append

theorem dataLine?_kept (b : Ended number) : dataLine? b.kept = b.1.data.map fun l => l.text ++ b.2.kept := by
  rw [Ended.kept, Block.lines, List.map_append, List.map_append, dataLine?_append, dataLine?_append, dataLine?_others,
    dataLine?_others, Option.none_or, Option.or_none]
  cases b.1.data with
  | none => rfl
  | some l =>
    have hdata : dataPrefix <+: l.text ++ b.2.kept := by
      rw [DataLine.text, List.append_assoc]
      exact List.prefix_append _ _
    simp [dataLine?, hdata]

theorem parse_data (l : DataLine number) (e : LineEnd) :
    jsonParse number ((l.text ++ e.kept).drop 6) = some (value number l.tree) := by
  have hws : ∀ u ∈ e.kept, JsonText.isWs u = true := by cases e <;> decide
  have hdrop : (l.text ++ e.kept).drop 6 = JsonText.noWs.1 ++ render l.tree ++ (⟨e.kept, hws⟩ : JsonText.Ws).1 := by
    rw [DataLine.text, List.append_assoc]
    exact List.drop_left' (by decide)
  rw [hdrop]
  exact JsonText.jsonParse_render _ _ l.tree

/-- a block behind lines of its run adds its event if these have no data line -/
theorem eventOf_append (acc : List JsString) (b : Ended number) : (eventOf number (acc ++ b.kept)).toList =
    (eventOf number acc).toList ++ if (dataLine? acc).isSome then [] else b.1.event.toList := by
  unfold eventOf
  rw [dataLine?_append, dataLine?_kept]
  cases hacc : dataLine? acc with
  | some l => simp
  | none =>
    cases hdata : b.1.data with
    | none => simp [Block.event, hdata]
    | some l =>
      have hparse := parse_data l b.2
      simp [Block.event, hdata, hparse]

theorem isSome_dataLine?_append (acc : List JsString) (b : Ended number) :
    (dataLine? (acc ++ b.kept)).isSome = ((dataLine? acc).isSome || b.1.event.isSome) := by
  rw [dataLine?_append, dataLine?_kept, Block.event]
  cases dataLine? acc <;> cases b.1.data <;> rfl

theorem dataLine?_blank (acc : List JsString) (e : LineEnd) : dataLine? (acc ++ [e.kept]) = dataLine? acc := by
  have hblank : dataLine? [e.kept] = none := by cases e <;> decide
  rw [dataLine?_append, hblank, Option.or_none]

/-- the lines of a whole block of the text -/
theorem blockEvent_opening {ls : List JsString} (h : ∀ l ∈ ls, Filled l) :
    blockEvent number (opening newline ls) = eventOf number ls := by
  have hlines := JsString.lines_opening fun l hl => (h l hl).2
  have hdata := dataLine?_blank ls .lf
  rw [blockEvent, hlines]
  exact congrArg (fun d : Option JsString => d.bind fun l => jsonParse number (l.drop 6)) hdata

theorem blockEvent_intercalate {ls : List JsString} (h : ∀ l ∈ ls, Filled l) (hne : ls ≠ []) :
    blockEvent number ([newline].intercalate ls) = eventOf number ls := by
  rw [blockEvent, JsString.lines_intercalate (fun l hl => (h l hl).2) hne]
  rfl

theorem isSome_dataLine?_kept (b : Ended number) (acc : List JsString) :
    (dataLine? (acc ++ b.kept ++ [LineEnd.crlf.kept])).isSome = ((dataLine? acc).isSome || b.1.event.isSome) := by
  rw [dataLine?_blank, isSome_dataLine?_append]

theorem eventOf_blank (acc : List JsString) (e : LineEnd) : eventOf number (acc ++ [e.kept]) = eventOf number acc := by
  rw [eventOf, dataLine?_blank]
  rfl

theorem filterMap_singleton_toList {α β : Type*} (f : α → Option β) (x : α) : [x].filterMap f = (f x).toList := by
  cases h : f x with
  | none => rw [List.filterMap_cons_none h]; rfl
  | some y => rw [List.filterMap_cons_some h]; rfl

theorem filled_run {acc : List JsString} (hacc : ∀ l ∈ acc, Filled l) (b : Ended number) :
    ∀ l ∈ acc ++ b.kept, Filled l := by
  intro l hl
  rcases List.mem_append.1 hl with hl | hl
  · exact hacc l hl
  · exact filled_kept b l hl

theorem opening_run (acc : List JsString) (b : Ended number) :
    opening newline acc ++ Ended.text b = opening newline (acc ++ b.kept) := by
  rw [text_eq_opening, opening, opening, opening, List.flatMap_append]

theorem opening_blank (ls : List JsString) :
    opening newline ls ++ LineEnd.crlf.text = opening newline (ls ++ [LineEnd.crlf.kept]) := by
  rw [opening, opening, List.flatMap_append]
  rfl

/-- `acc`: the lines of the run so far -/
theorem events_of_raw (bs : List (Ended number)) (last : Option (Ended number)) (acc : List JsString)
    (hacc : ∀ l ∈ acc, Filled l) :
    (blocks (opening newline acc ++ ((bs.flatMap fun b => Ended.text b ++ b.2.text) ++ last.elim [] Ended.text))).filterMap
        (blockEvent number) =
      (eventOf number acc).toList ++ readEvents (dataLine? acc).isSome (bs ++ last.toList) := by
  induction bs generalizing acc with
  | nil =>
    cases last with
    | none =>
      simp only [List.flatMap_nil, Option.elim_none, List.append_nil, Option.toList_none, readEvents]
      rw [JsString.blocks_of_filled hacc, filterMap_singleton_toList, blockEvent_opening hacc]
    | some b =>
      have hrun := filled_run hacc b
      simp only [List.flatMap_nil, Option.elim_some, List.nil_append, Option.toList_some, readEvents, List.append_nil]
      rw [opening_run, JsString.blocks_of_filled hrun, filterMap_singleton_toList, blockEvent_opening hrun, eventOf_append]
  | cons b bs ih =>
    obtain ⟨block, ending⟩ := b
    have hrun := filled_run hacc (block, ending)
    rw [List.flatMap_cons, List.cons_append, readEvents, List.append_assoc, List.append_assoc, ← List.append_assoc,
      opening_run]
    cases ending with
    | lf =>
      -- the run ends here
      have hne : acc ++ Ended.kept (block, LineEnd.lf) ≠ [] := fun h => kept_ne_nil _ (List.append_eq_nil_iff.1 h).2
      have hrest := ih [] (by simp)
      rw [opening_nil, List.nil_append] at hrest
      rw [show LineEnd.lf.text = [newline] from rfl, List.singleton_append, JsString.blocks_opening hrun hne,
        ← List.singleton_append, List.filterMap_append, filterMap_singleton_toList, blockEvent_intercalate hrun hne,
        eventOf_append, hrest, List.append_assoc]
      rfl
    | crlf =>
      have hfilled : ∀ l ∈ acc ++ Ended.kept (block, LineEnd.crlf) ++ [LineEnd.crlf.kept], Filled l := by
        intro l hl
        rcases List.mem_append.1 hl with hl | hl
        · exact hrun l hl
        · exact List.mem_singleton.1 hl ▸ ⟨by decide, by decide⟩
      rw [← List.append_assoc, opening_blank, ih _ hfilled, eventOf_blank, eventOf_append, isSome_dataLine?_kept,
        List.append_assoc]

/-! ## The result -/

theorem readEvents_sublist (found : Bool) (bs : List (Ended number)) :
    (readEvents found bs).Sublist (bs.filterMap fun b => b.1.event) := by
  induction bs generalizing found with
  | nil => exact List.Sublist.slnil
  | cons b bs ih =>
    have hevents : (b :: bs).filterMap (fun b => b.1.event) = b.1.event.toList ++ bs.filterMap fun b => b.1.event := by
      rw [← filterMap_singleton_toList (fun b : Ended number => b.1.event), ← List.filterMap_append, List.singleton_append]
    rw [readEvents, hevents]
    apply List.Sublist.append _ (ih _)
    split_ifs
    · exact List.nil_sublist _
    · exact List.Sublist.refl _

theorem Stream.read_sublist (s : Stream number) : s.read.Sublist s.events := readEvents_sublist false s.ended

theorem Stream.wellFormed (s : Stream number) {evt : JsValue N} (h : evt ∈ s.events) : WellFormed evt := by
  obtain ⟨b, -, hb⟩ := List.mem_filterMap.1 h
  obtain ⟨l, -, rfl⟩ := Option.map_eq_some_iff.1 hb
  exact l.wellFormed

/-- where all blocks end in LF LF, every event is read -/
theorem Stream.read_of_lf {s : Stream number} (h : ∀ b ∈ s.ended, b.2 = .lf) : s.read = s.events := by
  have hall : ∀ bs : List (Ended number), (∀ b ∈ bs, b.2 = .lf) →
      readEvents false bs = bs.filterMap fun b => b.1.event := by
    intro bs hbs
    induction bs with
    | nil => rfl
    | cons b bs ih =>
      rw [readEvents, hbs b List.mem_cons_self, ih fun c hc => hbs c (List.mem_cons_of_mem b hc)]
      cases hevent : b.1.event <;> simp [hevent]
  exact hall s.ended h

/-- **What a stream gives back.** -/
theorem parseSseResponse_raw [Zero N] (s : Stream number) : parseSseResponse number s.raw =
    .ok ⟨lastText s.read, (streamUsage s.read).1, (streamUsage s.read).2⟩ := by
  have hevents : (blocks s.raw).filterMap (blockEvent number) = s.read := events_of_raw s.blocks s.last [] (by simp)
  rw [parseSseResponse, hevents]
  exact foldlM_readEvent fun evt hevt => s.wellFormed (s.read_sublist.subset hevt)

/-- the stream comes back: its whole text and the usage of its completed event -/
def Reassembled [Zero N] (s : Stream number) : Prop := parseSseResponse number s.raw =
  .ok ⟨streamText s.events, (streamUsage s.events).1, (streamUsage s.events).2⟩

/-- there is one text at most, and what is read has it -/
def OneText (read all : List JsString) : Prop := all.length ≤ 1 ∧ read = all

/-- one text at most, in an event that is read. Where the messages have a text but none that is read, an envelope that is
read repeats it. -/
def TextRead (s : Stream number) : Prop :=
  if s.read.flatMap doneTexts ≠ [] then OneText (s.read.flatMap doneTexts) (s.events.flatMap doneTexts)
  else if s.events.flatMap doneTexts ≠ [] then fallbackText s.read = (s.events.flatMap doneTexts).flatten
  else OneText (s.read.flatMap outputTexts) (s.events.flatMap outputTexts)

/-- a text is the whole of some only if it is the only one -/
theorem eq_singleton_of_flatten {all : List JsString} (hne : ∀ t ∈ all, t ≠ []) {text : JsString} (hmem : text ∈ all)
    (h : text = all.flatten) : all = [text] := by
  obtain ⟨before, after, rfl⟩ := List.append_of_mem hmem
  have hlen := congrArg List.length h
  rw [List.flatten_append, List.flatten_cons, List.length_append, List.length_append] at hlen
  have hnil : ∀ ts : List JsString, (∀ t ∈ ts, t ≠ []) → ts.flatten.length = 0 → ts = [] := by
    intro ts hts hzero
    cases ts with
    | nil => rfl
    | cons t ts => exact absurd (List.flatten_eq_nil_iff.1 (List.length_eq_zero_iff.1 hzero) t (by simp)) (hts t (by simp))
  rw [hnil before (fun t ht => hne t (by simp [ht])) (by omega), hnil after (fun t ht => hne t (by simp [ht])) (by omega)]
  rfl

theorem eq_flatten_iff {read all : List JsString} (hsub : read.Sublist all) (hne : ∀ t ∈ all, t ≠ []) {text : JsString}
    (hmem : text ∈ read) : text = all.flatten ↔ OneText read all := by
  constructor
  · intro h
    have hall := eq_singleton_of_flatten hne (hsub.subset hmem) h
    refine ⟨by simp [hall], hsub.eq_of_length_le ?_⟩
    rw [hall]
    exact List.length_pos_of_mem hmem
  · rintro ⟨hlen, rfl⟩
    obtain ⟨t, rfl⟩ := List.length_eq_one_iff.1 (le_antisymm hlen (List.length_pos_of_mem hmem))
    rw [List.mem_singleton.1 hmem, List.flatten_singleton]

theorem nil_eq_flatten_iff {all : List JsString} (hne : ∀ t ∈ all, t ≠ []) : [] = all.flatten ↔ OneText [] all := by
  rw [eq_comm, List.flatten_eq_nil_iff]
  constructor
  · intro h
    have hnil : all = [] := List.eq_nil_iff_forall_not_mem.2 fun t ht => hne t ht (h t ht)
    exact ⟨by simp [hnil], hnil.symm⟩
  · rintro ⟨-, rfl⟩ t ht
    cases ht

theorem fallbackText_mem {events : List (JsValue N)} (h : fallbackText events ≠ []) :
    fallbackText events ∈ events.flatMap outputTexts := by
  unfold fallbackText at h ⊢
  cases hfind : (events.map outputTexts).find? (· ≠ []) with
  | none => rw [hfind] at h; exact absurd rfl h
  | some texts =>
    obtain ⟨evt, hevt, rfl⟩ := List.mem_map.1 (List.mem_of_find?_eq_some hfind)
    have hne : outputTexts evt ≠ [] := by simpa using List.find?_some hfind
    refine List.mem_flatMap.2 ⟨evt, hevt, ?_⟩
    rw [Option.elim_some, overwrite, List.getLast?_eq_some_getLast hne]
    exact List.getLast_mem hne

theorem lastText_eq_iff (s : Stream number) : lastText s.read = streamText s.events ↔ TextRead s := by
  have hdones : (s.read.flatMap doneTexts).Sublist (s.events.flatMap doneTexts) := s.read_sublist.flatMap _
  have houts : (s.read.flatMap outputTexts).Sublist (s.events.flatMap outputTexts) := s.read_sublist.flatMap _
  have hdone : ∀ t ∈ s.events.flatMap doneTexts, t ≠ [] := fun t ht =>
    ne_nil_of_mem_doneTexts (List.mem_flatMap.1 ht).choose_spec.2
  have hout : ∀ t ∈ s.events.flatMap outputTexts, t ≠ [] := fun t ht =>
    ne_nil_of_mem_outputTexts (List.mem_flatMap.1 ht).choose_spec.2
  unfold TextRead streamText
  by_cases hread : s.read.flatMap doneTexts = []
  · have hlast : lastText s.read = fallbackText s.read := by rw [lastText, hread]; rfl
    rw [if_neg (not_not.2 hread), hlast]
    by_cases hall : s.events.flatMap doneTexts = []
    · rw [if_neg (not_not.2 hall), if_neg (not_not.2 hall)]
      by_cases hnone : s.read.flatMap outputTexts = []
      · rw [fallbackText_eq_nil.2 hnone, hnone]
        exact nil_eq_flatten_iff hout
      · exact eq_flatten_iff houts hout (fallbackText_mem fun h => hnone (fallbackText_eq_nil.1 h))
    · rw [if_pos hall, if_pos hall]
  · have hall : s.events.flatMap doneTexts ≠ [] := fun hall => hread (List.sublist_nil.1 (hall ▸ hdones))
    rw [if_pos hread, if_pos hall]
    -- the last text that is read, of all texts
    refine eq_flatten_iff hdones hdone ?_
    rw [lastText, overwrite, List.getLast?_eq_some_getLast hread]
    exact List.getLast_mem hread

/-- **When a stream comes back.** -/
theorem codex_reassembly_iff [Zero N] (s : Stream number) :
    Reassembled s ↔ TextRead s ∧ streamUsage s.read = streamUsage s.events := by
  rw [Reassembled, parseSseResponse_raw, ← lastText_eq_iff, Except.ok.injEq, CodexChatResult.mk.injEq]
  exact and_congr_right fun _ => Prod.ext_iff.symm

/-! ## Streams that do not come back -/

/-- a string as it stands between quotation marks, where nothing in it is escaped -/
def spelled (s : String) : List JsonText.Piece :=
  (JsString.ofString s).filterMap fun u => if h : JsonText.isRaw u = true then some (.raw u h) else none

def field (name : String) (v : Tree) : JsonText.Member Tree :=
  ⟨JsonText.noWs, spelled name, JsonText.noWs, JsonText.noWs, v, JsonText.noWs⟩

/-- a message item with these parts -/
def messageDone (texts : List String) : Tree :=
  let part (text : String) : Tree := .object JsonText.noWs [field "text" (.string (spelled text))]
  let content : Tree := .array JsonText.noWs (texts.map fun text => ⟨JsonText.noWs, part text, JsonText.noWs⟩)
  .object JsonText.noWs [field "type" (.string (spelled "response.output_item.done")),
    field "item" (.object JsonText.noWs [field "type" (.string (spelled "message")), field "content" content])]

/-- a block that is the data line of one event -/
def blockOf (texts : List String) (h : WellFormed (value number (messageDone texts)))
    (hbreak : newline ∉ render (messageDone texts)) : Block number :=
  ⟨[], some ⟨messageDone texts, hbreak, h⟩, [], .inr (.inl nofun)⟩

/-- how a JSON number is read does not matter here -/
def zero : JsString → ℕ := fun _ => 0

theorem wellFormed_a : WellFormed (value zero (messageDone ["a"])) :=
  ⟨by decide +kernel, by decide +kernel, by decide +kernel, by decide +kernel⟩

theorem wellFormed_ab : WellFormed (value zero (messageDone ["a", "b"])) :=
  ⟨by decide +kernel, by decide +kernel, by decide +kernel, by decide +kernel⟩

def twoParts : Stream zero where
  blocks := [(blockOf ["a", "b"] wellFormed_ab (by decide +kernel), .lf)]
  last := none

def twoBlocks : Stream zero where
  blocks := [(blockOf ["a"] wellFormed_a (by decide +kernel), .crlf), (blockOf ["a"] wellFormed_a (by decide +kernel), .crlf)]
  last := none

theorem lastText_of_reassembled [Zero N] {s : Stream number} (h : Reassembled s) :
    lastText s.read = streamText s.events := by
  rw [Reassembled, parseSseResponse_raw] at h
  injection h with h
  injection h

/-- The second text part of a message takes the place of the first; the second of two blocks that end in CR LF is not read. -/
theorem parts_and_blocks_lost : ¬ Reassembled twoParts ∧ ¬ Reassembled twoBlocks := by
  constructor
  · exact fun h => absurd (lastText_of_reassembled h) (by decide +kernel)
  · exact fun h => absurd (lastText_of_reassembled h) (by decide +kernel)

end AstramemLocal.Providers.CodexSse
