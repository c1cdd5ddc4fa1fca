/-
`redactSpooledEnvelope` (`src/ingest/spool-schema-guard.ts`), what `writeToSpool` puts on disk: the JSON value, walked
along the shape of the schema. Content fields and keys the schema does not know are redacted, the other fields are not.
Of an envelope it redacts exactly the texts of the turns and events (`redactSpooledEnvelope_toJson`).
-/
import AstramemLocal.Ingest.Envelope

namespace AstramemLocal.Ingest

open AstramemLocal.Core

/-- what the walk uses of a zod type -/
inductive FieldSchema where
  | leaf
  | object (shape : List (String × FieldSchema))
  | array (element : FieldSchema)

structure ResolvedField where
  childShape : Option (List (String × FieldSchema))
  isArray : Bool

def resolveField : FieldSchema → ResolvedField
  | .leaf => ⟨none, false⟩
  | .object shape => ⟨some shape, false⟩
  | .array (.object shape) => ⟨some shape, true⟩
  | .array _ => ⟨none, true⟩

def leaves (keys : List String) : List (String × FieldSchema) := keys.map (·, .leaf)

/-- `CANONICAL_ENVELOPE_SHAPE` -/
def canonicalEnvelopeShape : List (String × FieldSchema) :=
  leaves ["event", "session_id", "project_id", "agent_type", "cwd", "captured_at", "kind"] ++
  [("turns", .array (.object (leaves ["role", "text", "ts", "speaker"]))),
   ("events", .array (.object (leaves ["type", "text", "importance", "confidence", "evidence", "occurred_at"])))] ++
  leaves ["tool", "capture_source", "platform", "meeting_id", "consent_disclosed", "extract_profile"] ++
  [("proxy_usage", .object (leaves ["provider", "model", "input_tokens", "output_tokens", "total_tokens",
    "cache_creation_input_tokens", "cache_read_input_tokens", "stop_reason", "truncated"]))] ++
  leaves ["client_scrub_applied", "client_scrub_hits", "client_version", "client_scrub_version",
    "client_scrub_hits_by_label", "wire_version"]

/-- `CONTENT_FIELD_PATHS` -/
def contentFieldPaths : List String := ["turns[].text", "events[].text", "events[].evidence"]

/-- the keys every object inherits -/
def objectPrototypeKeys : List String :=
  ["constructor", "__defineGetter__", "__defineSetter__", "hasOwnProperty", "__lookupGetter__", "__lookupSetter__",
   "isPrototypeOf", "propertyIsEnumerable", "toString", "valueOf", "__proto__", "toLocaleString"]

/-- `shape?.[key]`, resolved; an inherited key finds a function, which has no children -/
def childField (shape : Option (List (String × FieldSchema))) (key : String) : Option ResolvedField :=
  match shape with
  | none => none
  | some fields =>
    match fields.lookup key with
    | some field => some (resolveField field)
    | none => if key ∈ objectPrototypeKeys then some (resolveField .leaf) else none

/-- what the items of an array are checked against -/
def itemField (known : Option ResolvedField) : Option ResolvedField :=
  match known with
  | some ⟨some shape, true⟩ => some ⟨some shape, false⟩
  | _ => none

section
variable (redact : String → String)

def redactString (known : Option ResolvedField) (path s : String) : String :=
  if path ∈ contentFieldPaths then redact s else if known.isSome then s else redact s

def childPath (path key : String) : String := if path = "" then key else path ++ "." ++ key

mutual
def walk (known : Option ResolvedField) (path : String) : Json → Json
  | .str s => .str (redactString redact known path s)
  | .arr items => .arr (walkItems (itemField known) (path ++ "[]") items)
  | .obj members => .obj (walkMembers (known.bind (·.childShape)) path members)
  | .null => .null
  | .bool b => .bool b
  | .num n => .num n
def walkItems (known : Option ResolvedField) (path : String) : List Json → List Json
  | [] => []
  | item :: items => walk known path item :: walkItems known path items
/-- writing to `__proto__` makes no member -/
def walkMembers (shape : Option (List (String × FieldSchema))) (path : String) :
    List (String × Json) → List (String × Json)
  | [] => []
  | (key, value) :: members =>
    if key = "__proto__" then walkMembers shape path members
    else (key, walk (childField shape key) (childPath path key) value) :: walkMembers shape path members
end

def redactSpooledEnvelope (value : Json) : Json := walk redact (some ⟨some canonicalEnvelopeShape, false⟩) "" value

/-! ## What is redacted of an envelope -/

def TranscriptTurn.redacted (t : TranscriptTurn) : TranscriptTurn := { t with text := redact t.text }

def CanonicalEventItem.redacted (e : CanonicalEventItem) : CanonicalEventItem :=
  { e with text := redact e.text, evidence := e.evidence.map redact }

def Envelope.redacted (e : Envelope) : Envelope :=
  { e with
    turns := e.turns.map (·.map (·.redacted redact))
    events := e.events.map (·.map (·.redacted redact)) }

variable {redact} {known : Option ResolvedField} {path : String}

theorem walkItems_eq (items : List Json) : walkItems redact known path items = items.map (walk redact known path) := by
  induction items with
  | nil => rfl
  | cons item items ih => simp only [walkItems, List.map_cons, ih]

theorem walkMembers_present {shape : Option (List (String × FieldSchema))} (slots : List (String × Option Json))
    (hproto : "__proto__" ∉ slots.map (·.1)) :
    walkMembers redact shape path (present slots) =
      present (slots.map fun slot =>
        (slot.1, slot.2.map (walk redact (childField shape slot.1) (childPath path slot.1)))) := by
  induction slots with
  | nil => rfl
  | cons slot slots ih =>
    obtain ⟨key, value⟩ := slot
    simp only [List.map_cons, List.mem_cons, not_or] at hproto
    have htail := ih hproto.2
    cases value with
    | none => exact htail
    | some v =>
      have hkey : key ≠ "__proto__" := fun heq => hproto.1 heq.symm
      rw [present_some, walkMembers, if_neg hkey, htail]
      rfl

theorem walk_turn (t : TranscriptTurn) :
    walk redact (itemField (childField canonicalEnvelopeShape "turns")) ("turns" ++ "[]") t.toJson =
      (t.redacted redact).toJson := by
  simp only [TranscriptTurn.toJson, walk]
  rw [walkMembers_present _ (by simp [TranscriptTurn.slots])]
  congr 2
  simp only [TranscriptTurn.slots, TranscriptTurn.redacted, List.map_cons, List.map_nil, Option.map_some, Option.map_map]
  rfl

theorem walk_eventItem (e : CanonicalEventItem) :
    walk redact (itemField (childField canonicalEnvelopeShape "events")) ("events" ++ "[]") e.toJson =
      (e.redacted redact).toJson := by
  simp only [CanonicalEventItem.toJson, walk]
  rw [walkMembers_present _ (by simp [CanonicalEventItem.slots])]
  congr 2
  simp only [CanonicalEventItem.slots, CanonicalEventItem.redacted, List.map_cons, List.map_nil, Option.map_some,
    Option.map_map]
  rfl

theorem walk_nullable {α : Type} (write : α → Json) (hwrite : ∀ a, walk redact known path (write a) = write a)
    (x : Option α) : walk redact known path (orNull (x.map write)) = orNull (x.map write) := by
  cases x with
  | none => rfl
  | some a => exact hwrite a

theorem walk_proxyUsage (u : ProxyUsage) :
    walk redact (childField canonicalEnvelopeShape "proxy_usage") "proxy_usage" u.toJson = u.toJson := by
  simp only [ProxyUsage.toJson, walk]
  rw [walkMembers_present _ (by simp [ProxyUsage.slots])]
  congr 2
  simp only [ProxyUsage.slots, List.map_cons, List.map_nil, Option.map_some]
  rw [walk_nullable Json.str fun _ => rfl, walk_nullable natJson fun _ => rfl, walk_nullable natJson fun _ => rfl,
    walk_nullable natJson fun _ => rfl, walk_nullable natJson fun _ => rfl, walk_nullable natJson fun _ => rfl,
    walk_nullable Json.str fun _ => rfl]
  rfl

/-- a spooled envelope is the envelope with its content redacted -/
theorem redactSpooledEnvelope_toJson (e : Envelope) (hhits : e.clientScrubHitsByLabel = none) :
    redactSpooledEnvelope redact e.toJson = (e.redacted redact).toJson := by
  simp only [redactSpooledEnvelope, Envelope.toJson, Envelope.members, walk]
  rw [walkMembers_present _ (by simp [Envelope.slots])]
  congr 2
  have hturns (turns : List TranscriptTurn) :
      walk redact (childField canonicalEnvelopeShape "turns") "turns" (.arr (turns.map (·.toJson))) =
        .arr ((turns.map (·.redacted redact)).map (·.toJson)) := by
    simp only [walk, walkItems_eq, List.map_map, Function.comp_def, walk_turn]
  have hevents (events : List CanonicalEventItem) :
      walk redact (childField canonicalEnvelopeShape "events") "events" (.arr (events.map (·.toJson))) =
        .arr ((events.map (·.redacted redact)).map (·.toJson)) := by
    simp only [walk, walkItems_eq, List.map_map, Function.comp_def, walk_eventItem]
  have hchild (key : String) : childPath "" key = key := rfl
  simp only [Envelope.slots, Envelope.redacted, List.map_cons, List.map_nil, Option.map_some, Option.map_map, hhits,
    Option.map_none, hchild, Option.bind_some, Function.comp_def, hturns, hevents, walk_proxyUsage]
  rfl

end

end AstramemLocal.Ingest
