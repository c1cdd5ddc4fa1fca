/-
Which strings the guard of the spool redacts (`spool-schema-guard.ts`), by their place in the value. `guard` is what the
guard is for: a string at a structural path of the schema stays, every other one is redacted. The walk keeps more than
that: it takes a place for a known one by the schema's keys alone, whatever stands there, and an object's keys by a look-up
that also finds what every object inherits.
- `structuralPaths_render`: the structural paths are those of the list in the source;
- `known_paths`: the places the walk takes for known are the structural ones, the content and `exposedPaths`;
- `guard_exact_iff`: the walk is `guard` exactly when the value has no `__proto__` key and at none of `exposedPaths` a
  string that redaction changes.
-/
import AstramemLocal.Core.JsonPaths
import AstramemLocal.Ingest.SpoolGuard
import Mathlib.Data.List.Induction

namespace AstramemLocal.Ingest

open AstramemLocal.Core Json

/-! ## Places -/

/-- `KNOWN_STRUCTURAL_FIELD_PATHS` -/
def knownStructuralFieldPaths : List String :=
  ["event", "session_id", "project_id", "agent_type", "cwd", "captured_at", "kind", "tool", "capture_source",
   "extract_profile", "client_scrub_applied", "client_scrub_hits", "client_version", "client_scrub_version",
   "client_scrub_hits_by_label", "wire_version", "turns[].role", "turns[].ts", "events[].type", "events[].importance",
   "events[].confidence", "events[].occurred_at", "proxy_usage.provider", "proxy_usage.model",
   "proxy_usage.input_tokens", "proxy_usage.output_tokens", "proxy_usage.total_tokens",
   "proxy_usage.cache_creation_input_tokens", "proxy_usage.cache_read_input_tokens", "proxy_usage.stop_reason",
   "proxy_usage.truncated", "platform", "meeting_id", "consent_disclosed", "turns[].speaker"]

def fieldsOf (place : List PathStep) (keys : List String) : List (List PathStep) := keys.map fun k => place ++ [.key k]

def turnItem : List PathStep := [.key "turns", .item]

def eventItem : List PathStep := [.key "events", .item]

/-- the same paths, step by step -/
def structuralPaths : List (List PathStep) :=
  fieldsOf [] ["event", "session_id", "project_id", "agent_type", "cwd", "captured_at", "kind", "tool",
    "capture_source", "extract_profile", "client_scrub_applied", "client_scrub_hits", "client_version",
    "client_scrub_version", "client_scrub_hits_by_label", "wire_version"] ++
  fieldsOf turnItem ["role", "ts"] ++ fieldsOf eventItem ["type", "importance", "confidence", "occurred_at"] ++
  fieldsOf [.key "proxy_usage"] ["provider", "model", "input_tokens", "output_tokens", "total_tokens",
    "cache_creation_input_tokens", "cache_read_input_tokens", "stop_reason", "truncated"] ++
  fieldsOf [] ["platform", "meeting_id", "consent_disclosed"] ++ fieldsOf turnItem ["speaker"]

def contentPaths : List (List PathStep) := fieldsOf turnItem ["text"] ++ fieldsOf eventItem ["text", "evidence"]

/-- the places that are known to the walk, though they are neither structural nor content -/
def exposedPaths : List (List PathStep) :=
  -- a string in the place of an object or an array
  [[], [.key "turns"], [.key "events"], [.key "proxy_usage"], turnItem, eventItem] ++
  -- an object in the place of an array
  fieldsOf [.key "turns"] ["role", "text", "ts", "speaker"] ++
  fieldsOf [.key "events"] ["type", "text", "importance", "confidence", "evidence", "occurred_at"] ++
  -- an inherited key, wherever the schema has an object
  [[], [.key "turns"], [.key "events"], [.key "proxy_usage"], turnItem, eventItem].flatMap
    fun place => fieldsOf place objectPrototypeKeys

/-- the path as the walk writes it down behind `path` -/
def renderFrom (path : String) : List PathStep → String
  | [] => path
  | .item :: steps => renderFrom (path ++ "[]") steps
  | .key k :: steps => renderFrom (childPath path k) steps

/-- what the walk knows of a place, from what it knows of the value -/
def follow (known : Option ResolvedField) : List PathStep → Option ResolvedField
  | [] => known
  | .item :: steps => follow (itemField known) steps
  | .key k :: steps => follow (childField (known.bind (·.childShape)) k) steps

def envelopeField : Option ResolvedField := some ⟨some canonicalEnvelopeShape, false⟩

theorem structuralPaths_render : structuralPaths.map (renderFrom "") = knownStructuralFieldPaths := by decide +kernel

theorem contentPaths_render : contentPaths.map (renderFrom "") = contentFieldPaths := by decide +kernel

/-! ## The guard -/

variable (redact : String → String)

/-- a string of the place, as it should be written -/
def guardString (steps : List PathStep) (s : String) : String := if structuralPaths.any (· = steps) then s else redact s

/-- every string outside the structural paths redacted, and the rest of the value as it is -/
def guard (value : Json) : Json := rewriteLeaves (guardString redact) value

variable {redact} {known : Option ResolvedField} {steps : List PathStep}

theorem walkMembers_noProto {shape : Option (List (String × FieldSchema))} {path : String} {members : List (String × Json)}
    (h : ∀ m ∈ members, m.1 ≠ "__proto__") : walkMembers redact shape path members =
      members.map fun m => (m.1, walk redact (childField shape m.1) (childPath path m.1) m.2) := by
  induction members with
  | nil => rfl
  | cons m members ih =>
    rw [walkMembers, if_neg (h m List.mem_cons_self), ih fun n hn => h n (List.mem_cons_of_mem m hn), List.map_cons]

theorem mem_walkMembers {shape : Option (List (String × FieldSchema))} {path : String} {members : List (String × Json)}
    {written : String × Json} (h : written ∈ walkMembers redact shape path members) :
    ∃ m ∈ members, m.1 ≠ "__proto__" ∧ written = (m.1, walk redact (childField shape m.1) (childPath path m.1) m.2) := by
  induction members with
  | nil => cases h
  | cons m members ih =>
    unfold walkMembers at h
    split at h
    next =>
      obtain ⟨n, hn, hrest⟩ := ih h
      exact ⟨n, List.mem_cons_of_mem m hn, hrest⟩
    next hkey =>
      rcases List.mem_cons.1 h with rfl | h
      · exact ⟨m, List.mem_cons_self, hkey, rfl⟩
      · obtain ⟨n, hn, hrest⟩ := ih h
        exact ⟨n, List.mem_cons_of_mem m hn, hrest⟩

/-- without a `__proto__` key the walk rewrites the leaves -/
theorem walk_eq (value : Json) (path : String) (hproto : ¬ HasKey "__proto__" value) :
    walk redact known path value =
      rewriteLeaves (fun steps s => redactString redact (follow known steps) (renderFrom path steps) s) value := by
  induction value using Json.ind generalizing known path with
  | null => rfl
  | bool b => rfl
  | num n => rfl
  | str s => rfl
  | arr items ih =>
    rw [walk, walkItems_eq, rewriteLeaves_arr, Json.arr.injEq]
    apply List.map_congr_left
    intro v hv
    exact ih v hv _ fun h => hproto (.item hv h)
  | obj members ih =>
    rw [walk, walkMembers_noProto fun m hm heq => hproto (.here hm heq), rewriteLeaves_obj, Json.obj.injEq]
    apply List.map_congr_left
    intro m hm
    rw [ih m hm _ fun h => hproto (.member hm h)]
    rfl

/-- the walk writes no `__proto__` key -/
theorem walk_noProto (value : Json) (path : String) : ¬ HasKey "__proto__" (walk redact known path value) := by
  induction value using Json.ind generalizing known path with
  | null => intro h; cases h
  | bool b => intro h; cases h
  | num n => intro h; cases h
  | str s => intro h; cases h
  | arr items ih =>
    rw [walk, walkItems_eq]
    intro h
    cases h with
    | item hv h =>
      obtain ⟨v, hmem, rfl⟩ := List.mem_map.1 hv
      exact ih v hmem _ h
  | obj members ih =>
    rw [walk]
    intro h
    cases h with
    | here hm hkey =>
      obtain ⟨m, -, hkept, rfl⟩ := mem_walkMembers hm
      exact hkept hkey
    | member hm h =>
      obtain ⟨m, hmem, -, rfl⟩ := mem_walkMembers hm
      exact ih m hmem _ h

/-! ## The places the walk knows -/

theorem follow_append (before after : List PathStep) : follow known (before ++ after) = follow (follow known before) after := by
  induction before generalizing known with
  | nil => rfl
  | cons step before ih => cases step <;> exact ih

/-- the keys the look-up finds at a place -/
def keysAt (steps : List PathStep) : List String :=
  match (follow envelopeField steps).bind (·.childShape) with
  | none => []
  | some fields => fields.map (·.1) ++ objectPrototypeKeys

theorem mem_keysAt {key : String}
    (h : (childField ((follow envelopeField steps).bind (·.childShape)) key).isSome) : key ∈ keysAt steps := by
  unfold keysAt
  cases hshape : (follow envelopeField steps).bind (·.childShape) with
  | none =>
    rw [hshape] at h
    cases h
  | some fields =>
    rw [hshape] at h
    dsimp only
    rw [List.mem_append]
    by_cases hkey : key ∈ fields.map (·.1)
    · exact Or.inl hkey
    · have hnone : fields.lookup key = none := by
        rw [List.lookup_eq_none_iff]
        intro field hfield
        rw [bne_iff_ne]
        rintro rfl
        exact hkey (List.mem_map_of_mem hfield)
      simp only [childField, hnone] at h
      split at h
      next hproto => exact Or.inr hproto
      next => cases h

def knownPaths : List (List PathStep) := structuralPaths ++ contentPaths ++ exposedPaths

theorem knownPaths_item : ∀ steps ∈ knownPaths, (itemField (follow envelopeField steps)).isSome = true →
    steps ++ [.item] ∈ knownPaths := by decide +kernel

theorem knownPaths_key : ∀ steps ∈ knownPaths, ∀ key ∈ keysAt steps, steps ++ [.key key] ∈ knownPaths := by decide +kernel

/-- **Known places.** -/
theorem known_paths (h : (follow envelopeField steps).isSome) : steps ∈ knownPaths := by
  induction steps using List.reverseRecOn with
  | nil => decide +kernel
  | append_singleton steps step ih =>
    rw [follow_append] at h
    have hknown : (follow envelopeField steps).isSome := by
      cases hfollow : follow envelopeField steps with
      | some known => rfl
      | none =>
        rw [hfollow] at h
        cases step <;> cases h
    cases step with
    | item => exact knownPaths_item steps (ih hknown) h
    | key key => exact knownPaths_key steps (ih hknown) key (mem_keysAt h)

/-! ## The walk and the guard -/

theorem structural_kept : ∀ steps ∈ structuralPaths,
    (follow envelopeField steps).isSome = true ∧ renderFrom "" steps ∉ contentFieldPaths ∧ steps ∉ exposedPaths := by
  decide +kernel

theorem content_redacted : ∀ steps ∈ contentPaths,
    renderFrom "" steps ∈ contentFieldPaths ∧ steps ∉ structuralPaths ∧ steps ∉ exposedPaths := by decide +kernel

theorem exposed_kept : ∀ steps ∈ exposedPaths,
    (follow envelopeField steps).isSome = true ∧ renderFrom "" steps ∉ contentFieldPaths ∧ steps ∉ structuralPaths := by
  decide +kernel

theorem guardString_eq (s : String) : guardString redact steps s = if steps ∈ structuralPaths then s else redact s := by
  simp [guardString]

/-- the walk treats a string as the guard does, but for the exposed places -/
theorem redactString_eq_iff (s : String) :
    redactString redact (follow envelopeField steps) (renderFrom "" steps) s = guardString redact steps s ↔
      (steps ∈ exposedPaths → redact s = s) := by
  rw [guardString_eq]
  unfold redactString
  by_cases hknown : (follow envelopeField steps).isSome = true
  · rcases List.mem_append.1 (known_paths hknown) with hin | hexposed
    · rcases List.mem_append.1 hin with hstructural | hcontent
      · obtain ⟨-, hplain, hnot⟩ := structural_kept steps hstructural
        rw [if_neg hplain, if_pos hknown, if_pos hstructural]
        exact iff_of_true rfl fun h => absurd h hnot
      · obtain ⟨htext, hnot, hnot'⟩ := content_redacted steps hcontent
        rw [if_pos htext, if_neg hnot]
        exact iff_of_true rfl fun h => absurd h hnot'
    · obtain ⟨-, hplain, hnot⟩ := exposed_kept steps hexposed
      rw [if_neg hplain, if_pos hknown, if_neg hnot]
      constructor
      · intro h _
        exact h.symm
      · intro h
        exact (h hexposed).symm
  · have hnot : steps ∉ structuralPaths := fun h => hknown (structural_kept steps h).1
    have hnot' : steps ∉ exposedPaths := fun h => hknown (exposed_kept steps h).1
    rw [if_neg hknown, if_neg hnot, ite_self]
    exact iff_of_true rfl fun h => absurd h hnot'

theorem guard_eq_of_noProto {value : Json} (hproto : ¬ HasKey "__proto__" value) :
    redactSpooledEnvelope redact value = guard redact value ↔
      ∀ steps s, LeafAt value steps s → steps ∈ exposedPaths → redact s = s := by
  have hwalk : redactSpooledEnvelope redact value = rewriteLeaves
      (fun steps s => redactString redact (follow envelopeField steps) (renderFrom "" steps) s) value := walk_eq value "" hproto
  rw [hwalk, guard, rewriteLeaves_eq_iff]
  simp only [redactString_eq_iff]

/-- **The guard of the spool.** -/
theorem guard_exact_iff (redact : String → String) (value : Json) :
    redactSpooledEnvelope redact value = guard redact value ↔
      (∀ steps s, LeafAt value steps s → steps ∈ exposedPaths → redact s = s) ∧ ¬ HasKey "__proto__" value := by
  constructor
  · intro h
    have hproto : ¬ HasKey "__proto__" value := by
      intro hkey
      have hguard : HasKey "__proto__" (guard redact value) := hkey.rewriteLeaves _
      rw [← h] at hguard
      exact walk_noProto value "" hguard
    exact ⟨(guard_eq_of_noProto hproto).1 h, hproto⟩
  · intro h
    exact (guard_eq_of_noProto h.2).2 h.1

/-- turns that are no array, and a key that every object inherits -/
def misshapen : Json := .obj [("turns", .obj [("text", .str "sk-live")]), ("valueOf", .str "sk-live")]

/-- **A secret is written.** Both strings stay as they are. -/
theorem secret_written :
    ¬ ∀ redact value, redactSpooledEnvelope redact value = guard redact value := by
  intro h
  have hproto : ¬ HasKey "__proto__" misshapen := by
    have hkept : redactSpooledEnvelope (fun _ => "[REDACTED]") misshapen = misshapen := rfl
    rw [← hkept]
    exact walk_noProto misshapen ""
  have hchanged := (guard_eq_of_noProto hproto).1 (h (fun _ => "[REDACTED]") misshapen) [.key "valueOf"] "sk-live"
    (.member (m := ("valueOf", .str "sk-live")) (by simp) (.here _)) (by decide +kernel)
  exact absurd hchanged (by decide)

end AstramemLocal.Ingest
