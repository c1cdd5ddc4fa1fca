/-
The memory-tool adapter (`src/memory-tool/adapter.ts`): views, and `create` and `insert`, which store a text under the type
its path names. The content hash finds a row whatever its type and validity; a view lists the rows of one type that have no
`valid_to`.

- `created_listed_iff`: behind a successful create or insert, the file the reply names lists the text iff no row had its
  hash or a listed row of that type had the text before.
- `create_hides_text`: a text that is stored as a fact, created as a note, is not in the file of the notes.
-/
import AstramemLocal.Core.Text
import AstramemLocal.Store.Memories
import Mathlib.Data.List.Sort

namespace AstramemLocal.MemoryTool

open AstramemLocal.Core AstramemLocal.Store

/-! ## Paths -/

/-- the type as the database and the paths spell it -/
def typeName : MemoryType → String
  | .decision => "decision"
  | .fact => "fact"
  | .lesson => "lesson"
  | .command => "command"
  | .todo => "todo"
  | .note => "note"
  | .event => "event"
  | .preference => "preference"
  | .taskResult => "task_result"
  | .summary => "summary"

/-- `MEMORY_TYPES` of the adapter, without the types only the cloud writes -/
def adapterTypes : List MemoryType := [.decision, .fact, .lesson, .command, .todo, .note, .event]

/-- the type of a slug that `isMemoryType` takes -/
def typeOfSlug (slug : String) : Option MemoryType := adapterTypes.find? fun t => typeName t = slug

inductive ParsedPath where
  | root
  | typeFile (typeSlug : String)
  | typeFileItem (typeSlug itemId : String)
deriving DecidableEq, Repr

/-- `/^\/memories\/([^/]+)\.md(?:\/(.+))?$/` behind the two spellings of the root -/
def parseMemoriesPath (path : String) : Option ParsedPath :=
  if path = "/memories" ∨ path = "/memories/" then some .root
  else
    match "/memories/".toList.isPrefixOf path.toList with
    | false => none
    | true =>
      let rest := path.toList.drop 10
      let segment := rest.takeWhile (· ≠ '/')
      let slug := String.ofList (segment.take (segment.length - 3))
      if slug ≠ "" ∧ segment.drop (segment.length - 3) = ".md".toList then
        match rest.dropWhile (· ≠ '/') with
        | [] => some (.typeFile slug)
        | _ :: item => if item ≠ [] ∧ item.all isDot then some (.typeFileItem slug (String.ofList item)) else none
      else none

def typePath (type : MemoryType) : String := "/memories/" ++ typeName type ++ ".md"

/-! ## Commands -/

structure Env where
  store : Store.Env
  /-- the redacted text -/
  redactIfEnabled : String → String
  contentHash : String → Hash
  /-- an id as text -/
  idText : AtomId → String
  numberText : ℚ → String
  errorMessage : ConstraintError → String

structure MemoryToolCommand where
  command : String
  path : String
  view_range : Option (ℚ × ℚ) := none
  file_text : Option String := none
  insert_text : Option String := none
deriving DecidableEq, Repr

inductive MemoryToolResult where
  | content (content : String)
  | error (error : String)
deriving DecidableEq, Repr

variable (E : Env)

/-- `ORDER BY created_at ASC`; ties stay in the order of the table -/
def listValidMemoriesByType (db : St) (type : MemoryType) : List Memory :=
  (db.memories.filter fun m => m.type = type ∧ m.validTo = none).insertionSort fun a b => a.createdAt ≤ b.createdAt

def listTypesWithValidMemories (db : St) : List String :=
  (((db.memories.filter fun m => m.validTo = none).map fun m => typeName m.type).dedup).insertionSort (· ≤ ·)

/-- `join('\n')` -/
def joinLines (lines : List String) : String := "\n".intercalate lines

def renderTypeFile (rows : List Memory) : String :=
  joinLines (rows.map fun r => "- [" ++ E.idText r.id ++ "] " ++ r.text)

def applyViewRange (content : String) (range : Option (ℚ × ℚ)) : MemoryToolResult :=
  match range with
  | none => .content content
  | some (start, endRaw) =>
    let lines := content.splitOn "\n"
    let stop : ℚ := if endRaw = -1 then lines.length else endRaw
    if start.den ≠ 1 ∨ stop.den ≠ 1 ∨ start < 1 ∨ lines.length < start ∨ stop < start then
      .error ("invalid view_range: [" ++ E.numberText start ++ ", " ++ E.numberText endRaw ++ "] for a " ++
        toString lines.length ++ "-line file")
    else .content (joinLines ((lines.take stop.num.toNat).drop (start.num.toNat - 1)))

def handleView (db : St) (cmd : MemoryToolCommand) : MemoryToolResult :=
  match parseMemoriesPath cmd.path with
  | none => .error ("no such file: " ++ cmd.path)
  | some .root =>
    applyViewRange E (joinLines ((listTypesWithValidMemories db).map fun t => t ++ ".md")) cmd.view_range
  | some (.typeFile slug) =>
    match typeOfSlug slug with
    | none => .error ("no such file: " ++ cmd.path)
    | some type => applyViewRange E (renderTypeFile E (listValidMemoriesByType db type)) cmd.view_range
  | some (.typeFileItem slug _) =>
    .error ("view does not support a single memory id — view /memories/" ++ slug ++ ".md instead")

def rawText (cmd : MemoryToolCommand) : Option String :=
  if cmd.command = "create" then cmd.file_text else cmd.insert_text

/-- an unknown slug is a note -/
def createdType (slug : String) : MemoryType := (typeOfSlug slug).getD .note

def createInput (type : MemoryType) (text : String) : InsertInput :=
  { type
    text
    normalizedText := E.store.toLowerCase text
    hash := E.contentHash text
    importance := some (1 / 2)
    confidence := some (1 / 2) }

/-- the reply, and the database behind it -/
def handleCreateOrInsert (db : St) (cmd : MemoryToolCommand) : MemoryToolResult × St :=
  match parseMemoriesPath cmd.path with
  | some (.typeFile slug) =>
    match (rawText cmd).filter (· ≠ "") with
    | none =>
      let field := if cmd.command = "create" then "file_text" else "insert_text"
      (.error ("missing " ++ field ++ " for " ++ cmd.command), db)
    | some raw =>
      let type := createdType slug
      match insertWithCreateEvent E.store db (createInput E type (E.redactIfEnabled raw)) with
      | .error e => (.error (E.errorMessage e), db)
      | .ok (db, inserted) =>
        (.content ("created memory " ++ E.idText inserted.id ++ " in " ++ typeName type ++ ".md"), db)
  | _ => (.error ("invalid path for " ++ cmd.command ++ ": " ++ cmd.path), db)

/-! ## Read your writes -/

variable {E} {db db' : St} {type : MemoryType} {text : String}

theorem mem_listValid {m : Memory} :
    m ∈ listValidMemoriesByType db type ↔ m ∈ db.memories ∧ m.type = type ∧ m.validTo = none := by
  unfold listValidMemoriesByType
  rw [List.mem_insertionSort, List.mem_filter]
  simp

/-- the file of the type lists the text -/
def Lists (db : St) (type : MemoryType) (text : String) : Prop := ∃ m ∈ listValidMemoriesByType db type, m.text = text

theorem typePath_parses (h : type ∈ adapterTypes) :
    parseMemoriesPath (typePath type) = some (.typeFile (typeName type)) ∧ typeOfSlug (typeName type) = some type := by
  cases type <;> first | decide | exact absurd h (by decide)

theorem view_typeFile (h : type ∈ adapterTypes) :
    handleView E db { command := "view", path := typePath type } =
      .content (renderTypeFile E (listValidMemoriesByType db type)) := by
  unfold handleView
  rw [(typePath_parses h).1]
  dsimp only
  rw [(typePath_parses h).2]
  rfl

theorem createdType_mem (slug : String) : createdType slug ∈ adapterTypes := by
  unfold createdType typeOfSlug
  cases hslug : adapterTypes.find? fun t => typeName t = slug with
  | none => decide
  | some t => exact List.mem_of_find?_eq_some hslug

/-- what a successful create or insert has stored -/
theorem created_ok {cmd : MemoryToolCommand} {reply : String}
    (h : handleCreateOrInsert E db cmd = (.content reply, db')) :
    ∃ slug raw inserted, parseMemoriesPath cmd.path = some (.typeFile slug) ∧ rawText cmd = some raw ∧
      insertWithCreateEvent E.store db (createInput E (createdType slug) (E.redactIfEnabled raw)) = .ok (db', inserted) ∧
      reply = "created memory " ++ E.idText inserted.id ++ " in " ++ typeName (createdType slug) ++ ".md" := by
  unfold handleCreateOrInsert at h
  split at h
  · rename_i slug hpath
    split at h
    · cases h
    · rename_i raw hraw
      dsimp only at h
      split at h
      · cases h
      · rename_i db'' inserted hinsert
        simp only [Prod.mk.injEq, MemoryToolResult.content.injEq] at h
        obtain ⟨hreply, rfl⟩ := h
        exact ⟨slug, raw, inserted, hpath, (Option.filter_eq_some_iff.1 hraw).1, hinsert, hreply.symm⟩
  · cases h

theorem lists_iff_of_insert {inserted : Inserted}
    (h : insertWithCreateEvent E.store db (createInput E type text) = .ok (db', inserted)) :
    Lists db' type text ↔ findHash db (E.contentHash text) = none ∨ Lists db type text := by
  rcases insertWithCreateEvent_ok h with ⟨m, hm, hr⟩ | ⟨hnone, -, -, hr⟩
  · obtain ⟨rfl, -⟩ := Prod.mk.injEq .. ▸ hr
    have hhash : findHash db' (E.contentHash text) = some m := hm
    simp [hhash]
  · obtain ⟨rfl, -⟩ := Prod.mk.injEq .. ▸ hr
    have hhash : findHash db (E.contentHash text) = none := hnone
    refine iff_of_true ⟨storedRow E.store db (createInput E type text), ?_, rfl⟩ (.inl hhash)
    exact mem_listValid.2 ⟨by simp, rfl, rfl⟩

/-- **Read your writes.** In every store, behind a successful create or insert the file that the reply names is the list of
its rows, and one of them has the redacted text iff no row had the hash of the text before or one of them had the text. -/
theorem created_listed_iff (E : Env) (db db' : St) (cmd : MemoryToolCommand) (reply : String)
    (h : handleCreateOrInsert E db cmd = (.content reply, db')) :
    ∃ type raw id, rawText cmd = some raw ∧
      reply = "created memory " ++ E.idText id ++ " in " ++ typeName type ++ ".md" ∧
      handleView E db' { command := "view", path := typePath type } =
        .content (renderTypeFile E (listValidMemoriesByType db' type)) ∧
      (Lists db' type (E.redactIfEnabled raw) ↔
        findHash db (E.contentHash (E.redactIfEnabled raw)) = none ∨ Lists db type (E.redactIfEnabled raw)) := by
  obtain ⟨slug, raw, inserted, -, hraw, hinsert, hreply⟩ := created_ok h
  exact ⟨createdType slug, raw, inserted.id, hraw, hreply, view_typeFile (createdType_mem slug), lists_iff_of_insert hinsert⟩

def countingEnv : Env where
  store := ⟨fun i => i, fun i => i, 50, fun s => s⟩
  redactIfEnabled s := s
  contentHash s := s.length
  idText := toString
  numberText _ := ""
  errorMessage _ := ""

def create (path text : String) : MemoryToolCommand := { command := "create", path, file_text := some text }

/-- a fact, in the empty store -/
def factCreated : MemoryToolResult × St := handleCreateOrInsert countingEnv {} (create "/memories/fact.md" "x")

theorem created_listed_fact : ∃ type raw id, rawText (create "/memories/fact.md" "x") = some raw ∧
    "created memory 0 in fact.md" = "created memory " ++ countingEnv.idText id ++ " in " ++ typeName type ++ ".md" ∧
    handleView countingEnv factCreated.2 { command := "view", path := typePath type } =
      .content (renderTypeFile countingEnv (listValidMemoriesByType factCreated.2 type)) ∧
    (Lists factCreated.2 type (countingEnv.redactIfEnabled raw) ↔
      findHash {} (countingEnv.contentHash (countingEnv.redactIfEnabled raw)) = none ∨
        Lists {} type (countingEnv.redactIfEnabled raw)) :=
  created_listed_iff countingEnv {} factCreated.2 (create "/memories/fact.md" "x") _ (Prod.ext (by decide) rfl)

/-- the same text again, as a note -/
def noteCreated : MemoryToolResult × St :=
  handleCreateOrInsert countingEnv factCreated.2 (create "/memories/note.md" "x")

/-- The reply names the file of the notes, which is empty. -/
theorem create_hides_text :
    noteCreated.1 = .content "created memory 0 in note.md" ∧
      handleView countingEnv noteCreated.2 { command := "view", path := "/memories/note.md" } = .content "" ∧
      listValidMemoriesByType noteCreated.2 .note = [] := by
  decide

end AstramemLocal.MemoryTool
