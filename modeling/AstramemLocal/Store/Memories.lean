/-
`src/storage/memories.ts`: `insertWithCreateEvent`, the one local path that stores a memory. The row and its 'create'
event go in together, or neither does; a hash that is already stored answers with its owner and writes nothing.
-/
import AstramemLocal.Store.Schema

namespace AstramemLocal.Store

structure InsertInput where
  type : MemoryType
  text : String
  normalizedText : String
  repo : Option String := none
  project : Option String := none
  branch : Option String := none
  agent : Option String := none
  sessionId : Option SessionId := none
  hash : Hash
  sourceHash : Option Hash := none
  importance : Option ℚ := none
  confidence : Option ℚ := none
  evidence : Option String := none
  validFrom : Option Time := none
  validTo : Option Time := none
  scope : Option MemoryScope := none
  captureSource : Option String := none
  entities : Option (List EntityInput) := none
  speakerLabel : Option String := none
  consentDisclosed : Option Bool := none
deriving DecidableEq, Repr

/-- the payload of a local 'create' event -/
def createPayload (input : InsertInput) : Payload :=
  { text := some input.text
    type := some input.type
    scope := some (input.scope.getD .priv)
    importance := some (input.importance.getD (1 / 2))
    confidence := some (input.confidence.getD (1 / 2))
    repo := some ((input.repo.or input.project).getD "")
    entities := input.entities
    transcriptId := input.speakerLabel.map fun _ => input.sourceHash.getD input.hash
    speakerLabel := input.speakerLabel
    consentDisclosed := input.consentDisclosed }

/-- the row `insertRow` writes, but for the rowid -/
def newRow (input : InsertInput) (id : AtomId) (now : Time) : Memory :=
  { rowid := 0
    id
    type := input.type
    text := input.text
    normalizedText := input.normalizedText
    repo := input.repo
    project := input.project
    branch := input.branch
    agent := input.agent
    sessionId := input.sessionId
    importance := input.importance.getD (1 / 2)
    confidence := input.confidence.getD (1 / 2)
    hash := input.hash
    createdAt := now
    updatedAt := now
    sourceHash := input.sourceHash
    evidence := input.evidence
    validFrom := input.validFrom.getD now
    validTo := input.validTo
    scope := input.scope.getD .priv
    captureSource := input.captureSource }

/-- `insertRow`: no dedup check -/
def insertRow (E : Env) (s : St) (input : InsertInput) : Except ConstraintError (St × AtomId) :=
  let id := E.uuid s.drawn
  (insertMemory (tick (draw s)) (newRow input id (E.now s.clock))).map (·, id)

structure Inserted where
  id : AtomId
  created : Bool
deriving DecidableEq, Repr

def insertWithCreateEvent (E : Env) (s : St) (input : InsertInput) : Except ConstraintError (St × Inserted) :=
  match findHash s input.hash with
  | some existing => .ok (s, ⟨existing.id, false⟩)
  | none =>
    match insertRow E s input with
    | .error e => .error e
    | .ok (s, id) =>
      -- no `created_at` is passed, so `append` reads the clock a second time
      .ok (append E (tick s) .create id (some (createPayload input)) (some input.hash) (E.now s.clock), ⟨id, true⟩)

/-- the row as the table takes it -/
def storedRow (E : Env) (s : St) (input : InsertInput) : Memory :=
  { newRow input (E.uuid s.drawn) (E.now s.clock) with rowid := nextRowid s }

/-- the state behind the INSERT and its event -/
def inserted (E : Env) (s : St) (input : InsertInput) : St :=
  append E { tick (tick (draw s)) with memories := s.memories ++ [storedRow E s input] } .create (E.uuid s.drawn)
    (some (createPayload input)) (some input.hash) (E.now (s.clock + 1))

/-- what a successful insert has done: nothing, where the hash is stored, or the one INSERT -/
theorem insertWithCreateEvent_ok {E : Env} {s : St} {input : InsertInput} {r : St × Inserted}
    (h : insertWithCreateEvent E s input = .ok r) :
    (∃ m, findHash s input.hash = some m ∧ r = (s, ⟨m.id, false⟩)) ∨
      findHash s input.hash = none ∧ findRow s (E.uuid s.drawn) = none ∧
        (∀ k, input.sessionId = some k → k ∈ s.sessions) ∧ r = (inserted E s input, ⟨E.uuid s.drawn, true⟩) := by
  unfold insertWithCreateEvent at h
  split at h
  · rename_i m hm
    exact .inl ⟨m, hm, (Except.ok.inj h).symm⟩
  · rename_i hn
    unfold insertRow at h
    cases hi : insertMemory (tick (draw s)) (newRow input (E.uuid s.drawn) (E.now s.clock)) with
    | error e =>
      simp only [hi, Except.map] at h
      cases h
    | ok u =>
      simp only [hi, Except.map] at h
      obtain ⟨hrow, -, hsession, rfl⟩ := insertMemory_ok hi
      exact .inr ⟨hn, hrow, hsession, (Except.ok.inj h).symm⟩

@[simp] theorem inserted_memories (E : Env) (s : St) (input : InsertInput) :
    (inserted E s input).memories = s.memories ++ [storedRow E s input] := rfl

theorem findHash_inserted {E : Env} {s : St} {input : InsertInput} (h : findHash s input.hash = none) :
    findHash (inserted E s input) input.hash = some (storedRow E s input) := by
  have hbefore : s.memories.find? (·.hash = input.hash) = none := h
  unfold findHash
  rw [inserted_memories, List.find?_append, hbefore]
  simp [storedRow, newRow]

end AstramemLocal.Store
