/-
What a search may be narrowed to: `SearchFilters` of `src/search/search.ts`, the clauses that
`src/contracts/filter-registry.ts` makes of them, and the entity lookups of `src/storage/entities.ts` behind the `entity`
filter. A clause is what it says of a row; a NULL column satisfies none.

- `admits_iff`: which rows the clauses admit.
- `linked_iff_passes`: which memories pass the entity filter, with an `as_of` or without.
-/
import AstramemLocal.Search.EvidenceBundle
import AstramemLocal.Search.Validity
import AstramemLocal.Store.Entities
import Mathlib.Data.List.Infix

namespace AstramemLocal.Search.Pipeline

open AstramemLocal.Core AstramemLocal.Store

/-! ## Model -/

/-- `string | string[]` -/
inductive StringOrList where
  | one (value : String)
  | list (values : List String)
deriving DecidableEq, Repr

inductive AgentMode where
  | filter
  | boost
deriving DecidableEq, Repr

structure SearchFilters where
  type : Option (List MemoryType) := none
  repo : Option String := none
  project : Option StringOrList := none
  agent : Option StringOrList := none
  agentMode : Option AgentMode := none
  since : Option Time := none
  asOf : Option Time := none
  entity : Option String := none
  scope : Option (List MemoryScope) := none
deriving DecidableEq, Repr

inductive Column where
  | project
  | agent
deriving DecidableEq, Repr

def Column.read : Column → Memory → Option String
  | .project, m => m.project
  | .agent, m => m.agent

/-- a condition of the WHERE clause, with its parameters -/
inductive Clause where
  | typeIn (types : List MemoryType)
  | scopeIn (scopes : List MemoryScope)
  | columnEq (column : Column) (value : String)
  | columnIn (column : Column) (values : List String)
  | createdFrom (since : Time)
deriving DecidableEq, Repr

def Clause.holds : Clause → Memory → Bool
  | .typeIn types, m => m.type ∈ types
  | .scopeIn scopes, m => m.scope ∈ scopes
  | .columnEq column value, m => column.read m = some value
  | .columnIn column values, m => (column.read m).any (· ∈ values)
  | .createdFrom since, m => since ≤ m.createdAt

/-- how a filter of the registry reaches the WHERE clause; `custom` ones are applied elsewhere -/
inductive FilterApply where
  | sqlColumn (column : Column)
  | createdFrom
  | custom
deriving DecidableEq, Repr

inductive FilterName where
  | project
  | agent
  | entity
  | repo
  | since
deriving DecidableEq, Repr

def RECALL_FILTER_REGISTRY : List (FilterName × FilterApply) :=
  [(.project, .sqlColumn .project), (.agent, .sqlColumn .agent), (.entity, .custom), (.repo, .custom),
    (.since, .createdFrom)]

/-- a value handed to the registry -/
inductive FilterValue where
  | text (value : StringOrList)
  | number (value : ℤ)
deriving DecidableEq, Repr

/-- one value is `col = ?`, a list is `col IN (..)`, and an empty list says nothing -/
def columnClause (column : Column) : FilterValue → List Clause
  | .text (.one value) => [.columnEq column value]
  | .text (.list []) => []
  | .text (.list values) => [.columnIn column values]
  | .number _ => []

def rangeClause : FilterValue → List Clause
  | .number since => [.createdFrom since]
  | .text _ => []

def applySqlColumnFilters (filters : FilterName → Option FilterValue) : List Clause :=
  RECALL_FILTER_REGISTRY.flatMap fun d =>
    match d.2 with
    | .sqlColumn column => ((filters d.1).map (columnClause column)).getD []
    | _ => []

def applySqlRangeFilters (filters : FilterName → Option FilterValue) : List Clause :=
  RECALL_FILTER_REGISTRY.flatMap fun d =>
    match d.2 with
    | .createdFrom => ((filters d.1).map rangeClause).getD []
    | _ => []

/-- `repo` is an alias: it is added to the projects -/
def mergeRepoAlias (repo : Option String) (project : Option StringOrList) : Option StringOrList :=
  match repo, project with
  | none, _ => project
  | some repo, none => some (.one repo)
  | some repo, some (.one p) => some (.list (if repo = p then [p] else [p, repo]))
  | some repo, some (.list ps) => some (.list (if repo ∈ ps then ps else ps ++ [repo]))

/-- an absent or empty list of types or scopes says nothing -/
def listClause {α : Type} (clause : List α → Clause) : Option (List α) → List Clause
  | none | some [] => []
  | some values => [clause values]

def SearchFilters.registrySqlInput (f : SearchFilters) : FilterName → Option FilterValue
  | .project => (mergeRepoAlias f.repo f.project).map .text
  | .agent => if f.agentMode.getD .filter = .filter then f.agent.map .text else none
  | .since => f.since.map .number
  | .entity => none
  | .repo => none

def SearchFilters.whereFilter (f : SearchFilters) : List Clause :=
  listClause .typeIn f.type ++ listClause .scopeIn f.scope ++ applySqlColumnFilters f.registrySqlInput ++
    applySqlRangeFilters f.registrySqlInput

/-- the row is selected: it is valid, and every clause holds of it -/
def SearchFilters.admits (f : SearchFilters) (now : Time) (m : Memory) : Bool :=
  validityFilterClause f.asOf now m && f.whereFilter.all (·.holds m)

/-! ### Entities -/

/-- SQL LIKE with `%` on both sides of an escaped text, which ignores the case of ASCII letters -/
def likeContains (name text : String) : Bool :=
  text.toList.map Char.toLower <:+: name.toList.map Char.toLower

def resolveIds (E : Env) (entities : List EntityRow) (query : String) : List EntityId :=
  let normalized := normalizeEntityName E query
  if normalized = "" then []
  else
    match entities.find? (·.name = normalized) with
    | some exactMatch => [exactMatch.id]
    | none => (entities.filter fun e => likeContains e.name normalized).map (·.id)

/-- the end of a window that has none, in the query -/
def openEnd : Time := 9223372036854775807

/-- the window of the link, clipped to that of its memory, covers the instant -/
def linkCovers (asOf : Time) (link : MemoryEntity) (m : Memory) : Bool :=
  max (link.validAt.getD m.validFrom) m.validFrom ≤ asOf ∧ asOf < min (link.invalidAt.getD openEnd) (m.validTo.getD openEnd)

def memoryIdsForEntities (g : EvidenceGraph) (entityIds : List EntityId) : List AtomId :=
  (g.memoryEntities.filter (·.entityId ∈ entityIds)).map (·.memoryId)

def memoryIdsForEntitiesAsOf (g : EvidenceGraph) (entityIds : List EntityId) (asOf : Time) : List AtomId :=
  (g.memoryEntities.filter fun link => link.entityId ∈ entityIds ∧
    g.memories.any fun m => m.id = link.memoryId ∧ linkCovers asOf link m.toMemory).map (·.memoryId)

/-- what the entity filter is intersected with; `none` is no filter -/
def SearchFilters.linkedIds (E : Env) (entities : List EntityRow) (g : EvidenceGraph) (f : SearchFilters) :
    Option (List AtomId) :=
  f.entity.map fun name =>
    let entityIds := resolveIds E entities name
    match f.asOf with
    | some t => memoryIdsForEntitiesAsOf g entityIds t
    | none => memoryIdsForEntities g entityIds

/-! ## What the clauses admit -/

/-- the row's column is one of what the value names, or the value is an empty list -/
def Names (value : StringOrList) (column : Option String) : Prop :=
  match value with
  | .one v => column = some v
  | .list vs => vs = [] ∨ ∃ v ∈ vs, column = some v

variable {f : SearchFilters} {m : Memory}

theorem columnClause_holds {column : Column} {value : StringOrList} :
    (columnClause column (.text value)).all (·.holds m) = true ↔ Names value (column.read m) := by
  cases value with
  | one v => simp [columnClause, Clause.holds, Names]
  | list vs =>
    cases vs with
    | nil => simp [columnClause, Names]
    | cons v vs => simp [columnClause, Clause.holds, Names, Option.any_eq_true, and_comm]

theorem listClause_holds {α : Type} {clause : List α → Clause} {p : List α → Prop}
    (h : ∀ values, (clause values).holds m = true ↔ p values) (o : Option (List α)) :
    (listClause clause o).all (·.holds m) = true ↔ ∀ values ∈ o, values ≠ [] → p values := by
  match o with
  | none => simp [listClause]
  | some [] => simp [listClause]
  | some (v :: vs) => simp [listClause, h]

/-- the registry asks for the projects, the agent and the date, in this order -/
theorem whereFilter_eq (f : SearchFilters) : f.whereFilter = listClause .typeIn f.type ++ listClause .scopeIn f.scope ++
    ((((mergeRepoAlias f.repo f.project).map .text).map (columnClause .project)).getD [] ++
      ((f.registrySqlInput .agent).map (columnClause .agent)).getD []) ++ ((f.since.map .number).map rangeClause).getD [] := by
  simp [SearchFilters.whereFilter, applySqlColumnFilters, applySqlRangeFilters, RECALL_FILTER_REGISTRY,
    SearchFilters.registrySqlInput]

theorem column_holds {column : Column} (value : Option StringOrList) :
    (((value.map FilterValue.text).map (columnClause column)).getD []).all (·.holds m) = true ↔
      ∀ v ∈ value, Names v (column.read m) := by
  cases value with
  | none => simp
  | some value => simpa using columnClause_holds

theorem agent_holds : (((f.registrySqlInput .agent).map (columnClause .agent)).getD []).all (·.holds m) = true ↔
    (f.agentMode ≠ some .boost → ∀ value ∈ f.agent, Names value m.agent) := by
  have hmode : f.agentMode.getD .filter = .filter ↔ f.agentMode ≠ some .boost := by
    rcases f.agentMode with _ | _ | _ <;> simp
  unfold SearchFilters.registrySqlInput
  dsimp only
  by_cases h : f.agentMode ≠ some .boost
  · rw [if_pos (hmode.2 h), column_holds]
    simp [h, Column.read]
  · rw [if_neg fun hfilter => h (hmode.1 hfilter)]
    simp [h]

/-- a row the filters ask for. An empty list of any kind says nothing; `repo` is one more project; the agent is asked for
only outside the mode `boost`. -/
structure Meets (f : SearchFilters) (now : Time) (m : Memory) : Prop where
  validNow : f.asOf = none → (window m).OpenAt now
  validThen : ∀ t ∈ f.asOf, (window m).Contains t
  type : ∀ types ∈ f.type, types ≠ [] → m.type ∈ types
  scope : ∀ scopes ∈ f.scope, scopes ≠ [] → m.scope ∈ scopes
  project : ∀ value ∈ mergeRepoAlias f.repo f.project, Names value m.project
  agent : f.agentMode ≠ some .boost → ∀ value ∈ f.agent, Names value m.agent
  since : ∀ since ∈ f.since, since ≤ m.createdAt

theorem valid_iff {now : Time} : validityFilterClause f.asOf now m = true ↔
    (f.asOf = none → (window m).OpenAt now) ∧ ∀ t ∈ f.asOf, (window m).Contains t := by
  cases f.asOf with
  | none => simp [validityFilterClause_now]
  | some t => simp [validityFilterClause_asOf]

/-- **The rows the clauses admit.** -/
theorem admits_iff {now : Time} : f.admits now m = true ↔ Meets f now m := by
  have htype : ∀ types, (Clause.typeIn types).holds m = true ↔ m.type ∈ types := fun types => by simp [Clause.holds]
  have hscope : ∀ scopes, (Clause.scopeIn scopes).holds m = true ↔ m.scope ∈ scopes := fun scopes => by simp [Clause.holds]
  have hsince : (((f.since.map FilterValue.number).map rangeClause).getD []).all (·.holds m) = true ↔
      ∀ since ∈ f.since, since ≤ m.createdAt := by
    cases f.since <;> simp [rangeClause, Clause.holds]
  rw [SearchFilters.admits, whereFilter_eq, List.all_append, List.all_append, List.all_append, List.all_append,
    Bool.and_eq_true, Bool.and_eq_true, Bool.and_eq_true, Bool.and_eq_true, Bool.and_eq_true, valid_iff,
    listClause_holds htype, listClause_holds hscope, column_holds, agent_holds, hsince]
  constructor
  · rintro ⟨⟨hnow, hthen⟩, ⟨⟨htypes, hscopes⟩, hprojects, hagent⟩, hfrom⟩
    exact ⟨hnow, hthen, htypes, hscopes, hprojects, hagent, hfrom⟩
  · intro h
    exact ⟨⟨h.validNow, h.validThen⟩, ⟨⟨h.type, h.scope⟩, h.project, h.agent⟩, h.since⟩

/-! ## What passes the entity filter -/

variable {E : Env} {entities : List EntityRow} {g : EvidenceGraph} {link : MemoryEntity} {t : Time} {id : AtomId}

/-- when the link of a memory is valid; one without a beginning begins with the memory -/
def linkWindow (link : MemoryEntity) (m : Memory) : Window Time := ⟨link.validAt.getD m.validFrom, link.invalidAt⟩

/-- the end the query sets where there is none is never reached -/
theorem lt_getD_openEnd {stop : Option Time} (h : t < openEnd) : t < stop.getD openEnd ↔ ∀ s ∈ stop, t < s := by
  cases stop with
  | none => simpa using h
  | some stop => simp

theorem linkCovers_iff {m : Memory} (h : t < openEnd) :
    linkCovers t link m = true ↔ (window m).Contains t ∧ (linkWindow link m).Contains t := by
  unfold linkCovers
  rw [decide_eq_true_iff, max_le_iff, lt_min_iff, lt_getD_openEnd h, lt_getD_openEnd h]
  constructor
  · rintro ⟨⟨hlink, hmemory⟩, hlinkOpen, hmemoryOpen⟩
    exact ⟨⟨hmemory, hmemoryOpen⟩, hlink, hlinkOpen⟩
  · rintro ⟨⟨hmemory, hmemoryOpen⟩, hlink, hlinkOpen⟩
    exact ⟨⟨hlink, hmemory⟩, hlinkOpen, hmemoryOpen⟩

/-- the memory is linked to an entity the name resolves to; with an `as_of`, by a link that is valid then, as the memory
itself is -/
def Passes (E : Env) (entities : List EntityRow) (g : EvidenceGraph) (f : SearchFilters) (id : AtomId) : Prop :=
  ∀ name ∈ f.entity, ∃ link ∈ g.memoryEntities, link.memoryId = id ∧ link.entityId ∈ resolveIds E entities name ∧
    ∀ t ∈ f.asOf, ∃ m ∈ g.memories, m.id = id ∧ (window m.toMemory).Contains t ∧ (linkWindow link m.toMemory).Contains t

/-- **The entity filter.** -/
theorem linked_iff_passes (hasOf : ∀ t ∈ f.asOf, t < openEnd) :
    (∀ linkedIds ∈ f.linkedIds E entities g, id ∈ linkedIds) ↔ Passes E entities g f id := by
  unfold SearchFilters.linkedIds Passes
  cases f.entity with
  | none => simp
  | some name =>
    simp only [Option.map_some, Option.mem_some_iff, forall_eq']
    cases has : f.asOf with
    | none => simp [memoryIdsForEntities, and_comm, and_left_comm]
    | some t =>
      have hcovers : ∀ link : MemoryEntity,
          (g.memories.any fun m => m.id = link.memoryId ∧ linkCovers t link m.toMemory) = true ↔
            ∃ m ∈ g.memories, m.id = link.memoryId ∧ (window m.toMemory).Contains t ∧ (linkWindow link m.toMemory).Contains t := by
        intro link
        rw [List.any_eq_true]
        refine exists_congr fun m => and_congr_right fun _ => ?_
        rw [decide_eq_true_iff, linkCovers_iff (hasOf t has)]
      simp only [memoryIdsForEntitiesAsOf, List.mem_map, List.mem_filter, decide_eq_true_iff, hcovers, Option.mem_some_iff,
        forall_eq']
      constructor
      · rintro ⟨link, ⟨hlink, hentity, hmemory⟩, rfl⟩
        exact ⟨link, hlink, rfl, hentity, hmemory⟩
      · rintro ⟨link, hlink, rfl, hentity, hmemory⟩
        exact ⟨link, ⟨hlink, hentity, hmemory⟩, rfl⟩

end AstramemLocal.Search.Pipeline
