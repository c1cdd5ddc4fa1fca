/-
`search()` of `src/search/search.ts` as a whole: the candidates of a query, of its sub-queries and of its rewritten variants,
the entity filter, the fusion and the two merges, the selection of the rows, the rerank stage and the evidence bundle. What
FTS5, the vector index, the providers and the language's Unicode tables answer is a parameter.
-/
import AstramemLocal.Search.Decompose
import AstramemLocal.Search.Explain
import AstramemLocal.Search.FtsQuery
import AstramemLocal.Search.Rerank
import AstramemLocal.Search.SearchFilters
import AstramemLocal.Search.VariantHits

namespace AstramemLocal.Search.Pipeline

open AstramemLocal.Core AstramemLocal.Store

/-! ## Model -/

inductive Mode where
  | keyword
  | semantic
  | hybrid
deriving DecidableEq, Repr

/-- what the language and its runtime answer -/
structure Language where
  fts : FtsQuery.Env
  store : Env
  exp : ℚ → ℚ
  entityNameMatchesQuery : String → String → Bool
  /-- the text of a sequence of code units, as it is sent to a provider -/
  text : JsString → String

/-- what the two indexes answer for as many rows as they are asked for, best first -/
structure Index where
  /-- `none` when FTS5 rejects the query -/
  fts : JsString → ℕ → Option (List (AtomId × ℚ))
  /-- the embedding and the nearest neighbours; `none` when either fails -/
  knn : String → ℕ → Option (List (AtomId × ℚ))
  queryPrefix : String := ""

/-- the database beside the indexes -/
structure SearchDb extends EvidenceGraph where
  entities : List EntityRow := []
  usefulness : AtomId → ℚ
  /-- the loser of an open contradiction -/
  contested : AtomId → Bool := fun _ => false
  order : RowOrder
  /-- the text of an id -/
  idText : AtomId → String
  idText_inj : Function.Injective idText

/-- the options of a call, and what the clock and the providers answer it -/
structure SearchOpts where
  weights : Weights
  vecK : Option ℕ := none
  mode : Mode := .hybrid
  /-- with the sub-queries that are gathered before the fan-out's time is over -/
  decompose : Option (DecomposeOpts × List String) := none
  /-- `maxCandidates` and the variants that are gathered, when the call asks to expand -/
  rewrite : Option (ℤ × List String) := none
  rerank : Option RerankOpts := none
  evidenceBundling : Option EvidenceBundlingOpts := none
  nowMs : ℤ
  /-- when the validity clause is built -/
  validAt : Time

section
variable (L : Language) (X : Index) (db : SearchDb)

/-- a leg that fails has no rows -/
def gatherCandidates (mode : Mode) (vecK : ℕ) (query : String) : Legs :=
  let text := JsString.ofString query
  let named := fun rows : List (AtomId × ℚ) => rows.map fun h => (db.idText h.1, h.2)
  { ftsHits := if mode ≠ .semantic ∧ JsString.trim text ≠ [] then
      named ((X.fts (FtsQuery.escapeFtsQuery L.fts text) vecK).getD []) else []
    vecHits := if mode ≠ .keyword then named ((X.knn (X.queryPrefix ++ query) vecK).getD []) else [] }

def applyEntityFilter (f : SearchFilters) (legs : Legs) : Legs :=
  match f.linkedIds L.store db.entities db.toEvidenceGraph with
  | none => legs
  | some linkedIds =>
    let linked := linkedIds.map db.idText
    ⟨legs.ftsHits.filter (·.1 ∈ linked), legs.vecHits.filter (·.1 ∈ linked)⟩

/-- the row of a text id -/
def SearchDb.row (id : String) : Option BundleRow := db.memories.find? (db.idText ·.id = id)

def entityBonusForQuery (query : String) (id : String) : Bool :=
  let q := L.store.toLowerCase (String.ofList (trimSpaces query.toList))
  q ≠ "" && db.memoryEntities.any fun link => db.idText link.memoryId = id ∧
    db.entities.any fun e => e.id = link.entityId ∧ L.entityNameMatchesQuery q e.name

def agentBonusForFilter (agent : StringOrList) (id : String) : Bool :=
  (db.row id).any fun m =>
    match agent with
    | .one a => m.agent = some a
    | .list as => m.agent.any (· ∈ as)

/-- what the database says of an id -/
def lookups (query : String) (f : SearchFilters) (o : SearchOpts) : Lookups where
  metas := fun id => (db.row id).map fun m => ⟨m.importance, m.createdAt⟩
  usefulness := fun id => ((db.row id).map (db.usefulness ·.id)).getD (1 / 2)
  entityLinked := entityBonusForQuery L db query
  agentMatches := if f.agentMode = some .boost then f.agent.map (agentBonusForFilter db) else none
  contested := fun id => (db.row id).any (db.contested ·.id)
  nowMs := o.nowMs
  admitted := fun id => (db.row id).any (f.admits o.validAt ·.toMemory)

/-- how many rows a leg is asked for -/
def SearchOpts.legSize (o : SearchOpts) (limit : ℕ) : ℕ := o.vecK.getD (max (limit * 4) 50)

/-- the candidates of one text -/
def gather (f : SearchFilters) (limit : ℕ) (o : SearchOpts) (text : String) : Legs :=
  applyEntityFilter L db f (gatherCandidates L X db o.mode (o.legSize limit) text)

/-- the candidates of a call: its own, those its sub-queries add, and those of each variant -/
structure Candidates where
  primary : Legs
  sub : Legs
  variants : List Legs

def legIds (legs : Legs) : List String := candidateIds legs.ftsHits legs.vecHits

def candidates (query : String) (f : SearchFilters) (limit : ℕ) (o : SearchOpts) : Candidates :=
  let gather := gather L X db f limit o
  let primary := gather query
  { primary
    sub := (o.decompose.map fun d => collectAll (legIds primary) (d.2.map gather)).getD ⟨[], []⟩
    variants := (o.rewrite.map fun r => r.2.map gather).getD [] }

def Candidates.allIds (c : Candidates) : List String := legIds c.primary ++ legIds c.sub ++ c.variants.flatMap legIds

/-- what `search()` holds when it comes to fuse -/
def fusion (query : String) (f : SearchFilters) (limit : ℕ) (o : SearchOpts) (c : Candidates) : Gathered :=
  gathered (lookups L db query f o) c.primary c.allIds limit

/-- the candidates fused, with the sub-queries' merged in -/
def fusedWithSub (query : String) (f : SearchFilters) (limit : ℕ) (o : SearchOpts) (c : Candidates) : List FusedHit :=
  rankedFused L.exp o.weights (fusion L db query f limit o c) (o.decompose.map (·.1)) c.sub

def rewriteFusedLists (query : String) (f : SearchFilters) (limit : ℕ) (o : SearchOpts) (c : Candidates) :
    List (List FusedHit) :=
  c.variants.map fun v => fuseHits L.exp ((fusion L db query f limit o c).context o.weights) v.ftsHits v.vecHits

/-- `rankedFused`, with the variants merged in as well -/
def ranking (query : String) (f : SearchFilters) (limit : ℕ) (o : SearchOpts) (c : Candidates) : List FusedHit :=
  match o.rewrite with
  | none => fusedWithSub L db query f limit o c
  | some (maxCandidates, _) =>
    if c.variants = [] then fusedWithSub L db query f limit o c
    else mergeVariantHits (fusedWithSub L db query f limit o c) (rewriteFusedLists L db query f limit o c) maxCandidates

/-- `computeTopSignal`: the largest contribution, the first by name among equals -/
def computeTopSignal (signals : List ScoreSignal) : Option String :=
  ((signals.insertionSort fun a b => a.name ≤ b.name).foldl
    (fun winner s => if winner.all (·.final < s.final) then some s else winner) none).map (·.name)

def multiHop (o : SearchOpts) (raw : IdMap ℚ) (hit : FusedHit) : List ScoreSignal :=
  ((raw hit.id).map fun r =>
    ⟨"multi_hop", r, ((o.decompose.map (·.1.supplementalWeight)).getD 0), hit.score⟩).toList

def toSearchHit (signals : List ScoreSignal) (hit : FusedHit) (m : BundleRow) : EvidenceHit where
  id := m.id
  type := m.type
  text := m.text
  score := hit.score
  source := hit.source
  scope := m.scope
  importance := m.importance
  confidence := m.confidence
  createdAt := m.createdAt
  captureSource := m.captureSource
  evidence := evidenceExcerpt m
  signals := signals
  topSignal := computeTopSignal signals

/-- `supplementalRawScore` -/
def supplementalRawScore (w : Weights) (g : Gathered) (sub : Legs) (decompose : Option DecomposeOpts) : IdMap ℚ :=
  mapOf ((decompose.map fun d =>
    ((fuseHits L.exp (g.context w) sub.ftsHits sub.vecHits).take (max 0 d.maxSupplemental).toNat).map
      fun h => (h.id, min 1 (max 0 h.score))).getD [])

/-- the row of a ranked id, when it is selected -/
def selected (f : SearchFilters) (o : SearchOpts) (id : String) : Option BundleRow :=
  (db.row id).filter (f.admits o.validAt ·.toMemory)

/-- the hit a ranked id becomes -/
def searchHit (query : String) (f : SearchFilters) (limit : ℕ) (o : SearchOpts) (c : Candidates) (hit : FusedHit) :
    Option EvidenceHit :=
  let g := fusion L db query f limit o c
  (selected db f o hit.id).map fun m => toSearchHit (buildExplanation L.exp o.weights g hit.id ++
    multiHop o (supplementalRawScore L o.weights g c.sub (o.decompose.map (·.1))) hit) hit m

/-- how many hits are built: a reranker gets its whole window -/
def SearchOpts.buildLimit (o : SearchOpts) (limit : ℕ) : ℕ := (o.rerank.map fun r => (max (limit : ℤ) r.topK).toNat).getD limit

/-- the ranking, as far as its rows are selected, cut at `buildLimit`; the loop looks at its length after a hit -/
def results (query : String) (f : SearchFilters) (limit : ℕ) (o : SearchOpts) (c : Candidates) : List EvidenceHit :=
  ((ranking L db query f limit o c).filterMap (searchHit L db query f limit o c)).take (max (o.buildLimit limit) 1)

/-- a reranked hit: `reranked` and `rerank_score` are the added signal and its `final` -/
def withCrossEncoder : EvidenceHit × Option RerankFields → EvidenceHit
  | (h, none) => h
  | (h, some r) =>
    let signals := h.signals ++ [⟨"cross_encoder", r.crossEncoder.raw, r.crossEncoder.weight, r.crossEncoder.final⟩]
    { h with signals, topSignal := computeTopSignal signals }

def rerankInput (h : EvidenceHit) : RerankInput := ⟨db.idText h.id, h.text, h.score, h.evidence.map L.text⟩

/-- the hits before the bundle -/
def finalHits (query : String) (f : SearchFilters) (limit : ℕ) (o : SearchOpts) : List EvidenceHit :=
  let c := candidates L X db query f limit o
  if c.allIds = [] then []
  else
    let results := results L db query f limit o c
    match o.rerank with
    | none => results
    | some rerank => ((applyRerank (rerankInput L db) query results rerank).map withCrossEncoder).take limit

def search (query : String) (f : SearchFilters) (limit : ℕ) (o : SearchOpts) : List EvidenceHit :=
  let hits := finalHits L X db query f limit o
  match o.evidenceBundling with
  | none => hits
  | some opts => applyEvidenceBundling db.order db.toEvidenceGraph hits (f.admits o.validAt ·.toMemory) opts

end

end AstramemLocal.Search.Pipeline
