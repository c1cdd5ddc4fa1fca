/-
What recall takes for current: the default search filter (`src/search/search.ts`), the candidates of the injected pack
(`selectPack` of `src/recall/pack.ts`) and the memory tool's listing (`src/memory-tool/adapter.ts`).

- `surfaces_agree_iff`: the three agree at an instant iff no row has a `valid_to` behind it.
- `future_end_is_dropped`: a row that is valid until later is found by search and is in neither of the others.
-/
import AstramemLocal.MemoryTool.Adapter
import AstramemLocal.Search.Validity

namespace AstramemLocal.Recall

open AstramemLocal.Store AstramemLocal.Search AstramemLocal.MemoryTool

/-! ## The pack's candidates -/

structure PackOptions where
  repo : String
  project : Option String := none
  branch : Option String := none
deriving DecidableEq, Repr

/-- `CANDIDATE_LIMIT` -/
def candidateLimit : ℕ := 500

/-- `ORDER BY created_at DESC, id DESC` -/
def newerFirst (a b : Memory) : Bool := b.createdAt < a.createdAt || (b.createdAt = a.createdAt && b.id ≤ a.id)

/-- the first rows of a selection -/
def firstCandidates (rows : List Memory) : List Memory := (rows.insertionSort (newerFirst · ·)).take candidateLimit

/-- the rows `selectPack` scores -/
def packCandidates (db : St) (opts : PackOptions) : List Memory :=
  let projectFilter := opts.project.getD opts.repo
  firstCandidates (db.memories.filter fun m =>
    m.project = some projectFilter ∧ m.validTo = none ∧ opts.branch.all fun branch => m.branch = some branch)

/-! ## Agreement -/

/-- the default search filter admits the row -/
def Admitted (now : Time) (m : Memory) : Prop := validityFilterClause none now m = true

instance (now : Time) (m : Memory) : Decidable (Admitted now m) := by unfold Admitted; infer_instance

/-- at that instant each project's pack has the admitted rows of the project, as many as it takes, and each type's listing
the admitted rows of the type -/
structure Agree (db : St) (now : Time) : Prop where
  pack : ∀ repo, packCandidates db { repo } =
    firstCandidates (db.memories.filter fun m => m.project = some repo ∧ Admitted now m)
  tool : ∀ type m, m ∈ listValidMemoriesByType db type ↔ m ∈ db.memories ∧ m.type = type ∧ Admitted now m

variable {db : St} {now : Time} {m : Memory}

theorem admitted_iff : Admitted now m ↔ m.validTo = none ∨ ∃ t, m.validTo = some t ∧ now < t := by
  unfold Admitted validityFilterClause
  cases h : m.validTo with
  | none => simp
  | some t => simp

/-- a row whose end is not ahead is admitted iff it has none -/
theorem admitted_of_past (h : ∀ t, m.validTo = some t → t ≤ now) : Admitted now m ↔ m.validTo = none := by
  rw [admitted_iff]
  refine or_iff_left ?_
  rintro ⟨t, ht, hlt⟩
  exact absurd hlt (not_lt.2 (h t ht))

/-- **Recall surfaces.** -/
theorem surfaces_agree_iff (db : St) (now : Time) :
    Agree db now ↔ ∀ m ∈ db.memories, ∀ t, m.validTo = some t → t ≤ now := by
  constructor
  · intro h m hm t ht
    by_contra hlt
    have hadmitted : Admitted now m := admitted_iff.2 (.inr ⟨t, ht, not_le.1 hlt⟩)
    have hlisted := (h.tool m.type m).2 ⟨hm, rfl, hadmitted⟩
    have hnone := (mem_listValid.1 hlisted).2.2
    rw [ht] at hnone
    cases hnone
  · intro h
    constructor
    · intro repo
      refine congrArg firstCandidates (List.filter_congr fun m hm => ?_)
      simp [admitted_of_past (h m hm)]
    · intro type m
      rw [mem_listValid]
      refine and_congr_right fun hm => and_congr_right fun _ => ?_
      exact (admitted_of_past (h m hm)).symm

/-- a support contract that runs until 100 -/
def contract : Memory :=
  { rowid := 1, id := 1, type := .fact, text := "support contract", normalizedText := "support contract", repo := none,
    project := some "p", branch := none, agent := none, sessionId := none, importance := 1, confidence := 1, hash := 1,
    createdAt := 0, updatedAt := 0, sourceHash := none, evidence := none, validFrom := 0, validTo := some 100,
    scope := .priv }

/-- At 50 search admits it; the pack of its project and the list of its type are empty. -/
theorem future_end_is_dropped :
    Admitted 50 contract ∧ packCandidates { memories := [contract] } { repo := "p" } = [] ∧
      listValidMemoriesByType { memories := [contract] } .fact = [] ∧ ¬ Agree { memories := [contract] } 50 := by
  refine ⟨by decide, by decide, by decide, fun h => ?_⟩
  have hlisted := (h.tool .fact contract).2 (by decide)
  exact absurd hlisted (by decide)

end AstramemLocal.Recall
