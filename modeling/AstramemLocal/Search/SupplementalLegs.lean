/-
The legs of a supplemental candidate. `collectAll` keeps one set of seen ids for the query, its sub-queries and both legs
of each, so an id that the text leg has just contributed is passed over in the vector leg of the same sub-query: the two
supplemental lists have no id in common (`collectAll_disjoint`), and no supplemental candidate carries both scores. The
candidates of the query, and those of each rewrite variant, keep both.
-/
import AstramemLocal.Search.Decompose

namespace AstramemLocal.Search

variable {exp : ℚ → ℚ} {ctx : FuseContext} {primaryIds seenIds : List String} {subQueries : List Legs} {id : String}

/-- the candidate with both its scores -/
def CarriesBoth (exp : ℚ → ℚ) (ctx : FuseContext) (sub : Legs) (id : String) : Prop :=
  ∃ hit ∈ fuseHits exp ctx sub.ftsHits sub.vecHits, hit.id = id ∧ hit.source = .both

theorem carriesBoth_iff {sub : Legs} :
    CarriesBoth exp ctx sub id ↔ id ∈ sub.ftsHits.map (·.1) ∧ id ∈ sub.vecHits.map (·.1) := by
  have hsource : hitSource sub.ftsHits sub.vecHits id = .both ↔
      id ∈ sub.ftsHits.map (·.1) ∧ id ∈ sub.vecHits.map (·.1) := by
    unfold hitSource
    split
    next hboth => exact iff_of_true rfl hboth
    next hnot =>
      refine iff_of_false ?_ hnot
      split <;> simp
  constructor
  · rintro ⟨hit, hhit, rfl, hboth⟩
    obtain ⟨id, -, rfl⟩ := mem_fuseHits.1 hhit
    exact hsource.1 hboth
  · intro hboth
    exact ⟨fusedHit exp ctx sub.ftsHits sub.vecHits id,
      mem_fuseHits.2 ⟨id, mem_candidateIds.2 (.inl hboth.1), rfl⟩, rfl, hsource.2 hboth⟩

/-- an id that a leg has contributed has been seen -/
theorem collect_contributed (seenIds : List String) (leg : List (String × ℚ)) :
    ∀ h ∈ (collect seenIds leg).hits, h.1 ∈ (collect seenIds leg).seenIds := by
  refine Core.foldl_rest (fun _ (c : Collected) => ∀ h ∈ c.hits, h.1 ∈ c.seenIds) ?_ (by simp)
  intro h leg c hc
  split
  next => exact hc
  next =>
    intro k hk
    rcases List.mem_append.1 hk with hk | hk
    · exact List.mem_cons_of_mem h.1 (hc k hk)
    · rw [List.mem_singleton.1 hk]
      exact List.mem_cons_self

/-- **One leg each.** No id is in both supplemental lists. -/
theorem collectAll_disjoint (seenIds : List String) (subQueries : List Legs) :
    ∀ id ∈ (collectAll seenIds subQueries).ftsHits.map (·.1), id ∉ (collectAll seenIds subQueries).vecHits.map (·.1) := by
  induction subQueries generalizing seenIds with
  | nil => simp [collectAll]
  | cons sq rest ih =>
    let fts := collect seenIds sq.ftsHits
    let vec := collect fts.seenIds sq.vecHits
    have hlater := collectAll_fresh vec.seenIds rest
    intro id hfts hvec
    rw [collectAll, List.map_append, List.mem_append] at hfts hvec
    rcases hfts with hfts | hfts
    · obtain ⟨h, hh, rfl⟩ := List.mem_map.1 hfts
      have hseen : h.1 ∈ fts.seenIds := collect_contributed _ _ h hh
      rcases hvec with hvec | hvec
      · obtain ⟨k, hk, heq⟩ := List.mem_map.1 hvec
        exact collect_fresh _ _ k hk (heq ▸ hseen)
      · exact hlater h.1 (mem_candidateIds.2 (.inr hvec)) (collect_seen _ _ _ hseen)
    · rcases hvec with hvec | hvec
      · obtain ⟨k, hk, rfl⟩ := List.mem_map.1 hvec
        exact hlater k.1 (mem_candidateIds.2 (.inl hfts)) (collect_contributed _ _ k hk)
      · exact ih vec.seenIds id hfts hvec

/-- text and vector score weigh the same, and nothing else does -/
def twoLegContext : FuseContext where
  metas _ := none
  weights := ⟨1 / 2, 1 / 2, 0, 0, 0, 0, 0, 0, .minmax⟩
  nowMs := 0
  freshnessDecayDays := 30
  usefulness := none
  entityBonus := none
  agentBonus := none
  uncontested := none

end AstramemLocal.Search
