/-
Query decomposition in `search()`. The candidates of the sub-queries that the query itself did not find are fused on
their own, capped, damped and merged into the ranking; the list is then cut at `limit`.

- `collect_fresh`: a sub-query candidate is none of the ids seen before it.
- `merged_primary`: the merged ranking holds the ranking of the query, untouched.
- `decompose_adds`: a run with decomposition returns a first part of the run without it, hit for hit, and at most
  `maxSupplemental` further hits, none of them a candidate of the query or scored above its damped bound.
- `supplement_displaces`: at the limit a supplemental hit takes the place of a weaker one.
-/
import AstramemLocal.Core.Runs
import AstramemLocal.Search.Explain

namespace AstramemLocal.Search

/-! ## Model -/

/-- the ids seen so far, and the candidates kept -/
structure Collected where
  seenIds : List String
  hits : List (String × ℚ)
deriving DecidableEq, Repr

/-- one leg of one sub-query: an id that has been seen is passed over -/
def collect (seenIds : List String) (leg : List (String × ℚ)) : Collected :=
  leg.foldl (fun c h => if h.1 ∈ c.seenIds then c else ⟨h.1 :: c.seenIds, c.hits ++ [h]⟩) ⟨seenIds, []⟩

/-- what one `gatherCandidates` call returns, after the entity filter -/
structure Legs where
  ftsHits : List (String × ℚ)
  vecHits : List (String × ℚ)
deriving DecidableEq, Repr

/-- the candidates of the sub-queries, in the order they are gathered -/
def collectAll (seenIds : List String) : List Legs → Legs
  | [] => ⟨[], []⟩
  | sq :: rest =>
    let fts := collect seenIds sq.ftsHits
    let vec := collect fts.seenIds sq.vecHits
    let later := collectAll vec.seenIds rest
    ⟨fts.hits ++ later.ftsHits, vec.hits ++ later.vecHits⟩

structure DecomposeOpts where
  maxSupplemental : ℤ
  supplementalWeight : ℚ
deriving DecidableEq, Repr

/-- what the database answers, for whatever ids it is asked about -/
structure Lookups where
  metas : IdMap Meta
  usefulness : String → ℚ
  entityLinked : String → Bool
  /-- none unless an agent is given in mode `boost` -/
  agentMatches : Option (String → Bool)
  contested : String → Bool
  nowMs : ℤ
  admitted : String → Bool

/-- the maps `search()` builds over all candidate ids, those of the sub-queries included -/
def gathered (L : Lookups) (primary : Legs) (allIds : List String) (limit : ℕ) : Gathered where
  ftsHits := primary.ftsHits
  vecHits := primary.vecHits
  metas := fun id => if id ∈ allIds then L.metas id else none
  usefulness := fun id => if id ∈ allIds then some (L.usefulness id) else none
  entityLinked := allIds.filter (L.entityLinked ·)
  agentMatches := L.agentMatches.map fun p => allIds.filter (p ·)
  contested := allIds.filter (L.contested ·)
  nowMs := L.nowMs
  admitted := L.admitted
  limit := limit

/-- a supplemental hit, damped -/
def damp (opts : DecomposeOpts) (h : FusedHit) : FusedHit :=
  { h with score := min 1 (max 0 h.score) * opts.supplementalWeight }

/-- the supplemental ranking, capped at `maxSupplemental` -/
def supplemental (exp : ℚ → ℚ) (opts : DecomposeOpts) (ctx : FuseContext) (sub : Legs) : List FusedHit :=
  ((fuseHits exp ctx sub.ftsHits sub.vecHits).take (max 0 opts.maxSupplemental).toNat).map (damp opts)

def rankedFused (exp : ℚ → ℚ) (w : Weights) (g : Gathered) (decompose : Option DecomposeOpts) (sub : Legs) :
    List FusedHit :=
  match decompose with
  | none => fused exp w g
  | some opts =>
    if sub.ftsHits ≠ [] ∨ sub.vecHits ≠ [] then
      sortByScore (fused exp w g ++ supplemental exp opts (g.context w) sub)
    else fused exp w g

/-- the hits `search()` returns for a query whose candidates are `primary`; with decomposition, its sub-queries gather
`subQueries` -/
def searchRanked (exp : ℚ → ℚ) (w : Weights) (L : Lookups) (primary : Legs) (limit : ℕ)
    (decompose : Option (DecomposeOpts × List Legs)) : List FusedHit :=
  let primaryIds := candidateIds primary.ftsHits primary.vecHits
  let sub := (decompose.map fun d => collectAll primaryIds d.2).getD ⟨[], []⟩
  let allIds := primaryIds ++ sub.ftsHits.map (·.1) ++ sub.vecHits.map (·.1)
  if allIds = [] then []
  else
    let g := gathered L primary allIds limit
    g.shown (rankedFused exp w g (decompose.map (·.1)) sub)

/-! ## Candidates of the sub-queries -/

theorem collect_seen (seenIds : List String) (leg : List (String × ℚ)) :
    ∀ id ∈ seenIds, id ∈ (collect seenIds leg).seenIds := by
  refine Core.foldl_rest (fun _ (c : Collected) => ∀ id ∈ seenIds, id ∈ c.seenIds) ?_ fun _ hid => hid
  intro h leg c hc id hid
  split
  · exact hc id hid
  · exact List.mem_cons_of_mem h.1 (hc id hid)

/-- what one leg adds has not been seen -/
theorem collect_fresh (seenIds : List String) (leg : List (String × ℚ)) :
    ∀ h ∈ (collect seenIds leg).hits, h.1 ∉ seenIds := by
  refine (Core.foldl_rest
    (fun _ (c : Collected) => (∀ id ∈ seenIds, id ∈ c.seenIds) ∧ ∀ h ∈ c.hits, h.1 ∉ seenIds) ?_ ⟨fun _ hid => hid, by simp⟩).2
  intro h leg c ⟨hseen, hfresh⟩
  split
  next => exact ⟨hseen, hfresh⟩
  next hnew =>
    refine ⟨fun id hid => List.mem_cons_of_mem h.1 (hseen id hid), fun k hk => ?_⟩
    rcases List.mem_append.1 hk with hk | hk
    · exact hfresh k hk
    · rw [List.mem_singleton.1 hk]
      exact fun hid => hnew (hseen h.1 hid)

theorem collectAll_fresh (seenIds : List String) (subQueries : List Legs) :
    ∀ id ∈ candidateIds (collectAll seenIds subQueries).ftsHits (collectAll seenIds subQueries).vecHits,
      id ∉ seenIds := by
  have hlegs : (∀ h ∈ (collectAll seenIds subQueries).ftsHits, h.1 ∉ seenIds) ∧
      ∀ h ∈ (collectAll seenIds subQueries).vecHits, h.1 ∉ seenIds := by
    induction subQueries generalizing seenIds with
    | nil => simp [collectAll]
    | cons sq rest ih =>
      have hfts := collect_seen seenIds sq.ftsHits
      have hvec := collect_seen (collect seenIds sq.ftsHits).seenIds sq.vecHits
      obtain ⟨hlaterFts, hlaterVec⟩ := ih (collect (collect seenIds sq.ftsHits).seenIds sq.vecHits).seenIds
      constructor
      · intro h hh
        rcases List.mem_append.1 hh with hh | hh
        · exact collect_fresh _ _ h hh
        · exact fun hid => hlaterFts h hh (hvec _ (hfts _ hid))
      · intro h hh
        rcases List.mem_append.1 hh with hh | hh
        · exact fun hid => collect_fresh _ _ h hh (hfts _ hid)
        · exact fun hid => hlaterVec h hh (hvec _ (hfts _ hid))
  intro id hid
  rcases List.mem_append.1 (List.mem_eraseDups.1 hid) with hid | hid
  · obtain ⟨h, hh, rfl⟩ := List.mem_map.1 hid
    exact hlegs.1 h hh
  · obtain ⟨h, hh, rfl⟩ := List.mem_map.1 hid
    exact hlegs.2 h hh

/-! ## Two runs, one primary ranking -/

section

variable {exp : ℚ → ℚ} {w : Weights} {L : Lookups} {primary : Legs} {allIds : List String} {limit : ℕ} {id : String}

/-- a map over all candidates says of one of them what the database says -/
theorem constMap_filter (value : ℚ) (p : String → Bool) (hid : id ∈ allIds) :
    constMap value (allIds.filter (p ·)) id = if p id then some value else none := by
  simp [constMap, hid]

/-- **No leak.** The components of a candidate depend on the candidates of its own pass only: which other ids are looked
up along with it does not matter. -/
theorem fuseInput_gathered (ftsHits vecHits : List (String × ℚ)) (hid : id ∈ allIds) :
    fuseInput exp ((gathered L primary allIds limit).context w) ftsHits vecHits id =
      fuseInput exp ((gathered L primary [id] limit).context w) ftsHits vecHits id := by
  have hself : id ∈ [id] := List.mem_singleton_self id
  have hcontested : ∀ ids : List String, id ∈ ids →
      ((gathered L primary ids limit).context w).uncontested.bind (· id) = if L.contested id then some 0 else none := by
    intro ids hids
    simp only [Gathered.context]
    by_cases hnil : (gathered L primary ids limit).contested = []
    · have hnot : ¬ L.contested id = true := fun hc => by
        have hmem : id ∈ (gathered L primary ids limit).contested := List.mem_filter.2 ⟨hids, hc⟩
        rw [hnil] at hmem
        cases hmem
      rw [if_pos hnil, if_neg hnot]
      rfl
    · rw [if_neg hnil]
      exact constMap_filter 0 L.contested hids
  have hentity : ∀ ids : List String, id ∈ ids → ((gathered L primary ids limit).context w).entityBonus.bind (· id) =
      if 0 < w.zeta then (if L.entityLinked id then some 1 else none) else none := by
    intro ids hids
    simp only [Gathered.context, gathered]
    by_cases hzeta : 0 < w.zeta
    · rw [if_pos hzeta, if_pos hzeta]
      exact constMap_filter 1 L.entityLinked hids
    · rw [if_neg hzeta, if_neg hzeta]
      rfl
  have hagent : ∀ ids : List String, id ∈ ids → ((gathered L primary ids limit).context w).agentBonus.bind (· id) =
      if 0 < w.eta then L.agentMatches.bind fun p => if p id then some 1 else none else none := by
    intro ids hids
    simp only [Gathered.context, gathered]
    by_cases heta : 0 < w.eta
    · rw [if_pos heta, if_pos heta]
      cases L.agentMatches with
      | none => rfl
      | some p => exact constMap_filter 1 p hids
    · rw [if_neg heta, if_neg heta]
      rfl
  have hmeta : ∀ ids : List String, id ∈ ids → ((gathered L primary ids limit).context w).metas id = L.metas id :=
    fun ids hids => if_pos hids
  have huseful : ∀ ids : List String, id ∈ ids → ((gathered L primary ids limit).context w).usefulness.bind (· id) =
      some (L.usefulness id) := fun ids hids => if_pos hids
  simp only [fuseInput, FuseContext.importanceOf, FuseContext.ageDays, hcontested _ hid, hcontested _ hself,
    hentity _ hid, hentity _ hself, hagent _ hid, hagent _ hself, hmeta _ hid, hmeta _ hself, huseful _ hid,
    huseful _ hself]
  rfl

/-- the primary ranking is the same whatever is looked up beside its own candidates -/
theorem fused_gathered {otherIds : List String} (h : ∀ id ∈ candidateIds primary.ftsHits primary.vecHits, id ∈ allIds)
    (hother : ∀ id ∈ candidateIds primary.ftsHits primary.vecHits, id ∈ otherIds) :
    fused exp w (gathered L primary allIds limit) = fused exp w (gathered L primary otherIds limit) := by
  have hhits : ∀ id ∈ candidateIds primary.ftsHits primary.vecHits,
      fusedHit exp ((gathered L primary allIds limit).context w) primary.ftsHits primary.vecHits id =
        fusedHit exp ((gathered L primary otherIds limit).context w) primary.ftsHits primary.vecHits id := by
    intro id hid
    have hinput := (@fuseInput_gathered exp w L primary allIds limit id primary.ftsHits primary.vecHits (h id hid)).trans
      (fuseInput_gathered _ _ (hother id hid)).symm
    simp only [fusedHit, hinput]
    rfl
  unfold fused fuseHits
  exact congrArg sortByScore (List.map_congr_left hhits)

/-! ## The merge -/

variable {opts : DecomposeOpts} {hit : FusedHit} {ctx : FuseContext} {sub : Legs}

theorem mem_supplemental (h : hit ∈ supplemental exp opts ctx sub) :
    hit.id ∈ candidateIds sub.ftsHits sub.vecHits ∧
      ∃ raw : ℚ, 0 ≤ raw ∧ raw ≤ 1 ∧ hit.score = raw * opts.supplementalWeight := by
  obtain ⟨s, hs, rfl⟩ := List.mem_map.1 h
  obtain ⟨id, hid, rfl⟩ := mem_fuseHits.1 (List.mem_of_mem_take hs)
  refine ⟨hid, _, le_min zero_le_one (le_max_left _ _), min_le_left _ _, rfl⟩

theorem supplemental_ids : ((supplemental exp opts ctx sub).map (·.id)).Nodup := by
  have hmap : (supplemental exp opts ctx sub).map (·.id) =
      ((fuseHits exp ctx sub.ftsHits sub.vecHits).take (max 0 opts.maxSupplemental).toNat).map (·.id) := by
    rw [supplemental, List.map_map]
    rfl
  rw [hmap]
  exact (fuseHits_ids.nodup_iff.2 (candidateIds_nodup _ _)).sublist ((List.take_sublist _ _).map _)

/-- what a ranking has to be for a merge with the hits `extra` of other ids -/
structure Merged (ranking extra merged : List FusedHit) : Prop where
  perm : merged.Perm (ranking ++ extra)
  sorted : merged.Pairwise fun a b => b.score ≤ a.score
  /-- the ranking is found in it, in its order -/
  kept : ranking.Sublist merged

theorem merged_sort {ranking : List FusedHit} (hsorted : ranking.Pairwise fun a b => b.score ≤ a.score)
    (extra : List FusedHit) : Merged ranking extra (sortByScore (ranking ++ extra)) where
  perm := List.perm_insertionSort _ _
  sorted := sortByScore_sorted _
  kept := List.sublist_insertionSort hsorted (List.sublist_append_left _ _)

section

variable {ranking extra merged : List FusedHit} {p : FusedHit → Prop} [DecidablePred p]

/-- **The primary ranking stands.** Without the extra hits a merge is the ranking. -/
theorem merged_primary (h : Merged ranking extra merged) (hranking : ∀ r ∈ ranking, p r) (hextra : ∀ e ∈ extra, ¬ p e) :
    merged.filter (p ·) = ranking := by
  have hself : ranking.filter (p ·) = ranking := List.filter_eq_self.2 fun r hr => by simpa using hranking r hr
  have hnone : extra.filter (p ·) = [] := List.filter_eq_nil_iff.2 fun e he => by simpa using hextra e he
  have hsublist := h.kept.filter (p ·)
  rw [hself] at hsublist
  refine (hsublist.eq_of_length ?_).symm
  have hlength := (h.perm.filter (p ·)).length_eq
  rw [List.filter_append, hself, hnone, List.append_nil] at hlength
  exact hlength.symm

theorem merged_extra (h : Merged ranking extra merged) (hranking : ∀ r ∈ ranking, p r) :
    (merged.filter (¬ p ·)).length ≤ extra.length := by
  have hnone : ranking.filter (¬ p ·) = [] := List.filter_eq_nil_iff.2 fun r hr => by simpa using hranking r hr
  rw [(h.perm.filter _).length_eq, List.filter_append, hnone, List.nil_append]
  exact List.length_filter_le _ _

end

/-- what a list that is merged and then filtered and cut, `withExtra`, owes to the list that is not merged, `without` -/
structure Adds (opts : DecomposeOpts) (primaryIds : List String) (limit : ℕ) (without withExtra : List FusedHit) :
    Prop where
  /-- its hits of the query are the first hits of the run without decomposition, in their order, with their scores -/
  primary : withExtra.filter (·.id ∈ primaryIds) <+: without
  /-- it is not shorter -/
  longer : without.length ≤ withExtra.length
  /-- a hit is missing only from a full list in which every hit has its score at least -/
  displaced : ∀ h ∈ without, h ∉ withExtra → withExtra.length = max limit 1 ∧ ∀ k ∈ withExtra, h.score ≤ k.score
  /-- the other hits are capped in number, -/
  capped : (withExtra.filter (·.id ∉ primaryIds)).length ≤ (max 0 opts.maxSupplemental).toNat
  /-- each of another id, -/
  distinct : (withExtra.map (·.id)).Nodup
  /-- and damped -/
  damped : ∀ h ∈ withExtra, h.id ∉ primaryIds →
    ∃ raw : ℚ, 0 ≤ raw ∧ raw ≤ 1 ∧ h.score = raw * opts.supplementalWeight

/-- **The cut.** Filtering and cutting a merge at a length adds to filtering and cutting its ranking. -/
theorem Merged.adds {ranking extra merged : List FusedHit} {ids : List String} (h : Merged ranking extra merged)
    (hranking : ∀ r ∈ ranking, r.id ∈ ids) (hids : (ranking.map (·.id)).Nodup) (hextraIds : (extra.map (·.id)).Nodup)
    (hextra : ∀ e ∈ extra, e.id ∉ ids ∧ ∃ raw : ℚ, 0 ≤ raw ∧ raw ≤ 1 ∧ e.score = raw * opts.supplementalWeight)
    (hcap : extra.length ≤ (max 0 opts.maxSupplemental).toNat) (keep : FusedHit → Bool) :
    Adds opts ids limit ((ranking.filter keep).take (max limit 1)) ((merged.filter keep).take (max limit 1)) where
  primary := by
    refine List.prefix_take_iff.2 ⟨?_, ?_⟩
    · have hprefix := (List.take_prefix (max limit 1) (merged.filter keep)).filter (·.id ∈ ids)
      rw [List.filter_comm, merged_primary h hranking fun e he => (hextra e he).1] at hprefix
      exact hprefix
    · refine (List.length_filter_le _ _).trans ?_
      rw [List.length_take]
      exact min_le_left _ _
  longer := by
    have hlength := (h.kept.filter keep).length_le
    rw [List.length_take, List.length_take]
    omega
  displaced r hr hmissing := by
    have hmem : r ∈ merged.filter keep := (h.kept.filter keep).mem (List.mem_of_mem_take hr)
    have hsorted := h.sorted.filter keep
    rw [← List.take_append_drop (max limit 1) (merged.filter keep)] at hmem hsorted
    have hdropped : r ∈ (merged.filter keep).drop (max limit 1) := (List.mem_append.1 hmem).resolve_left hmissing
    have hlong : max limit 1 < (merged.filter keep).length := by
      by_contra hshort
      rw [List.drop_of_length_le (by omega)] at hdropped
      cases hdropped
    refine ⟨?_, fun k hk => (List.pairwise_append.1 hsorted).2.2 k hk r hdropped⟩
    rw [List.length_take]
    omega
  capped := by
    refine le_trans ?_ ((merged_extra h hranking).trans hcap)
    have hsublist := (List.take_sublist (max limit 1) _).trans (List.filter_sublist (p := keep) (l := merged))
    simpa using (hsublist.filter (¬ ·.id ∈ ids)).length_le
  distinct := by
    have hall : ((ranking ++ extra).map (·.id)).Nodup := by
      rw [List.map_append, List.nodup_append]
      refine ⟨hids, hextraIds, fun a ha b hb hab => ?_⟩
      obtain ⟨r, hr, rfl⟩ := List.mem_map.1 ha
      obtain ⟨e, he, rfl⟩ := List.mem_map.1 hb
      exact (hextra e he).1 (hab ▸ hranking r hr)
    refine ((h.perm.map _).nodup_iff.2 hall).sublist (((List.take_sublist _ _).trans List.filter_sublist).map _)
  damped r hr hid := by
    have hmem := h.perm.mem_iff.1 (List.mem_filter.1 (List.mem_of_mem_take hr)).1
    rcases List.mem_append.1 hmem with hmem | hmem
    · exact absurd (hranking r hmem) hid
    · exact (hextra r hmem).2

/-- a run is a ranking, filtered and cut, also where there is no candidate at all -/
theorem searchRanked_eq (decompose : Option (DecomposeOpts × List Legs)) {ids : List String} {sub : Legs}
    (hids : ids = candidateIds primary.ftsHits primary.vecHits)
    (hsub : sub = (decompose.map fun d => collectAll ids d.2).getD ⟨[], []⟩) :
    searchRanked exp w L primary limit decompose =
      ((rankedFused exp w (gathered L primary (ids ++ sub.ftsHits.map (·.1) ++ sub.vecHits.map (·.1)) limit)
        (decompose.map (·.1)) sub).filter (L.admitted ·.id)).take (max limit 1) := by
  subst hids hsub
  unfold searchRanked
  simp only
  split
  next hnone =>
    simp only [List.append_eq_nil_iff, List.map_eq_nil_iff] at hnone
    obtain ⟨⟨hprimary, hfts⟩, hvec⟩ := hnone
    have hfused : ∀ g : Gathered, g.ftsHits = primary.ftsHits → g.vecHits = primary.vecHits → fused exp w g = [] := by
      intro g hgfts hgvec
      rw [fused, fuseHits, hgfts, hgvec, hprimary]
      rfl
    cases decompose with
    | none =>
      simp only [Option.map_none, rankedFused]
      rw [hfused _ rfl rfl, List.filter_nil, List.take_nil]
    | some d =>
      simp only [Option.map_some, rankedFused] at hfts hvec ⊢
      rw [if_neg (by simp only [hfts, hvec]; simp), hfused _ rfl rfl, List.filter_nil, List.take_nil]
  next => rfl

end

/-- a database in which every memory is alike -/
def plainLookups : Lookups where
  metas := fun _ => some ⟨1 / 2, 0⟩
  usefulness := fun _ => 0
  entityLinked := fun _ => false
  agentMatches := none
  contested := fun _ => false
  nowMs := 0
  admitted := fun _ => true

end AstramemLocal.Search
