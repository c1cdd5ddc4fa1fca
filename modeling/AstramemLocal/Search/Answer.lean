/-
What a search answers, over `AstramemLocal.Search.Pipeline`, whatever the indexes, the providers and the database answer and
whichever stages run.

- `search_sound`: a hit is a stored memory that is valid and meets every filter, no memory is shown twice, and every hit
  that was not bundled has been found by a leg the mode allows and passes the entity filter; there are at most `limit`.
- `search_complete`: a memory the query finds is missing only from a full answer or from a full merge with variants.
- `rewrite_loses`: the merge is cut before the filters are asked, so rewriting can lose an answer.
-/
import AstramemLocal.Search.Pipeline
import Mathlib.Data.List.Perm.Subperm

namespace AstramemLocal.Search.Pipeline

open AstramemLocal.Core AstramemLocal.Store

/-! ## What is gathered -/

variable {L : Language} {X : Index} {db : SearchDb} {f : SearchFilters} {o : SearchOpts} {query text : String} {limit : ℕ}
  {id : AtomId} {c : Candidates}

/-- a leg that the mode allows returns the memory for the text -/
inductive Found (L : Language) (X : Index) (mode : Mode) (k : ℕ) (text : String) (id : AtomId) : Prop
  | keyword {rows : List (AtomId × ℚ)} {bm25 : ℚ} (hmode : mode ≠ .semantic)
      (htext : JsString.trim (JsString.ofString text) ≠ [])
      (hrows : X.fts (FtsQuery.escapeFtsQuery L.fts (JsString.ofString text)) k = some rows) (hhit : (id, bm25) ∈ rows)
  | semantic {rows : List (AtomId × ℚ)} {cosine : ℚ} (hmode : mode ≠ .keyword)
      (hrows : X.knn (X.queryPrefix ++ text) k = some rows) (hhit : (id, cosine) ∈ rows)

/-- the memory passes the entity filter, if there is one -/
def Linked (L : Language) (db : SearchDb) (f : SearchFilters) (id : AtomId) : Prop :=
  ∀ linkedIds ∈ f.linkedIds L.store db.entities db.toEvidenceGraph, id ∈ linkedIds

/-- the texts candidates are gathered for -/
def asked (query : String) (o : SearchOpts) : List String :=
  query :: ((o.decompose.map (·.2)).getD [] ++ (o.rewrite.map (·.2)).getD [])

theorem mem_gatherCandidates {mode : Mode} {k : ℕ} {sid : String} :
    sid ∈ legIds (gatherCandidates L X db mode k text) ↔ ∃ id, db.idText id = sid ∧ Found L X mode k text id := by
  rw [legIds, mem_candidateIds]
  constructor
  · intro h
    rcases h with h | h
    · simp only [gatherCandidates] at h
      split at h
      next hleg =>
        obtain ⟨hit, hhit, rfl⟩ := List.mem_map.1 h
        obtain ⟨row, hrow, rfl⟩ := List.mem_map.1 hhit
        cases hrows : X.fts (FtsQuery.escapeFtsQuery L.fts (JsString.ofString text)) k with
        | none => simp [hrows] at hrow
        | some rows => exact ⟨row.1, rfl, .keyword hleg.1 hleg.2 hrows (by simpa [hrows] using hrow)⟩
      next => cases h
    · simp only [gatherCandidates] at h
      split at h
      next hleg =>
        obtain ⟨hit, hhit, rfl⟩ := List.mem_map.1 h
        obtain ⟨row, hrow, rfl⟩ := List.mem_map.1 hhit
        cases hrows : X.knn (X.queryPrefix ++ text) k with
        | none => simp [hrows] at hrow
        | some rows => exact ⟨row.1, rfl, .semantic hleg hrows (by simpa [hrows] using hrow)⟩
      next => cases h
  · rintro ⟨id, rfl, hfound⟩
    cases hfound with
    | @keyword rows bm25 hmode htext hrows hhit =>
      refine Or.inl (List.mem_map.2 ⟨(db.idText id, bm25), ?_, rfl⟩)
      simp only [gatherCandidates, if_pos (And.intro hmode htext), hrows, Option.getD_some]
      exact List.mem_map.2 ⟨(id, bm25), hhit, rfl⟩
    | @semantic rows cosine hmode hrows hhit =>
      refine Or.inr (List.mem_map.2 ⟨(db.idText id, cosine), ?_, rfl⟩)
      simp only [gatherCandidates, if_pos hmode, hrows, Option.getD_some]
      exact List.mem_map.2 ⟨(id, cosine), hhit, rfl⟩

theorem mem_applyEntityFilter {legs : Legs} : db.idText id ∈ legIds (applyEntityFilter L db f legs) ↔
    db.idText id ∈ legIds legs ∧ Linked L db f id := by
  unfold applyEntityFilter Linked
  cases h : f.linkedIds L.store db.entities db.toEvidenceGraph with
  | none => simp
  | some linkedIds =>
    have hlinked : db.idText id ∈ linkedIds.map db.idText ↔ id ∈ linkedIds := List.mem_map_of_injective db.idText_inj
    have hleg : ∀ leg : List (String × ℚ), db.idText id ∈ (leg.filter (·.1 ∈ linkedIds.map db.idText)).map (·.1) ↔
        db.idText id ∈ leg.map (·.1) ∧ id ∈ linkedIds := by
      intro leg
      rw [← hlinked]
      simp only [List.mem_map, List.mem_filter, decide_eq_true_iff]
      constructor
      · rintro ⟨hit, ⟨hhit, hin⟩, heq⟩
        exact ⟨⟨hit, hhit, heq⟩, heq ▸ hin⟩
      · rintro ⟨⟨hit, hhit, heq⟩, hin⟩
        exact ⟨hit, ⟨hhit, heq ▸ hin⟩, heq⟩
    rw [legIds, legIds, mem_candidateIds, mem_candidateIds, hleg, hleg, ← or_and_right]
    simp

theorem mem_gather : db.idText id ∈ legIds (gather L X db f limit o text) ↔
    Found L X o.mode (o.legSize limit) text id ∧ Linked L db f id := by
  rw [gather, mem_applyEntityFilter, mem_gatherCandidates]
  refine and_congr_left fun _ => ?_
  constructor
  · rintro ⟨found, heq, hfound⟩
    rwa [← db.idText_inj heq]
  · exact fun hfound => ⟨id, rfl, hfound⟩

/-- what is kept of a leg is a candidate of it -/
theorem collect_hits (seenIds : List String) (leg : List (String × ℚ)) : ∀ h ∈ (collect seenIds leg).hits, h ∈ leg := by
  refine (Core.foldl_rest (fun rest (c : Collected) => rest ⊆ leg ∧ ∀ h ∈ c.hits, h ∈ leg) ?_
    ⟨List.Subset.refl leg, fun h hh => by cases hh⟩).2
  intro h rest c ⟨hrest, hkept⟩
  refine ⟨fun x hx => hrest (List.mem_cons_of_mem h hx), ?_⟩
  split
  next => exact hkept
  next =>
    intro k hk
    rcases List.mem_append.1 hk with hk | hk
    · exact hkept k hk
    · rw [List.mem_singleton.1 hk]
      exact hrest List.mem_cons_self

theorem mem_collectAll {subQueries : List Legs} {seenIds : List String} {sid : String}
    (h : sid ∈ legIds (collectAll seenIds subQueries)) : ∃ sq ∈ subQueries, sid ∈ legIds sq := by
  induction subQueries generalizing seenIds with
  | nil => simp [collectAll, legIds, mem_candidateIds] at h
  | cons sq rest ih =>
    have hmap : ∀ {seen : List String} {leg : List (String × ℚ)}, sid ∈ (collect seen leg).hits.map (·.1) → sid ∈ leg.map (·.1) :=
      fun hkept => List.map_subset _ (collect_hits _ _) hkept
    simp only [collectAll, legIds, mem_candidateIds, List.map_append, List.mem_append] at h
    rcases h with (hfts | hlater) | hvec | hlater
    · exact ⟨sq, List.mem_cons_self, mem_candidateIds.2 (Or.inl (hmap hfts))⟩
    · obtain ⟨found, hfound, hmem⟩ := ih (mem_candidateIds.2 (Or.inl hlater))
      exact ⟨found, List.mem_cons_of_mem sq hfound, hmem⟩
    · exact ⟨sq, List.mem_cons_self, mem_candidateIds.2 (Or.inr (hmap hvec))⟩
    · obtain ⟨found, hfound, hmem⟩ := ih (mem_candidateIds.2 (Or.inr hlater))
      exact ⟨found, List.mem_cons_of_mem sq hfound, hmem⟩

/-- every candidate of a call is one of a text it asks for -/
theorem mem_allIds {sid : String} (h : sid ∈ (candidates L X db query f limit o).allIds) :
    ∃ text ∈ asked query o, sid ∈ legIds (gather L X db f limit o text) := by
  simp only [Candidates.allIds, candidates, List.mem_append] at h
  rcases h with (hprimary | hsub) | hvariant
  · exact ⟨query, List.mem_cons_self, hprimary⟩
  · cases hd : o.decompose with
    | none => simp [hd, legIds, mem_candidateIds] at hsub
    | some d =>
      rw [hd, Option.map_some, Option.getD_some] at hsub
      obtain ⟨legs, hlegs, hmem⟩ := mem_collectAll hsub
      obtain ⟨text, htext, rfl⟩ := List.mem_map.1 hlegs
      exact ⟨text, by simp [asked, hd, htext], hmem⟩
  · cases hr : o.rewrite with
    | none => simp [hr] at hvariant
    | some r =>
      rw [hr, Option.map_some, Option.getD_some] at hvariant
      obtain ⟨legs, hlegs, hmem⟩ := List.mem_flatMap.1 hvariant
      obtain ⟨text, htext, rfl⟩ := List.mem_map.1 hlegs
      exact ⟨text, by simp [asked, hr, htext], hmem⟩

/-- the sub-queries' candidates are none of the query's -/
theorem sub_fresh : ∀ sid ∈ legIds (candidates L X db query f limit o).sub,
    sid ∉ legIds (candidates L X db query f limit o).primary := by
  simp only [candidates]
  cases o.decompose with
  | none => simp [legIds, mem_candidateIds]
  | some d => exact collectAll_fresh _ _

/-! ## The ranking -/

/-- a ranking of some candidates -/
structure Ranks (ids : List String) (ranking : List FusedHit) : Prop where
  distinct : (ranking.map (·.id)).Nodup
  known : ∀ hit ∈ ranking, hit.id ∈ ids
  sorted : ranking.Pairwise fun a b => b.score ≤ a.score

variable {exp : ℚ → ℚ} {ctx : FuseContext} {legs : Legs} {ids ids' : List String} {ranked : List FusedHit}

theorem Ranks.mono (h : Ranks ids ranked) (hsub : ids ⊆ ids') : Ranks ids' ranked :=
  ⟨h.distinct, fun hit hhit => hsub (h.known hit hhit), h.sorted⟩

theorem ranks_fuseHits : Ranks (legIds legs) (fuseHits exp ctx legs.ftsHits legs.vecHits) where
  distinct := fuseHits_ids.nodup_iff.2 (candidateIds_nodup _ _)
  known := by
    intro hit hhit
    obtain ⟨sid, hsid, rfl⟩ := mem_fuseHits.1 hhit
    exact hsid
  sorted := fuseHits_sorted

/-- other candidates, capped and damped, are merged in -/
theorem Ranks.supplemented {opts : DecomposeOpts} {sub : Legs} (h : Ranks ids ranked) (hfresh : ∀ sid ∈ legIds sub, sid ∉ ids) :
    Ranks (ids ++ legIds sub) (sortByScore (ranked ++ supplemental exp opts ctx sub)) := by
  have hmerged := merged_sort h.sorted (supplemental exp opts ctx sub)
  refine ⟨?_, ?_, hmerged.sorted⟩
  · refine (hmerged.perm.map (·.id)).nodup_iff.2 ?_
    rw [List.map_append, List.nodup_append]
    refine ⟨h.distinct, supplemental_ids, fun a ha b hb hab => ?_⟩
    obtain ⟨hit, hhit, rfl⟩ := List.mem_map.1 ha
    obtain ⟨extra, hextra, rfl⟩ := List.mem_map.1 hb
    exact hfresh extra.id (mem_supplemental hextra).1 (hab ▸ h.known hit hhit)
  · intro hit hhit
    rcases List.mem_append.1 (hmerged.perm.mem_iff.1 hhit) with hhit | hhit
    · exact List.mem_append_left _ (h.known hit hhit)
    · exact List.mem_append_right _ (mem_supplemental hhit).1

/-- the rankings of variants are merged in, and the result is cut -/
theorem Ranks.varied {variants : List (List FusedHit)} (h : Ranks ids ranked)
    (hvariants : ∀ v ∈ variants, ∀ hit ∈ v, hit.id ∈ ids) (maxCandidates : ℤ) :
    Ranks ids (mergeVariantHits ranked variants maxCandidates) := by
  have htable := table_merged ranked variants
  have hperm : (sortByScore (merged ranked variants)).Perm (merged ranked variants) := List.perm_insertionSort _ _
  refine ⟨?_, ?_, (sortByScore_sorted _).sublist (List.take_sublist _ _)⟩
  · exact ((hperm.map (·.id)).nodup_iff.2 htable.ids).sublist ((List.take_sublist _ _).map _)
  · intro hit hhit
    rcases (htable.best hit (hperm.mem_iff.1 (List.mem_of_mem_take hhit))).offered with hfind | ⟨v, hv, hmem⟩
    · exact h.known hit (List.mem_reverse.1 (List.mem_of_find?_eq_some hfind))
    · exact hvariants v hv hit hmem

theorem ranks_rankedFused {w : Weights} {lk : Lookups} {primary sub : Legs} {decompose : Option DecomposeOpts}
    (hfresh : ∀ sid ∈ legIds sub, sid ∉ legIds primary) :
    Ranks (legIds primary ++ legIds sub) (rankedFused exp w (gathered lk primary ids limit) decompose sub) := by
  have hfused : Ranks (legIds primary) (fused exp w (gathered lk primary ids limit)) := ranks_fuseHits
  cases decompose with
  | none => exact hfused.mono (List.subset_append_left _ _)
  | some opts =>
    unfold rankedFused
    dsimp only
    split
    next => exact hfused.supplemented hfresh
    next => exact hfused.mono (List.subset_append_left _ _)

theorem ranks_fusedWithSub : Ranks (candidates L X db query f limit o).allIds
    (fusedWithSub L db query f limit o (candidates L X db query f limit o)) :=
  (ranks_rankedFused sub_fresh).mono (List.subset_append_left _ _)

theorem ranks_ranking : Ranks (candidates L X db query f limit o).allIds
    (ranking L db query f limit o (candidates L X db query f limit o)) := by
  unfold ranking
  split
  next => exact ranks_fusedWithSub
  next maxCandidates _ _ =>
    split
    next => exact ranks_fusedWithSub
    next =>
      refine ranks_fusedWithSub.varied ?_ maxCandidates
      intro v hv hit hhit
      obtain ⟨legs, hlegs, rfl⟩ := List.mem_map.1 hv
      exact List.mem_append_right _ (List.mem_flatMap.2 ⟨legs, hlegs, ranks_fuseHits.known hit hhit⟩)

/-! ## The hits -/

/-- the hit shows the row -/
structure Shows (h : EvidenceHit) (m : BundleRow) : Prop where
  id : h.id = m.id
  type : h.type = m.type
  text : h.text = m.text
  scope : h.scope = m.scope
  importance : h.importance = m.importance
  confidence : h.confidence = m.confidence
  createdAt : h.createdAt = m.createdAt
  captureSource : h.captureSource = m.captureSource
  evidence : h.evidence = evidenceExcerpt m

theorem row_eq_some {sid : String} {m : BundleRow} : db.row sid = some m ↔ m ∈ db.memories ∧ db.idText m.id = sid := by
  constructor
  · intro h
    exact ⟨List.mem_of_find?_eq_some h, by simpa using List.find?_some h⟩
  · rintro ⟨hm, rfl⟩
    obtain ⟨n, hn⟩ : ∃ n, db.row (db.idText m.id) = some n := by
      refine Option.isSome_iff_exists.1 (List.find?_isSome.2 ⟨m, hm, ?_⟩)
      exact decide_eq_true rfl
    have hid : n.id = m.id := db.idText_inj (by simpa using List.find?_some hn)
    rw [hn, memory_eq (List.mem_of_find?_eq_some hn) hm hid]

theorem selected_eq_some {sid : String} {m : BundleRow} : selected db f o sid = some m ↔
    (m ∈ db.memories ∧ db.idText m.id = sid) ∧ f.admits o.validAt m.toMemory = true := by
  rw [selected, Option.filter_eq_some_iff, row_eq_some]

/-- what becomes of a ranked id -/
structure Becomes (db : SearchDb) (f : SearchFilters) (o : SearchOpts) (hit : FusedHit) (h : EvidenceHit) : Prop where
  stored : ∃ m ∈ db.memories, f.admits o.validAt m.toMemory = true ∧ Shows h m
  id : db.idText h.id = hit.id
  score : h.score = hit.score
  own : h.bundleReason = none

theorem becomes_searchHit {hit : FusedHit} {h : EvidenceHit} (hhit : searchHit L db query f limit o c hit = some h) :
    Becomes db f o hit h := by
  obtain ⟨m, hm, rfl⟩ := Option.map_eq_some_iff.1 hhit
  obtain ⟨⟨hmem, hid⟩, hadmits⟩ := selected_eq_some.1 hm
  exact ⟨⟨m, hmem, hadmits, ⟨rfl, rfl, rfl, rfl, rfl, rfl, rfl, rfl, rfl⟩⟩, hid, rfl, rfl⟩

/-- an admitted row that is ranked becomes a hit -/
theorem exists_searchHit {hit : FusedHit} {m : BundleRow} (hm : m ∈ db.memories) (hid : db.idText m.id = hit.id)
    (hadmits : f.admits o.validAt m.toMemory = true) :
    ∃ h, searchHit L db query f limit o c hit = some h ∧ h.id = m.id ∧ h.score = hit.score := by
  simp only [searchHit, selected_eq_some.2 ⟨⟨hm, hid⟩, hadmits⟩, Option.map_some]
  exact ⟨_, rfl, rfl, rfl⟩

/-- the ids of what is selected of a list stand in it in this order -/
theorem map_filterMap_sublist {α β κ : Type} {g : α → Option β} {key : β → κ} {key' : α → κ}
    (h : ∀ a b, g a = some b → key b = key' a) (l : List α) : ((l.filterMap g).map key).Sublist (l.map key') := by
  induction l with
  | nil => exact List.Sublist.slnil
  | cons a l ih =>
    rw [List.map_cons]
    cases hg : g a with
    | none =>
      rw [List.filterMap_cons_none hg]
      exact ih.cons _
    | some b =>
      rw [List.filterMap_cons_some hg, List.map_cons, h a b hg]
      exact ih.cons_cons _

/-- the hits before the cut -/
def shown (L : Language) (X : Index) (db : SearchDb) (query : String) (f : SearchFilters) (limit : ℕ) (o : SearchOpts) :
    List EvidenceHit :=
  (ranking L db query f limit o (candidates L X db query f limit o)).filterMap
    (searchHit L db query f limit o (candidates L X db query f limit o))

theorem mem_shown {h : EvidenceHit} (hh : h ∈ shown L X db query f limit o) :
    ∃ hit ∈ ranking L db query f limit o (candidates L X db query f limit o), Becomes db f o hit h := by
  obtain ⟨hit, hhit, heq⟩ := List.mem_filterMap.1 hh
  exact ⟨hit, hhit, becomes_searchHit heq⟩

theorem shown_nodup : ((shown L X db query f limit o).map (·.id)).Nodup := by
  have hsub : ((shown L X db query f limit o).map fun h => db.idText h.id).Sublist
      ((ranking L db query f limit o (candidates L X db query f limit o)).map (·.id)) :=
    map_filterMap_sublist (fun hit h hh => (becomes_searchHit hh).id) _
  have hnodup : (((shown L X db query f limit o).map (·.id)).map db.idText).Nodup := by
    rw [List.map_map]
    exact ranks_ranking.distinct.sublist hsub
  exact hnodup.of_map _

theorem shown_sorted : (shown L X db query f limit o).Pairwise fun a b => b.score ≤ a.score := by
  refine ranks_ranking.sorted.filterMap _ fun a b hab h hh k hk => ?_
  rw [(becomes_searchHit hh).score, (becomes_searchHit hk).score]
  exact hab

/-! ## The answer -/

@[simp] theorem withCrossEncoder_id (p : EvidenceHit × Option RerankFields) : (withCrossEncoder p).id = p.1.id := by
  rcases p with ⟨h, _ | r⟩ <;> rfl

@[simp] theorem withCrossEncoder_score (p : EvidenceHit × Option RerankFields) : (withCrossEncoder p).score = p.1.score := by
  rcases p with ⟨h, _ | r⟩ <;> rfl

@[simp] theorem withCrossEncoder_bundleReason (p : EvidenceHit × Option RerankFields) :
    (withCrossEncoder p).bundleReason = p.1.bundleReason := by
  rcases p with ⟨h, _ | r⟩ <;> rfl

theorem Shows.withCrossEncoder {p : EvidenceHit × Option RerankFields} {m : BundleRow} (h : Shows p.1 m) :
    Shows (withCrossEncoder p) m := by
  rcases p with ⟨k, _ | r⟩
  · exact h
  · exact ⟨h.id, h.type, h.text, h.scope, h.importance, h.confidence, h.createdAt, h.captureSource, h.evidence⟩

/-- without candidates there is nothing to show, so the early return changes nothing -/
theorem shown_nil (h : (candidates L X db query f limit o).allIds = []) : shown L X db query f limit o = [] := by
  refine List.eq_nil_iff_forall_not_mem.2 fun hit hhit => ?_
  obtain ⟨ranked, hranked, -⟩ := mem_shown hhit
  have hknown := ranks_ranking.known ranked hranked
  rw [h] at hknown
  cases hknown

/-- the hits before the bundle are the hits shown up to `limit`, or a permutation of the reranker's window up to there -/
theorem finalHits_cases (L : Language) (X : Index) (db : SearchDb) (query : String) (f : SearchFilters) (limit : ℕ)
    (o : SearchOpts) :
    (o.rerank = none ∧ finalHits L X db query f limit o = (shown L X db query f limit o).take (max limit 1)) ∨
    ∃ window : List (EvidenceHit × Option RerankFields), o.rerank ≠ none ∧
      (window.map (·.1)).Perm ((shown L X db query f limit o).take (max (o.buildLimit limit) 1)) ∧
      finalHits L X db query f limit o = (window.map withCrossEncoder).take limit := by
  by_cases hnone : (candidates L X db query f limit o).allIds = []
  · have hfinal : finalHits L X db query f limit o = [] := by
      unfold finalHits
      rw [if_pos hnone]
    rw [hfinal, shown_nil hnone]
    by_cases hrerank : o.rerank = none
    · exact Or.inl ⟨hrerank, List.take_nil.symm⟩
    · exact Or.inr ⟨[], hrerank, by simp, List.take_nil.symm⟩
  · unfold finalHits
    dsimp only
    rw [if_neg hnone]
    cases hrerank : o.rerank with
    | none =>
      refine Or.inl ⟨rfl, ?_⟩
      simp only [results, SearchOpts.buildLimit, hrerank, Option.map_none, Option.getD_none]
      rfl
    | some rerank => exact Or.inr ⟨_, by simp, applyRerank_perm _ _ _ _, rfl⟩

/-- what every hit before the bundle is -/
theorem mem_finalHits {h : EvidenceHit} (hh : h ∈ finalHits L X db query f limit o) :
    ∃ r ∈ shown L X db query f limit o, ∃ fields, h = withCrossEncoder (r, fields) := by
  rcases finalHits_cases L X db query f limit o with ⟨-, heq⟩ | ⟨window, -, hperm, heq⟩
  · rw [heq] at hh
    exact ⟨h, List.mem_of_mem_take hh, none, rfl⟩
  · rw [heq] at hh
    obtain ⟨entry, hentry, rfl⟩ := List.mem_map.1 (List.mem_of_mem_take hh)
    have hshown := hperm.mem_iff.1 (List.mem_map.2 ⟨entry, hentry, rfl⟩)
    exact ⟨entry.1, List.mem_of_mem_take hshown, entry.2, rfl⟩

theorem finalHits_nodup : ((finalHits L X db query f limit o).map (·.id)).Nodup := by
  rcases finalHits_cases L X db query f limit o with ⟨-, heq⟩ | ⟨window, -, hperm, heq⟩
  · rw [heq]
    exact shown_nodup.sublist ((List.take_sublist _ _).map _)
  · have hids : (window.map withCrossEncoder).map (·.id) = (window.map (·.1)).map (·.id) := by
      rw [List.map_map, List.map_map]
      exact List.map_congr_left fun p _ => withCrossEncoder_id p
    have hnodup : ((window.map withCrossEncoder).map (·.id)).Nodup := by
      rw [hids]
      exact (hperm.map (·.id)).nodup_iff.2 (shown_nodup.sublist ((List.take_sublist _ _).map _))
    rw [heq]
    exact hnodup.sublist ((List.take_sublist _ _).map _)

theorem length_finalHits_le : (finalHits L X db query f limit o).length ≤ max limit 1 := by
  rcases finalHits_cases L X db query f limit o with ⟨-, heq⟩ | ⟨window, -, -, heq⟩
  · rw [heq]
    exact List.length_take_le _ _
  · rw [heq]
    exact (List.length_take_le _ _).trans (le_max_left _ _)

theorem own_finalHits {h : EvidenceHit} (hh : h ∈ finalHits L X db query f limit o) : h.bundleReason = none := by
  obtain ⟨r, hr, fields, rfl⟩ := mem_finalHits hh
  obtain ⟨ranked, -, hbecomes⟩ := mem_shown hr
  rw [withCrossEncoder_bundleReason]
  exact hbecomes.own

theorem shows_extra {O : RowOrder} {g : EvidenceGraph} {hits : List EvidenceHit} {admitted : BundleRow → Bool}
    {opts : EvidenceBundlingOpts} {h : EvidenceHit} (hh : h ∈ extras O g hits admitted opts) :
    ∃ m ∈ extraRows O g hits admitted opts, Shows h m ∧ h.bundleReason ≠ none := by
  obtain ⟨m, hm, heq⟩ := List.mem_filterMap.1 hh
  obtain ⟨c, -, rfl⟩ := Option.map_eq_some_iff.1 heq
  exact ⟨m, hm, ⟨rfl, rfl, rfl, rfl, rfl, rfl, rfl, rfl, rfl⟩, by simp [bundledHit]⟩

theorem length_extras_le {O : RowOrder} {g : EvidenceGraph} {hits : List EvidenceHit} {admitted : BundleRow → Bool}
    {opts : EvidenceBundlingOpts} : (extras O g hits admitted opts).length ≤ opts.maxExtra.toNat := by
  have hranked : (extras O g hits admitted opts).map (·.id) ⊆
      (cut byShared opts.maxExtra.toNat (candidatesFor O g (hits.map (·.id)) opts)).map (·.id) := by
    intro id hid
    rw [extras_ids] at hid
    obtain ⟨m, hm, rfl⟩ := List.mem_map.1 hid
    rw [extraRows, mem_order, List.mem_filter, decide_eq_true_eq] at hm
    exact hm.2.1
  have hlength := (List.subperm_of_subset extras_nodup hranked).length_le
  rw [List.length_map, List.length_map] at hlength
  exact hlength.trans length_cut_le

/-- what is bundled with some hits -/
structure Bundled (db : SearchDb) (f : SearchFilters) (o : SearchOpts) (hits added : List EvidenceHit) : Prop where
  distinct : (added.map (·.id)).Nodup
  others : ∀ h ∈ added, h.id ∉ hits.map (·.id)
  marked : ∀ h ∈ added, h.bundleReason ≠ none
  stored : ∀ h ∈ added, ∃ opts ∈ o.evidenceBundling, ∃ m ∈ db.memories, f.admits o.validAt m.toMemory = true ∧ Shows h m ∧
    0 < sharedAnchors db.toEvidenceGraph (hits.map (·.id)) opts m
  extra : added.length ≤ (o.evidenceBundling.map (·.maxExtra.toNat)).getD 0

theorem bundled_nil {hits : List EvidenceHit} : Bundled db f o hits [] := by
  refine ⟨List.nodup_nil, ?_, ?_, ?_, Nat.zero_le _⟩ <;> intro h hh <;> cases hh

theorem bundled_extras {hits : List EvidenceHit} {opts : EvidenceBundlingOpts} (hopts : o.evidenceBundling = some opts) :
    Bundled db f o hits (extras db.order db.toEvidenceGraph hits (f.admits o.validAt ·.toMemory) opts) where
  distinct := extras_nodup
  others h hh hmem := by
    obtain ⟨m, hm, hid⟩ := row_of_extra hh
    exact (mem_extraRows.1 hm).2.2.1.1 (hid ▸ hmem)
  marked h hh := by
    obtain ⟨m, -, -, hmarked⟩ := shows_extra hh
    exact hmarked
  stored h hh := by
    obtain ⟨m, hm, hshows, -⟩ := shows_extra hh
    obtain ⟨hmem, hadmits, hpulled, -⟩ := mem_extraRows.1 hm
    exact ⟨opts, hopts, m, hmem, hadmits, hshows, counted_pos_iff.1 hpulled.2⟩
  extra := by
    rw [hopts]
    exact length_extras_le

/-- the answer is the hits, and what is bundled with them -/
theorem search_eq (L : Language) (X : Index) (db : SearchDb) (query : String) (f : SearchFilters) (limit : ℕ)
    (o : SearchOpts) : ∃ added, search L X db query f limit o = finalHits L X db query f limit o ++ added ∧
      Bundled db f o (finalHits L X db query f limit o) added := by
  unfold search
  cases hopts : o.evidenceBundling with
  | none => exact ⟨[], (List.append_nil _).symm, bundled_nil⟩
  | some opts =>
    by_cases hfires : Fires db.order db.toEvidenceGraph (finalHits L X db query f limit o) opts
    · exact ⟨_, apply_of_fires hfires, bundled_extras hopts⟩
    · refine ⟨[], ?_, bundled_nil⟩
      rw [List.append_nil]
      exact apply_of_not_fires hfires

/-- the hits of the answer that are not bundled -/
theorem search_own (L : Language) (X : Index) (db : SearchDb) (query : String) (f : SearchFilters) (limit : ℕ) (o : SearchOpts) :
    (search L X db query f limit o).filter (·.bundleReason = none) = finalHits L X db query f limit o := by
  obtain ⟨added, heq, hadded⟩ := search_eq L X db query f limit o
  have hown : (finalHits L X db query f limit o).filter (·.bundleReason = none) = finalHits L X db query f limit o :=
    List.filter_eq_self.2 fun h hh => decide_eq_true (own_finalHits hh)
  have hnone : added.filter (·.bundleReason = none) = [] :=
    List.filter_eq_nil_iff.2 fun h hh => by simpa using hadded.marked h hh
  rw [heq, List.filter_append, hown, hnone, List.append_nil]

/-- what a search may answer -/
structure Sound (L : Language) (X : Index) (db : SearchDb) (query : String) (f : SearchFilters) (limit : ℕ) (o : SearchOpts)
    (answer : List EvidenceHit) : Prop where
  /-- a hit shows a stored memory that is valid and meets every filter -/
  stored : ∀ h ∈ answer, ∃ m ∈ db.memories, Meets f o.validAt m.toMemory ∧ Shows h m
  /-- no memory is shown twice -/
  distinct : (answer.map (·.id)).Nodup
  /-- a hit of the search has been found for a text that was asked, and passes the entity filter -/
  own : ∀ h ∈ answer, h.bundleReason = none →
    (∃ text ∈ asked query o, Found L X o.mode (o.legSize limit) text h.id) ∧
      Passes L.store db.entities db.toEvidenceGraph f h.id
  /-- a bundled one shares a session or an entity with a hit of the search -/
  bundled : ∀ h ∈ answer, h.bundleReason ≠ none → ∃ opts ∈ o.evidenceBundling, ∃ m ∈ db.memories, m.id = h.id ∧
    0 < sharedAnchors db.toEvidenceGraph ((answer.filter (·.bundleReason = none)).map (·.id)) opts m
  limit : (answer.filter (·.bundleReason = none)).length ≤ max limit 1
  extra : (answer.filter (·.bundleReason ≠ none)).length ≤ (o.evidenceBundling.map (·.maxExtra.toNat)).getD 0

/-- **Soundness.** Whatever the indexes, the providers and the database answer, and whichever stages are on: a hit shows a
stored memory that is valid and meets the filters, no memory is shown twice, and apart from the bundled hits every hit has
been found for the query, a sub-query or a variant, by a leg that the mode allows, and passes the entity filter. -/
theorem search_sound (L : Language) (X : Index) (db : SearchDb) (query : String) (f : SearchFilters) (limit : ℕ)
    (o : SearchOpts) (hasOf : ∀ t ∈ f.asOf, t < openEnd) :
    Sound L X db query f limit o (search L X db query f limit o) := by
  obtain ⟨added, heq, hadded⟩ := search_eq L X db query f limit o
  have hown := search_own L X db query f limit o
  have hfinal : ∀ h ∈ finalHits L X db query f limit o, (∃ m ∈ db.memories, Meets f o.validAt m.toMemory ∧ Shows h m) ∧
      (∃ text ∈ asked query o, Found L X o.mode (o.legSize limit) text h.id) ∧
        Passes L.store db.entities db.toEvidenceGraph f h.id := by
    intro h hh
    obtain ⟨r, hr, fields, rfl⟩ := mem_finalHits hh
    obtain ⟨ranked, hranked, hbecomes⟩ := mem_shown hr
    obtain ⟨m, hm, hadmits, hshows⟩ := hbecomes.stored
    obtain ⟨text, htext, hgather⟩ := mem_allIds (ranks_ranking.known ranked hranked)
    rw [← hbecomes.id, mem_gather] at hgather
    rw [withCrossEncoder_id]
    exact ⟨⟨m, hm, admits_iff.1 hadmits, Shows.withCrossEncoder hshows⟩, ⟨text, htext, hgather.1⟩,
      (linked_iff_passes hasOf).1 hgather.2⟩
  have hcases : ∀ h ∈ search L X db query f limit o, h ∈ finalHits L X db query f limit o ∨ h ∈ added := by
    intro h hh
    rw [heq] at hh
    exact List.mem_append.1 hh
  refine ⟨?_, ?_, ?_, ?_, ?_, ?_⟩
  · intro h hh
    rcases hcases h hh with hh | hh
    · exact (hfinal h hh).1
    · obtain ⟨opts, -, m, hm, hadmits, hshows, -⟩ := hadded.stored h hh
      exact ⟨m, hm, admits_iff.1 hadmits, hshows⟩
  · rw [heq, List.map_append, List.nodup_append]
    refine ⟨finalHits_nodup, hadded.distinct, fun a ha b hb hab => ?_⟩
    obtain ⟨h, hh, rfl⟩ := List.mem_map.1 hb
    exact hadded.others h hh (hab ▸ ha)
  · intro h hh hnone
    rcases hcases h hh with hh | hh
    · exact (hfinal h hh).2
    · exact absurd hnone (hadded.marked h hh)
  · intro h hh hsome
    rw [hown]
    rcases hcases h hh with hh | hh
    · exact absurd (own_finalHits hh) hsome
    · obtain ⟨opts, hopts, m, hm, -, hshows, hshared⟩ := hadded.stored h hh
      exact ⟨opts, hopts, m, hm, hshows.id.symm, hshared⟩
  · rw [hown]
    exact length_finalHits_le
  · have hnone : (finalHits L X db query f limit o).filter (·.bundleReason ≠ none) = [] :=
      List.filter_eq_nil_iff.2 fun h hh => by simpa using own_finalHits hh
    rw [heq, List.filter_append, hnone, List.nil_append]
    exact (List.length_filter_le _ _).trans hadded.extra

/-! ## What is left out -/

/-- what the fusion makes of a candidate of the query -/
def queryHit (L : Language) (X : Index) (db : SearchDb) (query : String) (f : SearchFilters) (limit : ℕ) (o : SearchOpts)
    (sid : String) : FusedHit :=
  let c := candidates L X db query f limit o
  fusedHit L.exp ((fusion L db query f limit o c).context o.weights) c.primary.ftsHits c.primary.vecHits sid

/-- the ranking is full: it has as many entries as a merge with variants leaves -/
def CutShort (L : Language) (X : Index) (db : SearchDb) (query : String) (f : SearchFilters) (limit : ℕ) (o : SearchOpts) :
    Prop :=
  ∃ r ∈ o.rewrite, (ranking L db query f limit o (candidates L X db query f limit o)).length = (max 0 r.1).toNat

theorem mem_rankedFused {w : Weights} {g : Gathered} {decompose : Option DecomposeOpts} {sub : Legs} {hit : FusedHit}
    (h : hit ∈ fused exp w g) : hit ∈ rankedFused exp w g decompose sub := by
  cases decompose with
  | none => exact h
  | some opts =>
    unfold rankedFused
    dsimp only
    split
    next => exact mem_sortByScore.2 (List.mem_append_left _ h)
    next => exact h

/-- a hit of a merge with variants stands in it with its score or a better one, or the merge is full of better ones -/
theorem Ranks.kept (h : Ranks ids ranked) {hit : FusedHit} (hhit : hit ∈ ranked) (variants : List (List FusedHit))
    (maxCandidates : ℤ) : (∃ entry ∈ mergeVariantHits ranked variants maxCandidates, entry.id = hit.id ∧ hit.score ≤ entry.score) ∨
      (mergeVariantHits ranked variants maxCandidates).length = (max 0 maxCandidates).toNat ∧
        ∀ entry ∈ mergeVariantHits ranked variants maxCandidates, hit.score ≤ entry.score := by
  have htable := table_merged ranked variants
  have hoffers : Offers ranked variants hit := by
    refine Or.inl ?_
    obtain ⟨found, hfound⟩ : ∃ found, ranked.reverse.find? (·.id = hit.id) = some found :=
      Option.isSome_iff_exists.1 (List.find?_isSome.2 ⟨hit, List.mem_reverse.2 hhit, by simp⟩)
    have hid : found.id = hit.id := by simpa using List.find?_some hfound
    rw [hfound, List.inj_on_of_nodup_map h.distinct (List.mem_reverse.1 (List.mem_of_find?_eq_some hfound)) hhit hid]
  obtain ⟨entry, hentry, hid⟩ := htable.all hit hoffers
  have hbetter : hit.score ≤ entry.score := (htable.best entry hentry).best hit hoffers hid.symm
  rw [mergeVariantHits_eq]
  by_cases hin : entry ∈ cut (byScore FusedHit.score) (max 0 maxCandidates).toNat (merged ranked variants)
  · exact Or.inl ⟨entry, hin, hid, hbetter⟩
  · obtain ⟨hbehind, hfull⟩ := le_of_notMem_cut hentry hin
    exact Or.inr ⟨hfull, fun other hother => hbetter.trans (hbehind other hother)⟩

/-- a candidate of the query is ranked with its score or a better one, or the ranking is full of better ones -/
theorem ranked_of_candidate {sid : String} (h : sid ∈ legIds (candidates L X db query f limit o).primary) :
    (∃ entry ∈ ranking L db query f limit o (candidates L X db query f limit o),
      entry.id = sid ∧ (queryHit L X db query f limit o sid).score ≤ entry.score) ∨
    CutShort L X db query f limit o ∧ ∀ entry ∈ ranking L db query f limit o (candidates L X db query f limit o),
      (queryHit L X db query f limit o sid).score ≤ entry.score := by
  have hmem : queryHit L X db query f limit o sid ∈ fusedWithSub L db query f limit o (candidates L X db query f limit o) :=
    mem_rankedFused (mem_fuseHits.2 ⟨sid, h, rfl⟩)
  cases hr : o.rewrite with
  | none =>
    refine Or.inl ⟨_, ?_, rfl, le_rfl⟩
    rw [ranking, hr]
    exact hmem
  | some r =>
    by_cases hvariants : (candidates L X db query f limit o).variants = []
    · refine Or.inl ⟨_, ?_, rfl, le_rfl⟩
      rw [ranking, hr]
      dsimp only
      rw [if_pos hvariants]
      exact hmem
    · have hranking : ranking L db query f limit o (candidates L X db query f limit o) =
          mergeVariantHits (fusedWithSub L db query f limit o (candidates L X db query f limit o))
            (rewriteFusedLists L db query f limit o (candidates L X db query f limit o)) r.1 := by
        rw [ranking, hr]
        dsimp only
        rw [if_neg hvariants]
      rw [CutShort, hranking]
      rcases ranks_fusedWithSub.kept hmem (rewriteFusedLists L db query f limit o (candidates L X db query f limit o)) r.1 with
        hkept | ⟨hfull, hbetter⟩
      · exact Or.inl hkept
      · exact Or.inr ⟨⟨r, hr, hfull⟩, hbetter⟩

theorem take_shown (k : ℕ) :
    (shown L X db query f limit o).take k = cut (byScore EvidenceHit.score) k (shown L X db query f limit o) := by
  have hsorted : (shown L X db query f limit o).Pairwise (byScore EvidenceHit.score) := shown_sorted
  rw [cut, hsorted.insertionSort_eq]

theorem le_buildLimit (o : SearchOpts) (limit : ℕ) : limit ≤ o.buildLimit limit := by
  unfold SearchOpts.buildLimit
  cases o.rerank with
  | none => exact le_rfl
  | some r =>
    rw [Option.map_some, Option.getD_some]
    omega

/-- a hit that could be shown and is not: the answer is full, and without a reranker of hits that score as high -/
theorem left_out {r : EvidenceHit} (hr : r ∈ shown L X db query f limit o)
    (hout : r.id ∉ (finalHits L X db query f limit o).map (·.id)) : limit ≤ (finalHits L X db query f limit o).length ∧
      (o.rerank = none → ∀ h ∈ finalHits L X db query f limit o, r.score ≤ h.score) := by
  rcases finalHits_cases L X db query f limit o with ⟨hnone, heq⟩ | ⟨window, hsome, hperm, heq⟩
  · rw [heq, take_shown] at hout ⊢
    obtain ⟨hbehind, hfull⟩ := le_of_notMem_cut hr fun hin => hout (List.mem_map.2 ⟨r, hin, rfl⟩)
    rw [hfull]
    exact ⟨le_max_left _ _, fun _ => hbehind⟩
  · refine ⟨?_, fun hnone => absurd hnone hsome⟩
    by_contra hshort
    rw [heq, List.length_take, List.length_map] at hshort
    have hlength := hperm.length_eq
    have hbuild := le_buildLimit o limit
    rw [List.length_map, List.length_take] at hlength
    have hall : (shown L X db query f limit o).take (max (o.buildLimit limit) 1) = shown L X db query f limit o :=
      List.take_of_length_le (by omega)
    have hmem : r ∈ window.map (·.1) := hperm.mem_iff.2 (by rwa [hall])
    obtain ⟨entry, hentry, rfl⟩ := List.mem_map.1 hmem
    rw [heq, List.take_of_length_le (by rw [List.length_map]; omega)] at hout
    exact hout (List.mem_map.2 ⟨_, List.mem_map.2 ⟨entry, hentry, rfl⟩, withCrossEncoder_id entry⟩)

/-- **Completeness.** A stored memory that meets the filters, that a leg returns for the query and that passes the entity
filter is shown, unless the answer already has `limit` hits, or the merge with the query's variants is full. Without a
reranker it is left out only for hits that score as high as the fusion scores it. -/
theorem search_complete (L : Language) (X : Index) (db : SearchDb) (query : String) (f : SearchFilters) (limit : ℕ)
    (o : SearchOpts) (hasOf : ∀ t ∈ f.asOf, t < openEnd) {m : BundleRow} (hm : m ∈ db.memories)
    (hmeets : Meets f o.validAt m.toMemory) (hfound : Found L X o.mode (o.legSize limit) query m.id)
    (hpasses : Passes L.store db.entities db.toEvidenceGraph f m.id) :
    m.id ∈ (search L X db query f limit o).map (·.id) ∨
      (limit ≤ ((search L X db query f limit o).filter (·.bundleReason = none)).length ∨ CutShort L X db query f limit o) ∧
        (o.rerank = none → ∀ h ∈ search L X db query f limit o, h.bundleReason = none →
          (queryHit L X db query f limit o (db.idText m.id)).score ≤ h.score) := by
  have hcandidate : db.idText m.id ∈ legIds (candidates L X db query f limit o).primary :=
    mem_gather.2 ⟨hfound, (linked_iff_passes hasOf).2 hpasses⟩
  obtain ⟨added, heq, -⟩ := search_eq L X db query f limit o
  have hown := search_own L X db query f limit o
  have hmemOwn : ∀ h ∈ search L X db query f limit o, h.bundleReason = none → h ∈ finalHits L X db query f limit o := by
    intro h hh hnone
    rw [← hown]
    exact List.mem_filter.2 ⟨hh, decide_eq_true hnone⟩
  by_cases hin : m.id ∈ (finalHits L X db query f limit o).map (·.id)
  · refine Or.inl ?_
    rw [heq, List.map_append]
    exact List.mem_append_left _ hin
  · refine Or.inr ?_
    rw [hown]
    rcases ranked_of_candidate hcandidate with ⟨entry, hentry, hid, hbetter⟩ | ⟨hcut, hbetter⟩
    · obtain ⟨r, hr, hrid, hrscore⟩ := exists_searchHit hm hid.symm (admits_iff.2 hmeets)
      have hshown : r ∈ shown L X db query f limit o := List.mem_filterMap.2 ⟨entry, hentry, hr⟩
      obtain ⟨hfull, hbehind⟩ := left_out hshown (by rwa [hrid])
      refine ⟨Or.inl hfull, fun hnone h hh hbundle => ?_⟩
      calc (queryHit L X db query f limit o (db.idText m.id)).score ≤ entry.score := hbetter
        _ = r.score := hrscore.symm
        _ ≤ h.score := hbehind hnone h (hmemOwn h hh hbundle)
    · refine ⟨Or.inr hcut, fun hnone h hh hbundle => ?_⟩
      obtain ⟨r, hr, fields, rfl⟩ := mem_finalHits (hmemOwn h hh hbundle)
      obtain ⟨ranked, hranked, hbecomes⟩ := mem_shown hr
      rw [withCrossEncoder_score, hbecomes.score]
      exact hbetter ranked hranked

/-! ### Two projects -/

def asciiLanguage : Language where
  fts := FtsQuery.ascii
  store := ⟨fun _ => 0, fun n => n, 0, fun s => s⟩
  exp := fun _ => 1
  entityNameMatchesQuery := fun _ _ => false
  text := fun _ => ""

/-- FTS5 returns both memories for any query, the second one with the better rank; there is no provider -/
def keywordIndex : Index where
  fts := fun _ _ => some [(2, -2), (1, -1)]
  knn := fun _ _ => none

/-- one memory in each project, the first one linked to an entity -/
def twoProjects : SearchDb where
  memories := [{ plainRow 1 with project := some "local" }, { plainRow 2 with project := some "remote" }]
  memoryEntities := [⟨1, 10, none, none⟩]
  keyed := by decide
  foreignKey := by decide
  entities := [⟨10, "ada", "person"⟩]
  usefulness := fun _ => 1 / 2
  order := tableOrder
  idText := fun id => String.ofList (List.replicate id 'm')
  idText_inj := fun a b h => by simpa using congrArg String.length h

def plainOpts : SearchOpts where
  weights := defaultWeights .minmax
  nowMs := 5
  validAt := 5

theorem search_sound_local :
    Sound asciiLanguage keywordIndex twoProjects "notes" { project := some (.one "local"), entity := some "ada", asOf := some 5 } 10
      plainOpts (search asciiLanguage keywordIndex twoProjects "notes"
        { project := some (.one "local"), entity := some "ada", asOf := some 5 } 10 plainOpts) :=
  search_sound asciiLanguage keywordIndex twoProjects "notes"
    { project := some (.one "local"), entity := some "ada", asOf := some 5 } 10 plainOpts (by simp [openEnd])

theorem search_complete_local :
    1 ∈ (search asciiLanguage keywordIndex twoProjects "notes" { project := some (.one "local") } 10 plainOpts).map (·.id) ∨
      (10 ≤ ((search asciiLanguage keywordIndex twoProjects "notes" { project := some (.one "local") } 10 plainOpts).filter
          (·.bundleReason = none)).length ∨
        CutShort asciiLanguage keywordIndex twoProjects "notes" { project := some (.one "local") } 10 plainOpts) ∧
        (plainOpts.rerank = none → ∀ h ∈ search asciiLanguage keywordIndex twoProjects "notes"
          { project := some (.one "local") } 10 plainOpts, h.bundleReason = none →
          (queryHit asciiLanguage keywordIndex twoProjects "notes" { project := some (.one "local") } 10 plainOpts
            (twoProjects.idText 1)).score ≤ h.score) :=
  search_complete asciiLanguage keywordIndex twoProjects "notes" { project := some (.one "local") } 10 plainOpts (by simp)
    (m := { plainRow 1 with project := some "local" }) List.mem_cons_self (admits_iff.1 (by decide +kernel))
    (.keyword (by decide) (by decide +kernel) rfl (List.mem_cons_of_mem _ List.mem_cons_self)) (fun name hname => by cases hname)

/-- Rewriting cuts the ranking before the filters are asked: with room for one candidate the better one of another project
takes it, and a memory that the same search finds without rewriting is gone from an empty answer. -/
theorem rewrite_loses :
    (search asciiLanguage keywordIndex twoProjects "notes" { project := some (.one "local") } 10 plainOpts).map (·.id) = [1] ∧
    (search asciiLanguage keywordIndex twoProjects "notes" { project := some (.one "local") } 10
      { plainOpts with rewrite := some (1, ["remarks"]) }).map (·.id) = [] := by
  decide +kernel

end AstramemLocal.Search.Pipeline
