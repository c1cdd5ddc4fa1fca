/-
Query rewriting in `search()`, `search/query-rewrite.ts`: the ranking of the query and those of its rewritten variants are
merged by id. `Offers` says which hits stand for an id: in the ranking of the query the last one of the id, in the
variants every one.
- `mem_merged`: what is merged is, for every id, one of the best hits that are offered.
- `merge_best`: the result is its first part by score; another order of the variants changes it in the lowest score only.
- `tie_at_cap`: there it can change which ids are returned.
-/
import AstramemLocal.Core.Contest
import AstramemLocal.Core.Ranking
import AstramemLocal.Search.Fuse
import Mathlib.Data.List.Induction

namespace AstramemLocal.Search

open AstramemLocal.Core

/-! ## Model -/

/-- `byId.set(hit.id, hit)`; an id that has an entry keeps its place -/
def setHit (byId : List FusedHit) (hit : FusedHit) : List FusedHit :=
  settle (fun existing => existing.id = hit.id) (fun _ => true) byId hit

/-- `if (!existing || hit.score > existing.score) byId.set(hit.id, hit)` -/
def keepMax (byId : List FusedHit) (hit : FusedHit) : List FusedHit :=
  settle (fun existing => existing.id = hit.id) (fun existing => existing.score < hit.score) byId hit

/-- `byId`, in insertion order -/
def merged (primary : List FusedHit) (variants : List (List FusedHit)) : List FusedHit :=
  variants.foldl (fun byId variantHits => variantHits.foldl keepMax byId) (primary.foldl setHit [])

def mergeVariantHits (primary : List FusedHit) (variants : List (List FusedHit)) (maxCandidates : ℤ) : List FusedHit :=
  (sortByScore (merged primary variants)).take (max 0 maxCandidates).toNat

/-! ## What is merged -/

/-- the hits that stand for their id -/
def Offers (primary : List FusedHit) (variants : List (List FusedHit)) (hit : FusedHit) : Prop :=
  primary.reverse.find? (·.id = hit.id) = some hit ∨ ∃ variantHits ∈ variants, hit ∈ variantHits

/-- a hit that is offered, and no better one of its id -/
structure Best (offers : FusedHit → Prop) (hit : FusedHit) : Prop where
  offered : offers hit
  best : ∀ other, offers other → other.id = hit.id → other.score ≤ hit.score

variable {primary : List FusedHit} {variants variants' : List (List FusedHit)} {hit other : FusedHit} {byId : List FusedHit}
  {offers : FusedHit → Prop}

/-- the table has one entry for every id offered, a best one -/
structure Table (offers : FusedHit → Prop) (byId : List FusedHit) : Prop where
  ids : (byId.map (·.id)).Nodup
  best : ∀ hit ∈ byId, Best offers hit
  all : ∀ hit, offers hit → ∃ entry ∈ byId, entry.id = hit.id

theorem Table.congr {offers' : FusedHit → Prop} (h : Table offers byId) (hsame : ∀ hit, offers' hit ↔ offers hit) :
    Table offers' byId := by
  have heq : offers' = offers := funext fun hit => propext (hsame hit)
  rw [heq]
  exact h

/-- one round of the first loop: the hit stands for its id from now on -/
theorem Table.setHit (h : Table offers byId) (hit : FusedHit) :
    Table (fun x => (offers x ∧ x.id ≠ hit.id) ∨ x = hit) (setHit byId hit) := by
  have hmem : ∀ e, e ∈ Search.setHit byId hit ↔ (e ∈ byId ∧ e.id ≠ hit.id) ∨ e = hit := by
    intro e
    rw [Search.setHit, mem_settle_key h.ids]
    simp
  refine ⟨settle_keys h.ids, ?_, ?_⟩
  · intro e he
    rcases (hmem e).1 he with ⟨hold, hne⟩ | rfl
    · refine ⟨Or.inl ⟨(h.best e hold).offered, hne⟩, ?_⟩
      intro x hx hid
      rcases hx with ⟨hx, -⟩ | rfl
      · exact (h.best e hold).best x hx hid
      · exact absurd hid.symm hne
    · refine ⟨Or.inr rfl, ?_⟩
      intro x hx hid
      rcases hx with ⟨-, hne⟩ | rfl
      · exact absurd hid hne
      · exact le_rfl
  · intro x hx
    rcases hx with ⟨hx, hne⟩ | rfl
    · obtain ⟨entry, hentry, hid⟩ := h.all x hx
      exact ⟨entry, (hmem entry).2 (Or.inl ⟨hentry, hid ▸ hne⟩), hid⟩
    · exact ⟨x, (hmem x).2 (Or.inr rfl), rfl⟩

/-- one round of the second: the hit is offered beside the others -/
theorem Table.keepMax (h : Table offers byId) (hit : FusedHit) : Table (fun x => offers x ∨ x = hit) (keepMax byId hit) := by
  have hmem : ∀ e, e ∈ Search.keepMax byId hit ↔
      (e ∈ byId ∧ (e.id ≠ hit.id ∨ hit.score ≤ e.score)) ∨
        (e = hit ∧ ∀ old ∈ byId, old.id = hit.id → old.score < hit.score) := by
    intro e
    rw [Search.keepMax, mem_settle_key h.ids]
    simp
  refine ⟨settle_keys h.ids, ?_, ?_⟩
  · intro e he
    rcases (hmem e).1 he with ⟨hold, hkept⟩ | ⟨rfl, hall⟩
    · refine ⟨Or.inl (h.best e hold).offered, ?_⟩
      intro x hx hid
      rcases hx with hx | rfl
      · exact (h.best e hold).best x hx hid
      · exact hkept.resolve_left fun hne => hne hid.symm
    · refine ⟨Or.inr rfl, ?_⟩
      intro x hx hid
      rcases hx with hx | rfl
      · obtain ⟨entry, hentry, heid⟩ := h.all x hx
        calc x.score ≤ entry.score := (h.best entry hentry).best x hx heid.symm
          _ ≤ e.score := (hall entry hentry (heid.trans hid)).le
      · exact le_rfl
  · intro x hx
    -- the entry of the id, old or new
    have hentry : ∀ old ∈ byId, old.id = x.id → ∃ entry ∈ Search.keepMax byId hit, entry.id = x.id := by
      intro old hold hid
      by_cases hkept : old.id ≠ hit.id ∨ hit.score ≤ old.score
      · exact ⟨old, (hmem old).2 (Or.inl ⟨hold, hkept⟩), hid⟩
      · obtain ⟨hsame, hlt⟩ := not_or.1 hkept
        have hsame := not_ne_iff.1 hsame
        refine ⟨hit, (hmem hit).2 (Or.inr ⟨rfl, ?_⟩), hsame.symm.trans hid⟩
        intro other hother hoid
        have heq : other = old := List.inj_on_of_nodup_map h.ids hother hold (hoid.trans hsame.symm)
        exact heq ▸ not_le.1 hlt
    rcases hx with hx | rfl
    · obtain ⟨old, hold, hid⟩ := h.all x hx
      exact hentry old hold hid
    · by_cases hnone : ∀ old ∈ byId, old.id ≠ x.id
      · exact ⟨x, (hmem x).2 (Or.inr ⟨rfl, fun old hold hid => absurd hid (hnone old hold)⟩), rfl⟩
      · obtain ⟨old, hold, hid⟩ : ∃ old ∈ byId, old.id = x.id := by simpa using hnone
        exact hentry old hold hid

theorem table_primary (primary : List FusedHit) :
    Table (fun x => primary.reverse.find? (·.id = x.id) = some x) (primary.foldl setHit []) := by
  induction primary using List.reverseRecOn with
  | nil =>
    refine ⟨List.nodup_nil, ?_, ?_⟩
    · intro e he
      cases he
    · intro x hx
      cases hx
  | append_singleton primary hit ih =>
    rw [List.foldl_append]
    refine (ih.setHit hit).congr fun x => ?_
    rw [List.reverse_append, List.reverse_singleton, List.singleton_append, List.find?_cons]
    by_cases hid : hit.id = x.id
    · simp [hid, eq_comm]
    · have hne : x ≠ hit := fun heq => hid (heq ▸ rfl)
      simp [hid, hne, Ne.symm hid]

theorem table_variant (h : Table offers byId) (variantHits : List FusedHit) :
    Table (fun x => offers x ∨ x ∈ variantHits) (variantHits.foldl keepMax byId) := by
  induction variantHits generalizing offers byId with
  | nil => exact h.congr fun x => by simp
  | cons hit variantHits ih => exact (ih (h.keepMax hit)).congr fun x => by rw [List.mem_cons, or_assoc]

theorem table_variants (h : Table offers byId) (variants : List (List FusedHit)) :
    Table (fun x => offers x ∨ ∃ variantHits ∈ variants, x ∈ variantHits)
      (variants.foldl (fun byId variantHits => variantHits.foldl keepMax byId) byId) := by
  induction variants generalizing offers byId with
  | nil => exact h.congr fun x => by simp
  | cons variantHits variants ih => exact (ih (table_variant h variantHits)).congr fun x => by simp [or_assoc]

/-- **The merge.** One entry for every id offered, a best one of those offered. -/
theorem table_merged (primary : List FusedHit) (variants : List (List FusedHit)) :
    Table (Offers primary variants) (merged primary variants) := table_variants (table_primary primary) variants

/-! ## The cut -/

/-- the ids with their scores -/
def scored (hits : List FusedHit) : List (String × ℚ) := hits.map fun h => (h.id, h.score)

theorem mergeVariantHits_eq (maxCandidates : ℤ) : mergeVariantHits primary variants maxCandidates =
    cut (byScore FusedHit.score) (max 0 maxCandidates).toNat (merged primary variants) := rfl

theorem Table.scored_nodup (h : Table offers byId) : (scored byId).Nodup := by
  apply List.Nodup.of_map Prod.fst
  rw [scored, List.map_map]
  exact h.ids

theorem Table.mem_scored (h : Table offers byId) {id : String} {s : ℚ} :
    (id, s) ∈ scored byId ↔ ∃ hit, Best offers hit ∧ hit.id = id ∧ hit.score = s := by
  rw [scored, List.mem_map]
  constructor
  · rintro ⟨hit, hhit, heq⟩
    cases heq
    exact ⟨hit, h.best hit hhit, rfl, rfl⟩
  · rintro ⟨hit, hbest, rfl, rfl⟩
    obtain ⟨entry, hentry, hid⟩ := h.all hit hbest.offered
    have hscore : entry.score = hit.score :=
      le_antisymm (hbest.best entry (h.best entry hentry).offered hid) ((h.best entry hentry).best hit hbest.offered hid.symm)
    exact ⟨entry, hentry, by rw [hid, hscore]⟩

/-- two tables of the same offers have the same ids and scores -/
theorem Table.scored_perm {byId' : List FusedHit} (h : Table offers byId) (h' : Table offers byId') :
    (scored byId).Perm (scored byId') := by
  rw [List.perm_ext_iff_of_nodup h.scored_nodup h'.scored_nodup]
  intro entry
  rw [h.mem_scored, h'.mem_scored]

/-- two results differ at most in the ids of the lowest score and in the order of equal ones -/
structure SameAbove (result result' : List FusedHit) (cap : ℕ) : Prop where
  scores : result.map (·.score) = result'.map (·.score)
  above : ∀ id s, (∃ low ∈ result, low.score < s) → ((id, s) ∈ scored result ↔ (id, s) ∈ scored result')
  uncut : result.length < cap → (scored result).Perm (scored result')

theorem cut_above {byId' : List FusedHit} {k : ℕ} (hperm : (scored byId).Perm (scored byId'))
    {id : String} {s : ℚ} (hlow : ∃ low ∈ cut (byScore FusedHit.score) k byId', low.score < s)
    (h : (id, s) ∈ scored (cut (byScore FusedHit.score) k byId)) :
    (id, s) ∈ scored (cut (byScore FusedHit.score) k byId') := by
  obtain ⟨hit, hhit, heq⟩ := List.mem_map.1 h
  have hmem : (id, s) ∈ scored byId' := hperm.mem_iff.1 (List.mem_map.2 ⟨hit, mem_of_mem_cut hhit, heq⟩)
  obtain ⟨hit', hhit', heq'⟩ := List.mem_map.1 hmem
  by_cases hin : hit' ∈ cut (byScore FusedHit.score) k byId'
  · exact List.mem_map.2 ⟨hit', hin, heq'⟩
  · obtain ⟨low, hlow, hlt⟩ := hlow
    have hle : hit'.score ≤ low.score := (le_of_notMem_cut hhit' hin).1 low hlow
    cases heq'
    exact absurd hlt (not_lt.2 hle)

theorem sameAbove_of_perm {byId' : List FusedHit} (k : ℕ) (hperm : (scored byId).Perm (scored byId')) :
    SameAbove (cut (byScore FusedHit.score) k byId) (cut (byScore FusedHit.score) k byId') k := by
  have hscore : (byId.map (·.score)).Perm (byId'.map (·.score)) := by
    have hmap := hperm.map Prod.snd
    rw [scored, scored, List.map_map, List.map_map] at hmap
    exact hmap
  have hsame := cut_scores (k := k) hscore
  have hlow : ∀ s : ℚ, (∃ low ∈ cut (byScore FusedHit.score) k byId, low.score < s) ↔
      ∃ low ∈ cut (byScore FusedHit.score) k byId', low.score < s := by
    intro s
    have hscores : (∃ t ∈ (cut (byScore FusedHit.score) k byId).map (·.score), t < s) ↔
        ∃ t ∈ (cut (byScore FusedHit.score) k byId').map (·.score), t < s := by rw [hsame]
    simpa using hscores
  refine ⟨hsame, ?_, ?_⟩
  · intro id s hlt
    exact ⟨cut_above hperm ((hlow s).1 hlt), cut_above hperm.symm hlt⟩
  · intro hshort
    have hlength : byId.length < k := by
      rw [cut, List.length_take, List.length_insertionSort] at hshort
      omega
    have hall : ∀ l : List FusedHit, l.length < k → (cut (byScore FusedHit.score) k l).Perm l := by
      intro l hl
      rw [cut, List.take_of_length_le (by rw [List.length_insertionSort]; omega)]
      exact List.perm_insertionSort _ l
    have hlength' : byId'.length < k := by
      have heq := hperm.length_eq
      simp only [scored, List.length_map] at heq
      omega
    exact (((hall _ hlength).map _).trans hperm).trans ((hall _ hlength').map _).symm

/-- **The merged ranking.** Every id is returned once, with the best score it is offered with; the result is sorted and no
longer than the cap; an id that is left out is scored no better than those returned, and the cap is reached; and with the
variants in another order only the ids of the lowest score may be others. -/
theorem merge_best (primary : List FusedHit) (variants : List (List FusedHit)) (maxCandidates : ℤ) :
    ((mergeVariantHits primary variants maxCandidates).map (·.id)).Nodup ∧
    (∀ hit ∈ mergeVariantHits primary variants maxCandidates, Best (Offers primary variants) hit) ∧
    (mergeVariantHits primary variants maxCandidates).Pairwise (fun a b => b.score ≤ a.score) ∧
    (mergeVariantHits primary variants maxCandidates).length ≤ (max 0 maxCandidates).toNat ∧
    (∀ other, Offers primary variants other →
      other.id ∉ (mergeVariantHits primary variants maxCandidates).map (·.id) →
        (∀ hit ∈ mergeVariantHits primary variants maxCandidates, other.score ≤ hit.score) ∧
        (mergeVariantHits primary variants maxCandidates).length = (max 0 maxCandidates).toNat) ∧
    ∀ variants', variants.Perm variants' →
      SameAbove (mergeVariantHits primary variants maxCandidates) (mergeVariantHits primary variants' maxCandidates)
        (max 0 maxCandidates).toNat := by
  have htable := table_merged primary variants
  rw [mergeVariantHits_eq]
  refine ⟨?_, ?_, cut_sorted, length_cut_le, ?_, ?_⟩
  · exact nodup_map_cut htable.ids
  · intro hit hhit
    exact htable.best hit (mem_of_mem_cut hhit)
  · intro other hother hout
    obtain ⟨entry, hentry, hid⟩ := htable.all other hother
    have hnot : entry ∉ cut (byScore FusedHit.score) (max 0 maxCandidates).toNat (merged primary variants) :=
      fun hin => hout (List.mem_map.2 ⟨entry, hin, hid⟩)
    obtain ⟨hbehind, hfull⟩ := le_of_notMem_cut hentry hnot
    refine ⟨?_, hfull⟩
    intro hit hhit
    calc other.score ≤ entry.score := (htable.best entry hentry).best other hother hid.symm
      _ ≤ hit.score := hbehind hit hhit
  · intro variants' hperm
    have htable' : Table (Offers primary variants) (merged primary variants') := by
      refine (table_merged primary variants').congr fun hit => ?_
      simp only [Offers, hperm.mem_iff]
    exact sameAbove_of_perm _ (htable.scored_perm htable')

/-- Two variants with equal scores: with room for one hit, their order decides which is returned. And of two hits of the
query with one id the later one is taken, not the better one. -/
theorem tie_at_cap :
    (∃ a b : FusedHit, mergeVariantHits [] [[a], [b]] 1 = [a] ∧ mergeVariantHits [] [[b], [a]] 1 = [b] ∧
      ¬ [a].Perm [b]) ∧
    ∃ a b : FusedHit, a.id = b.id ∧ b.score < a.score ∧ mergeVariantHits [a, b] [] 5 = [b] := by
  constructor
  · exact ⟨⟨"a", 1 / 2, .fts⟩, ⟨"b", 1 / 2, .fts⟩, by decide +kernel, by decide +kernel, by decide +kernel⟩
  · exact ⟨⟨"a", 9 / 10, .fts⟩, ⟨"a", 1 / 10, .vec⟩, rfl, by decide +kernel, by decide +kernel⟩

end AstramemLocal.Search
