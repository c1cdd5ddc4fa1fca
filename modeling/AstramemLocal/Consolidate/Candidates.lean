/-
What a consolidation run compares: the atoms it loads, their groups by (repo, type), and the candidate pairs of a group.
* `mem_buildFullPairs`, `buildFullPairs_once`: the full scan takes every unordered pair of a group once.
* `knn_within_full`: the k-NN scan takes, each once, those of them one atom of which is a hit of the other, whatever the
  vector store answers.
-/
import AstramemLocal.Consolidate.Scan
import AstramemLocal.Core.Firsts
import Mathlib.Data.List.Sort

namespace AstramemLocal.Consolidate

open AstramemLocal.Store

/-! ## Loading -/

def atomRow (m : Memory) : AtomRow := ⟨m.id, m.rowid, m.repo, m.type, m.text, m.importance, m.createdAt⟩

/-- the words of the column `type` -/
def typeText : MemoryType → String
  | .decision => "decision"
  | .fact => "fact"
  | .lesson => "lesson"
  | .command => "command"
  | .todo => "todo"
  | .note => "note"
  | .event => "event"
  | .preference => "preference"
  | .taskResult => "task_result"
  | .summary => "summary"

/-- `ORDER BY repo, type, created_at, rowid`; NULL comes first -/
def rowLe (m n : Memory) : Bool :=
  let repo := fun m : Memory => m.repo.toList
  if repo m ≠ repo n then decide (repo m < repo n)
  else if m.type ≠ n.type then decide (typeText m.type < typeText n.type)
  else if m.createdAt ≠ n.createdAt then decide (m.createdAt < n.createdAt)
  else decide (m.rowid ≤ n.rowid)

/-- `WHERE valid_to IS NULL`, in order -/
def validRows (s : St) : List Memory :=
  (s.memories.filter (·.validTo = none)).insertionSort fun m n => rowLe m n = true

/-- `loadAtomsSetupBounded`: pages of the valid rows, those with an embedding of each; `stopAfter` is the number of pages
behind which the budget was spent or a job preempted the load -/
def loadAtomsSetupBounded (s : St) (pageSize : ℕ) (stopAfter : Option ℕ) : List AtomRow :=
  let rows := match stopAfter with
    | none => validRows s
    | some pages => (validRows s).take (pages * pageSize)
  (rows.filter (·.rowid ∈ s.memoriesVec)).map atomRow

theorem mem_loadAtoms {s : St} {pageSize : ℕ} {stopAfter : Option ℕ} {a : AtomRow}
    (h : a ∈ loadAtomsSetupBounded s pageSize stopAfter) :
    ∃ m ∈ s.memories, m.validTo = none ∧ m.rowid ∈ s.memoriesVec ∧ a = atomRow m := by
  have hrows : ∀ m, m ∈ validRows s → m ∈ s.memories ∧ m.validTo = none := by
    intro m hm
    rw [validRows, List.mem_insertionSort, List.mem_filter, decide_eq_true_eq] at hm
    exact hm
  obtain ⟨m, hm, rfl⟩ := List.mem_map.1 h
  obtain ⟨hm, hvec⟩ := List.mem_filter.1 hm
  have hmem : m ∈ validRows s := by
    cases stopAfter with
    | none => exact hm
    | some pages => exact List.mem_of_mem_take hm
  exact ⟨m, (hrows m hmem).1, (hrows m hmem).2, by simpa using hvec, rfl⟩

theorem loadAtoms_nodup {s : St} (h : UniqueIds s) (pageSize : ℕ) (stopAfter : Option ℕ) :
    ((loadAtomsSetupBounded s pageSize stopAfter).map (·.id)).Nodup := by
  have hvalid : ((validRows s).map (·.id)).Nodup :=
    ((List.perm_insertionSort _ _).map _).nodup_iff.2 (List.Nodup.sublist (List.filter_sublist.map _) h)
  have hrows : ∀ rows : List Memory, (rows.map (·.id)).Nodup →
      (((rows.filter (·.rowid ∈ s.memoriesVec)).map atomRow).map (·.id)).Nodup := by
    intro rows hrows
    rw [List.map_map]
    exact hrows.sublist (List.filter_sublist.map _)
  unfold loadAtomsSetupBounded
  cases stopAfter with
  | none => exact hrows _ hvalid
  | some pages => exact hrows _ (hvalid.sublist ((List.take_sublist _ _).map _))

/-! ## Groups -/

/-- `repo ?? ''` and the type, joined by a NUL -/
abbrev GroupKey := String × MemoryType

def groupKey (a : AtomRow) : GroupKey := (a.repo.getD "", a.type)

structure GroupEntry where
  key : GroupKey
  atoms : List AtomRow
deriving DecidableEq, Repr

/-- the Map of the groups in insertion order, without those of one atom -/
def groupAtoms (atoms : List AtomRow) : List GroupEntry :=
  ((Core.firsts groupKey atoms).map fun a => ⟨groupKey a, atoms.filter (groupKey · = groupKey a)⟩).filter
    fun g => 2 ≤ g.atoms.length

theorem mem_groupAtoms {atoms : List AtomRow} {g : GroupEntry} (h : g ∈ groupAtoms atoms) :
    g.atoms = atoms.filter (groupKey · = g.key) ∧ 2 ≤ g.atoms.length := by
  obtain ⟨hg, hsize⟩ := List.mem_filter.1 h
  obtain ⟨a, -, rfl⟩ := List.mem_map.1 hg
  exact ⟨rfl, by simpa using hsize⟩

theorem groupAtoms_nodup (atoms : List AtomRow) : ((groupAtoms atoms).map (·.key)).Nodup := by
  have hkeys : (((Core.firsts groupKey atoms).map fun a =>
      (⟨groupKey a, atoms.filter (groupKey · = groupKey a)⟩ : GroupEntry)).map (·.key)) =
        (Core.firsts groupKey atoms).map groupKey := by
    rw [List.map_map]
    rfl
  exact (hkeys ▸ Core.nodup_firsts).sublist (List.filter_sublist.map _)

/-! ## Candidate pairs -/

abbrev Pair := AtomRow × AtomRow

/-- the pairs `i < j` in the order of the nested loop -/
def buildFullPairs : List AtomRow → List Pair
  | [] => []
  | a :: group => group.map (a, ·) ++ buildFullPairs group

/-- the ids of a pair, smaller first: the key of `seenPairKeys` -/
def pairKey (p : Pair) : ℕ × ℕ := (min p.1.id p.2.id, max p.1.id p.2.id)

/-- one hit of one atom -/
def knnHit (group : List AtomRow) (a : AtomRow) (pairs : List Pair) (hit : AtomId) : List Pair :=
  if hit = a.id then pairs
  else
    match group.find? (·.id = hit) with
    | none => pairs
    | some b =>
      if (min a.id b.id, max a.id b.id) ∈ pairs.map pairKey then pairs
      else pairs ++ [if a.id < b.id then (a, b) else (b, a)]

/-- one atom with its hits; `search` is the vector store's answer -/
def knnAtom {V : Type} (search : V → ℕ → List AtomId) (k : ℕ) (vecs : AtomId → Option V) (group : List AtomRow)
    (pairs : List Pair) (a : AtomRow) : List Pair :=
  match vecs a.id with
  | none => pairs
  | some va => (search va k).foldl (knnHit group a) pairs

def buildKnnCandidatePairs {V : Type} (search : V → ℕ → List AtomId) (k : ℕ) (vecs : AtomId → Option V)
    (group : List AtomRow) : List Pair :=
  group.foldl (knnAtom search k vecs group) []

/-! ## The full scan -/

theorem mem_buildFullPairs {group : List AtomRow} {p : Pair} : p ∈ buildFullPairs group ↔ [p.1, p.2].Sublist group := by
  induction group with
  | nil => simp [buildFullPairs]
  | cons a group ih =>
    have hmap : p ∈ group.map (a, ·) ↔ p.1 = a ∧ p.2 ∈ group := by
      rw [List.mem_map]
      constructor
      · rintro ⟨b, hb, rfl⟩
        exact ⟨rfl, hb⟩
      · rintro ⟨rfl, hb⟩
        exact ⟨p.2, hb, rfl⟩
    rw [buildFullPairs, List.mem_append, hmap, ih, List.sublist_cons_iff, or_comm]
    apply or_congr_right
    constructor
    · rintro ⟨ha, hb⟩
      exact ⟨[p.2], by rw [ha], List.singleton_sublist.2 hb⟩
    · rintro ⟨rest, heq, hrest⟩
      obtain ⟨ha, rfl⟩ := List.cons.inj heq
      exact ⟨ha, List.singleton_sublist.1 hrest⟩

theorem pairKey_eq_iff {p q : Pair} :
    pairKey p = pairKey q ↔ p.1.id = q.1.id ∧ p.2.id = q.2.id ∨ p.1.id = q.2.id ∧ p.2.id = q.1.id := by
  have hsorted : ∀ p : Pair, pairKey p = if p.1.id ≤ p.2.id then (p.1.id, p.2.id) else (p.2.id, p.1.id) := by
    intro p
    unfold pairKey
    split_ifs with hle
    · rw [min_eq_left hle, max_eq_right hle]
    · rw [min_eq_right (le_of_not_ge hle), max_eq_left (le_of_not_ge hle)]
  rw [hsorted, hsorted]
  split_ifs <;> simp only [Prod.mk.injEq] <;> grind

variable {group : List AtomRow} {p : Pair}

/-- one atom for an id of the group -/
theorem eq_of_id (hids : (group.map (·.id)).Nodup) {a b : AtomRow} (ha : a ∈ group) (hb : b ∈ group)
    (heq : a.id = b.id) : a = b :=
  List.inj_on_of_nodup_map hids ha hb heq

theorem of_mem_buildFullPairs (hids : (group.map (·.id)).Nodup) (h : p ∈ buildFullPairs group) :
    p.1 ∈ group ∧ p.2 ∈ group ∧ p.1.id ≠ p.2.id := by
  have hsub := mem_buildFullPairs.1 h
  have hne : p.1.id ≠ p.2.id := by
    have hpair := hids.sublist (hsub.map (·.id))
    simpa using hpair
  exact ⟨hsub.subset (by simp), hsub.subset (by simp), hne⟩

/-- every unordered pair is taken -/
theorem buildFullPairs_takes {a b : AtomRow} (ha : a ∈ group) (hb : b ∈ group) (hne : a.id ≠ b.id) :
    (min a.id b.id, max a.id b.id) ∈ (buildFullPairs group).map pairKey := by
  have hpair : ∀ x y : AtomRow, (x = a ∧ y = b ∨ x = b ∧ y = a) → pairKey (x, y) = (min a.id b.id, max a.id b.id) := by
    rintro x y (⟨rfl, rfl⟩ | ⟨rfl, rfl⟩)
    · rfl
    · simp only [pairKey, min_comm, max_comm]
  induction group with
  | nil => cases ha
  | cons c group ih =>
    rw [buildFullPairs, List.map_append, List.mem_append]
    by_cases hc : c = a ∨ c = b
    · left
      rcases hc with rfl | rfl
      · have hb' : b ∈ group := (List.mem_cons.1 hb).resolve_left fun heq => hne (by rw [heq])
        exact List.mem_map.2 ⟨(c, b), List.mem_map.2 ⟨b, hb', rfl⟩, rfl⟩
      · have ha' : a ∈ group := (List.mem_cons.1 ha).resolve_left fun heq => hne (by rw [heq])
        exact List.mem_map.2 ⟨(c, a), List.mem_map.2 ⟨a, ha', rfl⟩, hpair c a (Or.inr ⟨rfl, rfl⟩)⟩
    · rw [not_or] at hc
      exact Or.inr (ih ((List.mem_cons.1 ha).resolve_left (Ne.symm hc.1))
        ((List.mem_cons.1 hb).resolve_left (Ne.symm hc.2)))

/-- no unordered pair is taken twice -/
theorem buildFullPairs_once (hids : (group.map (·.id)).Nodup) : ((buildFullPairs group).map pairKey).Nodup := by
  induction group with
  | nil => exact List.nodup_nil
  | cons a group ih =>
    obtain ⟨ha, hgroup⟩ := List.nodup_cons.1 hids
    have hfresh : ∀ b ∈ group, b.id ≠ a.id := fun b hb heq => ha (List.mem_map.2 ⟨b, hb, heq⟩)
    have hhead : ((group.map (a, ·)).map pairKey).Nodup := by
      rw [List.map_map]
      refine (List.Nodup.of_map _ hgroup).map_on fun b hb c hc heq => ?_
      have hid : b.id = c.id := by
        rcases pairKey_eq_iff.1 heq with ⟨-, hbc⟩ | ⟨hac, hba⟩
        · exact hbc
        · exact hba.trans hac
      exact eq_of_id hgroup hb hc hid
    rw [buildFullPairs, List.map_append]
    refine hhead.append (ih hgroup) fun key hleft hright => ?_
    obtain ⟨q, hq, rfl⟩ := List.mem_map.1 hleft
    obtain ⟨b, hb, rfl⟩ := List.mem_map.1 hq
    obtain ⟨r, hr, hkey⟩ := List.mem_map.1 hright
    obtain ⟨h1, h2, -⟩ := of_mem_buildFullPairs hgroup hr
    rcases pairKey_eq_iff.1 hkey with ⟨heq, -⟩ | ⟨-, heq⟩
    · exact hfresh _ h1 heq
    · exact hfresh _ h2 heq

/-! ## The k-NN scan -/

/-- the id of `b` is among the hits of `a` -/
def Hit {V : Type} (search : V → ℕ → List AtomId) (k : ℕ) (vecs : AtomId → Option V) (a b : AtomRow) : Prop :=
  ∃ va, vecs a.id = some va ∧ b.id ∈ search va k

/-- what the pairs taken so far promise; `R` is what is known of a hit -/
structure KnnPairs (R : AtomRow → AtomRow → Prop) (group : List AtomRow) (pairs : List Pair) : Prop where
  once : (pairs.map pairKey).Nodup
  within : ∀ p ∈ pairs, p.1 ∈ group ∧ p.2 ∈ group ∧ p.1.id < p.2.id ∧ (R p.1 p.2 ∨ R p.2 p.1)

variable {R : AtomRow → AtomRow → Prop} {pairs : List Pair} {a b : AtomRow}

theorem KnnPairs.snoc (h : KnnPairs R group pairs) (hp : p.1 ∈ group ∧ p.2 ∈ group ∧ p.1.id < p.2.id ∧ (R p.1 p.2 ∨ R p.2 p.1))
    (hnew : pairKey p ∉ pairs.map pairKey) : KnnPairs R group (pairs ++ [p]) := by
  refine ⟨?_, fun q hq => ?_⟩
  · rw [List.map_append]
    refine h.once.append (List.nodup_singleton _) fun key hkey hlast => hnew ?_
    rwa [List.mem_singleton.1 hlast] at hkey
  · rcases List.mem_append.1 hq with hq | hq
    · exact h.within q hq
    · exact List.mem_singleton.1 hq ▸ hp

theorem KnnPairs.hit (h : KnnPairs R group pairs) (ha : a ∈ group) {hit : AtomId}
    (hR : ∀ b ∈ group, b.id = hit → R a b) : KnnPairs R group (knnHit group a pairs hit) := by
  unfold knnHit
  split_ifs with hself
  · exact h
  · split
    · exact h
    next b hb =>
      have hid : b.id = hit := by simpa using List.find?_some hb
      have hmem := List.mem_of_find?_eq_some hb
      have hab := hR b hmem hid
      split_ifs with hseen hlt
      · exact h
      · exact h.snoc ⟨ha, hmem, hlt, Or.inl hab⟩ hseen
      · refine h.snoc ⟨hmem, ha, lt_of_le_of_ne (le_of_not_gt hlt) (hid ▸ hself), Or.inr hab⟩ fun hin => hseen ?_
        rwa [pairKey, min_comm, max_comm] at hin

/-- a hit loses no pair -/
theorem knnHit_keeps (group : List AtomRow) (a : AtomRow) (hit : AtomId) (hp : p ∈ pairs) :
    p ∈ knnHit group a pairs hit := by
  unfold knnHit
  split_ifs
  · exact hp
  · split
    · exact hp
    · split_ifs
      · exact hp
      · exact List.mem_append_left _ hp
      · exact List.mem_append_left _ hp

/-- the pair of a member of the group is taken -/
theorem knnHit_takes (hb : group.find? (·.id = b.id) = some b) (hne : a.id ≠ b.id) :
    (min a.id b.id, max a.id b.id) ∈ (knnHit group a pairs b.id).map pairKey := by
  unfold knnHit
  rw [if_neg (Ne.symm hne), hb]
  dsimp only
  split_ifs with hseen hlt
  · exact hseen
  · simp [pairKey]
  · simp [pairKey, min_comm, max_comm]

section
variable {V : Type} (search : V → ℕ → List AtomId) (k : ℕ) (vecs : AtomId → Option V)

theorem KnnPairs.atom (h : KnnPairs (Hit search k vecs) group pairs) (ha : a ∈ group) :
    KnnPairs (Hit search k vecs) group (knnAtom search k vecs group pairs a) := by
  unfold knnAtom
  split
  · exact h
  next va hva =>
    exact List.foldlRecOn _ (knnHit group a) h fun pairs h hit hhit =>
      h.hit ha fun b _ hb => ⟨va, hva, hb ▸ hhit⟩

theorem buildKnn_ok (group : List AtomRow) :
    KnnPairs (Hit search k vecs) group (buildKnnCandidatePairs search k vecs group) :=
  List.foldlRecOn group (knnAtom search k vecs group) (⟨List.nodup_nil, fun p hp => by cases hp⟩)
    fun _ h _ ha => h.atom search k vecs ha

theorem hits_keep (hits : List AtomId) (hp : p ∈ pairs) : p ∈ hits.foldl (knnHit group a) pairs :=
  List.foldlRecOn hits (knnHit group a) hp fun _ h hit _ => knnHit_keeps group a hit h

theorem hits_take {hits : List AtomId} (hb : group.find? (·.id = b.id) = some b) (hne : a.id ≠ b.id)
    (hhit : b.id ∈ hits) : (min a.id b.id, max a.id b.id) ∈ (hits.foldl (knnHit group a) pairs).map pairKey := by
  obtain ⟨before, after, rfl⟩ := List.append_of_mem hhit
  rw [List.foldl_append, List.foldl_cons]
  obtain ⟨p, hp, hkey⟩ := List.mem_map.1 (knnHit_takes hb hne)
  exact List.mem_map.2 ⟨p, hits_keep after hp, hkey⟩

theorem knnAtom_keeps (hp : p ∈ pairs) : p ∈ knnAtom search k vecs group pairs a := by
  unfold knnAtom
  split
  · exact hp
  · exact hits_keep _ hp

theorem buildKnn_takes (hids : (group.map (·.id)).Nodup) (ha : a ∈ group) (hb : b ∈ group) (hne : a.id ≠ b.id)
    (hhit : Hit search k vecs a b) :
    (min a.id b.id, max a.id b.id) ∈ (buildKnnCandidatePairs search k vecs group).map pairKey := by
  obtain ⟨va, hva, hmem⟩ := hhit
  have hfind : group.find? (·.id = b.id) = some b := by
    obtain ⟨c, hc⟩ := Option.isSome_iff_exists.1 (List.find?_isSome.2 ⟨b, hb, by simp⟩ :
      (group.find? (·.id = b.id)).isSome = true)
    have hid : c.id = b.id := by simpa using List.find?_some hc
    rw [hc, eq_of_id hids (List.mem_of_find?_eq_some hc) hb hid]
  have hfold : ∀ (rest : List AtomRow) (pairs : List Pair), a ∈ rest →
      (min a.id b.id, max a.id b.id) ∈ (rest.foldl (knnAtom search k vecs group) pairs).map pairKey := by
    intro rest pairs hrest
    obtain ⟨before, after, rfl⟩ := List.append_of_mem hrest
    rw [List.foldl_append, List.foldl_cons]
    have hround : (min a.id b.id, max a.id b.id) ∈
        (knnAtom search k vecs group (before.foldl (knnAtom search k vecs group) pairs) a).map pairKey := by
      rw [knnAtom, hva]
      exact hits_take hfind hne hmem
    obtain ⟨p, hp, hkey⟩ := List.mem_map.1 hround
    exact List.mem_map.2 ⟨p, List.foldlRecOn after _ hp fun _ h _ _ => knnAtom_keeps search k vecs h, hkey⟩
  exact hfold group [] ha

/-- **The k-NN scan takes exactly the pairs of the full scan one atom of which is among the hits of the other**, and each
of them once, whatever ids the vector store answers with. -/
theorem knn_within_full (hids : (group.map (·.id)).Nodup) :
    ((buildFullPairs group).map pairKey).Nodup ∧ ((buildKnnCandidatePairs search k vecs group).map pairKey).Nodup ∧
      ∀ key, key ∈ (buildKnnCandidatePairs search k vecs group).map pairKey ↔
        ∃ p ∈ buildFullPairs group, pairKey p = key ∧ (Hit search k vecs p.1 p.2 ∨ Hit search k vecs p.2 p.1) := by
  have hok := buildKnn_ok search k vecs group
  refine ⟨buildFullPairs_once hids, hok.once, fun key => ⟨fun hkey => ?_, ?_⟩⟩
  · obtain ⟨q, hq, rfl⟩ := List.mem_map.1 hkey
    obtain ⟨h1, h2, hlt, hhit⟩ := hok.within q hq
    obtain ⟨p, hp, hpq⟩ := List.mem_map.1 (buildFullPairs_takes h1 h2 hlt.ne)
    obtain ⟨hp1, hp2, -⟩ := of_mem_buildFullPairs hids hp
    refine ⟨p, hp, hpq, ?_⟩
    rcases pairKey_eq_iff.1 (show pairKey p = pairKey q from hpq) with ⟨e1, e2⟩ | ⟨e1, e2⟩
    · rw [eq_of_id hids hp1 h1 e1, eq_of_id hids hp2 h2 e2]
      exact hhit
    · rw [eq_of_id hids hp1 h2 e1, eq_of_id hids hp2 h1 e2]
      exact hhit.symm
  · rintro ⟨p, hp, rfl, hhit⟩
    obtain ⟨h1, h2, hne⟩ := of_mem_buildFullPairs hids hp
    rcases hhit with hhit | hhit
    · exact buildKnn_takes search k vecs hids h1 h2 hne hhit
    · rw [pairKey, min_comm, max_comm]
      exact buildKnn_takes search k vecs hids h2 h1 (Ne.symm hne) hhit

end

/-- three atoms, the hits of which are the atom itself and the next one -/
theorem knn_within_full_ring :
    let atom : ℕ → AtomRow := fun i => ⟨i, i, none, .fact, "port", 1, i⟩
    let pairs := buildKnnCandidatePairs (fun i _ => [i, (i + 1) % 3, 7]) 3 some [atom 0, atom 1, atom 2]
    (pairs.map pairKey).Nodup ∧ (0, 2) ∈ pairs.map pairKey := by
  intro atom pairs
  have hids : ([atom 0, atom 1, atom 2].map (·.id)).Nodup := by decide
  obtain ⟨-, honce, hiff⟩ := knn_within_full (fun i _ => [i, (i + 1) % 3, 7]) 3 some hids
  refine ⟨honce, (hiff (0, 2)).2 ⟨(atom 0, atom 2), by decide, by decide, Or.inr ⟨2, rfl, by decide⟩⟩⟩

end AstramemLocal.Consolidate
