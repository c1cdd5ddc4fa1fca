/-
The price history, `price_versions` (`src/storage/cost-events.ts`). `addPriceVersion` ends every open version of the same
provider, model and tier that starts before the new one, and inserts the new one; `findPriceVersion` looks among the
versions in force for the longest prefix of the model, and for the latest start among those.

- `price_history`: over every run of additions in which no two versions of one line start together and no version with an
  end of its own ends another, the version found is the one that governs the moment; an addition changes nothing before its
  start and leaves no later moment without a price.
- `findPriceVersion_before`: the first half of that holds for every addition to every table.
- `promotion_leaves_gap`: a version with an end ends the open one before it for good, and of two versions that start
  together the earlier insertion is found.
-/
import Mathlib
import AstramemLocal.Core.Runs
import AstramemLocal.Core.Table
import AstramemLocal.Core.Utf16

namespace AstramemLocal.Store

open AstramemLocal.Core

/-! ## Model -/

inductive PriceTier where
  | standard
  | priority
  | batch
deriving DecidableEq, Repr

/-- what `addPriceVersion` is given; rates are in USD per token -/
structure PriceVersion where
  provider : String
  model : String
  tier : PriceTier
  effectiveFrom : ℤ
  effectiveTo : Option ℤ
  inputRate : ℚ
  outputRate : ℚ
  cacheReadMultiplier : ℚ
  cacheWriteMultiplier : ℚ
deriving DecidableEq, Repr

structure PriceVersionRow extends PriceVersion where
  id : ℕ
deriving DecidableEq, Repr

structure PriceTable where
  rows : List PriceVersionRow := []
  nextId : ℕ := 1
deriving DecidableEq, Repr

structure PriceQuery where
  provider : String
  model : String
  tier : PriceTier := .standard
  atMs : ℤ
deriving DecidableEq, Repr

namespace PriceVersion

/-- the same provider, model and tier -/
def SameLine (v w : PriceVersion) : Prop := v.provider = w.provider ∧ v.model = w.model ∧ v.tier = w.tier

def InForce (v : PriceVersion) (t : ℤ) : Prop := v.effectiveFrom ≤ t ∧ ∀ e ∈ v.effectiveTo, t < e

instance (v w : PriceVersion) : Decidable (v.SameLine w) := inferInstanceAs (Decidable (_ ∧ _ ∧ _))

instance (v : PriceVersion) (t : ℤ) : Decidable (v.InForce t) :=
  inferInstanceAs (Decidable (v.effectiveFrom ≤ t ∧ ∀ e ∈ v.effectiveTo, t < e))

/-- an open version that an addition ends -/
def EndedBy (v row : PriceVersion) : Prop :=
  v.SameLine row ∧ v.effectiveTo = none ∧ v.effectiveFrom < row.effectiveFrom

instance (v row : PriceVersion) : Decidable (v.EndedBy row) := inferInstanceAs (Decidable (_ ∧ _ ∧ _))

/-- the version is in the query's answer, or would be but for the model -/
def Selected (v : PriceVersion) (q : PriceQuery) : Prop := v.provider = q.provider ∧ v.tier = q.tier ∧ v.InForce q.atMs

instance (v : PriceVersion) (q : PriceQuery) : Decidable (v.Selected q) := inferInstanceAs (Decidable (_ ∧ _ ∧ _))

/-- `opts.model.startsWith(candidate.model)` -/
def IsPrefix (v : PriceVersion) (q : PriceQuery) : Prop := codeUnits v.model <+: codeUnits q.model

instance (v : PriceVersion) (q : PriceQuery) : Decidable (v.IsPrefix q) :=
  inferInstanceAs (Decidable (codeUnits v.model <+: codeUnits q.model))

/-- `candidate.model.length` -/
def modelLength (v : PriceVersion) : ℕ := (codeUnits v.model).length

end PriceVersion

def addPriceVersion (db : PriceTable) (row : PriceVersion) : PriceTable where
  rows :=
    updateWhere (fun r => r.EndedBy row) (fun r => { r with effectiveTo := some row.effectiveFrom }) db.rows ++
      [{ row with id := db.nextId }]
  nextId := db.nextId + 1

/-- the loop of `findPriceVersion` over the rows of its query -/
def pickPrice (q : PriceQuery) (best : Option PriceVersionRow) (candidate : PriceVersionRow) : Option PriceVersionRow :=
  if ¬ candidate.IsPrefix q then best
  else
    match best with
    | none => some candidate
    | some b =>
      if b.modelLength < candidate.modelLength then some candidate
      else if candidate.modelLength = b.modelLength ∧ b.effectiveFrom < candidate.effectiveFrom then some candidate
      else some b

/-- the rows of the query come in the order of their ids, which is also that of the index among rows of one line and start -/
def findPriceVersion (db : PriceTable) (q : PriceQuery) : Option PriceVersionRow :=
  (db.rows.filter fun r => r.Selected q).foldl (pickPrice q) none

def addPriceVersions (adds : List PriceVersion) : PriceTable := adds.foldl addPriceVersion {}

/-! ## Look-up -/

/-- what the loop compares -/
def PriceVersion.rank (v : PriceVersion) : ℕ ×ₗ ℤ := toLex (v.modelLength, v.effectiveFrom)

/-- the version counts for the query -/
def PriceVersion.Applies (v : PriceVersion) (q : PriceQuery) : Prop := v.IsPrefix q ∧ v.Selected q

instance (v : PriceVersion) (q : PriceQuery) : Decidable (v.Applies q) := inferInstanceAs (Decidable (_ ∧ _))

variable {db : PriceTable} {q : PriceQuery} {r : PriceVersionRow} {v row : PriceVersion}

theorem pickPrice_skip (best : Option PriceVersionRow) (h : ¬ r.IsPrefix q) : pickPrice q best r = best := if_pos h

theorem pickPrice_eq (best : Option PriceVersionRow) (h : r.IsPrefix q) :
    pickPrice q best r = List.argAux (fun b c : PriceVersionRow => c.rank < b.rank) best r := by
  unfold pickPrice List.argAux
  rw [if_neg (not_not.2 h)]
  cases best with
  | none => rfl
  | some b =>
    simp only [PriceVersion.rank, Prod.Lex.toLex_lt_toLex]
    split_ifs with hlength hfrom hrank hrank <;> grind

/-- the row found is the first of the highest rank -/
theorem findPriceVersion_eq (db : PriceTable) (q : PriceQuery) :
    findPriceVersion db q = (db.rows.filter fun r => r.Applies q).argmax fun r => r.rank := by
  have hloop : ∀ (rows : List PriceVersionRow) (best : Option PriceVersionRow), rows.foldl (pickPrice q) best =
      (rows.filter fun r => r.IsPrefix q).foldl (List.argAux fun b c : PriceVersionRow => c.rank < b.rank) best := by
    intro rows
    induction rows with
    | nil => intro best; rfl
    | cons r rows ih =>
      intro best
      by_cases hprefix : r.IsPrefix q
      · rw [List.foldl_cons, List.filter_cons_of_pos (by simpa using hprefix), List.foldl_cons, pickPrice_eq best hprefix]
        exact ih _
      · rw [List.foldl_cons, List.filter_cons_of_neg (by simpa using hprefix), pickPrice_skip best hprefix]
        exact ih _
  have happlies : (fun r : PriceVersionRow => decide (r.IsPrefix q) && decide (r.Selected q)) = fun r => decide (r.Applies q) := by
    funext r
    exact (Bool.decide_and _ _).symm
  rw [findPriceVersion, hloop, List.filter_filter, happlies]
  rfl

theorem findPriceVersion_some (h : findPriceVersion db q = some r) :
    r ∈ db.rows ∧ r.Applies q ∧ ∀ s ∈ db.rows, s.Applies q → s.rank ≤ r.rank := by
  rw [findPriceVersion_eq, List.argmax_eq_some_iff] at h
  obtain ⟨hmem, hbest, -⟩ := h
  obtain ⟨hrow, happlies⟩ := List.mem_filter.1 hmem
  refine ⟨hrow, of_decide_eq_true happlies, ?_⟩
  intro s hs hsq
  exact hbest s (List.mem_filter.2 ⟨hs, decide_eq_true hsq⟩)

theorem findPriceVersion_none : findPriceVersion db q = none ↔ ∀ r ∈ db.rows, ¬ r.Applies q := by
  rw [findPriceVersion_eq, List.argmax_eq_none, List.filter_eq_nil_iff]
  simp only [decide_eq_true_eq]

theorem PriceVersion.rank_eq {v w : PriceVersion} (hmodel : v.model = w.model) (hfrom : v.effectiveFrom = w.effectiveFrom) :
    v.rank = w.rank := by
  unfold PriceVersion.rank PriceVersion.modelLength
  rw [hmodel, hfrom]

theorem PriceVersion.rank_lt {v w : PriceVersion} (hmodel : v.model = w.model) (hfrom : v.effectiveFrom < w.effectiveFrom) :
    v.rank < w.rank := by
  unfold PriceVersion.rank PriceVersion.modelLength
  rw [Prod.Lex.toLex_lt_toLex, hmodel]
  exact Or.inr ⟨rfl, hfrom⟩

/-- two versions of one rank that apply to a query are of one line and start together -/
theorem PriceVersion.Applies.line {v w : PriceVersion} (hv : v.Applies q) (hw : w.Applies q) (hrank : v.rank = w.rank) :
    v.SameLine w ∧ v.effectiveFrom = w.effectiveFrom := by
  have hparts : v.modelLength = w.modelLength ∧ v.effectiveFrom = w.effectiveFrom := by
    simpa [PriceVersion.rank] using hrank
  have hmodel : codeUnits v.model = codeUnits w.model :=
    (List.prefix_of_prefix_length_le hv.1 hw.1 hparts.1.le).eq_of_length hparts.1
  exact ⟨⟨hv.2.1.trans hw.2.1.symm, codeUnits_injective hmodel, hv.2.2.1.trans hw.2.2.1.symm⟩, hparts.2⟩

theorem PriceVersion.SameLine.symm {v w : PriceVersion} (h : v.SameLine w) : w.SameLine v :=
  ⟨h.1.symm, h.2.1.symm, h.2.2.symm⟩

theorem PriceVersion.SameLine.trans {u v w : PriceVersion} (h : u.SameLine v) (h' : v.SameLine w) : u.SameLine w :=
  ⟨h.1.trans h'.1, h.2.1.trans h'.2.1, h.2.2.trans h'.2.2⟩

/-! ## One addition -/

namespace Prices

/-- what an addition makes of a row -/
def ended (row : PriceVersion) (r : PriceVersionRow) : PriceVersionRow :=
  if r.EndedBy row then { r with effectiveTo := some row.effectiveFrom } else r

theorem mem_addPriceVersion : r ∈ (addPriceVersion db row).rows ↔
    (∃ s ∈ db.rows, ended row s = r) ∨ r = { row with id := db.nextId } := by
  simp only [addPriceVersion, List.mem_append, List.mem_singleton, mem_updateWhere]
  rfl

theorem ended_of_not (h : ¬ r.EndedBy row) : ended row r = r := if_neg h

theorem ended_of (h : r.EndedBy row) : ended row r = { r with effectiveTo := some row.effectiveFrom } := if_pos h

/-- **The past is kept.** Before its start an addition changes no look-up but for the end it may have written. -/
theorem findPriceVersion_before (db : PriceTable) (row : PriceVersion) (hq : q.atMs < row.effectiveFrom) :
    findPriceVersion (addPriceVersion db row) q = (findPriceVersion db q).map (ended row) := by
  have hnew : ¬ row.Selected q := by
    intro h
    exact absurd h.2.2.1 (by omega)
  have hmodel : ∀ r : PriceVersionRow, (ended row r).model = r.model := by
    intro r
    unfold ended
    split_ifs <;> rfl
  have hrank : ∀ r : PriceVersionRow, (ended row r).rank = r.rank := by
    intro r
    apply PriceVersion.rank_eq (hmodel r)
    unfold ended
    split_ifs <;> rfl
  have hselected : ∀ r : PriceVersionRow, (ended row r).Selected q ↔ r.Selected q := by
    intro r
    by_cases h : r.EndedBy row
    · rw [ended_of h]
      simp [PriceVersion.Selected, PriceVersion.InForce, h.2.1, hq]
    · rw [ended_of_not h]
  -- the loop runs over the same rows, each with its new end
  have hrows : ((addPriceVersion db row).rows.filter fun r => r.Selected q) =
      (db.rows.filter fun r => r.Selected q).map (ended row) := by
    have hupdate : (addPriceVersion db row).rows = db.rows.map (ended row) ++ [{ row with id := db.nextId }] := rfl
    rw [hupdate, List.filter_append, List.filter_map, List.filter_cons_of_neg (by simpa using hnew), List.filter_nil,
      List.append_nil]
    congr 1
    apply List.filter_congr
    intro r _
    exact decide_eq_decide.2 (hselected r)
  rw [findPriceVersion, hrows, List.foldl_map]
  refine (List.foldl_hom (Option.map (ended row)) ?_ : _ = Option.map (ended row) (List.foldl _ none _))
  intro best candidate
  have hsame : (ended row candidate).IsPrefix q ↔ candidate.IsPrefix q := by
    rw [PriceVersion.IsPrefix, hmodel]
    rfl
  by_cases hcandidate : candidate.IsPrefix q
  · rw [pickPrice_eq _ (hsame.2 hcandidate), pickPrice_eq _ hcandidate]
    cases best with
    | none => rfl
    | some b => simp only [List.argAux, Option.map_some, hrank, apply_ite (Option.map (ended row))]
  · rw [pickPrice_skip _ (mt hsame.1 hcandidate), pickPrice_skip _ hcandidate]

/-! ## The history -/

/-- the versions as they were added -/
def asAdded (adds : List PriceVersion) : List PriceVersionRow := adds.zipIdx.map fun v => { v.1 with id := v.2 + 1 }

theorem asAdded_append (adds : List PriceVersion) (row : PriceVersion) :
    asAdded (adds ++ [row]) = asAdded adds ++ [{ row with id := adds.length + 1 }] := by
  simp [asAdded, List.zipIdx_append]

/-- the version that counts: of the longest prefix, of the latest start, and the later insertion if several start then -/
structure Governs (adds : List PriceVersion) (q : PriceQuery) (v : PriceVersionRow) : Prop where
  added : v ∈ asAdded adds
  applies : v.Applies q
  latest : ∀ u ∈ asAdded adds, u.Applies q → u.rank < v.rank ∨ u.rank = v.rank ∧ u.id ≤ v.id

/-- the row that is found is the version that governs, but for the end an addition may have written -/
def Resolved (adds : List PriceVersion) (q : PriceQuery) : Option PriceVersionRow → Prop
  | none => ∀ u ∈ asAdded adds, ¬ u.Applies q
  | some r => ∃ v, Governs adds q v ∧ r = { v with effectiveTo := r.effectiveTo }

/-- The addition does not go wrong: no version of its line that is in force at its start starts then too, and if it has an
end it ends no other version. -/
structure Admits (db : PriceTable) (row : PriceVersion) : Prop where
  untied : ∀ r ∈ db.rows, r.SameLine row → r.effectiveFrom = row.effectiveFrom →
    ¬ (r.InForce row.effectiveFrom ∧ row.InForce row.effectiveFrom)
  lasting : row.effectiveTo ≠ none → ∀ r ∈ db.rows, ¬ r.EndedBy row

instance (db : PriceTable) (row : PriceVersion) : Decidable (Admits db row) :=
  decidable_of_iff ((∀ r ∈ db.rows, r.SameLine row → r.effectiveFrom = row.effectiveFrom →
    ¬ (r.InForce row.effectiveFrom ∧ row.InForce row.effectiveFrom)) ∧
      (row.effectiveTo ≠ none → ∀ r ∈ db.rows, ¬ r.EndedBy row)) ⟨fun h => ⟨h.1, h.2⟩, fun h => ⟨h.1, h.2⟩⟩

/-- from `g` on a later version of the line is always in force -/
def Covered (rows : List PriceVersionRow) (a : PriceVersionRow) (g : ℤ) : Prop :=
  ∀ t, g ≤ t → ∃ w ∈ rows, w.SameLine a.toPriceVersion ∧ g ≤ w.effectiveFrom ∧ w.InForce t

/-- the row of a version: as it was added, or ended where later versions take over -/
def Tracks (rows : List PriceVersionRow) (a r : PriceVersionRow) : Prop :=
  r = a ∨ ∃ g, a.effectiveTo = none ∧ a.effectiveFrom < g ∧ r = { a with effectiveTo := some g } ∧ Covered rows a g

/-- what the table holds after these additions -/
structure Reflects (adds : List PriceVersion) (db : PriceTable) : Prop where
  nextId : db.nextId = adds.length + 1
  row : ∀ r ∈ db.rows, ∃ a ∈ asAdded adds, Tracks db.rows a r
  added : ∀ a ∈ asAdded adds, ∃ r ∈ db.rows, Tracks db.rows a r
  /-- of one line and start, at most one version is ever in force -/
  untied : ∀ a ∈ asAdded adds, ∀ b ∈ asAdded adds, a.SameLine b.toPriceVersion → a.effectiveFrom = b.effectiveFrom →
    a.InForce a.effectiveFrom → b.InForce b.effectiveFrom → a = b

variable {adds : List PriceVersion} {rows : List PriceVersionRow} {a b : PriceVersionRow} {g : ℤ}

theorem ended_mem (h : r ∈ db.rows) : ended row r ∈ (addPriceVersion db row).rows :=
  mem_addPriceVersion.2 (.inl ⟨r, h, rfl⟩)

theorem new_mem (db : PriceTable) (row : PriceVersion) :
    { row with id := db.nextId } ∈ (addPriceVersion db row).rows := mem_addPriceVersion.2 (.inr rfl)

/-- an open version is in force from its start on -/
theorem inForce_of_open {v : PriceVersion} {t : ℤ} (hopen : v.effectiveTo = none) (hfrom : v.effectiveFrom ≤ t) :
    v.InForce t := by
  refine ⟨hfrom, ?_⟩
  intro e he
  rw [hopen] at he
  cases he

theorem Covered.add (h : Covered db.rows a g) (hrow : Admits db row) : Covered (addPriceVersion db row).rows a g := by
  intro t ht
  obtain ⟨w, hw, hline, hfrom, hforce⟩ := h t ht
  by_cases hended : w.EndedBy row
  · have hopen : row.effectiveTo = none := by
      by_contra hne
      exact hrow.lasting hne w hw hended
    rcases lt_or_ge t row.effectiveFrom with hbefore | hafter
    · refine ⟨ended row w, ended_mem hw, ?_, ?_, ?_⟩
      · rw [ended_of hended]
        exact hline
      · rw [ended_of hended]
        exact hfrom
      · rw [ended_of hended]
        refine ⟨hforce.1, ?_⟩
        intro e he
        cases he
        exact hbefore
    · exact ⟨_, new_mem db row, hended.1.symm.trans hline, hfrom.trans hended.2.2.le, inForce_of_open hopen hafter⟩
  · refine ⟨w, ?_, hline, hfrom, hforce⟩
    have hmem : ended row w ∈ (addPriceVersion db row).rows := ended_mem hw
    rwa [ended_of_not hended] at hmem

theorem Tracks.add (h : Tracks db.rows a r) (hr : r ∈ db.rows) (hrow : Admits db row) :
    Tracks (addPriceVersion db row).rows a (ended row r) := by
  by_cases hended : r.EndedBy row
  · rcases h with rfl | ⟨g, -, -, rfl, -⟩
    · have hopen : row.effectiveTo = none := by
        by_contra hne
        exact hrow.lasting hne r hr hended
      refine .inr ⟨row.effectiveFrom, hended.2.1, hended.2.2, ended_of hended, ?_⟩
      intro t ht
      exact ⟨_, new_mem db row, hended.1.symm, le_refl _, inForce_of_open hopen ht⟩
    · exact absurd hended.2.1 (by simp)
  · rw [ended_of_not hended]
    rcases h with rfl | ⟨g, hopen, hlt, rfl, hcovered⟩
    · exact .inl rfl
    · exact .inr ⟨g, hopen, hlt, rfl, hcovered.add hrow⟩

/-- the row of a version that is ever in force is in force at its start -/
theorem Tracks.inForce_start (h : Tracks rows a r) (hforce : a.InForce a.effectiveFrom) :
    r.effectiveFrom = a.effectiveFrom ∧ r.SameLine a.toPriceVersion ∧ r.InForce r.effectiveFrom := by
  rcases h with rfl | ⟨g, -, hlt, rfl, -⟩
  · exact ⟨rfl, ⟨rfl, rfl, rfl⟩, hforce⟩
  · refine ⟨rfl, ⟨rfl, rfl, rfl⟩, le_refl _, ?_⟩
    intro e he
    cases he
    exact hlt

/-- **Step.** An addition that does not go wrong is recorded. -/
theorem Reflects.add (h : Reflects adds db) (hrow : Admits db row) :
    Reflects (adds ++ [row]) (addPriceVersion db row) := by
  have hnew : { row with id := adds.length + 1 } ∈ (addPriceVersion db row).rows := h.nextId ▸ new_mem db row
  -- no version that was there is of the new one's line and start
  have hfresh : ∀ a ∈ asAdded adds, a.SameLine row → a.effectiveFrom = row.effectiveFrom →
      a.InForce a.effectiveFrom → ¬ row.InForce row.effectiveFrom := by
    intro a ha hline hfrom hforce hnewForce
    obtain ⟨r, hr, htracks⟩ := h.added a ha
    obtain ⟨hrfrom, hrline, hrforce⟩ := htracks.inForce_start hforce
    rw [hrfrom, hfrom] at hrforce
    exact hrow.untied r hr (hrline.trans hline) (hrfrom.trans hfrom) ⟨hrforce, hnewForce⟩
  refine ⟨?_, ?_, ?_, ?_⟩
  · simp [addPriceVersion, h.nextId]
  · intro r hr
    rw [asAdded_append]
    rcases mem_addPriceVersion.1 hr with ⟨s, hs, rfl⟩ | rfl
    · obtain ⟨a, ha, htracks⟩ := h.row s hs
      exact ⟨a, List.mem_append_left _ ha, htracks.add hs hrow⟩
    · exact ⟨_, List.mem_append_right _ (List.mem_singleton_self _), .inl (by rw [h.nextId])⟩
  · intro a ha
    rw [asAdded_append] at ha
    rcases List.mem_append.1 ha with ha | ha
    · obtain ⟨r, hr, htracks⟩ := h.added a ha
      exact ⟨ended row r, ended_mem hr, htracks.add hr hrow⟩
    · rw [List.mem_singleton.1 ha]
      exact ⟨_, hnew, .inl rfl⟩
  · intro a ha b hb hline hfrom haf hbf
    rw [asAdded_append] at ha hb
    rcases List.mem_append.1 ha with ha | ha <;> rcases List.mem_append.1 hb with hb | hb
    · exact h.untied a ha b hb hline hfrom haf hbf
    · rw [List.mem_singleton] at hb
      subst hb
      exact absurd hbf (hfresh a ha hline hfrom haf)
    · rw [List.mem_singleton] at ha
      subst ha
      exact absurd haf (hfresh b hb hline.symm hfrom.symm hbf)
    · rw [List.mem_singleton.1 ha, List.mem_singleton.1 hb]

theorem reflects (h : Along addPriceVersion Admits {} adds) : Reflects adds (addPriceVersions adds) := by
  induction adds using List.reverseRecOn with
  | nil => exact ⟨rfl, by simp [addPriceVersions], by simp [asAdded], by simp [asAdded]⟩
  | append_singleton adds row ih =>
    obtain ⟨hbefore, hrow, -⟩ := along_append.1 h
    rw [addPriceVersions, List.foldl_append]
    exact (ih hbefore).add hrow

/-! ## The property -/

/-- a row that applies is that of a version that applies -/
theorem Tracks.applies (h : Tracks rows a r) (hr : r.Applies q) : a.Applies q ∧ a.rank = r.rank := by
  rcases h with rfl | ⟨g, hopen, -, rfl, -⟩
  · exact ⟨hr, rfl⟩
  · exact ⟨⟨hr.1, hr.2.1, hr.2.2.1, inForce_of_open hopen hr.2.2.2.1⟩, rfl⟩

/-- a version that applies has a row that does, of its rank or a higher one -/
theorem Tracks.outranked (h : Tracks rows a r) (hr : r ∈ rows) (ha : a.Applies q) :
    ∃ s ∈ rows, s.Applies q ∧ a.rank ≤ s.rank := by
  rcases h with rfl | ⟨g, hopen, hlt, rfl, hcovered⟩
  · exact ⟨r, hr, ha, le_refl _⟩
  · rcases lt_or_ge q.atMs g with hbefore | hafter
    · refine ⟨_, hr, ⟨ha.1, ha.2.1, ha.2.2.1, ha.2.2.2.1, ?_⟩, le_refl _⟩
      intro e he
      cases he
      exact hbefore
    · obtain ⟨w, hw, hline, hfrom, hforce⟩ := hcovered q.atMs hafter
      refine ⟨w, hw, ⟨?_, hline.1.trans ha.2.1, hline.2.2.trans ha.2.2.1, hforce⟩, ?_⟩
      · rw [PriceVersion.IsPrefix, hline.2.1]
        exact ha.1
      · exact (PriceVersion.rank_lt hline.2.1.symm (by omega)).le

theorem Reflects.resolved (h : Reflects adds db) (q : PriceQuery) : Resolved adds q (findPriceVersion db q) := by
  cases hfind : findPriceVersion db q with
  | none =>
    intro u hu hq
    obtain ⟨r, hr, htracks⟩ := h.added u hu
    obtain ⟨s, hs, hsq, -⟩ := htracks.outranked hr hq
    exact findPriceVersion_none.1 hfind s hs hsq
  | some r =>
    obtain ⟨hr, hrq, hbest⟩ := findPriceVersion_some hfind
    obtain ⟨a, ha, htracks⟩ := h.row r hr
    obtain ⟨haq, hrank⟩ := htracks.applies hrq
    refine ⟨a, ⟨ha, haq, ?_⟩, ?_⟩
    · intro u hu huq
      obtain ⟨s, hs, htracks⟩ := h.added u hu
      obtain ⟨w, hw, hwq, hle⟩ := htracks.outranked hs huq
      have hle : u.rank ≤ a.rank := hrank ▸ hle.trans (hbest w hw hwq)
      rcases hle.lt_or_eq with hlt | heq
      · exact .inl hlt
      · -- of two versions of one rank in force at one moment, both are in force at their start
        have hstart : ∀ v : PriceVersionRow, v.Applies q → v.InForce v.effectiveFrom := fun v hv =>
          ⟨le_refl _, fun e he => lt_of_le_of_lt hv.2.2.2.1 (hv.2.2.2.2 e he)⟩
        obtain ⟨hline, hfrom⟩ := huq.line haq heq
        obtain rfl := h.untied u hu a ha hline hfrom (hstart u huq) (hstart a haq)
        exact .inr ⟨rfl, le_refl _⟩
    · rcases htracks with rfl | ⟨g, -, -, rfl, -⟩ <;> rfl

/-- an addition that ends no version for good leaves no moment without a price -/
theorem findPriceVersion_after (hrow : row.effectiveTo ≠ none → ∀ r ∈ db.rows, ¬ r.EndedBy row)
    (hq : row.effectiveFrom ≤ q.atMs) (h : (findPriceVersion db q).isSome) :
    (findPriceVersion (addPriceVersion db row) q).isSome := by
  obtain ⟨r, hfind⟩ := Option.isSome_iff_exists.1 h
  obtain ⟨hr, hrq, -⟩ := findPriceVersion_some hfind
  rw [Option.isSome_iff_ne_none, ne_eq, findPriceVersion_none]
  intro hnone
  by_cases hended : r.EndedBy row
  · have hopen : row.effectiveTo = none := by
      by_contra hne
      exact hrow hne r hr hended
    have hline := hended.1.symm
    refine hnone _ (new_mem db row) ⟨?_, hline.1.trans hrq.2.1, hline.2.2.trans hrq.2.2.1, inForce_of_open hopen hq⟩
    rw [PriceVersion.IsPrefix, hline.2.1]
    exact hrq.1
  · have hmem : ended row r ∈ (addPriceVersion db row).rows := ended_mem hr
    rw [ended_of_not hended] at hmem
    exact hnone r hmem hrq

/-- the property, of the additions made so far and of the next one -/
structure PriceHistory (adds : List PriceVersion) (next : Option PriceVersion) : Prop where
  resolved : ∀ q, Resolved adds q (findPriceVersion (addPriceVersions adds) q)
  before : ∀ row ∈ next, ∀ q : PriceQuery, q.atMs < row.effectiveFrom →
    (findPriceVersion (addPriceVersion (addPriceVersions adds) row) q).map (·.id) =
      (findPriceVersion (addPriceVersions adds) q).map (·.id)
  after : ∀ row ∈ next, ∀ q : PriceQuery, row.effectiveFrom ≤ q.atMs →
    (findPriceVersion (addPriceVersions adds) q).isSome →
      (findPriceVersion (addPriceVersion (addPriceVersions adds) row) q).isSome

theorem price_history (adds : List PriceVersion) (h : Along addPriceVersion Admits {} adds) (pre : List PriceVersion)
    (next : Option PriceVersion) (hpre : pre ++ next.toList <+: adds) : PriceHistory pre next := by
  obtain ⟨hbefore, hnext⟩ := along_append.1 (h.initial hpre)
  refine ⟨(reflects hbefore).resolved, ?_, ?_⟩
  · intro row _ q hq
    have hid : ∀ r : PriceVersionRow, (ended row r).id = r.id := by
      intro r
      unfold ended
      split_ifs <;> rfl
    rw [findPriceVersion_before _ _ hq, Option.map_map]
    congr 1
    funext r
    exact hid r
  · intro row hrow q hq hsome
    obtain rfl := hrow
    exact findPriceVersion_after hnext.1.lasting hq hsome

def standardPrice (start : ℤ) (stop : Option ℤ) (inputRate : ℚ) : PriceVersion :=
  ⟨"anthropic", "claude-sonnet-5", .standard, start, stop, inputRate, 10, 1, 1⟩

/-- a price change, and one entered later for the time in between -/
theorem price_history_backdated :
    PriceHistory [standardPrice 0 none 2, standardPrice 200 none 4] (some (standardPrice 100 none 3)) :=
  price_history [standardPrice 0 none 2, standardPrice 200 none 4, standardPrice 100 none 3] (by decide) _ _
    List.prefix_rfl

/-- a promotion ends the open price, and after it there is none; of two versions that start together the first is found -/
theorem promotion_leaves_gap : ¬ PriceHistory [standardPrice 0 none 2] (some (standardPrice 100 (some 200) 1)) ∧
    ¬ PriceHistory [standardPrice 0 none 2, standardPrice 0 none 3] none := by
  constructor
  · intro h
    have hprice := h.after (standardPrice 100 (some 200) 1) rfl
      { provider := "anthropic", model := "claude-sonnet-5", atMs := 250 } (by decide) (by decide)
    exact absurd hprice (by decide)
  · intro h
    have hresolved := h.resolved { provider := "anthropic", model := "claude-sonnet-5", atMs := 50 }
    have hfirst : findPriceVersion (addPriceVersions [standardPrice 0 none 2, standardPrice 0 none 3])
        { provider := "anthropic", model := "claude-sonnet-5", atMs := 50 } =
          some { standardPrice 0 none 2 with id := 1 } := by decide
    rw [hfirst] at hresolved
    obtain ⟨v, hgoverns, hv⟩ := hresolved
    have hid : 1 = v.id := congrArg PriceVersionRow.id hv
    have hlater := hgoverns.latest { standardPrice 0 none 3 with id := 2 } (by decide) (by decide)
    have hrank : v.rank = (standardPrice 0 none 3).rank := by
      have hversion := congrArg PriceVersionRow.toPriceVersion hv
      exact PriceVersion.rank_eq (congrArg PriceVersion.model hversion).symm
        (congrArg PriceVersion.effectiveFrom hversion).symm
    rcases hlater with hlt | ⟨-, hle⟩
    · rw [hrank] at hlt
      exact lt_irrefl _ hlt
    · rw [← hid] at hle
      exact absurd hle (by decide)

end Prices

end AstramemLocal.Store
