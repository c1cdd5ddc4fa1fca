/-
The best element of each key, in the order in which the keys first occur. `champions` is a loop of contests
(`Core/Contest`) between elements of one key:
- `champions_order`: the keys stand in the order of their first occurrence, so each stands once;
- `mem_champions_keys`: every key is kept;
- `champions_best`: an element kept is one of the list, and none of its key ranks higher;
- `champions_idem`: a second run changes nothing.
-/
import AstramemLocal.Core.Contest
import Mathlib.Data.List.Induction
import Mathlib.Order.Lattice

namespace AstramemLocal.Core

variable {α β ι : Type*} [DecidableEq β] [LinearOrder ι] (key : α → β) (rank : α → ι)

def championStep (kept : List α) (x : α) : List α :=
  settle (fun e => key e = key x) (fun e => rank e < rank x) kept x

def champions (l : List α) : List α := l.foldl (championStep key rank) []

variable {key rank} {l kept : List α} {x : α}

/-- a round adds the key of a newcomer without rivals at the end, and leaves the keys alone otherwise -/
theorem championStep_keys :
    (championStep key rank kept x).map key = if key x ∈ kept.map key then kept.map key else kept.map key ++ [key x] := by
  rcases settle_cases (fun e => decide (key e = key x)) (fun e => rank e < rank x) kept x with
    ⟨hnone, hsettle⟩ | ⟨before, existing, after, rfl, -, hrival, hsettle⟩
  · have hfree : key x ∉ kept.map key := by
      intro hmem
      obtain ⟨e, he, heq⟩ := List.mem_map.1 hmem
      exact absurd heq (by simpa using hnone e he)
    rw [if_neg hfree, championStep, hsettle, List.map_append, List.map_singleton]
  · have hkey : key existing = key x := by simpa using hrival
    have hmem : key x ∈ (before ++ existing :: after).map key := by
      rw [← hkey]
      exact List.mem_map_of_mem (List.mem_append_right _ List.mem_cons_self)
    rw [if_pos hmem, championStep, hsettle]
    split
    · simp [hkey]
    · rfl

theorem champions_concat (l : List α) (x : α) :
    champions key rank (l ++ [x]) = championStep key rank (champions key rank l) x := by
  unfold champions
  rw [List.foldl_append]
  rfl

/-- every key is kept -/
theorem mem_champions_keys {b : β} : b ∈ (champions key rank l).map key ↔ b ∈ l.map key := by
  induction l using List.reverseRecOn with
  | nil => rfl
  | append_singleton l x ih =>
    rw [champions_concat, championStep_keys, List.map_append, List.map_singleton, List.mem_append, List.mem_singleton, ← ih]
    split
    next hold =>
      constructor
      · exact Or.inl
      · intro h
        rcases h with h | rfl
        · exact h
        · exact hold
    next => rw [List.mem_append, List.mem_singleton]

/-- the keys stand in the order of their first occurrence -/
theorem champions_order :
    ((champions key rank l).map key).Pairwise fun a b => (l.map key).idxOf a < (l.map key).idxOf b := by
  induction l using List.reverseRecOn with
  | nil => exact List.Pairwise.nil
  | append_singleton l x ih =>
    have hsame : ∀ b ∈ (champions key rank l).map key, ((l ++ [x]).map key).idxOf b = (l.map key).idxOf b := by
      intro b hb
      rw [List.map_append, List.idxOf_append_of_mem (mem_champions_keys.1 hb)]
    have hold : ((champions key rank l).map key).Pairwise fun a b =>
        ((l ++ [x]).map key).idxOf a < ((l ++ [x]).map key).idxOf b := by
      apply ih.imp_of_mem
      intro a b ha hb h
      rw [hsame a ha, hsame b hb]
      exact h
    rw [champions_concat, championStep_keys]
    split
    next => exact hold
    next hnew =>
      rw [List.pairwise_append]
      refine ⟨hold, List.pairwise_singleton _ _, ?_⟩
      intro a ha b hb
      obtain rfl := List.mem_singleton.1 hb
      rw [hsame a ha, List.map_append, List.map_singleton, List.idxOf_append_of_notMem fun h => hnew (mem_champions_keys.2 h)]
      have hlt := List.idxOf_lt_length_iff.2 (mem_champions_keys.1 ha)
      omega

theorem champions_nodup : ((champions key rank l).map key).Nodup := by
  apply champions_order.imp
  rintro a b hlt rfl
  exact lt_irrefl _ hlt

/-- an element kept is one of the list, and none of its key ranks higher -/
theorem champions_best {r : α} (h : r ∈ champions key rank l) :
    r ∈ l ∧ ∀ x ∈ l, key x = key r → rank x ≤ rank r := by
  induction l using List.reverseRecOn generalizing r with
  | nil => cases h
  | append_singleton l x ih =>
    rw [champions_concat, championStep, mem_settle_key champions_nodup] at h
    rcases h with ⟨hr, hstays⟩ | ⟨rfl, hbeats⟩
    · obtain ⟨hmem, hbest⟩ := ih hr
      refine ⟨List.mem_append_left _ hmem, ?_⟩
      intro y hy hkey
      rcases List.mem_append.1 hy with hy | hy
      · exact hbest y hy hkey
      · obtain rfl := List.mem_singleton.1 hy
        rcases hstays with hother | hnot
        · exact absurd hkey.symm hother
        · exact not_lt.1 (by simpa using hnot)
    · refine ⟨List.mem_append_right _ List.mem_cons_self, ?_⟩
      intro y hy hkey
      rcases List.mem_append.1 hy with hy | hy
      · have hkept : key y ∈ (champions key rank l).map key := mem_champions_keys.2 (List.mem_map_of_mem hy)
        obtain ⟨old, hold, hsame⟩ := List.mem_map.1 hkept
        have hlt : rank old < rank r := by simpa using hbeats old hold (hsame.trans hkey)
        exact ((ih hold).2 y hy hsame.symm).trans hlt.le
      · obtain rfl := List.mem_singleton.1 hy
        exact le_rfl

/-- elements of distinct keys are all kept -/
theorem champions_of_nodup (h : (l.map key).Nodup) : champions key rank l = l := by
  induction l using List.reverseRecOn with
  | nil => rfl
  | append_singleton l x ih =>
    rw [List.map_append, List.map_singleton, ← List.concat_eq_append, List.nodup_concat] at h
    rw [champions_concat, ih h.2, championStep]
    apply settle_none
    rw [contest]
    have hall : l.dropWhile (fun e => !decide (key e = key x)) = [] := by
      rw [List.dropWhile_eq_nil_iff]
      intro e he
      simp only [Bool.not_eq_true', decide_eq_false_iff_not]
      intro heq
      exact h.1 (heq ▸ List.mem_map_of_mem he)
    rw [hall]

theorem champions_idem : champions key rank (champions key rank l) = champions key rank l :=
  champions_of_nodup champions_nodup

end AstramemLocal.Core
