/-
Of the items of a list that have one key the first. `firsts_concat` is how a loop with a set of the keys it has seen builds
them.
-/
import Mathlib.Data.List.Induction
import Mathlib.Data.List.Nodup
import Mathlib.Tactic.Common

namespace AstramemLocal.Core

variable {α κ : Type*} [DecidableEq κ] {key : α → κ} {items : List α} {k : κ}

def firsts (key : α → κ) (items : List α) : List α :=
  items.foldr (fun a kept => a :: kept.filter (key · ≠ key a)) []

theorem firsts_cons (a : α) : firsts key (a :: items) = a :: (firsts key items).filter (key · ≠ key a) := rfl

/-- no key is lost -/
theorem mem_keys_firsts : k ∈ (firsts key items).map key ↔ k ∈ items.map key := by
  induction items with
  | nil => rfl
  | cons a items ih =>
    rw [firsts_cons, List.map_cons, List.map_cons, List.mem_cons, List.mem_cons, ← ih]
    by_cases heq : k = key a
    · simp [heq]
    · rw [or_iff_right heq, or_iff_right heq]
      simp only [List.mem_map, List.mem_filter, decide_eq_true_eq]
      constructor
      · rintro ⟨b, ⟨hb, -⟩, rfl⟩
        exact ⟨b, hb, rfl⟩
      · rintro ⟨b, hb, rfl⟩
        exact ⟨b, ⟨hb, heq⟩, rfl⟩

theorem firsts_concat (a : α) : firsts key (items ++ [a]) =
    if key a ∈ (firsts key items).map key then firsts key items else firsts key items ++ [a] := by
  induction items with
  | nil => rfl
  | cons b items ih =>
    rw [List.cons_append, firsts_cons, ih]
    by_cases hmem : key a ∈ (firsts key items).map key
    · have hin : key a ∈ (firsts key (b :: items)).map key :=
        mem_keys_firsts.2 (List.mem_cons_of_mem (key b) (mem_keys_firsts.1 hmem))
      rw [if_pos hmem, if_pos hin, firsts_cons]
    · rw [if_neg hmem, List.filter_append]
      by_cases heq : key a = key b
      · rw [if_pos (by simp [firsts_cons, heq])]
        simp [firsts_cons, heq]
      · have hout : key a ∉ (firsts key (b :: items)).map key := by
          rw [mem_keys_firsts, List.map_cons, List.mem_cons, not_or]
          exact ⟨heq, fun hin => hmem (mem_keys_firsts.2 hin)⟩
        rw [if_neg hout]
        simp [firsts_cons, heq]

/-- no key is there twice -/
theorem nodup_firsts : ((firsts key items).map key).Nodup := by
  induction items using List.reverseRecOn with
  | nil => exact List.nodup_nil
  | append_singleton items a ih =>
    rw [firsts_concat]
    split_ifs with h
    · exact ih
    · rw [List.map_append, List.map_singleton]
      apply ih.append (List.nodup_singleton _)
      intro x hx hmem
      rw [List.mem_singleton.1 hmem] at hx
      exact h hx

theorem firsts_subset : firsts key items ⊆ items := by
  induction items with
  | nil => exact List.Subset.refl []
  | cons a items ih =>
    rw [firsts_cons]
    exact List.cons_subset_cons a (List.Subset.trans (List.filter_subset_self _) ih)

end AstramemLocal.Core
