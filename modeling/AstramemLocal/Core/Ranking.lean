/-
The first `k` of a list in the order of a total relation, `cut`. What is left out comes behind everything that is in
(`le_of_notMem_cut`), and nothing is left out of a cut that is not full. Under an order that compares a score, two lists
with the same scores have cuts with the same scores (`cut_scores`); an element that ties with no other is in the cut
exactly when fewer than `k` come before it (`mem_cut_iff`).
-/
import Mathlib.Data.List.Sort
import Mathlib.Order.Basic
import Mathlib.Tactic.Common

namespace AstramemLocal.Core

variable {α κ : Type*} (r : α → α → Prop) [DecidableRel r]

def cut (k : ℕ) (l : List α) : List α := (l.insertionSort r).take k

variable {r} {k : ℕ} {l l' : List α} {x : α}

theorem mem_of_mem_cut (h : x ∈ cut r k l) : x ∈ l := (List.mem_insertionSort r).1 (List.mem_of_mem_take h)

theorem length_cut_le : (cut r k l).length ≤ k := List.length_take_le k _

theorem nodup_map_cut {f : α → κ} (h : (l.map f).Nodup) : ((cut r k l).map f).Nodup := by
  have hsort : ((l.insertionSort r).map f).Nodup := ((List.perm_insertionSort r l).map f).nodup_iff.2 h
  exact hsort.sublist ((List.take_sublist k _).map f)

section
variable [Std.Total r] [IsTrans α r]

theorem cut_sorted : (cut r k l).Pairwise r := (List.pairwise_insertionSort r l).sublist (List.take_sublist k _)

/-- **What is left out.** An element that did not get into the cut comes behind all that did, and the cut is full. -/
theorem le_of_notMem_cut (hx : x ∈ l) (hout : x ∉ cut r k l) : (∀ y ∈ cut r k l, r y x) ∧ (cut r k l).length = k := by
  have hdrop : x ∈ (l.insertionSort r).drop k := by
    have hmem : x ∈ l.insertionSort r := (List.mem_insertionSort r).2 hx
    rw [← List.take_append_drop k (l.insertionSort r), List.mem_append] at hmem
    exact hmem.resolve_left hout
  have hsorted := List.pairwise_insertionSort r l
  rw [← List.take_append_drop k (l.insertionSort r), List.pairwise_append] at hsorted
  refine ⟨fun y hy => hsorted.2.2 y hy x hdrop, ?_⟩
  have hpos : 0 < ((l.insertionSort r).drop k).length := List.length_pos_of_mem hdrop
  rw [List.length_drop] at hpos
  rw [cut, List.length_take]
  omega

/-- the place of an element that ties with no other is the number of those before it -/
theorem mem_cut_iff (hnodup : l.Nodup) (hx : x ∈ l) (hties : ∀ y ∈ l, r y x → r x y → y = x) :
    x ∈ cut r k l ↔ l.countP (fun y => ¬ r x y) < k := by
  have hperm := List.perm_insertionSort r l
  have hsorted := List.pairwise_insertionSort r l
  have hdistinct : (l.insertionSort r).Nodup := hperm.nodup_iff.2 hnodup
  obtain ⟨before, after, hsplit⟩ := List.append_of_mem ((List.mem_insertionSort r).2 hx)
  rw [← hperm.countP_eq, cut, hsplit]
  rw [hsplit] at hsorted hdistinct
  rw [List.pairwise_append, List.pairwise_cons] at hsorted
  rw [List.nodup_append, List.nodup_cons] at hdistinct
  obtain ⟨-, ⟨hafter, -⟩, hbefore⟩ := hsorted
  obtain ⟨-, ⟨hlater, -⟩, hapart⟩ := hdistinct
  have hrefl : r x x := (Std.Total.total x x).elim id id
  have hfirst : before.countP (fun y => decide (¬ r x y)) = before.length := by
    rw [List.countP_eq_length]
    intro y hy
    have hyx : r y x := hbefore y hy x List.mem_cons_self
    have hne : y ≠ x := hapart y hy x List.mem_cons_self
    have hmem : y ∈ l := (List.mem_insertionSort r).1 (hsplit ▸ List.mem_append_left _ hy)
    exact decide_eq_true fun hxy => hne (hties y hmem hyx hxy)
  have hrest : (x :: after).countP (fun y => decide (¬ r x y)) = 0 := by
    rw [List.countP_eq_zero]
    intro y hy
    rcases List.mem_cons.1 hy with rfl | hy
    · simpa using hrefl
    · simpa using hafter y hy
  rw [List.countP_append, hfirst, hrest, Nat.add_zero]
  constructor
  · intro hmem
    by_contra hge
    rw [List.take_append_of_le_length (not_lt.1 hge)] at hmem
    exact hapart x (List.mem_of_mem_take hmem) x List.mem_cons_self rfl
  · intro hlt
    rw [List.take_append, List.mem_append]
    refine Or.inr ?_
    obtain ⟨m, hm⟩ : ∃ m, k - before.length = m + 1 := ⟨k - before.length - 1, by omega⟩
    rw [hm, List.take_succ_cons]
    exact List.mem_cons_self

end

section
variable [LinearOrder κ] (score : α → κ)

/-- descending scores -/
def byScore (a b : α) : Prop := score b ≤ score a

instance : DecidableRel (byScore score) := fun a b => inferInstanceAs (Decidable (score b ≤ score a))

instance : Std.Total (byScore score) := ⟨fun a b => le_total (score b) (score a)⟩

instance : IsTrans α (byScore score) := ⟨fun _ _ _ hab hbc => le_trans hbc hab⟩

variable {score}

/-- the scores of a cut depend on the scores only -/
theorem cut_scores (h : (l.map score).Perm (l'.map score)) :
    (cut (byScore score) k l).map score = (cut (byScore score) k l').map score := by
  have hsort : (l.insertionSort (byScore score)).map score = (l'.insertionSort (byScore score)).map score := by
    apply List.Perm.eq_of_pairwise' (r := (· ≥ ·))
    · exact List.pairwise_map.2 (List.pairwise_insertionSort _ l)
    · exact List.pairwise_map.2 (List.pairwise_insertionSort _ l')
    · have hsorted : ((l.insertionSort (byScore score)).map score).Perm (l.map score) := (List.perm_insertionSort _ l).map score
      have hsorted' : ((l'.insertionSort (byScore score)).map score).Perm (l'.map score) := (List.perm_insertionSort _ l').map score
      exact (hsorted.trans h).trans hsorted'.symm
  rw [cut, cut, List.map_take, List.map_take, hsort]

end

end AstramemLocal.Core
