/-
The greedy prefix of a list under a budget: items are taken in order as long as their total stays within it, and the
first item is taken in any case. `isGreedyPrefix_greedy` says what the loop returns.
-/
import Mathlib.Algebra.BigOperators.Group.List.Basic
import Mathlib.Algebra.Order.BigOperators.Group.List
import Mathlib.Algebra.Order.Monoid.Defs
import Mathlib.Data.List.Infix
import Mathlib.Tactic.Common

namespace AstramemLocal.Core

variable {α M : Type*} [AddCommMonoid M]

def totalCost (cost : α → M) (items : List α) : M := (items.map cost).sum

section
variable {cost : α → M} {taken rest : List α}

@[simp] theorem totalCost_nil : totalCost cost [] = 0 := rfl

@[simp] theorem totalCost_singleton (item : α) : totalCost cost [item] = cost item := List.sum_singleton

theorem totalCost_append : totalCost cost (taken ++ rest) = totalCost cost taken + totalCost cost rest := by
  rw [totalCost, List.map_append, List.sum_append]
  rfl

theorem totalCost_concat (item : α) : totalCost cost (taken ++ [item]) = totalCost cost taken + cost item := by
  rw [totalCost_append, totalCost_singleton]

end

variable [LinearOrder M]

/-- the loop, with what it has taken and spent so far -/
def greedyFrom (cost : α → M) (budget : M) (taken : List α) (spent : M) : List α → List α
  | [] => taken
  | item :: rest =>
    if budget < spent + cost item then if taken = [] then [item] else taken
    else greedyFrom cost budget (taken ++ [item]) (spent + cost item) rest

def greedy (cost : α → M) (budget : M) (items : List α) : List α := greedyFrom cost budget [] 0 items

structure IsGreedyPrefix (cost : α → M) (budget : M) (items taken : List α) : Prop where
  isPrefix : taken <+: items
  nonempty : taken = [] → items = []
  /-- within the budget, but for a first item that exceeds it alone -/
  within : taken = [] ∨ totalCost cost taken ≤ budget ∨ ∃ best, taken = [best] ∧ budget < cost best
  /-- nothing more fits -/
  maximal : ∀ next, taken ++ [next] <+: items → budget < totalCost cost (taken ++ [next])

variable {cost : α → M} {budget : M} {items taken rest : List α}

theorem head_of_concat {next item : α} (h : taken ++ [next] <+: taken ++ item :: rest) : next = item := by
  rw [List.prefix_append_right_inj, List.cons_prefix_cons] at h
  exact h.1

variable [IsOrderedAddMonoid M]

theorem totalCost_le_of_sublist (hcost : ∀ a, 0 ≤ cost a) (h : taken.Sublist items) :
    totalCost cost taken ≤ totalCost cost items := by
  apply List.Sublist.sum_le_sum (h.map cost)
  intro c hc
  obtain ⟨a, -, rfl⟩ := List.mem_map.1 hc
  exact hcost a

theorem isGreedyPrefix_greedyFrom (hcost : ∀ a, 0 ≤ cost a) (rest taken : List α)
    (hwithin : taken = [] ∨ totalCost cost taken ≤ budget) :
    IsGreedyPrefix cost budget (taken ++ rest) (greedyFrom cost budget taken (totalCost cost taken) rest) := by
  induction rest generalizing taken with
  | nil =>
    rw [List.append_nil]
    exact {
      isPrefix := List.prefix_rfl
      nonempty := id
      within := hwithin.imp_right .inl
      maximal := fun next h => absurd h.length_le (by simp [greedyFrom]) }
  | cons item rest ih =>
    rw [greedyFrom, ← totalCost_concat]
    split_ifs with hover hempty
    · subst hempty
      rw [List.nil_append, totalCost_singleton] at hover
      exact {
        isPrefix := ⟨rest, rfl⟩
        nonempty := fun h => by cases h
        within := .inr (.inr ⟨item, rfl, hover⟩)
        maximal := fun next _ => by
          rw [totalCost_concat, totalCost_singleton]
          exact hover.trans_le (le_add_of_nonneg_right (hcost next)) }
    · exact {
        isPrefix := List.prefix_append _ _
        nonempty := fun h => absurd h hempty
        within := hwithin.imp_right .inl
        maximal := fun next h => by
          rw [head_of_concat h]
          exact hover }
    · have hstep := ih (taken ++ [item]) (.inr (not_lt.1 hover))
      rwa [List.append_assoc] at hstep

/-- **The loop takes the greedy prefix.** -/
theorem isGreedyPrefix_greedy (hcost : ∀ a, 0 ≤ cost a) (items : List α) :
    IsGreedyPrefix cost budget items (greedy cost budget items) :=
  isGreedyPrefix_greedyFrom hcost items [] (.inl rfl)

end AstramemLocal.Core
