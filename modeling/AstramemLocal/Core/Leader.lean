/-
The leader of a list of scored candidates: the best one, when it reaches a threshold and is ahead of every other one by
a margin. `leader` sorts and compares the first two; `leader_eq_some` says what that decides about the whole list.
-/
import Mathlib.Data.List.Sort
import Mathlib.Algebra.Order.Ring.Rat
import Mathlib.Tactic.Linarith

namespace AstramemLocal.Core

variable {α : Type*} (score : α → ℚ) (threshold margin : ℚ)

/-- a stable sort, the best first -/
def ranked (xs : List α) : List α := xs.insertionSort fun a b => score b ≤ score a

def leader (xs : List α) : Option α :=
  match ranked score xs with
  | [] => none
  | [best] => if score best < threshold then none else some best
  | best :: runnerUp :: _ =>
    if score best < threshold then none
    else if score best - score runnerUp < margin then none
    else some best

/-- `x` reaches the threshold and is ahead of all others -/
def Leads (xs : List α) (x : α) : Prop :=
  ∃ others, xs.Perm (x :: others) ∧ threshold ≤ score x ∧ ∀ o ∈ others, score o + margin ≤ score x

theorem ranked_perm (xs : List α) : (ranked score xs).Perm xs := List.perm_insertionSort _ xs

theorem ranked_pairwise (xs : List α) : (ranked score xs).Pairwise fun a b => score b ≤ score a :=
  List.pairwise_insertionSort (fun a b => score b ≤ score a) xs

variable {score threshold margin} {xs : List α} {x : α}

theorem Leads.mem (h : Leads score threshold margin xs x) : x ∈ xs := by
  obtain ⟨others, hperm, -⟩ := h
  exact hperm.mem_iff.2 List.mem_cons_self

theorem leads_congr {ys : List α} (h : xs.Perm ys) :
    Leads score threshold margin xs x ↔ Leads score threshold margin ys x := by
  constructor
  · rintro ⟨others, hperm, hrest⟩
    exact ⟨others, h.symm.trans hperm, hrest⟩
  · rintro ⟨others, hperm, hrest⟩
    exact ⟨others, h.trans hperm, hrest⟩

/-- of two members the one that leads is the better one, so a leader comes first in every ranking -/
theorem Leads.head {best : α} {rest : List α} (hmargin : 0 < margin) (h : Leads score threshold margin (best :: rest) x)
    (hsorted : (best :: rest).Pairwise fun a b => score b ≤ score a) : best = x := by
  obtain ⟨others, hperm, -, hlead⟩ := h
  by_contra hne
  have hbest : best ∈ others := by
    rcases List.mem_cons.1 (hperm.mem_iff.1 List.mem_cons_self) with rfl | hmem
    · exact absurd rfl hne
    · exact hmem
  have hx : x ∈ rest := by
    rcases List.mem_cons.1 (hperm.mem_iff.2 List.mem_cons_self) with rfl | hmem
    · exact absurd rfl hne
    · exact hmem
  have h1 := hlead best hbest
  have h2 := (List.pairwise_cons.1 hsorted).1 x hx
  linarith

theorem leader_eq_some (hmargin : 0 < margin) :
    leader score threshold margin xs = some x ↔ Leads score threshold margin xs x := by
  rw [← leads_congr (ranked_perm score xs)]
  have hsorted := ranked_pairwise score xs
  unfold leader
  generalize ranked score xs = sorted at hsorted
  rcases sorted with _ | ⟨best, _ | ⟨runnerUp, rest⟩⟩
  · constructor
    · intro h
      cases h
    · intro h
      cases h.mem
  · dsimp only
    constructor
    · intro h
      split at h
      · cases h
      next hclears =>
        obtain rfl := Option.some.inj h
        exact ⟨[], List.Perm.refl _, not_lt.1 hclears, fun o ho => absurd ho List.not_mem_nil⟩
    · intro h
      obtain rfl := h.head hmargin hsorted
      obtain ⟨_, _, hclears, _⟩ := h
      exact if_neg (not_lt.2 hclears)
  · dsimp only
    constructor
    · intro h
      split at h
      · cases h
      next hclears =>
        split at h
        · cases h
        next hahead =>
          obtain rfl := Option.some.inj h
          refine ⟨runnerUp :: rest, List.Perm.refl _, not_lt.1 hclears, ?_⟩
          intro o ho
          have hle : score o ≤ score runnerUp := by
            rcases List.mem_cons.1 ho with rfl | ho
            · exact le_rfl
            · exact (List.pairwise_cons.1 (List.pairwise_cons.1 hsorted).2).1 o ho
          have := not_lt.1 hahead
          linarith
    · intro h
      obtain rfl := h.head hmargin hsorted
      obtain ⟨others, hperm, hclears, hlead⟩ := h
      have hrunner : runnerUp ∈ others := (List.Perm.cons_inv hperm).mem_iff.1 List.mem_cons_self
      have := hlead runnerUp hrunner
      rw [if_neg (not_lt.2 hclears), if_neg (by linarith)]

end AstramemLocal.Core
