/-
A worklist worked off in limited passes. A pass scans the selected rows in a fixed order up to its limit and writes those of
them that are due; a row it has written is not due again, and the others it leaves alone. A row that is selected and not due
stays selected, so it counts against the limit of every pass.

- `Passes.once`: no two passes write the same row. `Passes.selected`: a row that is written was selected at the start.
- `Passes.left_iff`: what an unlimited pass would still write is what it would have written at the start, without the rows
  written since. `Passes.stops`: some pass writes nothing.
- `blocked`: where a pass writes nothing, every row left has as many selected rows before it that are not due as the limit
  says.
-/
import Mathlib.Data.List.Basic
import Mathlib.Algebra.Order.Monoid.Unbundled.Basic
import Mathlib.Tactic.Common

namespace AstramemLocal.Core

/-- `LIMIT`, where there is one -/
def takeLimit {α : Type*} : Option ℕ → List α → List α
  | none, l => l
  | some n, l => l.take n

structure Worklist (κ : Type*) where
  selected : κ → Bool
  due : κ → Bool

namespace Worklist

variable {κ : Type*}

/-- the rows a pass looks at -/
def scanned (w : Worklist κ) (limit : Option ℕ) (keys : List κ) : List κ := takeLimit limit (keys.filter w.selected)

def written (w : Worklist κ) (limit : Option ℕ) (keys : List κ) : List κ := (w.scanned limit keys).filter w.due

/-- what an unlimited pass writes -/
abbrev left (w : Worklist κ) (keys : List κ) : List κ := w.written none keys

def stuck (w : Worklist κ) (k : κ) : Bool := w.selected k && !w.due k

/-- what a pass makes of the worklist -/
structure Pass (keys : List κ) (limit : Option ℕ) (w w' : Worklist κ) : Prop where
  others : ∀ k, k ∉ w.written limit keys → w'.selected k = w.selected k ∧ w'.due k = w.due k
  done : ∀ k ∈ w.written limit keys, w'.due k = false

variable {keys : List κ} {limit : Option ℕ} {w : Worklist κ} {k : κ}

theorem scanned_sublist : (w.scanned limit keys).Sublist (keys.filter w.selected) := by
  cases limit with
  | none => exact List.Sublist.refl _
  | some n => exact List.take_sublist n _

theorem mem_written (h : k ∈ w.written limit keys) : k ∈ keys ∧ w.selected k = true ∧ w.due k = true := by
  obtain ⟨hscanned, hdue⟩ := List.mem_filter.1 h
  obtain ⟨hin, hselected⟩ := List.mem_filter.1 (scanned_sublist.subset hscanned)
  exact ⟨hin, hselected, hdue⟩

theorem mem_left : k ∈ w.left keys ↔ k ∈ keys ∧ w.selected k = true ∧ w.due k = true := by
  rw [left, written, scanned, takeLimit, List.mem_filter, List.mem_filter, and_assoc]

theorem written_subset_left : w.written limit keys ⊆ w.left keys := fun _ h => mem_left.2 (mem_written h)

theorem left_eq_filter : w.left keys = keys.filter fun k => w.selected k && w.due k := by
  rw [left, written, scanned, takeLimit, List.filter_filter]
  congr 1
  funext k
  exact Bool.and_comm _ _

/-! ## A pass that writes nothing -/

/-- the rows scanned are as many as the limit says, and none is due -/
theorem blocked {n : ℕ} (h : w.written (some n) keys = []) {before after : List κ} (hkeys : keys = before ++ k :: after)
    (hk : k ∈ w.left keys) : n ≤ before.countP w.stuck := by
  obtain ⟨-, hselected, hdue⟩ := mem_left.1 hk
  have hsplit : keys.filter w.selected = before.filter w.selected ++ k :: after.filter w.selected := by
    rw [hkeys, List.filter_append, List.filter_cons_of_pos hselected]
  have hnone : ∀ j ∈ (keys.filter w.selected).take n, ¬ w.due j = true := List.filter_eq_nil_iff.1 h
  -- the row itself is due, so it is not among the rows scanned
  have hn : n ≤ (before.filter w.selected).length := by
    by_contra hlt
    rw [not_le] at hlt
    refine hnone k ?_ hdue
    rw [hsplit, List.take_append, List.mem_append]
    right
    obtain ⟨m, hm⟩ : ∃ m, n - (before.filter w.selected).length = m + 1 := ⟨_, (Nat.succ_pred_eq_of_pos (by omega)).symm⟩
    rw [hm, List.take_succ_cons]
    exact List.mem_cons_self
  have htake : (keys.filter w.selected).take n = (before.filter w.selected).take n := by
    rw [hsplit, List.take_append_of_le_length hn]
  rw [htake] at hnone
  calc n = ((before.filter w.selected).take n).length := by rw [List.length_take, min_eq_left hn]
    _ = ((before.filter w.selected).take n).countP w.stuck := by
        refine (List.countP_eq_length.2 fun j hj => ?_).symm
        have hj' : w.selected j = true := (List.mem_filter.1 (List.mem_of_mem_take hj)).2
        rw [stuck, hj', Bool.true_and, Bool.not_eq_true']
        exact Bool.eq_false_iff.2 (hnone j hj)
    _ ≤ (before.filter w.selected).countP w.stuck := (List.take_sublist n _).countP_le
    _ ≤ before.countP w.stuck := List.filter_sublist.countP_le

/-! ## Passes -/

/-- one pass after another, all with one limit -/
def Passes (keys : List κ) (limit : Option ℕ) (ws : ℕ → Worklist κ) : Prop := ∀ n, Pass keys limit (ws n) (ws (n + 1))

variable {ws : ℕ → Worklist κ}

theorem Pass.due_false {w' : Worklist κ} (h : Pass keys limit w w') (hdue : w.due k = false) : w'.due k = false := by
  have hother : k ∉ w.written limit keys := fun hk => by simp [(mem_written hk).2.2] at hdue
  rw [(h.others k hother).2]
  exact hdue

theorem Passes.due_false (h : Passes keys limit ws) {m n : ℕ} (hmn : m ≤ n) (hdue : (ws m).due k = false) :
    (ws n).due k = false := by
  induction n, hmn using Nat.le_induction with
  | base => exact hdue
  | succ n _ ih => exact (h n).due_false ih

/-- no two passes write the same row -/
theorem Passes.once (h : Passes keys limit ws) {m n : ℕ} (hmn : m < n) (hk : k ∈ (ws m).written limit keys) :
    k ∉ (ws n).written limit keys := by
  intro hagain
  have hdue : (ws n).due k = false := h.due_false hmn ((h m).done k hk)
  rw [(mem_written hagain).2.2] at hdue
  cases hdue

/-- a row that was never written is as it was -/
theorem Passes.unwritten (h : Passes keys limit ws) {n : ℕ} (hk : ∀ m < n, k ∉ (ws m).written limit keys) :
    (ws n).selected k = (ws 0).selected k ∧ (ws n).due k = (ws 0).due k := by
  induction n with
  | zero => exact ⟨rfl, rfl⟩
  | succ n ih =>
    obtain ⟨hselected, hdue⟩ := (h n).others k (hk n (Nat.lt_succ_self n))
    obtain ⟨hselected', hdue'⟩ := ih fun m hm => hk m (Nat.lt_succ_of_lt hm)
    exact ⟨hselected.trans hselected', hdue.trans hdue'⟩

theorem Passes.selected (h : Passes keys limit ws) {n : ℕ} (hk : k ∈ (ws n).written limit keys) :
    (ws 0).selected k = true := by
  have hfirst : ∀ m < n, k ∉ (ws m).written limit keys := fun m hm hearlier => h.once hm hearlier hk
  rw [← (h.unwritten hfirst).1]
  exact (mem_written hk).2.1

theorem Passes.left_iff (h : Passes keys limit ws) (n : ℕ) :
    k ∈ (ws n).left keys ↔ k ∈ (ws 0).left keys ∧ ∀ m < n, k ∉ (ws m).written limit keys := by
  constructor
  · intro hk
    obtain ⟨hin, hselected, hdue⟩ := mem_left.1 hk
    have hnever : ∀ m < n, k ∉ (ws m).written limit keys := by
      intro m hm hearlier
      rw [h.due_false hm ((h m).done k hearlier)] at hdue
      cases hdue
    obtain ⟨hselected', hdue'⟩ := h.unwritten hnever
    exact ⟨mem_left.2 ⟨hin, hselected'.symm.trans hselected, hdue'.symm.trans hdue⟩, hnever⟩
  · intro hk
    obtain ⟨hfirst, hnever⟩ := hk
    obtain ⟨hin, hselected, hdue⟩ := mem_left.1 hfirst
    obtain ⟨hselected', hdue'⟩ := h.unwritten hnever
    exact mem_left.2 ⟨hin, hselected'.trans hselected, hdue'.trans hdue⟩

/-- what is left gets less with every pass that writes -/
theorem Pass.left_lt {w' : Worklist κ} (h : Pass keys limit w w') (hne : w.written limit keys ≠ []) :
    (w'.left keys).length < (w.left keys).length := by
  have hsub : ∀ j, (w'.selected j && w'.due j) = true → (w.selected j && w.due j) = true := by
    intro j hj
    by_cases hwritten : j ∈ w.written limit keys
    · simp [h.done j hwritten] at hj
    · obtain ⟨hselected, hdue⟩ := h.others j hwritten
      rw [← hselected, ← hdue]
      exact hj
  obtain ⟨k, hk⟩ := List.exists_mem_of_ne_nil _ hne
  obtain ⟨hin, hselected, hdue⟩ := mem_written hk
  rw [left_eq_filter, left_eq_filter]
  have hfilter : keys.filter (fun j => w'.selected j && w'.due j) =
      (keys.filter fun j => w.selected j && w.due j).filter fun j => w'.selected j && w'.due j := by
    rw [List.filter_filter]
    congr 1
    funext j
    cases hj : (w'.selected j && w'.due j) with
    | false => rw [Bool.false_and]
    | true => rw [hsub j hj, Bool.and_self]
  rw [hfilter]
  refine List.length_filter_lt_length_iff_exists.2 ⟨k, List.mem_filter.2 ⟨hin, ?_⟩, ?_⟩
  · rw [hselected, hdue, Bool.and_self]
  · simp [h.done k hk]

/-- some pass writes nothing -/
theorem Passes.stops (h : Passes keys limit ws) : ∃ n ≤ ((ws 0).left keys).length, (ws n).written limit keys = [] := by
  by_contra hnever
  have hbusy : ∀ n ≤ ((ws 0).left keys).length, (ws n).written limit keys ≠ [] := by
    intro n hn hdone
    exact hnever ⟨n, hn, hdone⟩
  have hdescent : ∀ n ≤ ((ws 0).left keys).length, ((ws n).left keys).length + n ≤ ((ws 0).left keys).length := by
    intro n hn
    induction n with
    | zero => exact le_rfl
    | succ n ih =>
      have hlt := (h n).left_lt (hbusy n (by omega))
      have := ih (by omega)
      omega
  have hempty : (ws ((ws 0).left keys).length).left keys = [] :=
    List.eq_nil_of_length_eq_zero (by have := hdescent _ le_rfl; omega)
  exact hbusy _ le_rfl (List.eq_nil_of_subset_nil (hempty ▸ written_subset_left))

end Worklist

end AstramemLocal.Core
