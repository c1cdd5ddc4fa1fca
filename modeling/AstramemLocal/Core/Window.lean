/-
Half-open windows of validity over an ordered time: `[start, stop)`, or `[start, ∞)` without a stop. Two windows that
meet (the first stops where the second starts) are disjoint, and together they leave no gap.
-/
import Mathlib.Order.Basic
import Mathlib.Tactic.Common

namespace AstramemLocal.Core

structure Window (τ : Type*) where
  start : τ
  stop : Option τ
deriving DecidableEq, Repr

/-- the window is not over at `t` -/
def Window.OpenAt {τ : Type*} [LT τ] (w : Window τ) (t : τ) : Prop := ∀ s ∈ w.stop, t < s

def Window.Contains {τ : Type*} [LE τ] [LT τ] (w : Window τ) (t : τ) : Prop := w.start ≤ t ∧ w.OpenAt t

/-- `v` stops where `w` starts -/
def Window.Meets {τ : Type*} (v w : Window τ) : Prop := v.stop = some w.start

variable {τ : Type*} [Preorder τ] {v w : Window τ} {s t : τ}

/-- a window holds an instant when it holds its first one -/
theorem Window.exists_contains_iff : (∃ t, w.Contains t) ↔ w.OpenAt w.start := by
  constructor
  · rintro ⟨t, hstart, hopen⟩ s hs
    exact lt_of_le_of_lt hstart (hopen s hs)
  · intro h
    exact ⟨w.start, le_rfl, h⟩

theorem Window.Meets.disjoint (h : v.Meets w) : ¬ (v.Contains t ∧ w.Contains t) := by
  rintro ⟨⟨-, hv⟩, hw, -⟩
  exact lt_irrefl t (lt_of_lt_of_le (hv _ h) hw)

theorem Window.Meets.covers (h : v.Meets w) (ht : t < w.start ∨ w.start ≤ t) (hv : v.start ≤ t) (hw : w.OpenAt t) :
    v.Contains t ∨ w.Contains t := by
  rcases ht with hlt | hge
  · refine Or.inl ⟨hv, fun s hs => ?_⟩
    rw [Option.mem_def, show v.stop = some w.start from h, Option.some.injEq] at hs
    exact hs ▸ hlt
  · exact Or.inr ⟨hge, hw⟩

end AstramemLocal.Core
