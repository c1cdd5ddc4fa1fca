/-
A limiter over a sliding window: an event is let through only while fewer than `k` of the events behind it lie within `W`.
`Spaced` is what it keeps, and `Spaced.window` what that gives: no interval of length `W` holds more than `k` events.
-/
import Mathlib.Algebra.Order.Group.Int
import Mathlib.Tactic.Common

namespace AstramemLocal.Core

/-- events, the latest first, each let through while fewer than `k` of those behind it lie within `W` -/
def Spaced (k : ℕ) (W : ℤ) : List ℤ → Prop
  | [] => True
  | x :: past => past.countP (x - · ≤ W) < k ∧ Spaced k W past

variable {k : ℕ} {W : ℤ}

/-- **Sliding window.** No interval of length `W` holds more than `k` events. -/
theorem Spaced.window {xs : List ℤ} (h : Spaced k W xs) (a : ℤ) : xs.countP (fun x => a ≤ x ∧ x ≤ a + W) ≤ k := by
  induction xs with
  | nil => exact Nat.zero_le k
  | cons x past ih =>
    obtain ⟨hfew, hpast⟩ := h
    by_cases hx : a ≤ x ∧ x ≤ a + W
    · -- the others of the interval are within `W` of the latest
      have hnear : past.countP (fun y => a ≤ y ∧ y ≤ a + W) ≤ past.countP (x - · ≤ W) :=
        List.countP_mono_left fun y _ hy => by
          have hy' : a ≤ y ∧ y ≤ a + W := of_decide_eq_true hy
          exact decide_eq_true (by omega)
      calc (x :: past).countP (fun y => a ≤ y ∧ y ≤ a + W)
          = past.countP (fun y => a ≤ y ∧ y ≤ a + W) + 1 := List.countP_cons_of_pos (by simpa using hx)
        _ ≤ past.countP (x - · ≤ W) + 1 := Nat.succ_le_succ hnear
        _ ≤ k := hfew
    · rw [List.countP_cons_of_neg (by simpa using hx)]
      exact ih hpast

end AstramemLocal.Core
