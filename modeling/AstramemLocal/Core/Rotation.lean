/-
Passes that take turns. A pass visits the first items of an order and the next pass starts behind them, so an item that
is left comes nearer with every pass (`mem_take_rotate`). An order that is kept as the key of its first item is found
again: `rotateTo` at the item a rotation stops before is the rotation by what it has visited (`rotateTo_getElem`).
-/
import Mathlib.Data.List.Rotate

namespace AstramemLocal.Core

variable {α κ : Type*}

/-- an item that a pass over the first `c` has not reached is one place nearer, at least, for the next pass -/
theorem mem_take_rotate {order : List α} {n c : ℕ} (hc : 1 ≤ c) {x : α} (hx : x ∈ order.take (n + 1))
    (hlater : x ∉ order.take c) : x ∈ (order.rotate c).take n := by
  have hle : c ≤ order.length := by
    by_contra hlt
    rw [List.take_of_length_le (by omega)] at hlater
    exact hlater (List.mem_of_mem_take hx)
  have hdrop : x ∈ (order.drop c).take (n + 1 - c) := by
    rw [← List.take_append_drop c order, List.take_append, List.mem_append] at hx
    rcases hx with hx | hx
    · exact absurd (List.mem_of_mem_take hx) hlater
    · rwa [List.length_take_of_le hle] at hx
  rw [List.rotate_eq_drop_append_take hle, List.take_append]
  exact List.mem_append_left _ (List.take_subset_take_left _ (by omega) hdrop)

section
variable [DecidableEq κ] {key : α → κ} {xs order : List α}

/-- the items from the one with the key on, then those before it; an unknown key rotates nothing -/
def rotateTo (key : α → κ) (k : κ) (xs : List α) : List α :=
  match xs.findIdx? (key · = k) with
  | none => xs
  | some i => xs.drop i ++ xs.take i

theorem rotateTo_isRotated (k : κ) : rotateTo key k xs ~r xs := by
  unfold rotateTo
  split
  · exact List.IsRotated.refl xs
  next i hi =>
    have hlt : i < xs.length := (List.findIdx?_eq_some_iff_findIdx_eq.1 hi).1
    exact (show xs ~r xs.drop i ++ xs.take i from ⟨i, List.rotate_eq_drop_append_take hlt.le⟩).symm

/-- a rotation is found again by the key it starts with -/
theorem rotateTo_getElem (hkeys : (xs.map key).Nodup) (hrot : order ~r xs) {c : ℕ} (hc : c < order.length) :
    rotateTo key (key order[c]) xs = order.rotate c := by
  obtain ⟨n, hn⟩ := hrot.symm
  have hlen : order.length = xs.length := hrot.perm.length_eq
  -- the item stands at `i` in the list
  have hpos : (c + n) % xs.length < xs.length := Nat.mod_lt _ (by omega)
  have hitem : order[c] = xs[(c + n) % xs.length] := by
    subst hn
    exact List.getElem_rotate ..
  have hfind : xs.findIdx? (key · = key order[c]) = some ((c + n) % xs.length) := by
    rw [List.findIdx?_eq_some_iff_getElem]
    refine ⟨hpos, by simp [hitem], fun j hj => ?_⟩
    have hne : key xs[j] ≠ key order[c] := by
      intro heq
      rw [hitem] at heq
      have hsame : xs[j] = xs[(c + n) % xs.length] :=
        List.inj_on_of_nodup_map hkeys (List.getElem_mem _) (List.getElem_mem _) heq
      exact absurd ((List.Nodup.getElem_inj_iff (List.Nodup.of_map key hkeys)).1 hsame) hj.ne
    simpa using hne
  rw [rotateTo, hfind]
  dsimp only
  rw [← List.rotate_eq_drop_append_take hpos.le, List.rotate_mod, ← hn, List.rotate_rotate, Nat.add_comm]

end

end AstramemLocal.Core
