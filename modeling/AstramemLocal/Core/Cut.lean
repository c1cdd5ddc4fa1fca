/-
Cutting a list at the occurrences of a part. `firstCut` finds the first occurrence and `cuts` cuts at all of them, from
the left and without overlaps. A part that occurs once is found at its place and leaves two pieces
(`OccursOnce.firstCut_eq`, `OccursOnce.cuts_eq`).
-/
import Mathlib.Data.List.Infix
import Mathlib.Tactic.Common

namespace AstramemLocal.Core

variable {α : Type*} [DecidableEq α] (part : List α)

/-- what stands before and after the first occurrence -/
def firstCut : List α → Option (List α × List α)
  | [] => if part = [] then some ([], []) else none
  | x :: text =>
    if part <+: x :: text then some ([], (x :: text).drop part.length)
    else (firstCut text).map fun found => (x :: found.1, found.2)

/-- at most `fuel` cuts -/
def cutsUpTo : ℕ → List α → List (List α)
  | 0, text => [text]
  | fuel + 1, text =>
    match firstCut part text with
    | none => [text]
    | some found => found.1 :: cutsUpTo fuel found.2

/-- no more cuts are possible than the text is long -/
def cuts (text : List α) : List (List α) := cutsUpTo part text.length text

/-- the part occurs behind `before` and nowhere else -/
def OccursOnce (text before after : List α) : Prop :=
  text = before ++ (part ++ after) ∧ ∀ b a, text = b ++ (part ++ a) → b = before ∧ a = after

variable {part} {text before after : List α}

theorem firstCut_parts (h : firstCut part text = some (before, after)) : text = before ++ (part ++ after) := by
  induction text generalizing before with
  | nil =>
    unfold firstCut at h
    split at h
    next hpart =>
      obtain ⟨rfl, rfl⟩ := Prod.mk.inj (Option.some.inj h)
      rw [hpart]
      rfl
    · cases h
  | cons x text ih =>
    unfold firstCut at h
    split at h
    next hpart =>
      obtain ⟨rest, hrest⟩ := hpart
      obtain ⟨rfl, rfl⟩ := Prod.mk.inj (Option.some.inj h)
      rw [← hrest, List.drop_left]
      rfl
    · obtain ⟨found, hfound, hpair⟩ := Option.map_eq_some_iff.1 h
      obtain ⟨rfl, rfl⟩ := Prod.mk.inj hpair
      rw [ih hfound]
      rfl

theorem firstCut_isSome (h : part <:+: text) : (firstCut part text).isSome := by
  induction text with
  | nil =>
    rw [firstCut, if_pos (List.infix_nil.1 h)]
    rfl
  | cons x text ih =>
    unfold firstCut
    split
    next => rfl
    next hpart =>
      rw [Option.isSome_map]
      exact ih ((List.infix_cons_iff.1 h).resolve_left hpart)

/-- only one position has to be ruled in -/
theorem occursOnce_of_positions (htext : text = before ++ (part ++ after))
    (honly : ∀ i ≤ text.length, part <+: text.drop i → i = before.length) : OccursOnce part text before after := by
  refine ⟨htext, ?_⟩
  intro b a h
  have hle : b.length ≤ text.length := by
    rw [h, List.length_append]
    omega
  have hlength := honly b.length hle ⟨a, by rw [h, List.drop_left]⟩
  obtain ⟨hb, ha⟩ := List.append_inj (h.symm.trans htext) hlength
  exact ⟨hb, List.append_cancel_left ha⟩

theorem OccursOnce.firstCut_eq (h : OccursOnce part text before after) : firstCut part text = some (before, after) := by
  obtain ⟨htext, honly⟩ := h
  have hin : part <:+: text := ⟨before, after, by rw [htext, List.append_assoc]⟩
  obtain ⟨⟨b, a⟩, hcut⟩ := Option.isSome_iff_exists.1 (firstCut_isSome hin)
  obtain ⟨rfl, rfl⟩ := honly b a (firstCut_parts hcut)
  exact hcut

theorem OccursOnce.cuts_eq (hpart : part ≠ []) (h : OccursOnce part text before after) :
    cuts part text = [before, after] := by
  have hcut := h.firstCut_eq
  obtain ⟨htext, honly⟩ := h
  have hrest : firstCut part after = none := by
    cases hagain : firstCut part after with
    | none => rfl
    | some found =>
      have htwice : text = (before ++ (part ++ found.1)) ++ (part ++ found.2) := by
        rw [htext, firstCut_parts hagain]
        simp
      have hlength := congrArg List.length (honly _ _ htwice).1
      simp only [List.length_append] at hlength
      exact absurd (List.length_eq_zero_iff.1 (by omega)) hpart
  have hsize : 0 < text.length := by
    have := List.length_pos_iff.2 hpart
    rw [htext, List.length_append, List.length_append]
    omega
  obtain ⟨n, hn⟩ := Nat.exists_eq_add_of_lt hsize
  rw [cuts, hn, Nat.zero_add, cutsUpTo, hcut]
  cases n with
  | zero => rfl
  | succ n =>
    dsimp only
    rw [cutsUpTo, hrest]

end AstramemLocal.Core
