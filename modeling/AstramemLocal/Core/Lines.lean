/-
Positions in a list joined by a separator. `opening sep parts` is what stands before the part after `parts`; a position
is in one part (`exists_part`), and the separators before it are the parts before its own and the separators they hold
(`count_take`, `count_take_eq_length_iff`). A piece of the joined list without a separator lies in a part (`infix_part`).
Parts that hold no separator are read back when each of them is closed by one (`opening_injective`).
-/
import Mathlib.Data.List.Basic
import Mathlib.Algebra.BigOperators.Group.List.Basic
import Mathlib.Algebra.Ring.Nat
import Mathlib.Tactic.Common

namespace AstramemLocal.Core

variable {α : Type*} (sep : α)

def opening (parts : List (List α)) : List α := parts.flatMap fun part => part ++ [sep]

/-- the joined list goes on with nothing, or with a separator -/
def closing : List (List α) → List α
  | [] => []
  | part :: parts => sep :: [sep].intercalate (part :: parts)

@[simp] theorem opening_nil : opening sep [] = [] := rfl

@[simp] theorem opening_cons (part : List α) (parts : List (List α)) :
    opening sep (part :: parts) = part ++ sep :: opening sep parts := by
  simp [opening]

theorem intercalate_at (before : List (List α)) (part : List α) (after : List (List α)) :
    [sep].intercalate (before ++ part :: after) = opening sep before ++ (part ++ closing sep after) := by
  induction before with
  | nil =>
    cases after with
    | nil => simp [closing]
    | cons next after => simp [closing, List.intercalate_cons_cons]
  | cons first before ih =>
    rw [opening_cons, List.cons_append, List.intercalate_cons_of_ne_nil (by simp), ih]
    simp

/-- every position up to the end is in a part, or at the separator behind it -/
theorem exists_part {parts : List (List α)} (hne : parts ≠ []) {p : ℕ} (hp : p ≤ ([sep].intercalate parts).length) :
    ∃ before part after, parts = before ++ part :: after ∧ (opening sep before).length ≤ p ∧
      p ≤ (opening sep before).length + part.length := by
  induction parts generalizing p with
  | nil => exact absurd rfl hne
  | cons part parts ih =>
    by_cases hfirst : p ≤ part.length
    · exact ⟨[], part, parts, rfl, Nat.zero_le _, by simpa using hfirst⟩
    · cases parts with
      | nil => exact absurd (by simpa using hp) hfirst
      | cons next parts =>
        have hrest : p - (part.length + 1) ≤ ([sep].intercalate (next :: parts)).length := by
          rw [List.intercalate_cons_cons] at hp
          simp only [List.length_append, List.length_singleton] at hp
          omega
        obtain ⟨before, q, after, hsplit, hle, hge⟩ := ih (by simp) hrest
        refine ⟨part :: before, q, after, by rw [hsplit]; rfl, ?_, ?_⟩
        · rw [opening_cons, List.length_append, List.length_cons]
          omega
        · rw [opening_cons, List.length_append, List.length_cons]
          omega

/-- a position that is not a separator's is in a part -/
theorem exists_part_of_ne {parts : List (List α)} (hne : parts ≠ []) {p : ℕ} {u : α} {rest : List α}
    (hdrop : ([sep].intercalate parts).drop p = u :: rest) (hu : u ≠ sep) :
    ∃ before part after, parts = before ++ part :: after ∧ (opening sep before).length ≤ p ∧
      p < (opening sep before).length + part.length := by
  have hp : p ≤ ([sep].intercalate parts).length := by
    by_contra hlt
    rw [List.drop_eq_nil_of_le (by omega)] at hdrop
    cases hdrop
  obtain ⟨before, part, after, hsplit, hle, hge⟩ := exists_part sep hne hp
  refine ⟨before, part, after, hsplit, hle, Nat.lt_of_le_of_ne hge ?_⟩
  rintro rfl
  rw [hsplit, intercalate_at, ← List.append_assoc, ← List.length_append, List.drop_left] at hdrop
  cases after with
  | nil => cases hdrop
  | cons next after => exact hu (List.cons.inj hdrop).1.symm

/-! ## Pieces without a separator -/

section
variable {sep}

theorem prefix_of_notMem {w xs ys : List α} (hw : sep ∉ w) (h : w <+: xs ++ sep :: ys) : w <+: xs := by
  rcases List.prefix_or_prefix_of_prefix h (List.prefix_append xs (sep :: ys)) with hle | ⟨t, rfl⟩
  · exact hle
  · have ht : t <+: sep :: ys := (List.prefix_append_right_inj xs).1 h
    cases t with
    | nil => simp
    | cons u t =>
      have hu : u = sep := (List.cons_prefix_cons.1 ht).1
      exact absurd (by simp [hu]) hw

theorem infix_of_notMem {w xs ys : List α} (hw : sep ∉ w) (h : w <:+: xs ++ sep :: ys) : w <:+: xs ∨ w <:+: ys := by
  induction xs with
  | nil =>
    rcases List.infix_cons_iff.1 h with hprefix | hrest
    · have hnil : w <+: [] := prefix_of_notMem hw hprefix
      exact .inl hnil.isInfix
    · exact .inr hrest
  | cons x xs ih =>
    rcases List.infix_cons_iff.1 h with hprefix | hrest
    · have hhead : w <+: x :: xs := prefix_of_notMem hw hprefix
      exact .inl hhead.isInfix
    · rcases ih hrest with hxs | hys
      · exact .inl (hxs.trans (List.suffix_cons x xs).isInfix)
      · exact .inr hys

/-- a piece of the joined list without a separator is a piece of a part -/
theorem infix_part {w : List α} {parts : List (List α)} (hne : parts ≠ []) (hw : sep ∉ w)
    (h : w <:+: [sep].intercalate parts) : ∃ part ∈ parts, w <:+: part := by
  induction parts with
  | nil => exact absurd rfl hne
  | cons part parts ih =>
    cases parts with
    | nil => exact ⟨part, List.mem_cons_self, by simpa using h⟩
    | cons next parts =>
      rw [List.intercalate_cons_cons, List.append_assoc, List.singleton_append] at h
      rcases infix_of_notMem hw h with hpart | hrest
      · exact ⟨part, List.mem_cons_self, hpart⟩
      · obtain ⟨q, hq, hwq⟩ := ih (by simp) hrest
        exact ⟨q, List.mem_cons_of_mem part hq, hwq⟩

theorem part_within {part : List α} {parts : List (List α)} (h : part ∈ parts) : part <:+: [sep].intercalate parts := by
  obtain ⟨before, after, rfl⟩ := List.append_of_mem h
  rw [intercalate_at]
  exact ⟨opening sep before, closing sep after, by rw [List.append_assoc]⟩

end

variable [DecidableEq α]

theorem notMem_of_mem_splitOn {xs part : List α} (h : part ∈ xs.splitOn sep) : sep ∉ part := by
  induction xs generalizing part with
  | nil =>
    rw [List.splitOn_nil, List.mem_singleton] at h
    exact h ▸ List.not_mem_nil
  | cons x xs ih =>
    rw [List.splitOn_cons_eq_if_modifyHead] at h
    split at h
    · rcases List.mem_cons.1 h with rfl | h
      · exact List.not_mem_nil
      · exact ih h
    next hx =>
      obtain ⟨first, rest, hsplit⟩ := List.exists_cons_of_ne_nil (List.splitOn_ne_nil sep xs)
      rw [hsplit, List.modifyHead_cons] at h
      rcases List.mem_cons.1 h with rfl | h
      · intro hmem
        rcases List.mem_cons.1 hmem with rfl | hmem
        · exact hx (beq_self_eq_true _)
        · exact ih (hsplit ▸ List.mem_cons_self) hmem
      · exact ih (hsplit ▸ List.mem_cons_of_mem first h)

/-- joined parts are split into what each of them is split into -/
theorem splitOn_intercalate_flatMap {parts : List (List α)} (hne : parts ≠ []) :
    ([sep].intercalate parts).splitOn sep = parts.flatMap (List.splitOn sep) := by
  induction parts with
  | nil => exact absurd rfl hne
  | cons part parts ih =>
    cases parts with
    | nil => simp
    | cons next parts =>
      rw [List.intercalate_cons_cons, List.append_assoc, List.singleton_append, List.splitOn_append_cons_self,
        ih (by simp), List.flatMap_cons, List.flatMap_cons, List.flatMap_cons]

theorem opening_splitOn (xs : List α) : opening sep (xs.splitOn sep) = xs ++ [sep] := by
  have hjoin : ∀ parts : List (List α), parts ≠ [] → opening sep parts = [sep].intercalate parts ++ [sep] := by
    intro parts hne
    induction parts with
    | nil => exact absurd rfl hne
    | cons part parts ih =>
      cases parts with
      | nil => simp
      | cons next parts =>
        rw [opening_cons, ih (by simp), List.intercalate_cons_cons]
        simp
  rw [hjoin _ (List.splitOn_ne_nil sep xs), List.intercalate_splitOn]

theorem splitOn_opening {parts : List (List α)} (h : ∀ part ∈ parts, sep ∉ part) :
    (opening sep parts).splitOn sep = parts ++ [[]] := by
  induction parts with
  | nil => simp
  | cons part parts ih =>
    rw [opening_cons, List.splitOn_append_cons_self_of_not_mem (h part List.mem_cons_self),
      ih fun q hq => h q (List.mem_cons_of_mem part hq)]
    rfl

theorem opening_injective {parts others : List (List α)} (hparts : ∀ part ∈ parts, sep ∉ part)
    (hothers : ∀ part ∈ others, sep ∉ part) (h : opening sep parts = opening sep others) : parts = others := by
  have hsplit := congrArg (List.splitOn sep) h
  rw [splitOn_opening sep hparts, splitOn_opening sep hothers] at hsplit
  exact List.append_cancel_right hsplit

theorem length_splitOn (xs : List α) : (xs.splitOn sep).length = xs.count sep + 1 := by
  induction xs with
  | nil => rfl
  | cons x xs ih =>
    rw [List.splitOn_cons_eq_if_modifyHead]
    split
    next hx =>
      obtain rfl := eq_of_beq hx
      rw [List.length_cons, ih, List.count_cons_self]
    next hx =>
      rw [List.length_modifyHead, ih, List.count_cons_of_ne]
      intro heq
      exact hx (beq_iff_eq.2 heq)

theorem count_opening (parts : List (List α)) :
    (opening sep parts).count sep = parts.length + (parts.map (·.count sep)).sum := by
  induction parts with
  | nil => rfl
  | cons part parts ih =>
    rw [opening_cons, List.count_append, List.count_cons_self, ih, List.length_cons, List.map_cons, List.sum_cons]
    omega

variable {sep}

/-- the separators before a position of a part -/
theorem count_take {text rest part : List α} {before : List (List α)} (htext : text = opening sep before ++ (part ++ rest))
    {p : ℕ} (hle : (opening sep before).length ≤ p) (hge : p ≤ (opening sep before).length + part.length) :
    (text.take p).count sep = before.length + (before.map (·.count sep)).sum +
      (part.take (p - (opening sep before).length)).count sep := by
  have hpart : p - (opening sep before).length ≤ part.length := by omega
  rw [htext, List.take_append, List.take_of_length_le hle, List.take_append_of_le_length hpart, List.count_append,
    count_opening]

theorem sum_count_eq_zero {parts : List (List α)} : (parts.map (·.count sep)).sum = 0 ↔ ∀ part ∈ parts, sep ∉ part := by
  rw [List.sum_eq_zero_iff_forall_eq_nat]
  simp only [List.mem_map, forall_exists_index, and_imp, forall_apply_eq_imp_iff₂, List.count_eq_zero]

/-- they are the parts before its own exactly when no part holds one up to there -/
theorem count_take_eq_length_iff {text rest part : List α} {before : List (List α)}
    (htext : text = opening sep before ++ (part ++ rest)) {p : ℕ} (hle : (opening sep before).length ≤ p)
    (hge : p ≤ (opening sep before).length + part.length) :
    (text.take p).count sep = before.length ↔
      (∀ q ∈ before, sep ∉ q) ∧ sep ∉ part.take (p - (opening sep before).length) := by
  rw [count_take htext hle hge, ← sum_count_eq_zero, ← List.count_eq_zero]
  omega

end AstramemLocal.Core
