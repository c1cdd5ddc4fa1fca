/-
Literals between quotation marks, in which a mark is written twice, and sequences of them with a separator. A strict reader
takes back what is written (`readLiterals_join`), and accepts nothing else (`readLiterals_sound`).
-/
import Mathlib.Data.List.Basic
import Mathlib.Tactic.Common

namespace AstramemLocal.Core.Quoted

section
variable {α : Type*} [DecidableEq α] (mark : α)

/-- every mark twice -/
def doubled (s : List α) : List α := s.flatMap fun u => if u = mark then [mark, mark] else [u]

def literal (s : List α) : List α := mark :: doubled mark s ++ [mark]

/-- the rest of a literal, behind its opening mark: what it says, and what follows it -/
def readBody : List α → Option (List α × List α)
  | [] => none
  | [u] => if u = mark then some ([], []) else none
  | u :: v :: rest =>
    if u = mark then
      if v = mark then (readBody rest).map fun r => (mark :: r.1, r.2) else some ([], v :: rest)
    else (readBody (v :: rest)).map fun r => (u :: r.1, r.2)

def readLiteral : List α → Option (List α × List α)
  | [] => none
  | u :: rest => if u = mark then readBody mark rest else none

variable (sep : List α)

/-- literals with the separator between them, and nothing else -/
def readFrom : ℕ → List α → Option (List (List α))
  | 0, _ => none
  | n + 1, text =>
    match readLiteral mark text with
    | none => none
    | some (s, rest) =>
      if rest = [] then some [s]
      else if sep <+: rest then (readFrom n (rest.drop sep.length)).map (s :: ·)
      else none

/-- a literal takes two marks, so there are fewer of them than units -/
def readLiterals (text : List α) : Option (List (List α)) := readFrom mark sep text.length text

def join (parts : List (List α)) : List α := sep.intercalate (parts.map (literal mark))

variable {mark sep} {s rest text : List α} {parts : List (List α)}

/-! ## Round trip -/

theorem readBody_cons {u : α} (hu : u ≠ mark) (text : List α) :
    readBody mark (u :: text) = (readBody mark text).map fun r => (u :: r.1, r.2) := by
  cases text with
  | nil => simp [readBody, hu]
  | cons v rest => simp [readBody, hu]

theorem readBody_doubled (hrest : rest.head? ≠ some mark) :
    readBody mark (doubled mark s ++ mark :: rest) = some (s, rest) := by
  induction s with
  | nil =>
    cases rest with
    | nil => simp [doubled, readBody]
    | cons v rest =>
      have hv : v ≠ mark := by simpa using hrest
      simp [doubled, readBody, hv]
  | cons u s ih =>
    by_cases hu : u = mark
    · have hsplit : doubled mark (u :: s) ++ mark :: rest = mark :: mark :: (doubled mark s ++ mark :: rest) := by
        simp [doubled, hu]
      rw [hsplit, readBody, if_pos rfl, if_pos rfl, ih, hu]
      rfl
    · have hsplit : doubled mark (u :: s) ++ mark :: rest = u :: (doubled mark s ++ mark :: rest) := by
        simp [doubled, hu]
      rw [hsplit, readBody_cons hu, ih]
      rfl

theorem readLiteral_literal (hrest : rest.head? ≠ some mark) :
    readLiteral mark (literal mark s ++ rest) = some (s, rest) := by
  rw [literal, List.cons_append, List.cons_append, List.append_assoc, readLiteral, if_pos rfl]
  exact readBody_doubled hrest

theorem join_cons (s next : List α) (parts : List (List α)) :
    join mark sep (s :: next :: parts) = literal mark s ++ (sep ++ join mark sep (next :: parts)) := by
  simp [join, List.intercalate_cons_cons]

theorem length_le_join (parts : List (List α)) : parts.length ≤ (join mark sep parts).length := by
  induction parts with
  | nil => exact Nat.zero_le _
  | cons s parts ih =>
    cases parts with
    | nil => simp [join, literal]
    | cons next parts =>
      rw [join_cons, List.length_append, List.length_append, List.length_cons]
      have hliteral : 0 < (literal mark s).length := by simp [literal]
      omega

/-- **What is written is read back.** -/
theorem readLiterals_join (hsep : sep ≠ []) (hmark : sep.head? ≠ some mark) (hparts : parts ≠ []) :
    readLiterals mark sep (join mark sep parts) = some parts := by
  have hfrom : ∀ (parts : List (List α)), parts ≠ [] → ∀ n, parts.length ≤ n →
      readFrom mark sep n (join mark sep parts) = some parts := by
    intro parts
    induction parts with
    | nil => exact fun h => absurd rfl h
    | cons s parts ih =>
      intro _ n hn
      rw [List.length_cons] at hn
      obtain ⟨n, rfl⟩ : ∃ m, n = m + 1 := ⟨n - 1, by omega⟩
      cases parts with
      | nil =>
        have hread : readLiteral mark (literal mark s ++ []) = some (s, []) := readLiteral_literal (by simp)
        rw [List.append_nil] at hread
        simp [join, readFrom, hread]
      | cons next parts =>
        have hhead : (sep ++ join mark sep (next :: parts)).head? ≠ some mark := by
          rwa [List.head?_append_of_ne_nil _ hsep]
        have hne : sep ++ join mark sep (next :: parts) ≠ [] := by simp [hsep]
        have hread := readLiteral_literal (s := s) hhead
        rw [join_cons, readFrom, hread]
        simp only [if_neg hne, if_pos (List.prefix_append sep _), List.drop_left]
        rw [ih (by simp) n (by omega)]
        rfl
  exact hfrom parts hparts _ (length_le_join parts)

/-! ## Nothing else is accepted -/

theorem readBody_sound (h : readBody mark text = some (s, rest)) : text = doubled mark s ++ mark :: rest := by
  fun_induction readBody mark text generalizing s with
  | case1 => cases h
  | case2 =>
    cases h
    rfl
  | case3 => cases h
  | case4 rest' ih =>
    obtain ⟨r, hr, heq⟩ := Option.map_eq_some_iff.1 h
    cases heq
    rw [ih hr]
    simp [doubled]
  | case5 v rest' hv =>
    cases h
    rfl
  | case6 u v rest' hu ih =>
    obtain ⟨r, hr, heq⟩ := Option.map_eq_some_iff.1 h
    cases heq
    rw [ih hr]
    simp [doubled, hu]

theorem readLiteral_sound (h : readLiteral mark text = some (s, rest)) : text = literal mark s ++ rest := by
  cases text with
  | nil => cases h
  | cons u text =>
    rw [readLiteral] at h
    split_ifs at h with hu
    rw [hu, readBody_sound h]
    simp [literal]

/-- **Nothing else is read.** -/
theorem readLiterals_sound (h : readLiterals mark sep text = some parts) : parts ≠ [] ∧ text = join mark sep parts := by
  have hfrom : ∀ n text parts, readFrom mark sep n text = some parts → parts ≠ [] ∧ text = join mark sep parts := by
    intro n
    induction n with
    | zero => exact fun _ _ h => by cases h
    | succ n ih =>
      intro text parts h
      rw [readFrom] at h
      split at h
      · cases h
      next s rest hread =>
        rw [readLiteral_sound hread]
        split_ifs at h with hnil hsep
        · cases h
          exact ⟨by simp, by simp [join, hnil]⟩
        · obtain ⟨more, hmore, rfl⟩ := Option.map_eq_some_iff.1 h
          obtain ⟨hne, htext⟩ := ih _ _ hmore
          obtain ⟨next, more, rfl⟩ := List.exists_cons_of_ne_nil hne
          refine ⟨by simp, ?_⟩
          rw [join_cons, ← htext]
          obtain ⟨tail, rfl⟩ := hsep
          rw [List.drop_left]
  exact hfrom _ _ _ h

end

end AstramemLocal.Core.Quoted
