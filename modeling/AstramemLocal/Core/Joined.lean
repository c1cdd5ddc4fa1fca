/-
Texts joined by a separator, `parts.join(sep)`. When only the first part may hold the separator, the joined text
determines its parts (`joined_inj`). The decimal text of an integer holds digits and a sign only
(`intText_chars`) and determines the integer (`intText_inj`).
-/
import Mathlib.Data.List.Basic
import Mathlib.Data.Int.Notation
import Mathlib.Tactic.Common

namespace AstramemLocal.Core

section
variable {α : Type*} {sep : α}

/-- a text is split at its last separator in one way only -/
theorem append_sep_inj {a b x y : List α} (hx : sep ∉ x) (hy : sep ∉ y) (h : a ++ sep :: x = b ++ sep :: y) :
    a = b ∧ x = y := by
  rcases List.append_eq_append_iff.1 h with ⟨q, hb, hq⟩ | ⟨q, ha, hq⟩
  · cases q with
    | nil =>
      rw [List.append_nil] at hb
      exact ⟨hb.symm, (List.cons.inj hq).2⟩
    | cons c q =>
      obtain ⟨-, rfl⟩ := List.cons.inj hq
      exact absurd (List.mem_append_right q List.mem_cons_self) hx
  · cases q with
    | nil =>
      rw [List.append_nil] at ha
      exact ⟨ha, (List.cons.inj hq).2.symm⟩
    | cons c q =>
      obtain ⟨-, rfl⟩ := List.cons.inj hq
      exact absurd (List.mem_append_right q List.mem_cons_self) hy

/-- and at its first -/
theorem sep_append_inj {a b x y : List α} (ha : sep ∉ a) (hb : sep ∉ b) (h : a ++ sep :: x = b ++ sep :: y) :
    a = b ∧ x = y := by
  have hreverse : x.reverse ++ sep :: a.reverse = y.reverse ++ sep :: b.reverse := by
    simpa using congrArg List.reverse h
  obtain ⟨hx, ha⟩ := append_sep_inj (by simpa using ha) (by simpa using hb) hreverse
  exact ⟨List.reverse_inj.1 ha, List.reverse_inj.1 hx⟩

end

theorem joined_cons (s a x : String) (xs : List String) :
    s.intercalate (a :: x :: xs) = s.intercalate ((a ++ s ++ x) :: xs) := by
  cases xs with
  | nil => simp [String.intercalate_cons_cons]
  | cons y ys => simp [String.intercalate_cons_cons, String.append_assoc]

/-- parts that hold no separator can be told apart in the joined text, whatever stands before them -/
theorem joined_inj {sep : Char} {a b : String} {xs ys : List String} (hlength : xs.length = ys.length)
    (hxs : ∀ x ∈ xs, sep ∉ x.toList) (hys : ∀ y ∈ ys, sep ∉ y.toList)
    (h : (String.singleton sep).intercalate (a :: xs) = (String.singleton sep).intercalate (b :: ys)) :
    a = b ∧ xs = ys := by
  induction xs generalizing a b ys with
  | nil =>
    obtain rfl := List.eq_nil_of_length_eq_zero hlength.symm
    exact ⟨by simpa using h, rfl⟩
  | cons x xs ih =>
    cases ys with
    | nil => cases hlength
    | cons y ys =>
      rw [joined_cons, joined_cons] at h
      obtain ⟨hlast, rfl⟩ := ih (Nat.succ.inj hlength) (fun z hz => hxs z (List.mem_cons_of_mem x hz))
        (fun z hz => hys z (List.mem_cons_of_mem y hz)) h
      have hchars : a.toList ++ sep :: x.toList = b.toList ++ sep :: y.toList := by
        simpa using congrArg String.toList hlast
      obtain ⟨hfirst, hsecond⟩ := append_sep_inj (hxs x List.mem_cons_self) (hys y List.mem_cons_self) hchars
      exact ⟨String.toList_inj.1 hfirst, by rw [String.toList_inj.1 hsecond]⟩

/-! ## Integers -/

theorem natText_inj {m n : ℕ} (h : m.repr = n.repr) : m = n := by
  have hdigits : Nat.toDigits 10 m = Nat.toDigits 10 n := by simpa using congrArg String.toList h
  calc m = Nat.ofDigitChars 10 (Nat.toDigits 10 m) 0 := Nat.ofDigitChars_ten_toDigits.symm
    _ = Nat.ofDigitChars 10 (Nat.toDigits 10 n) 0 := by rw [hdigits]
    _ = n := Nat.ofDigitChars_ten_toDigits

theorem natText_chars {n : ℕ} {c : Char} (hc : c ∈ n.repr.toList) : c.isDigit = true := by
  rw [Nat.toList_repr] at hc
  exact Nat.isDigit_of_mem_toDigits (by omega) (by omega) hc

theorem intText_chars {n : ℤ} {c : Char} (hc : c ∈ (toString n).toList) : c.isDigit = true ∨ c = '-' := by
  cases n with
  | ofNat n => exact .inl (natText_chars hc)
  | negSucc n =>
    change c ∈ ("-" ++ n.succ.repr).toList at hc
    rw [String.toList_append, List.mem_append] at hc
    rcases hc with hsign | hdigits
    · exact .inr (by simpa using hsign)
    · exact .inl (natText_chars hdigits)

theorem intText_inj {m n : ℤ} (h : toString m = toString n) : m = n := by
  -- a sign is no digit
  have hsign : ∀ {j k : ℕ}, j.repr ≠ "-" ++ k.repr := by
    intro j k h
    have hmem : '-' ∈ j.repr.toList := by
      rw [h]
      simp
    exact absurd (natText_chars hmem) (by decide)
  cases m with
  | ofNat m =>
    cases n with
    | ofNat n => exact congrArg Int.ofNat (natText_inj h)
    | negSucc n => exact absurd h hsign
  | negSucc m =>
    cases n with
    | ofNat n => exact absurd h.symm hsign
    | negSucc n =>
      have hrepr : m.succ.repr = n.succ.repr := by
        have hchars := congrArg String.toList (show "-" ++ m.succ.repr = "-" ++ n.succ.repr from h)
        rw [String.toList_append, String.toList_append] at hchars
        exact String.toList_inj.1 (List.append_cancel_left hchars)
      exact congrArg Int.negSucc (Nat.succ.inj (natText_inj hrepr))

end AstramemLocal.Core
