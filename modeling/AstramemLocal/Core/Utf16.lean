/-
UTF-16. A text is `Paired` when every surrogate stands beside its other half. `toWellFormed` puts U+FFFD for every
surrogate that does not: the result is paired (`paired_toWellFormed`), and a paired text stays as it is
(`toWellFormed_of_paired`). The code units of a string determine it (`codeUnits_injective`).
-/
import AstramemLocal.Core.JsString

namespace AstramemLocal.Core

def isHighSurrogate (n : ℕ) : Bool := 0xd800 ≤ n && n < 0xdc00

def isLowSurrogate (n : ℕ) : Bool := 0xdc00 ≤ n && n < 0xe000

namespace JsString

/-- no surrogate stands alone -/
inductive Paired : JsString → Prop where
  | nil : Paired []
  | unit {u : ℕ} {rest : JsString} (hhigh : isHighSurrogate u = false) (hlow : isLowSurrogate u = false)
      (hrest : Paired rest) : Paired (u :: rest)
  | pair {u v : ℕ} {rest : JsString} (hhigh : isHighSurrogate u = true) (hlow : isLowSurrogate v = true)
      (hrest : Paired rest) : Paired (u :: v :: rest)

def replacement : ℕ := 0xfffd

def replaceLone (u : ℕ) : ℕ := if isHighSurrogate u || isLowSurrogate u then replacement else u

def toWellFormed : JsString → JsString
  | [] => []
  | [u] => [replaceLone u]
  | u :: v :: rest =>
    if isHighSurrogate u && isLowSurrogate v then u :: v :: toWellFormed rest
    else replaceLone u :: toWellFormed (v :: rest)

theorem isLowSurrogate_of_high {u : ℕ} (h : isHighSurrogate u = true) : isLowSurrogate u = false := by
  simp only [isHighSurrogate, isLowSurrogate, Bool.and_eq_true, decide_eq_true_eq, Bool.and_eq_false_iff,
    decide_eq_false_iff_not] at h ⊢
  omega

theorem replaceLone_high (u : ℕ) : isHighSurrogate (replaceLone u) = false := by
  unfold replaceLone
  split_ifs with h
  · rfl
  · simp only [Bool.or_eq_true, not_or, Bool.not_eq_true] at h
    exact h.1

theorem replaceLone_low (u : ℕ) : isLowSurrogate (replaceLone u) = false := by
  unfold replaceLone
  split_ifs with h
  · rfl
  · simp only [Bool.or_eq_true, not_or, Bool.not_eq_true] at h
    exact h.2

theorem replaceLone_of_unit {u : ℕ} (hhigh : isHighSurrogate u = false) (hlow : isLowSurrogate u = false) :
    replaceLone u = u := by
  simp [replaceLone, hhigh, hlow]

theorem paired_toWellFormed (s : JsString) : Paired (toWellFormed s) := by
  fun_induction toWellFormed s with
  | case1 => exact .nil
  | case2 u => exact .unit (replaceLone_high u) (replaceLone_low u) .nil
  | case3 u v rest h ih =>
    simp only [Bool.and_eq_true] at h
    exact .pair h.1 h.2 ih
  | case4 u v rest _ ih => exact .unit (replaceLone_high u) (replaceLone_low u) ih

theorem toWellFormed_unit {u : ℕ} (hhigh : isHighSurrogate u = false) (hlow : isLowSurrogate u = false)
    (rest : JsString) : toWellFormed (u :: rest) = u :: toWellFormed rest := by
  cases rest with
  | nil => simp [toWellFormed, replaceLone_of_unit hhigh hlow]
  | cons v rest => simp [toWellFormed, hhigh, replaceLone_of_unit hhigh hlow]

theorem toWellFormed_of_paired {s : JsString} (h : Paired s) : toWellFormed s = s := by
  induction h with
  | nil => rfl
  | unit hhigh hlow _ ih => rw [toWellFormed_unit hhigh hlow, ih]
  | pair hhigh hlow _ ih => simp [toWellFormed, hhigh, hlow, ih]

/-- what the text does not already hold is U+FFFD -/
theorem mem_toWellFormed {s : JsString} {u : ℕ} (h : u ∈ toWellFormed s) : u ∈ s ∨ u = replacement := by
  have hlone : ∀ v : ℕ, u = replaceLone v → u = v ∨ u = replacement := by
    intro v hv
    unfold replaceLone at hv
    split_ifs at hv with hsurrogate
    · exact .inr hv
    · exact .inl hv
  fun_induction toWellFormed s with
  | case1 => cases h
  | case2 v =>
    rcases hlone v (List.mem_singleton.1 h) with rfl | hrepl
    · exact .inl List.mem_cons_self
    · exact .inr hrepl
  | case3 v w rest _ ih =>
    simp only [List.mem_cons] at h ⊢
    rcases h with rfl | rfl | hrest
    · exact .inl (.inl rfl)
    · exact .inl (.inr (.inl rfl))
    · rcases ih hrest with hmem | hrepl
      · exact .inl (.inr (.inr hmem))
      · exact .inr hrepl
  | case4 v w rest _ ih =>
    rcases List.mem_cons.1 h with hv | hrest
    · rcases hlone v hv with rfl | hrepl
      · exact .inl List.mem_cons_self
      · exact .inr hrepl
    · rcases ih hrest with hmem | hrepl
      · exact .inl (List.mem_cons_of_mem v hmem)
      · exact .inr hrepl

end JsString

/-! ## Code units -/

/-- a code whose words are read back from the front is injective on texts -/
theorem flatMap_injective {α β : Type*} {f : α → List β} (hne : ∀ a, f a ≠ [])
    (hfront : ∀ a b s t, f a ++ s = f b ++ t → a = b ∧ s = t) : Function.Injective (List.flatMap f) := by
  intro xs
  induction xs with
  | nil =>
    intro ys h
    cases ys with
    | nil => rfl
    | cons y ys => exact absurd (List.append_eq_nil_iff.1 h.symm).1 (hne y)
  | cons x xs ih =>
    intro ys h
    cases ys with
    | nil => exact absurd (List.append_eq_nil_iff.1 h).1 (hne x)
    | cons y ys =>
      obtain ⟨rfl, hrest⟩ := hfront x y _ _ h
      rw [ih hrest]

def charUnits (c : Char) : List ℕ :=
  if c.toNat < 0x10000 then [c.toNat]
  else [0xd800 + (c.toNat - 0x10000) / 0x400, 0xdc00 + (c.toNat - 0x10000) % 0x400]

theorem char_range (c : Char) : c.toNat < 0xd800 ∨ 0xe000 ≤ c.toNat ∧ c.toNat < 0x110000 := by
  rcases c.valid with h | h
  · exact .inl h
  · exact .inr ⟨h.1, h.2⟩

theorem charUnits_front (c d : Char) (s t : List ℕ) (h : charUnits c ++ s = charUnits d ++ t) : c = d ∧ s = t := by
  have hc := char_range c
  have hd := char_range d
  unfold charUnits at h
  split_ifs at h
  all_goals simp only [List.cons_append, List.nil_append, List.cons.injEq] at h
  · exact ⟨Char.toNat_inj.1 h.1, h.2⟩
  · omega
  · omega
  · exact ⟨Char.toNat_inj.1 (by omega), h.2.2⟩

theorem codeUnits_injective : Function.Injective codeUnits := by
  intro a b h
  have hne : ∀ c, charUnits c ≠ [] := by
    intro c
    unfold charUnits
    split_ifs
    all_goals exact List.cons_ne_nil _ _
  exact String.toList_inj.1 (flatMap_injective hne charUnits_front h)

end AstramemLocal.Core
