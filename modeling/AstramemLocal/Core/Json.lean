/-
JSON values and JSON text. `quote` is the string literal JSON.stringify writes; `readChar` reads one character of it
back, so a literal followed by anything determines both (`quote_append_inj`). `intercalate_inj` carries such an
argument through a separated list.
-/
import Mathlib.Data.Rat.Defs
import Mathlib.Data.List.Basic
import Mathlib.Tactic.Common

namespace AstramemLocal.Core

/-- a value JSON.parse returns; the members of an object stand in insertion order -/
inductive Json where
  | null
  | bool (b : Bool)
  | num (n : ℚ)
  | str (s : String)
  | arr (items : List Json)
  | obj (members : List (String × Json))
deriving Repr

/-! ## String literals -/

def hexDigit (n : ℕ) : Char := if n < 10 then Char.ofNat (48 + n) else Char.ofNat (87 + n)

/-- what follows the backslash of an escaped character -/
def escapeCode (c : Char) : Option (List Char) :=
  if c = '"' then some ['"']
  else if c = '\\' then some ['\\']
  else if c = '\x08' then some ['b']
  else if c = '\t' then some ['t']
  else if c = '\n' then some ['n']
  else if c = '\x0c' then some ['f']
  else if c = '\r' then some ['r']
  else if c.toNat < 32 then some ['u', '0', '0', hexDigit (c.toNat / 16), hexDigit (c.toNat % 16)]
  else none

def escapeChar (c : Char) : List Char :=
  match escapeCode c with
  | some code => '\\' :: code
  | none => [c]

def quote (s : String) : List Char := '"' :: s.toList.flatMap escapeChar ++ ['"']

def hexValue (c : Char) : ℕ := if c.toNat < 58 then c.toNat - 48 else c.toNat - 87

/-- the first character of the rest of a literal; `none` at its end -/
def readChar : List Char → Option (Char × List Char)
  | '"' :: _ => none
  | '\\' :: 'b' :: rest => some ('\x08', rest)
  | '\\' :: 't' :: rest => some ('\t', rest)
  | '\\' :: 'n' :: rest => some ('\n', rest)
  | '\\' :: 'f' :: rest => some ('\x0c', rest)
  | '\\' :: 'r' :: rest => some ('\r', rest)
  | '\\' :: 'u' :: '0' :: '0' :: a :: b :: rest => some (Char.ofNat (16 * hexValue a + hexValue b), rest)
  | '\\' :: c :: rest => some (c, rest)
  | c :: rest => some (c, rest)
  | [] => none

theorem hexValue_hexDigit (n : ℕ) (hn : n < 16) : hexValue (hexDigit n) = n := by
  have hall : ∀ m : Fin 16, hexValue (hexDigit m) = m := by decide
  exact hall ⟨n, hn⟩

theorem readChar_escapeChar (c : Char) (rest : List Char) : readChar (escapeChar c ++ rest) = some (c, rest) := by
  unfold escapeChar escapeCode
  split_ifs with h₁ h₂ h₃ h₄ h₅ h₆ h₇ h₈
  · rw [h₁]; rfl
  · rw [h₂]; rfl
  · rw [h₃]; rfl
  · rw [h₄]; rfl
  · rw [h₅]; rfl
  · rw [h₆]; rfl
  · rw [h₇]; rfl
  · have hchar : Char.ofNat (16 * hexValue (hexDigit (c.toNat / 16)) + hexValue (hexDigit (c.toNat % 16))) = c := by
      rw [hexValue_hexDigit _ (by omega), hexValue_hexDigit _ (by omega), Nat.div_add_mod, Char.ofNat_toNat]
    simp only [List.cons_append, List.nil_append, readChar, hchar]
  · simp only [List.cons_append, List.nil_append]
    unfold readChar
    split <;> simp_all

theorem readChar_end (rest : List Char) : readChar ('"' :: rest) = none := rfl

theorem quote_append_inj {s t : String} {x y : List Char} (h : quote s ++ x = quote t ++ y) : s = t ∧ x = y := by
  have hchars : ∀ u v : List Char, u.flatMap escapeChar ++ '"' :: x = v.flatMap escapeChar ++ '"' :: y → u = v ∧ x = y := by
    intro u
    induction u with
    | nil =>
      intro v huv
      cases v with
      | nil => simpa using huv
      | cons d v =>
        have hread := congrArg readChar huv
        simp [List.append_assoc, readChar_escapeChar, readChar_end] at hread
    | cons c u ih =>
      intro v huv
      have hread := congrArg readChar huv
      cases v with
      | nil => simp [List.append_assoc, readChar_escapeChar, readChar_end] at hread
      | cons d v =>
        simp only [List.flatMap_cons, List.append_assoc, readChar_escapeChar, Option.some.injEq, Prod.mk.injEq] at hread
        obtain ⟨rfl, hrest⟩ := hread
        obtain ⟨rfl, hxy⟩ := ih v hrest
        exact ⟨rfl, hxy⟩
  have hlist := hchars s.toList t.toList (by simpa [quote] using h)
  exact ⟨String.toList_inj.1 hlist.1, hlist.2⟩

/-- **Separated lists.** Pieces that a common continuation cannot blur are determined by the separated list. -/
theorem intercalate_inj {α : Type*} {l : List α} {f g : α → List Char} (sep : List Char)
    (hfg : ∀ a ∈ l, ∀ x y, f a ++ x = g a ++ y → f a = g a ∧ x = y) {x y : List Char}
    (h : sep.intercalate (l.map f) ++ x = sep.intercalate (l.map g) ++ y) : ∀ a ∈ l, f a = g a := by
  induction l with
  | nil =>
    intro a ha
    cases ha
  | cons a l ih =>
    have hhead := hfg a List.mem_cons_self
    cases l with
    | nil =>
      simp only [List.map_cons, List.map_nil, List.intercalate_singleton] at h
      simpa using (hhead x y h).1
    | cons b l =>
      simp only [List.map_cons, List.intercalate_cons_cons, List.append_assoc] at h
      obtain ⟨ha, hrest⟩ := hhead _ _ h
      have htail := ih (fun c hc => hfg c (List.mem_cons_of_mem _ hc)) (by simpa using List.append_cancel_left hrest)
      intro c hc
      rcases List.mem_cons.1 hc with rfl | hc
      · exact ha
      · exact htail c hc

/-! ## Texts -/

section
variable (numberText : ℚ → List Char)

mutual
/-- JSON.stringify; `numberText` is the language's text of a number -/
def Json.stringify : Json → List Char
  | .null => "null".toList
  | .bool b => if b then "true".toList else "false".toList
  | .num n => numberText n
  | .str s => quote s
  | .arr items => '[' :: [','].intercalate (stringifyAll items) ++ [']']
  | .obj members => '\x7b' :: [','].intercalate (stringifyMembers members) ++ ['\x7d']
def stringifyAll : List Json → List (List Char)
  | [] => []
  | item :: items => item.stringify :: stringifyAll items
def stringifyMembers : List (String × Json) → List (List Char)
  | [] => []
  | (key, value) :: members => (quote key ++ ':' :: value.stringify) :: stringifyMembers members
end

end

/-- the UTF-16 code units of a string -/
def codeUnits (s : String) : List ℕ :=
  s.toList.flatMap fun c =>
    if c.toNat < 0x10000 then [c.toNat]
    else [0xd800 + (c.toNat - 0x10000) / 0x400, 0xdc00 + (c.toNat - 0x10000) % 0x400]

/-! ## Objects with optional members -/

/-- an object literal whose absent members are left out -/
def present (slots : List (String × Option Json)) : List (String × Json) :=
  slots.filterMap fun slot => slot.2.map (slot.1, ·)

section
variable (key : String) (slots : List (String × Option Json))

@[simp] theorem present_none : present ((key, none) :: slots) = present slots := rfl
@[simp] theorem present_some (value : Json) : present ((key, some value) :: slots) = (key, value) :: present slots := rfl

end

theorem mem_present {slots : List (String × Option Json)} {member : String × Json} :
    member ∈ present slots ↔ (member.1, some member.2) ∈ slots := by
  simp only [present, List.mem_filterMap, Option.map_eq_some_iff]
  constructor
  · rintro ⟨⟨key, value⟩, hslot, v, rfl, rfl⟩
    exact hslot
  · intro h
    exact ⟨_, h, member.2, rfl, rfl⟩

theorem present_filter (p : String → Bool) (slots : List (String × Option Json)) :
    (present slots).filter (fun member => p member.1) = present (slots.filter fun slot => p slot.1) := by
  induction slots with
  | nil => rfl
  | cons slot slots ih =>
    obtain ⟨key, value⟩ := slot
    cases value with
    | none => cases hp : p key <;> simp [hp, ih]
    | some v => cases hp : p key <;> simp [hp, ih]

/-- members rewritten under their keys -/
theorem present_map {g : String → Json → Json} (slots : List (String × Option Json)) :
    (present slots).map (fun member => (member.1, g member.1 member.2)) =
      present (slots.map fun slot => (slot.1, slot.2.map (g slot.1))) := by
  induction slots with
  | nil => rfl
  | cons slot slots ih =>
    obtain ⟨key, value⟩ := slot
    cases value with
    | none => simpa using ih
    | some v => simp [ih]

theorem lookup_present {slots : List (String × Option Json)} (hnodup : (slots.map (·.1)).Nodup) (k : String) :
    (present slots).lookup k = (slots.lookup k).join := by
  induction slots with
  | nil => rfl
  | cons slot slots ih =>
    obtain ⟨key, value⟩ := slot
    simp only [List.map_cons, List.nodup_cons] at hnodup
    have hrest := ih hnodup.2
    by_cases hk : k = key
    · subst hk
      have habsent : slots.lookup k = none := by
        rw [List.lookup_eq_none_iff]
        intro p hp
        have hne : k ≠ p.1 := fun heq => hnodup.1 (List.mem_map.2 ⟨p, hp, heq.symm⟩)
        simpa using hne
      cases value with
      | none => simpa [habsent] using hrest
      | some v => simp
    · have hkey : (k == key) = false := beq_eq_false_iff_ne.2 hk
      have hlookup : List.lookup k ((key, value) :: slots) = List.lookup k slots := by simp [List.lookup_cons, hkey]
      rw [hlookup, ← hrest]
      cases value with
      | none => rfl
      | some v => simp [List.lookup_cons, hkey]

end AstramemLocal.Core
