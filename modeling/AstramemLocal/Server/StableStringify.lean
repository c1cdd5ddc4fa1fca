/-
`src/server/lib/stable-stringify.ts`: the text of a JSON value with the keys of every object sorted. Two objects that
differ only in the text of some strings have the same text only when they are equal (`stableStringify_map_inj`).
-/
import AstramemLocal.Core.Json
import Mathlib.Data.List.Lex
import Mathlib.Data.List.Sort

namespace AstramemLocal.Server

open AstramemLocal.Core

/-- `Array.prototype.sort` compares strings by code units -/
def keyLe (a b : String) : Prop := codeUnits a ≤ codeUnits b

instance : DecidableRel keyLe := fun a b => inferInstanceAs (Decidable (codeUnits a ≤ codeUnits b))

section
variable (numberText : ℚ → List Char)

def memberText (member : String × List Char) : List Char := quote member.1 ++ ':' :: member.2

mutual
def stableStringify : Json → List Char
  | .null => "null".toList
  | .bool b => if b then "true".toList else "false".toList
  | .num n => numberText n
  | .str s => quote s
  | .arr items => '[' :: [','].intercalate (stableStringifyAll items) ++ [']']
  | .obj members =>
    let sorted := (stableStringifyMembers members).insertionSort fun a b => keyLe a.1 b.1
    '\x7b' :: [','].intercalate (sorted.map memberText) ++ ['\x7d']
def stableStringifyAll : List Json → List (List Char)
  | [] => []
  | item :: items => stableStringify item :: stableStringifyAll items
def stableStringifyMembers : List (String × Json) → List (String × List Char)
  | [] => []
  | (key, value) :: members => (key, stableStringify value) :: stableStringifyMembers members
end

variable {members : List (String × Json)}

theorem stableStringifyMembers_eq :
    stableStringifyMembers numberText members = members.map fun m => (m.1, stableStringify numberText m.2) := by
  induction members with
  | nil => rfl
  | cons m members ih =>
    obtain ⟨key, value⟩ := m
    simp only [stableStringifyMembers, List.map_cons, ih]

/-- the members of an object in the order of its text -/
def sortKeys (members : List (String × Json)) : List (String × Json) :=
  members.insertionSort fun a b => keyLe a.1 b.1

def sortedText (member : String × Json) : List Char := memberText (member.1, stableStringify numberText member.2)

theorem stableStringify_obj : stableStringify numberText (.obj members) =
    '\x7b' :: [','].intercalate ((sortKeys members).map (sortedText numberText)) ++ ['\x7d'] := by
  have hsort := List.map_insertionSort (fun m : String × Json => (m.1, stableStringify numberText m.2)) members
    (r := fun a b => keyLe a.1 b.1) (s := fun a b => keyLe a.1 b.1) fun a _ b _ => Iff.rfl
  simp only [stableStringify, stableStringifyMembers_eq, ← hsort, List.map_map]
  rfl

variable {numberText}

theorem sortKeys_map {g : String × Json → String × Json} (hkey : ∀ m, (g m).1 = m.1) :
    sortKeys (members.map g) = (sortKeys members).map g := by
  symm
  apply List.map_insertionSort
  intro a _ b _
  rw [hkey, hkey]

/-- **Strings show.** Rewriting strings under their keys changes the text unless it changes nothing. -/
theorem stableStringify_map_inj {g : String × Json → String × Json} (hkey : ∀ m, (g m).1 = m.1)
    (hvalue : ∀ m ∈ members, g m = m ∨ ∃ s t, m.2 = .str s ∧ (g m).2 = .str t)
    (h : stableStringify numberText (.obj members) = stableStringify numberText (.obj (members.map g))) :
    members.map g = members := by
  -- a member's text is its key, and then either the same text or a string literal
  have hpieces : ∀ m ∈ members, ∀ x y : List Char,
      sortedText numberText m ++ x = sortedText numberText (g m) ++ y → g m = m ∧ x = y := by
    intro m hm x y hxy
    rcases hvalue m hm with heq | ⟨s, t, hs, ht⟩
    · rw [heq] at hxy
      exact ⟨heq, List.append_cancel_left hxy⟩
    · simp only [sortedText, memberText, hkey, hs, ht, stableStringify, List.append_assoc, List.cons_append] at hxy
      have htail := (List.cons.inj (List.append_cancel_left hxy)).2
      obtain ⟨rfl, hrest⟩ := quote_append_inj htail
      exact ⟨Prod.ext (hkey m) (ht.trans hs.symm), hrest⟩
  have hsorted : ∀ m ∈ sortKeys members, sortedText numberText m = (sortedText numberText ∘ g) m := by
    rw [stableStringify_obj, stableStringify_obj, sortKeys_map hkey, List.map_map] at h
    have hbody := (List.cons.inj h).2
    apply intercalate_inj [','] _ hbody
    intro m hm x y hxy
    obtain ⟨heq, hrest⟩ := hpieces m ((List.mem_insertionSort _).1 hm) x y hxy
    exact ⟨by rw [Function.comp_apply, heq], hrest⟩
  have hfix : ∀ m ∈ members, g m = m := by
    intro m hm
    have htext := hsorted m ((List.mem_insertionSort _).2 hm)
    exact (hpieces m hm [] [] (congrArg (· ++ []) htext)).1
  calc members.map g = members.map id := List.map_congr_left hfix
    _ = members := List.map_id members

end

end AstramemLocal.Server
