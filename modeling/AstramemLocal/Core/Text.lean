/-
What JavaScript's regular expressions and `trim` call white space, word characters and word boundaries, and `trim`
itself, on lists of characters.
-/
import Mathlib.Data.List.Basic
import Mathlib.Data.List.DropRight

namespace AstramemLocal.Core

/-- `\s`, and what `trim` takes off -/
def isSpace (c : Char) : Bool :=
  c.val ∈ [0x9, 0xa, 0xb, 0xc, 0xd, 0x20, 0xa0, 0x1680, 0x2028, 0x2029, 0x202f, 0x205f, 0x3000, 0xfeff] ||
    (0x2000 ≤ c.val && c.val ≤ 0x200a)

/-- `\w` -/
def isWordChar (c : Char) : Bool := c.isAlphanum || c = '_'

theorem wordChar_range {c : Char} (h : isWordChar c = true) : 48 ≤ c.toNat ∧ c.toNat ≤ 122 := by
  change (((decide ('A'.val ≤ c.val ∧ c.val ≤ 'Z'.val) || (decide ('a'.val ≤ c.val) && decide (c.val ≤ 'z'.val))) ||
    (decide ('0'.val ≤ c.val) && decide (c.val ≤ '9'.val))) || decide (c = '_')) = true at h
  simp only [Bool.or_eq_true, Bool.and_eq_true, decide_eq_true_eq, UInt32.le_iff_toNat_le] at h
  rcases h with ((h | h) | h) | rfl
  · exact ⟨le_trans (by decide) h.1, le_trans h.2 (by decide)⟩
  · exact ⟨le_trans (by decide) h.1, le_trans h.2 (by decide)⟩
  · exact ⟨le_trans (by decide) h.1, le_trans h.2 (by decide)⟩
  · decide

theorem isSpace_wordChar {c : Char} (h : isWordChar c = true) : isSpace c = false := by
  have hrange := wordChar_range h
  have hval : c.toNat = c.val.toNat := rfl
  rw [Bool.eq_false_iff]
  intro hspace
  simp only [isSpace, Bool.or_eq_true, Bool.and_eq_true, decide_eq_true_eq, List.mem_cons, List.not_mem_nil, or_false,
    ← UInt32.toNat_inj, UInt32.le_iff_toNat_le, UInt32.reduceToNat] at hspace
  omega

/-- `\b` between two neighbours -/
def wordBoundary (before after : Option Char) : Bool := before.any isWordChar != after.any isWordChar

/-- `.` -/
def isDot (c : Char) : Bool := c.val ∉ [0xa, 0xd, 0x2028, 0x2029]

/-- does `p` hold at some place of the text? It sees the character before the place and the text from there on. -/
def occurs (p : Option Char → List Char → Bool) (before : Option Char) : List Char → Bool
  | [] => p before []
  | c :: rest => p before (c :: rest) || occurs p (some c) rest

/-- a literal of lower-case letters, with the flag `i` -/
def literal (pattern : List Char) (text : List Char) : Bool := pattern.isPrefixOf (text.map Char.toLower)

/-! ## trim -/

def trimStart (cs : List Char) : List Char := cs.dropWhile isSpace

def trimEnd : List Char → List Char
  | [] => []
  | c :: cs => if isSpace c ∧ trimEnd cs = [] then [] else c :: trimEnd cs

def trim (cs : List Char) : List Char := trimEnd (trimStart cs)

theorem trimStart_space {c : Char} (hc : isSpace c = true) (cs : List Char) : trimStart (c :: cs) = trimStart cs :=
  List.dropWhile_cons_of_pos hc

theorem trimStart_word {c : Char} (hc : isSpace c = false) (cs : List Char) : trimStart (c :: cs) = c :: cs :=
  List.dropWhile_cons_of_neg (by simp [hc])

theorem trimEnd_word {c : Char} (hc : isSpace c = false) (cs : List Char) : trimEnd (c :: cs) = c :: trimEnd cs :=
  if_neg (by simp [hc])

/-- what stands before a word character is not touched -/
theorem trimEnd_append (before : List Char) {c : Char} (hc : isSpace c = false) (after : List Char) :
    trimEnd (before ++ c :: after) = before ++ c :: trimEnd after := by
  induction before with
  | nil => exact trimEnd_word hc after
  | cons b before ih =>
    rw [List.cons_append, trimEnd, ih, if_neg (by simp)]
    rfl

theorem trimStart_trimEnd (cs : List Char) : trimStart (trimEnd cs) = trimEnd (trimStart cs) := by
  induction cs with
  | nil => rfl
  | cons c cs ih =>
    cases hc : isSpace c with
    | false => rw [trimStart_word hc, trimEnd_word hc, trimStart_word hc]
    | true =>
      rw [trimStart_space hc, ← ih]
      by_cases hnil : trimEnd cs = []
      · rw [trimEnd, if_pos ⟨hc, hnil⟩, hnil]
      · rw [trimEnd, if_neg (by simp [hnil]), trimStart_space hc]

theorem trimEnd_trimEnd (cs : List Char) : trimEnd (trimEnd cs) = trimEnd cs := by
  induction cs with
  | nil => rfl
  | cons c cs ih =>
    by_cases h : isSpace c ∧ trimEnd cs = []
    · simp [trimEnd, h]
    · rw [trimEnd, if_neg h, trimEnd, ih, if_neg h]

theorem trim_trimEnd (cs : List Char) : trim (trimEnd cs) = trim cs := by
  rw [trim, trimStart_trimEnd, trimEnd_trimEnd, ← trim]

theorem trim_space {c : Char} (hc : isSpace c = true) (cs : List Char) : trim (c :: cs) = trim cs := by
  rw [trim, trimStart_space hc, ← trim]

theorem trimEnd_sublist (cs : List Char) : (trimEnd cs).Sublist cs := by
  induction cs with
  | nil => exact .slnil
  | cons c cs ih =>
    rw [trimEnd]
    split
    · exact List.nil_sublist _
    · exact ih.cons_cons c

theorem trim_sublist (cs : List Char) : (trim cs).Sublist cs :=
  (trimEnd_sublist _).trans (List.dropWhile_sublist _)

theorem trim_enclosed {a b : Char} (ha : isSpace a = false) (hb : isSpace b = false) (cs : List Char) :
    trim (a :: cs ++ [b]) = a :: cs ++ [b] := by
  rw [List.cons_append, trim, trimStart_word ha, ← List.cons_append, trimEnd_append _ hb]
  rfl

/-- a text without white space is its own trim -/
theorem trim_words {cs : List Char} (h : ∀ c ∈ cs, isSpace c = false) : trim cs = cs := by
  have hend : ∀ ds : List Char, (∀ c ∈ ds, isSpace c = false) → trimEnd ds = ds := by
    intro ds hds
    induction ds with
    | nil => rfl
    | cons d ds ih =>
      rw [trimEnd_word (hds d List.mem_cons_self), ih fun c hc => hds c (List.mem_cons_of_mem d hc)]
  cases cs with
  | nil => rfl
  | cons c cs => rw [trim, trimStart_word (h c List.mem_cons_self), hend _ h]

end AstramemLocal.Core
