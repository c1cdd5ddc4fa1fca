/-
JavaScript strings: lists of UTF-16 code units, so lengths and offsets are those of the language. `indexOf` finds the
first occurrence (`indexOf_eq_some`), and `trim` cuts white space off both ends (`trim_parts`, `trim_head`).
-/
import AstramemLocal.Core.Json
import Mathlib.Data.List.DropRight
import Mathlib.Data.List.Infix

namespace AstramemLocal.Core

/-- UTF-16 code units -/
abbrev JsString := List ℕ

namespace JsString

def ofString (s : String) : JsString := codeUnits s

/-- `\s`, and what `trim` takes off -/
def isSpace (u : ℕ) : Bool :=
  u ∈ [0x9, 0xa, 0xb, 0xc, 0xd, 0x20, 0xa0, 0x1680, 0x2028, 0x2029, 0x202f, 0x205f, 0x3000, 0xfeff] ||
    (0x2000 ≤ u && u ≤ 0x200a)

/-- what `.` does not match -/
def isLineTerminator (u : ℕ) : Bool := u ∈ [0xa, 0xd, 0x2028, 0x2029]

def newline : ℕ := 0xa

def trimStart (s : JsString) : JsString := s.dropWhile isSpace

def trimEnd (s : JsString) : JsString := s.rdropWhile isSpace

def trim (s : JsString) : JsString := trimEnd (trimStart s)

/-- the offset of the first occurrence -/
def indexOf (text needle : JsString) : Option ℕ := (List.range (text.length + 1)).find? fun i => needle <+: text.drop i

/-- `text.split('\n')` -/
def lines (text : JsString) : List JsString := text.splitOn newline

/-! ## First occurrences -/

/-- `needle` occurs at `i` and nowhere before -/
def FirstAt (text needle : JsString) (i : ℕ) : Prop := needle <+: text.drop i ∧ ∀ j < i, ¬ needle <+: text.drop j

variable {text needle : JsString} {i : ℕ}

theorem end_le (hne : needle ≠ []) (h : needle <+: text.drop i) : i + needle.length ≤ text.length := by
  have hle := h.length_le
  have hpos := List.length_pos_iff.2 hne
  rw [List.length_drop] at hle
  omega

theorem slice_eq (h : needle <+: text.drop i) : needle = (text.take (i + needle.length)).drop i := by
  rw [← List.take_drop]
  exact List.prefix_iff_eq_take.1 h

theorem FirstAt.unique {j : ℕ} (hi : FirstAt text needle i) (hj : FirstAt text needle j) : i = j := by
  rcases lt_trichotomy i j with hlt | heq | hgt
  · exact absurd hi.1 (hj.2 i hlt)
  · exact heq
  · exact absurd hj.1 (hi.2 j hgt)

theorem infix_iff_drop : needle <:+: text ↔ ∃ i ≤ text.length, needle <+: text.drop i := by
  constructor
  · rintro ⟨pre, post, rfl⟩
    refine ⟨pre.length, by simp, ?_⟩
    rw [List.append_assoc, List.drop_left]
    exact List.prefix_append needle post
  · rintro ⟨i, -, h⟩
    exact h.isInfix.trans (List.drop_suffix i text).isInfix

theorem indexOf_eq_some (hne : needle ≠ []) : indexOf text needle = some i ↔ FirstAt text needle i := by
  unfold indexOf
  rw [List.find?_range_eq_some]
  constructor
  · rintro ⟨hpre, -, hfirst⟩
    exact ⟨by simpa using hpre, fun j hj => by simpa using hfirst j hj⟩
  · intro h
    have hle := end_le hne h.1
    refine ⟨by simpa using h.1, List.mem_range.2 (by omega), ?_⟩
    intro j hj
    simpa using h.2 j hj

theorem indexOf_eq_none : indexOf text needle = none ↔ ¬ needle <:+: text := by
  rw [infix_iff_drop]
  unfold indexOf
  simp only [List.find?_eq_none, List.mem_range, decide_eq_true_eq]
  constructor
  · rintro h ⟨i, hi, hpre⟩
    exact h i (by omega) hpre
  · intro h i hi hpre
    exact h ⟨i, by omega, hpre⟩

theorem exists_first (hne : needle ≠ []) (h : needle <:+: text) : ∃ i, FirstAt text needle i := by
  cases hi : indexOf text needle with
  | none => exact absurd h (indexOf_eq_none.1 hi)
  | some i => exact ⟨i, (indexOf_eq_some hne).1 hi⟩

/-! ## White space -/

theorem trim_parts (s : JsString) : ∃ post, trimStart s = trim s ++ post := by
  obtain ⟨post, hpost⟩ := List.rdropWhile_prefix (p := isSpace) (l := trimStart s)
  exact ⟨post, hpost.symm⟩

theorem trim_eq_nil {s : JsString} : trim s = [] ↔ ∀ u ∈ s, isSpace u = true := by
  unfold trim trimEnd trimStart
  rw [List.rdropWhile_eq_nil_iff]
  constructor
  · intro h u hu
    rw [← List.takeWhile_append_dropWhile (p := isSpace) (l := s), List.mem_append] at hu
    rcases hu with hu | hu
    · exact List.mem_takeWhile_imp hu
    · exact h u hu
  · intro h u hu
    exact h u ((List.dropWhile_suffix isSpace).subset hu)

theorem trim_head {s : JsString} {u : ℕ} {rest : JsString} (h : trim s = u :: rest) : isSpace u = false := by
  obtain ⟨post, hpost⟩ := trim_parts s
  rw [h, List.cons_append] at hpost
  have hhead := List.head?_dropWhile_not isSpace s
  rw [trimStart] at hpost
  rw [hpost] at hhead
  simpa using hhead

/-- a text that holds a trimmed one has something to trim to -/
theorem trim_ne_nil {s t : JsString} (hs : trim s ≠ []) (hst : trim s <:+: t) : trim t ≠ [] := by
  intro ht
  obtain ⟨u, rest, hu⟩ := List.exists_cons_of_ne_nil hs
  have hmem : u ∈ t := hst.subset (hu ▸ List.mem_cons_self)
  exact absurd (trim_eq_nil.1 ht u hmem) (by simp [trim_head hu])

theorem trim_within (s : JsString) : trim s <:+: s := by
  obtain ⟨post, hpost⟩ := trim_parts s
  have hprefix : trim s <:+: trimStart s := ⟨[], post, by rw [hpost]; simp⟩
  exact hprefix.trans (List.dropWhile_suffix isSpace).isInfix

/-- no white space at either end -/
def Tight (s : JsString) : Prop := (∀ u ∈ s.head?, isSpace u = false) ∧ ∀ u ∈ s.getLast?, isSpace u = false

theorem tight_trim (s : JsString) : Tight (trim s) := by
  constructor
  · intro u hu
    obtain ⟨rest, hrest⟩ := List.head?_eq_some_iff.1 hu
    exact trim_head hrest
  · intro u hu
    have hne : trim s ≠ [] := by
      intro hnil
      simp [hnil] at hu
    rw [List.getLast?_eq_getLast_of_ne_nil hne, Option.mem_some_iff] at hu
    have hlast := List.rdropWhile_last_not isSpace (trimStart s) hne
    rw [← hu]
    exact Bool.eq_false_iff.2 hlast

theorem trim_of_tight {s : JsString} (h : Tight s) : trim s = s := by
  have hstart : trimStart s = s := by
    cases s with
    | nil => rfl
    | cons u rest => simp [trimStart, h.1 u rfl]
  unfold trim
  rw [hstart, trimEnd, List.rdropWhile_eq_self_iff]
  intro hne
  exact Bool.eq_false_iff.1 (h.2 _ (List.getLast?_eq_getLast_of_ne_nil hne))

theorem trim_trim (s : JsString) : trim (trim s) = trim s := trim_of_tight (tight_trim s)

theorem Tight.append {s t : JsString} (hs : Tight s) (ht : Tight t) (hsn : s ≠ []) (htn : t ≠ []) (mid : JsString) :
    Tight (s ++ mid ++ t) := by
  obtain ⟨u, s, rfl⟩ := List.exists_cons_of_ne_nil hsn
  constructor
  · intro v hv
    exact hs.1 v hv
  · intro v hv
    rw [List.getLast?_append_of_ne_nil _ htn] at hv
    exact ht.2 v hv

/-- a text without white space at its front is not cut by `trimStart` -/
theorem infix_trimStart {w s : JsString} (hw : ∀ u ∈ w.head?, isSpace u = false) (hne : w ≠ []) (h : w <:+: s) :
    w <:+: trimStart s := by
  obtain ⟨pre, post, rfl⟩ := h
  obtain ⟨u, w, rfl⟩ := List.exists_cons_of_ne_nil hne
  have hu : isSpace u = false := hw u rfl
  rw [trimStart, List.append_assoc, List.dropWhile_append]
  split_ifs
  · rw [List.cons_append, List.dropWhile_cons_of_neg (by simp [hu])]
    exact ⟨[], post, rfl⟩
  · exact ⟨pre.dropWhile isSpace, post, by simp⟩

theorem infix_trim {w s : JsString} (hw : Tight w) (hne : w ≠ []) (h : w <:+: s) : w <:+: trim s := by
  have hstart := infix_trimStart hw.1 hne h
  have hback : w.reverse <:+: trimStart (trimStart s).reverse := by
    apply infix_trimStart
    · intro u hu
      rw [List.head?_reverse] at hu
      exact hw.2 u hu
    · simpa using hne
    · exact List.reverse_infix.2 hstart
  unfold trim trimEnd List.rdropWhile
  rw [← List.reverse_infix, List.reverse_reverse]
  exact hback

/-- the units that are no white space -/
def content (s : JsString) : JsString := s.filter fun u => !isSpace u

@[simp] theorem content_nil : content [] = [] := rfl

@[simp] theorem content_append (s t : JsString) : content (s ++ t) = content s ++ content t := List.filter_append _ _

theorem content_eq_nil {s : JsString} : content s = [] ↔ ∀ u ∈ s, isSpace u = true := by
  simp [content]

theorem content_of_blank {s : JsString} (h : trim s = []) : content s = [] := content_eq_nil.2 (trim_eq_nil.1 h)

theorem content_trimStart (s : JsString) : content (trimStart s) = content s := by
  have htaken : content (s.takeWhile isSpace) = [] := content_eq_nil.2 fun u hu => List.mem_takeWhile_imp hu
  calc content (trimStart s) = content (s.takeWhile isSpace) ++ content (trimStart s) := by rw [htaken, List.nil_append]
    _ = content s := by rw [← content_append, trimStart, List.takeWhile_append_dropWhile]

theorem content_reverse (s : JsString) : content s.reverse = (content s).reverse := List.filter_reverse

theorem content_trim (s : JsString) : content (trim s) = content s := by
  have hend : ∀ t : JsString, content (trimEnd t) = content t := by
    intro t
    have hstart := content_trimStart t.reverse
    rw [content_reverse] at hstart
    unfold trimEnd List.rdropWhile
    rw [content_reverse]
    unfold trimStart at hstart
    rw [hstart, List.reverse_reverse]
  rw [trim, hend, content_trimStart]

end JsString

end AstramemLocal.Core
