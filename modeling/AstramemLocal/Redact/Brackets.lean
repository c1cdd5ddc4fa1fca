/-
The texts `[REDACTED:...]`, whoever wrote them. The ranges a stage protects cover exactly these (`overlapsAny_iff`), and
every placeholder the redactor writes is one (`spanPlaceholder_eq`).
-/
import AstramemLocal.Redact.RedactText

namespace AstramemLocal.Redact

open Core Core.Re

variable {text : JsString} {i j : ℕ} {content : JsString}

def bracketText (content : JsString) : JsString := JsString.ofString "[REDACTED:" ++ content ++ JsString.ofString "]"

/-- `[^\]]+` -/
def IsContent (content : JsString) : Prop := content ≠ [] ∧ 0x5d ∉ content

/-- a bracketed text begins at `i` -/
def BracketAt (text : JsString) (i : ℕ) (content : JsString) : Prop :=
  IsContent content ∧ bracketText content <+: text.drop i

theorem length_bracketText (content : JsString) : (bracketText content).length = content.length + 11 := by
  have hhead : (JsString.ofString "[REDACTED:").length = 10 := by decide
  have htail : (JsString.ofString "]").length = 1 := by decide
  rw [bracketText, List.length_append, List.length_append, hhead, htail]
  omega

/-- a class without a character, with the caret, takes texts without it -/
theorem forall_notCls {u : ℕ} : (∀ v ∈ content, inClass false true (· = u) v = true) ↔ u ∉ content := by
  simp only [inClass, Bool.false_and, Bool.or_false]
  constructor
  · intro h hmem
    simpa using h u hmem
  · intro h v hv
    have hne : v ≠ u := fun heq => h (heq ▸ hv)
    simp [hne]

theorem ends_bracketed (x : State text) : Ends false bracketed x j ↔
    ∃ content, BracketAt text x.pos content ∧ j = x.pos + (bracketText content).length := by
  have hclose : Ends false bracketed x j ↔
      ∃ k, Ends false (lit "[REDACTED:" ++ plus (notCls (· = 0x5d))) x k ∧
        JsString.ofString "]" <+: text.drop k ∧ j = k + (JsString.ofString "]").length :=
    ends_seq (P := fun k j => JsString.ofString "]" <+: text.drop k ∧ j = k + (JsString.ofString "]").length)
      fun y _ => ends_units _ y
  have hcontent : ∀ k, Ends false (lit "[REDACTED:" ++ plus (notCls (· = 0x5d))) x k ↔
      ∃ k', Ends false (lit "[REDACTED:") x k' ∧ ∃ content : JsString, content ≠ [] ∧ content <+: text.drop k' ∧
        (∀ u ∈ content, inClass false true (· = 0x5d) u = true) ∧ k = k' + content.length :=
    fun k => ends_seq (P := fun k' k => ∃ content : JsString, content ≠ [] ∧ content <+: text.drop k' ∧
      (∀ u ∈ content, inClass false true (· = 0x5d) u = true) ∧ k = k' + content.length) fun y _ => ends_plus
  have hopen : ∀ k, Ends false (lit "[REDACTED:") x k ↔
      JsString.ofString "[REDACTED:" <+: text.drop x.pos ∧ k = x.pos + (JsString.ofString "[REDACTED:").length :=
    fun k => ends_units _ x
  simp only [hclose, hcontent, hopen, forall_notCls]
  constructor
  · rintro ⟨k, ⟨k', ⟨hhead, rfl⟩, content, hne, hpre, hclean, rfl⟩, htail, rfl⟩
    refine ⟨content, ⟨⟨hne, hclean⟩, ?_⟩, ?_⟩
    · rw [bracketText, append_prefix_drop, append_prefix_drop, List.length_append, ← Nat.add_assoc]
      exact ⟨⟨hhead, hpre⟩, htail⟩
    · simp only [bracketText, List.length_append]
      omega
  · rintro ⟨content, ⟨⟨hne, hclean⟩, hpre⟩, rfl⟩
    rw [bracketText, append_prefix_drop, append_prefix_drop, List.length_append, ← Nat.add_assoc] at hpre
    refine ⟨_, ⟨_, ⟨hpre.1.1, rfl⟩, content, hne, hpre.1.2, hclean, rfl⟩, hpre.2, ?_⟩
    simp only [bracketText, List.length_append]
    omega

theorem matchesAt_bracketed :
    MatchesAt false bracketed text i j ↔ ∃ content, BracketAt text i content ∧ j = i + (bracketText content).length := by
  constructor
  · rintro ⟨h, hends⟩
    exact (ends_bracketed (.initial i h)).1 hends
  · rintro ⟨content, hc, rfl⟩
    have hlen := hc.2.length_le
    rw [length_bracketText, List.length_drop] at hlen
    have hi : i ≤ text.length := by omega
    exact ⟨hi, (ends_bracketed (.initial i hi)).2 ⟨content, hc, rfl⟩⟩

/-- the only closing bracket of a bracketed text is its last character -/
theorem BracketAt.closes_iff (h : BracketAt text i content) (hi : i ≤ j)
    (hj : j < i + (bracketText content).length) :
    text[j]? = some 0x5d ↔ j + 1 = i + (bracketText content).length := by
  have hget : text[j]? = (bracketText content)[j - i]? := by
    obtain ⟨rest, hrest⟩ := h.2
    have hdrop : (text.drop i)[j - i]? = text[j]? := by
      rw [List.getElem?_drop]
      congr 1
      omega
    rw [← hdrop, ← hrest, List.getElem?_append_left (by omega)]
  have hhead : (0x5d : ℕ) ∉ JsString.ofString "[REDACTED:" := by decide
  have hclean : (0x5d : ℕ) ∉ JsString.ofString "[REDACTED:" ++ content := by
    rw [List.mem_append, not_or]
    exact ⟨hhead, h.1.2⟩
  have hlen := length_bracketText content
  have hinit : (JsString.ofString "[REDACTED:" ++ content).length + 1 = (bracketText content).length := by
    exact (@List.length_append _ (JsString.ofString "[REDACTED:" ++ content) (JsString.ofString "]")).symm
  rw [hget]
  constructor
  · intro hclose
    by_contra hne
    rw [bracketText] at hclose
    rw [List.getElem?_append_left (by omega)] at hclose
    exact hclean (List.mem_of_getElem? hclose)
  · intro hlast
    rw [bracketText, List.getElem?_append_right (by omega), show j - i - (JsString.ofString "[REDACTED:" ++ content).length = 0 by omega]
    rfl

/-- bracketed texts do not overlap in part: one that begins inside another ends with it -/
theorem BracketAt.nested {content' : JsString} (h : BracketAt text i content) (h' : BracketAt text j content') (hij : i ≤ j)
    (hj : j < i + (bracketText content).length) :
    j + (bracketText content').length ≤ i + (bracketText content).length := by
  have hlen := length_bracketText content
  have hlast := (h.closes_iff (j := i + (bracketText content).length - 1) (by omega) (by omega)).2 (by omega)
  by_contra hlt
  have hend := (h'.closes_iff (by omega) (by omega)).1 hlast
  omega

theorem protectedRanges_within {content : JsString} (h : BracketAt text i content) :
    ∃ r ∈ protectedRanges text, r.1 ≤ i ∧ i + (bracketText content).length ≤ r.2 := by
  have hmatch := matchesAt_bracketed.2 ⟨content, h, rfl⟩
  obtain ⟨m, hm, hwithin⟩ := within_match
    (fun i j hij => by
      obtain ⟨content, -, rfl⟩ := matchesAt_bracketed.1 hij
      have hlen := length_bracketText content
      omega)
    (fun i j k l hij hkl hik hkj => by
      obtain ⟨content, hc, rfl⟩ := matchesAt_bracketed.1 hij
      obtain ⟨content', hc', rfl⟩ := matchesAt_bracketed.1 hkl
      exact hc.nested hc' hik hkj)
    (show text.length < 0 + (text.length + 1) by omega) (Nat.zero_le i) hmatch
  exact ⟨_, List.mem_map_of_mem hm, hwithin⟩

/-- a stage protects what overlaps a bracketed text -/
theorem overlapsAny_iff {start stop : ℕ} : overlapsAny start stop (protectedRanges text) = true ↔
    ∃ i content, BracketAt text i content ∧ start < i + (bracketText content).length ∧ i < stop := by
  unfold overlapsAny
  rw [List.any_eq_true]
  constructor
  · rintro ⟨r, hr, hover⟩
    obtain ⟨m, hm, rfl⟩ := List.mem_map.1 hr
    obtain ⟨content, hc, hstop⟩ := matchesAt_bracketed.1 (mem_matchesFrom hm)
    rw [Bool.and_eq_true, decide_eq_true_eq, decide_eq_true_eq, hstop] at hover
    exact ⟨m.start, content, hc, hover⟩
  · rintro ⟨i, content, hc, hstart, hstop⟩
    obtain ⟨r, hr, hle, hge⟩ := protectedRanges_within hc
    refine ⟨r, hr, ?_⟩
    rw [Bool.and_eq_true, decide_eq_true_eq, decide_eq_true_eq]
    exact ⟨by omega, by omega⟩

/-- what stands between the brackets of a placeholder -/
def placeholderContent (hash8 : Hash8) (s : Span text) : JsString :=
  JsString.ofString s.type.name ++ JsString.ofString ":" ++ hash8.digest s.value

theorem spanPlaceholder_eq (hash8 : Hash8) (s : Span text) :
    spanPlaceholder hash8 s = bracketText (placeholderContent hash8 s) := by
  simp [spanPlaceholder, placeholder, bracketText, placeholderContent]

theorem placeholderContent_isContent (hash8 : Hash8) (s : Span text) : IsContent (placeholderContent hash8 s) := by
  have hname : ∀ type : SecretType, JsString.ofString type.name ≠ [] ∧ 0x5d ∉ JsString.ofString type.name := by
    intro type
    cases type <;> decide
  have hcolon : (0x5d : ℕ) ∉ JsString.ofString ":" := by decide
  constructor
  · simp [placeholderContent, (hname s.type).1]
  · simp only [placeholderContent, List.mem_append, not_or]
    refine ⟨⟨(hname s.type).2, hcolon⟩, ?_⟩
    intro hmem
    exact absurd (hash8.hex s.value _ hmem) (by decide)

end AstramemLocal.Redact
