/-
Lines of a text that no JSON text has. A unit is `foreign` if no token begins with it and no number has it; a line of a
JSON text never begins with one (`jsonParse_foreignLine`, `jsonParse_of_line`), because a string holds no line break.
-/
import AstramemLocal.Core.EventLines
import AstramemLocal.Core.JsonText

namespace AstramemLocal.Core.JsonText

/-- neither white space nor the start of a token nor a part of a number -/
def foreign (u : ℕ) : Bool :=
  !isWs u && !isNumberUnit u &&
    u ∉ [quoteMark, openBrace, closeBrace, openBracket, closeBracket, comma, colonMark, 0x74, 0x66, 0x6e]

/-- behind white space the text goes on with a foreign unit -/
def AtForeign (text : JsString) : Prop := ∃ u rest, skipWs text = u :: rest ∧ foreign u = true

/-- so does what stands behind a line break -/
def ForeignLine (text : JsString) : Prop := ∃ before rest, text = before ++ JsString.newline :: rest ∧ AtForeign rest

variable {text rest x : JsString} {u : ℕ}

theorem isWs_of_foreign (h : foreign u = true) : isWs u = false := by
  simp only [foreign, Bool.and_eq_true, Bool.not_eq_true'] at h
  exact h.1.1

theorem skipWs_ws (h : isWs u = true) : skipWs (u :: text) = skipWs text := by
  rw [skipWs, List.dropWhile_cons_of_pos h]
  rfl

theorem skipWs_of_not_isWs (h : isWs u = false) : skipWs (u :: text) = u :: text := by
  rw [skipWs, List.dropWhile_cons_of_neg (by simp [h])]

theorem foreign_of_atForeign (h : AtForeign (u :: text)) (hws : isWs u = false) : foreign u = true := by
  obtain ⟨v, rest, hskip, hv⟩ := h
  rw [skipWs_of_not_isWs hws, List.cons.injEq] at hskip
  exact hskip.1 ▸ hv

theorem not_foreignLine_nil : ¬ ForeignLine [] := by
  rintro ⟨before, rest, h, -⟩
  simp at h

theorem ForeignLine.tail (h : ForeignLine (u :: text)) (hu : u ≠ JsString.newline) : ForeignLine text := by
  obtain ⟨before, rest, htext, hrest⟩ := h
  cases before with
  | nil =>
    rw [List.nil_append, List.cons.injEq] at htext
    exact absurd htext.1 hu
  | cons v before =>
    rw [List.cons_append, List.cons.injEq] at htext
    exact ⟨before, rest, htext.2, hrest⟩

theorem ForeignLine.drop (h : ForeignLine (x ++ rest)) (hx : JsString.newline ∉ x) : ForeignLine rest := by
  induction x with
  | nil => exact h
  | cons u x ih =>
    rw [List.mem_cons, not_or] at hx
    exact ih (h.tail (Ne.symm hx.1)) hx.2

/-- white space ends in front of the foreign unit at the latest -/
theorem ForeignLine.skipWs (h : ForeignLine text) : AtForeign (skipWs text) ∨ ForeignLine (JsonText.skipWs text) := by
  induction text with
  | nil => exact absurd h not_foreignLine_nil
  | cons u text ih =>
    cases hws : isWs u with
    | false =>
      rw [skipWs_of_not_isWs hws]
      exact .inr h
    | true =>
      rw [skipWs_ws hws]
      by_cases hu : u = JsString.newline
      · obtain ⟨before, rest, htext, hrest⟩ := h
        cases before with
        | nil =>
          rw [List.nil_append, List.cons.injEq] at htext
          obtain ⟨v, tail, hskip, hv⟩ := hrest
          rw [← htext.2] at hskip
          refine .inl ⟨v, tail, ?_, hv⟩
          rw [hskip, skipWs_of_not_isWs (isWs_of_foreign hv)]
        | cons v before =>
          rw [List.cons_append, List.cons.injEq] at htext
          exact ih ⟨before, rest, htext.2, hrest⟩
      · exact ih (h.tail hu)

theorem isWs_newline : isWs JsString.newline = true := by decide

theorem ne_newline (h : isWs u = false) : u ≠ JsString.newline := by
  rintro rfl
  rw [isWs_newline] at h
  cases h

/-- a token is read in front of the foreign unit -/
theorem foreignLine_of_token (h : AtForeign (u :: text) ∨ ForeignLine (u :: text)) (hws : isWs u = false)
    (hu : foreign u = false) : ForeignLine text := by
  rcases h with h | h
  · rw [foreign_of_atForeign h hws] at hu
    cases hu
  · exact h.tail (ne_newline hws)

/-- the next unit behind white space, if it is the start of a token -/
theorem foreignLine_of_next (h : ForeignLine text) (hskip : skipWs text = u :: rest) (hu : foreign u = false)
    (hws : isWs u = false) : ForeignLine rest := by
  have hnext := h.skipWs
  rw [hskip] at hnext
  exact foreignLine_of_token hnext hws hu

/-! ## The reader -/

theorem hexValue_ne_newline {n : ℕ} (h : hexValue u = some n) : u ≠ JsString.newline := by
  rintro rfl
  exact absurd h (by simp [hexValue, JsString.newline])

theorem codeValue_units {a b c d n : ℕ} (h : codeValue a b c d = some n) :
    a ≠ JsString.newline ∧ b ≠ JsString.newline ∧ c ≠ JsString.newline ∧ d ≠ JsString.newline := by
  simp only [codeValue, Option.bind_eq_bind, Option.bind_eq_some_iff] at h
  obtain ⟨a', ha, b', hb, c', hc, d', hd, -⟩ := h
  exact ⟨hexValue_ne_newline ha, hexValue_ne_newline hb, hexValue_ne_newline hc, hexValue_ne_newline hd⟩

theorem escapeValue_ne_newline {n : ℕ} (h : escapeValue u = some n) : u ≠ JsString.newline := by
  rintro rfl
  rw [show escapeValue JsString.newline = none by decide] at h
  cases h

/-- the units in front of the rest, none of them a line break -/
def Consumed (text rest : JsString) : Prop := ∃ x, text = x ++ rest ∧ JsString.newline ∉ x

theorem Consumed.front {front : JsString} (h : Consumed text rest) (hfront : JsString.newline ∉ front) :
    Consumed (front ++ text) rest := by
  obtain ⟨x, rfl, hx⟩ := h
  refine ⟨front ++ x, (List.append_assoc _ _ _).symm, ?_⟩
  rw [List.mem_append, not_or]
  exact ⟨hfront, hx⟩

theorem Consumed.foreignLine (h : Consumed text rest) (hline : ForeignLine text) : ForeignLine rest := by
  obtain ⟨x, rfl, hx⟩ := h
  exact hline.drop hx

/-- a string has no line break -/
theorem readString_consumed (text : JsString) {s rest : JsString} (h : readString text = some (s, rest)) :
    Consumed text rest := by
  fun_induction readString text generalizing s with
  | case1 | case3 | case5 | case6 | case8 | case10 => cases h
  | case2 text =>
    cases h
    exact ⟨[quoteMark], rfl, by decide⟩
  | case4 a b c d text unit hcode _ ih =>
    obtain ⟨r, hr, heq⟩ := Option.map_eq_some_iff.1 h
    cases heq
    obtain ⟨ha, hb, hc, hd⟩ := codeValue_units hcode
    refine (ih hr).front (?_ : _ ∉ [backslash, letterU, a, b, c, d])
    simp only [List.mem_cons, List.not_mem_nil, not_or]
    exact ⟨by decide, by decide, ha.symm, hb.symm, hc.symm, hd.symm, id⟩
  | case7 letter text _ unit hescape _ ih =>
    obtain ⟨r, hr, heq⟩ := Option.map_eq_some_iff.1 h
    cases heq
    refine (ih hr).front (?_ : _ ∉ [backslash, letter])
    simp only [List.mem_cons, List.not_mem_nil, not_or]
    exact ⟨by decide, (escapeValue_ne_newline hescape).symm, id⟩
  | case9 u text _ _ hraw ih =>
    obtain ⟨r, hr, heq⟩ := Option.map_eq_some_iff.1 h
    cases heq
    refine (ih hr).front (?_ : _ ∉ [u])
    rw [List.mem_singleton]
    rintro rfl
    exact absurd hraw (by decide)

section
variable {N : Type} {number : JsString → N}

theorem isNumberUnit_newline : isNumberUnit JsString.newline = false := by decide

/-- a number begins with one of its units -/
theorem numberUnit_of_isNumber (h : isNumber ((u :: text).takeWhile isNumberUnit) = true) : isNumberUnit u = true := by
  by_contra hu
  rw [List.takeWhile_cons_of_neg hu] at h
  exact isNumber_ne_nil h rfl

theorem foreign_of_numberUnit (h : isNumberUnit u = true) : foreign u = false := by simp [foreign, h]

theorem not_isWs_of_numberUnit (h : isNumberUnit u = true) : isWs u = false := by
  cases hws : isWs u with
  | false => rfl
  | true =>
    rw [isNumberUnit_of_isWs hws] at h
    cases h

/-- behind a token of fixed text -/
theorem foreignLine_of_literal {token : JsString} {first : ℕ} {others : JsString} (htoken : token = first :: others)
    (hfront : token <+: u :: text) (hfirst : foreign first = false) (hws : isWs first = false)
    (hline : JsString.newline ∉ others) (h : AtForeign (u :: text) ∨ ForeignLine (u :: text)) :
    ForeignLine ((u :: text).drop token.length) := by
  subst htoken
  obtain ⟨rest, hrest⟩ := hfront
  rw [List.cons_append, List.cons.injEq] at hrest
  obtain ⟨rfl, rfl⟩ := hrest
  have htail := foreignLine_of_token h hws hfirst
  rw [List.length_cons, List.drop_succ_cons, List.drop_left]
  exact htail.drop hline

/-- what a reader leaves behind of a text with such a line has it still -/
def Keeps {α : Type} (read : JsString → Option (α × JsString)) : Prop :=
  ∀ text r, read text = some r → AtForeign text ∨ ForeignLine text → ForeignLine r.2

variable {n : ℕ}

theorem keeps_value (hitems : Keeps (readItems number n)) (hmembers : Keeps (readMembers number n)) :
    Keeps (readValue number (n + 1)) := by
  rintro (_ | ⟨u, text⟩) r h hline
  · rw [readValue] at h
    cases h
  rw [readValue] at h
  split_ifs at h with hquote hbracket hclose hbrace hclose htrue hfalse hnull hnumber
  · subst hquote
    obtain ⟨s, hs, rfl⟩ := Option.map_eq_some_iff.1 h
    exact (readString_consumed text hs).foreignLine (foreignLine_of_token hline (by decide) (by decide))
  · subst hbracket
    cases h
    obtain ⟨rest, hrest⟩ := List.head?_eq_some_iff.1 hclose
    rw [hrest]
    exact foreignLine_of_next (foreignLine_of_token hline (by decide) (by decide)) hrest (by decide) (by decide)
  · subst hbracket
    obtain ⟨s, hs, rfl⟩ := Option.map_eq_some_iff.1 h
    exact hitems _ s hs (foreignLine_of_token hline (by decide) (by decide)).skipWs
  · subst hbrace
    cases h
    obtain ⟨rest, hrest⟩ := List.head?_eq_some_iff.1 hclose
    rw [hrest]
    exact foreignLine_of_next (foreignLine_of_token hline (by decide) (by decide)) hrest (by decide) (by decide)
  · subst hbrace
    obtain ⟨s, hs, rfl⟩ := Option.map_eq_some_iff.1 h
    exact hmembers _ s hs (foreignLine_of_token hline (by decide) (by decide)).skipWs
  · cases h
    exact foreignLine_of_literal rfl htrue (by decide) (by decide) (by decide) hline
  · cases h
    exact foreignLine_of_literal rfl hfalse (by decide) (by decide) (by decide) hline
  · cases h
    exact foreignLine_of_literal rfl hnull (by decide) (by decide) (by decide) hline
  · cases h
    have hu := numberUnit_of_isNumber hnumber
    have htext := foreignLine_of_token hline (not_isWs_of_numberUnit hu) (foreign_of_numberUnit hu)
    rw [List.dropWhile_cons_of_pos hu]
    rw [← List.takeWhile_append_dropWhile (p := isNumberUnit) (l := text)] at htext
    apply htext.drop
    intro hmem
    have hunit := List.mem_takeWhile_imp hmem
    rw [isNumberUnit_newline] at hunit
    cases hunit

theorem keeps_items (hvalue : Keeps (readValue number n)) (hitems : Keeps (readItems number n)) :
    Keeps (readItems number (n + 1)) := by
  intro text r h hline
  rw [readItems] at h
  split at h
  · cases h
  next v rest hv =>
    have hrest := hvalue text _ hv hline
    split at h
    · cases h
    next u tail hskip =>
      split_ifs at h with hcomma hclose
      · subst hcomma
        obtain ⟨s, hs, rfl⟩ := Option.map_eq_some_iff.1 h
        exact hitems _ s hs (foreignLine_of_next hrest hskip (by decide) (by decide)).skipWs
      · subst hclose
        cases h
        exact foreignLine_of_next hrest hskip (by decide) (by decide)

theorem keeps_members (hvalue : Keeps (readValue number n)) (hmembers : Keeps (readMembers number n)) :
    Keeps (readMembers number (n + 1)) := by
  rintro (_ | ⟨u, text⟩) r h hline
  · rw [readMembers] at h
    cases h
  rw [readMembers] at h
  split_ifs at h with hquote
  subst hquote
  split at h
  · cases h
  next name rest hname =>
    have hnamed := (readString_consumed text hname).foreignLine (foreignLine_of_token hline (by decide) (by decide))
    split at h
    · cases h
    next u tail hskip =>
      split_ifs at h with hcolon
      subst hcolon
      have hbefore := foreignLine_of_next hnamed hskip (by decide) (by decide)
      split at h
      · cases h
      next v rest hv =>
        have hrest := hvalue _ _ hv hbefore.skipWs
        split at h
        · cases h
        next u tail hskip =>
          split_ifs at h with hcomma hclose
          · subst hcomma
            obtain ⟨s, hs, rfl⟩ := Option.map_eq_some_iff.1 h
            exact hmembers _ s hs (foreignLine_of_next hrest hskip (by decide) (by decide)).skipWs
          · subst hclose
            cases h
            exact foreignLine_of_next hrest hskip (by decide) (by decide)

theorem keeps_readers (n : ℕ) :
    Keeps (readValue number n) ∧ Keeps (readItems number n) ∧ Keeps (readMembers number n) := by
  induction n with
  | zero => refine ⟨?_, ?_, ?_⟩ <;> exact fun text r h => by simp [readValue, readItems, readMembers] at h
  | succ n ih =>
    obtain ⟨hvalue, hitems, hmembers⟩ := ih
    exact ⟨keeps_value hitems hmembers, keeps_items hvalue hitems, keeps_members hvalue hmembers⟩

/-- **No line of a JSON text begins with a foreign unit.** -/
theorem jsonParse_foreignLine (h : AtForeign text ∨ ForeignLine text) : jsonParse number text = none := by
  have hstart : AtForeign (skipWs text) ∨ ForeignLine (skipWs text) := by
    rcases h with ⟨u, rest, hskip, hu⟩ | h
    · refine .inl ⟨u, rest, ?_, hu⟩
      rw [hskip, skipWs_of_not_isWs (isWs_of_foreign hu)]
    · exact h.skipWs
  unfold jsonParse
  split
  next v rest hread =>
    have hrest := (keeps_readers _).1 _ _ hread hstart
    rw [if_neg]
    intro hempty
    have hend := hrest.skipWs
    rw [show skipWs (v, rest).2 = [] from hempty] at hend
    rcases hend with ⟨u, tail, hnil, -⟩ | hend
    · cases hnil
    · exact not_foreignLine_nil hend
  · rfl

/-- white space of the language that JSON does not take for white space begins no token -/
theorem foreign_of_isSpace (h : JsString.isSpace u = true) (hws : isWs u = false) : foreign u = true := by
  have hlisted : ∀ v ∈ [0x9, 0xa, 0xb, 0xc, 0xd, 0x20, 0xa0, 0x1680, 0x2028, 0x2029, 0x202f, 0x205f, 0x3000, 0xfeff],
      isWs v = false → foreign v = true := by decide
  rw [JsString.isSpace, Bool.or_eq_true] at h
  rcases h with h | h
  · exact hlisted u (of_decide_eq_true h) hws
  · simp only [Bool.and_eq_true, decide_eq_true_eq] at h
    have hrange : ∀ v < 0x200b, 0x2000 ≤ v → foreign v = true := by
      intro v hv hle
      obtain ⟨k, rfl⟩ := Nat.exists_eq_add_of_le hle
      have hall : ∀ k < 11, foreign (0x2000 + k) = true := by decide
      exact hall k (by omega)
    exact hrange u (by omega) h.1

/-- a line that, trimmed, begins with a foreign unit -/
theorem atForeign_of_trim {line tail : JsString} (h : JsString.trim line = u :: tail) (hu : foreign u = true)
    (rest : JsString) : AtForeign (line ++ rest) := by
  induction line with
  | nil => cases h
  | cons v line ih =>
    cases hspace : JsString.isSpace v with
    | true =>
      cases hws : isWs v with
      | true =>
        rw [JsString.trim_cons_space hspace] at h
        obtain ⟨w, more, hskip, hw⟩ := ih h
        exact ⟨w, more, (skipWs_ws hws).trans hskip, hw⟩
      | false => exact ⟨v, line ++ rest, skipWs_of_not_isWs hws, foreign_of_isSpace hspace hws⟩
    | false =>
      obtain ⟨post, hpost⟩ := JsString.trim_parts (v :: line)
      rw [JsString.trimStart, List.dropWhile_cons_of_neg (by simp [hspace]), h, List.cons_append, List.cons.injEq] at hpost
      rw [hpost.1]
      exact ⟨u, line ++ rest, skipWs_of_not_isWs (isWs_of_foreign hu), hu⟩

/-- **A text with such a line is no JSON.** -/
theorem jsonParse_of_line {tail : JsString} (h : u :: tail ∈ JsString.trimmedLines text) (hu : foreign u = true) :
    jsonParse number text = none := by
  obtain ⟨line, hline, htrim⟩ := List.mem_map.1 h
  obtain ⟨before, after, hsplit⟩ := List.append_of_mem hline
  have htext : text = opening JsString.newline before ++ (line ++ closing JsString.newline after) := by
    rw [← intercalate_at, ← hsplit, JsString.lines, List.intercalate_splitOn]
  have hrest := atForeign_of_trim htrim hu (closing JsString.newline after)
  apply jsonParse_foreignLine
  rw [htext]
  rcases List.eq_nil_or_concat before with rfl | ⟨init, last, rfl⟩
  · exact .inl hrest
  · refine .inr ⟨opening JsString.newline init ++ last, _, ?_, hrest⟩
    simp [opening]

end

end AstramemLocal.Core.JsonText
