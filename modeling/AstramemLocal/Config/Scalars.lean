/-
One written value and what the loader makes of it. `lineValue` is what a line `key: text` puts at its key.
- `lineValue_scalar_iff`: a scalar is read as itself if and only if it is `readable`: a number without an exponent, a
  string that is written in quotes, or a bare one that nothing is trimmed off and that is no quotation and no number.
- `lineValue_strings`: a list of strings is always read as itself.
- `scalar_uncommented`, `strings_uncommented`: no comment is found in what the writer writes.
- `parseScalar_str`: a string that is read is part of the text it is read from.
-/
import AstramemLocal.Config.Loader
import AstramemLocal.Config.Writer

namespace AstramemLocal.Config

open Core

/-- what a line `key: text` puts at its key -/
def lineValue (text : List Char) : PlainValue := if trim text = [] then .empty else parseScalar text

/-- is the scalar, written by `yamlScalar`, read as itself? -/
def Scalar.readable : Scalar → Bool
  | .num n => n.plain
  | .str s =>
    needsQuotes s.toList ||
      (trim s.toList = s.toList && !enclosed '\'' '\'' s.toList && !enclosed '"' '"' s.toList &&
        (readNumber s.toList).isNone)
  | _ => true

/-! ## Strings of the text -/

theorem undoubleQuotes_sublist (v : List Char) : (undoubleQuotes v).Sublist v := by
  fun_induction undoubleQuotes v with
  | case1 => exact .slnil
  | case2 rest ih => exact (ih.cons_cons '\'').cons '\''
  | case3 c rest _ ih => exact ih.cons_cons c

theorem unescapeDoubleQuoted_sublist (v : List Char) : (unescapeDoubleQuoted v).Sublist v := by
  fun_induction unescapeDoubleQuoted v with
  | case1 => exact .slnil
  | case2 c rest ih => exact (ih.cons_cons c).cons '\\'
  | case3 c rest _ ih => exact ih.cons_cons c

theorem undoubleQuotes_doubleQuotes (v : List Char) : undoubleQuotes (doubleQuotes v) = v := by
  induction v with
  | nil => rfl
  | cons c v ih =>
    rw [doubleQuotes, List.flatMap_cons]
    by_cases hc : c = '\''
    · subst hc
      exact congrArg ('\'' :: ·) ih
    · rw [if_neg hc, List.singleton_append, undoubleQuotes]
      · exact congrArg (c :: ·) ih
      · intro rest hrest
        exact absurd hrest hc

theorem sliceInner_sublist (v : List Char) : (sliceInner v).Sublist v :=
  (List.dropLast_sublist _).trans (List.tail_sublist _)

theorem sliceInner_length {v : List Char} (hv : v ≠ []) : (sliceInner v).length < v.length := by
  have hpos := List.length_pos_of_ne_nil hv
  simp only [sliceInner, List.length_dropLast, List.length_tail]
  omega

theorem enclosed_ne_nil {a b : Char} {v : List Char} (h : enclosed a b v = true) : v ≠ [] := by
  rintro rfl
  simp [enclosed] at h

/-- the branches of `parseScalar` that give a string -/
theorem parseScalar_str {raw : List Char} {s : String} (h : parseScalar raw = .str s) :
    (s.toList.Sublist (sliceInner (trim raw)) ∧ trim raw ≠ []) ∨
      (s.toList = trim raw ∧ enclosed '\'' '\'' (trim raw) = false ∧ enclosed '"' '"' (trim raw) = false ∧
        readNumber (trim raw) = none) := by
  rw [parseScalar] at h
  split_ifs at h with hnil hsingle hdouble htrue hfalse hnull hflow
  · left
    injection h with h
    refine ⟨?_, enclosed_ne_nil hsingle⟩
    rw [← h, String.toList_ofList]
    exact undoubleQuotes_sublist _
  · left
    injection h with h
    refine ⟨?_, enclosed_ne_nil hdouble⟩
    rw [← h, String.toList_ofList]
    exact unescapeDoubleQuoted_sublist _
  · split at h
    · cases h
    · split at h <;> cases h
  · right
    split at h
    · cases h
    · next hnumber =>
      injection h with h
      refine ⟨?_, by simpa using hsingle, by simpa using hdouble, hnumber⟩
      rw [← h, String.toList_ofList]

theorem parseScalar_trim {a b : List Char} (h : trim a = trim b) : parseScalar a = parseScalar b := by
  rw [parseScalar, parseScalar, h]

/-! ## Reading a written scalar -/

theorem lineValue_quoted (v : List Char) : lineValue ('\'' :: doubleQuotes v ++ ['\'']) = .str (String.ofList v) := by
  have htrim := trim_enclosed (a := '\'') (b := '\'') rfl rfl (doubleQuotes v)
  have henclosed : enclosed '\'' '\'' ('\'' :: doubleQuotes v ++ ['\'']) = true := by
    rw [enclosed, List.getLast?_concat]
    rfl
  have hinner : sliceInner ('\'' :: doubleQuotes v ++ ['\'']) = doubleQuotes v := by simp [sliceInner]
  have hne := enclosed_ne_nil henclosed
  rw [lineValue, htrim, if_neg hne, parseScalar, htrim, if_neg hne, if_pos henclosed, hinner, undoubleQuotes_doubleQuotes]

/-- a text that is read as `s` is `s`, and no quotation and no number -/
theorem lineValue_self {s : String} (h : lineValue s.toList = .str s) :
    trim s.toList = s.toList ∧ enclosed '\'' '\'' s.toList = false ∧ enclosed '"' '"' s.toList = false ∧
      readNumber s.toList = none := by
  unfold lineValue at h
  split_ifs at h with hnil
  · cases h
  rcases parseScalar_str h with ⟨hinner, hne⟩ | ⟨hself, hsingle, hdouble, hnumber⟩
  · have hshort := sliceInner_length hne
    have hlong := hinner.length_le
    have htrim := (trim_sublist s.toList).length_le
    omega
  · rw [← hself] at hsingle hdouble hnumber
    exact ⟨hself.symm, hsingle, hdouble, hnumber⟩

/-- what the test of `yamlScalar` lets stand bare -/
theorem bare_facts {v : List Char} (h : needsQuotes v = false) :
    v ≠ [] ∧ (∀ c ∈ v, isYamlSpecial c = false) ∧ isYamlKeyword v = false := by
  simp only [needsQuotes, Bool.or_eq_false_iff, decide_eq_false_iff_not, List.any_eq_false, Bool.not_eq_true] at h
  exact ⟨h.1.1.1, h.1.1.2, h.1.2⟩

theorem lineValue_bare {s : String} (hbare : needsQuotes s.toList = false) (htrim : trim s.toList = s.toList)
    (hsingle : enclosed '\'' '\'' s.toList = false) (hdouble : enclosed '"' '"' s.toList = false)
    (hnumber : readNumber s.toList = none) : lineValue s.toList = .str s := by
  obtain ⟨hne, hspecial, hkeyword⟩ := bare_facts hbare
  have hword : s.toList ≠ ['t', 'r', 'u', 'e'] ∧ s.toList ≠ ['f', 'a', 'l', 's', 'e'] ∧
      ¬(s.toList = ['n', 'u', 'l', 'l'] ∨ s.toList = ['~']) := by
    refine ⟨?_, ?_, ?_⟩
    · intro h
      rw [h] at hkeyword
      cases hkeyword
    · intro h
      rw [h] at hkeyword
      cases hkeyword
    · rintro (h | h) <;> · rw [h] at hkeyword; cases hkeyword
  have hflow : ¬enclosed '[' ']' s.toList = true := by
    intro h
    simp only [enclosed, Bool.and_eq_true, decide_eq_true_eq] at h
    have hbracket := hspecial '[' (List.mem_of_head? h.1)
    cases hbracket
  rw [lineValue, htrim, if_neg hne, parseScalar, htrim, if_neg hne, if_neg (by simp [hsingle]), if_neg (by simp [hdouble]),
    if_neg hword.1, if_neg hword.2.1, if_neg hword.2.2, hnumber]
  simp only [hflow]
  rw [dif_neg (by simp), String.ofList_toList]

theorem parseScalar_number {raw : List Char} {n : Number} (h : parseScalar raw = .num n) :
    readNumber (trim raw) = some n := by
  rw [parseScalar] at h
  split_ifs at h
  all_goals
    split at h
    · next m hm =>
      injection h with h
      rw [hm, h]
    · first | cases h | (split at h <;> cases h)

theorem numberChar_facts {c : Char} (h : c ∈ numberChars) :
    isSpace c = false ∧ c ≠ '\'' ∧ c ≠ '"' ∧ c ≠ '#' ∧ c ≠ '\n' := by
  have hall : numberChars.all (fun c => !isSpace c && c ≠ '\'' && c ≠ '"' && c ≠ '#' && c ≠ '\n') = true := by decide
  have hc := List.all_eq_true.1 hall c h
  simp only [Bool.and_eq_true, Bool.not_eq_true', decide_eq_true_eq] at hc
  exact ⟨hc.1.1.1.1, hc.1.1.1.2, hc.1.1.2, hc.1.2, hc.2⟩

theorem trim_number (n : Number) : trim n.text = n.text :=
  trim_words fun c hc => (numberChar_facts (n.text_chars c hc)).1

theorem lineValue_number_iff (n : Number) : lineValue n.text = .num n ↔ n.plain = true := by
  rw [lineValue, trim_number, if_neg n.text_ne_nil]
  constructor
  · intro h
    have hread := parseScalar_number h
    rw [trim_number] at hread
    cases hplain : n.plain with
    | true => rfl
    | false =>
      rw [readNumber_eq_none hplain] at hread
      cases hread
  · intro hplain
    have hread := readNumber_text hplain
    have hword : ∀ v : List Char, readNumber v = none → n.text ≠ v := by
      intro v hv h
      rw [h, hv] at hread
      cases hread
    have hquote : ∀ q : Char, (q = '\'' ∨ q = '"') → enclosed q q n.text = false := by
      intro q hq
      cases hhead : n.text.head? with
      | none => simp [enclosed, hhead]
      | some c =>
        have hc := numberChar_facts (n.text_chars c (List.mem_of_head? hhead))
        rcases hq with rfl | rfl
        · simp [enclosed, hhead, hc.2.1]
        · simp [enclosed, hhead, hc.2.2.1]
    rw [parseScalar, trim_number, if_neg n.text_ne_nil, if_neg (by simp [hquote]), if_neg (by simp [hquote]),
      if_neg (hword _ (by decide)), if_neg (hword _ (by decide)),
      if_neg (not_or.2 ⟨hword _ (by decide), hword _ (by decide)⟩), hread]

theorem lineValue_null : lineValue (yamlScalar .null) = .null := by
  rw [lineValue, parseScalar]
  rfl

theorem lineValue_bool (b : Bool) : lineValue (yamlScalar (.bool b)) = .bool b := by
  cases b <;> · rw [lineValue, parseScalar]; rfl

/-- **What a scalar is read as.** The loader gives a scalar back if and only if it is readable. -/
theorem lineValue_scalar_iff (v : Scalar) : lineValue (yamlScalar v) = v.value ↔ v.readable = true := by
  cases v with
  | null => exact iff_of_true lineValue_null rfl
  | bool b => exact iff_of_true (lineValue_bool b) rfl
  | num n => exact lineValue_number_iff n
  | str s =>
    simp only [yamlScalar, Scalar.value, Scalar.readable, Bool.or_eq_true, Bool.and_eq_true, decide_eq_true_eq,
      Bool.not_eq_true', Option.isNone_iff_eq_none]
    cases hquotes : needsQuotes s.toList with
    | true =>
      rw [if_pos rfl, lineValue_quoted, String.ofList_toList]
      exact iff_of_true rfl (Or.inl rfl)
    | false =>
      rw [if_neg (by simp)]
      constructor
      · intro h
        obtain ⟨htrim, hsingle, hdouble, hnumber⟩ := lineValue_self h
        exact Or.inr ⟨⟨⟨htrim, hsingle⟩, hdouble⟩, hnumber⟩
      · intro h
        obtain ⟨⟨⟨htrim, hsingle⟩, hdouble⟩, hnumber⟩ := h.resolve_left (by simp)
        exact lineValue_bare hquotes htrim hsingle hdouble hnumber

/-- a list of strings is read as itself -/
theorem lineValue_strings (ss : List String) : lineValue (stringifyStrings ss) = .arr (ss.map .str) := by
  have htrim : trim (stringifyStrings ss) = stringifyStrings ss := trim_enclosed rfl rfl _
  have hflow : enclosed '[' ']' (stringifyStrings ss) = true := by
    rw [enclosed, stringifyStrings, List.getLast?_concat]
    rfl
  have hne := enclosed_ne_nil hflow
  have hquote : ∀ q : Char, q ≠ '[' → enclosed q q (stringifyStrings ss) = false := by
    intro q hq
    simp [enclosed, stringifyStrings, hq.symm]
  have hword : ∀ v : List Char, v.head? ≠ some '[' → stringifyStrings ss ≠ v := by
    rintro v hv rfl
    exact hv rfl
  have hnumber : readNumber (stringifyStrings ss) = none := rfl
  rw [lineValue, htrim, if_neg hne, parseScalar, htrim, if_neg hne, if_neg (by simp [hquote]), if_neg (by simp [hquote]),
    if_neg (hword _ (by decide)), if_neg (hword _ (by decide)),
    if_neg (not_or.2 ⟨hword _ (by decide), hword _ (by decide)⟩), hnumber]
  simp only [hflow, dite_true, jsonParse_strings]

/-! ## No comment -/

/-- is the whole text kept as the value of a line? -/
def Uncommented (text : List Char) : Prop := stripValue {} ':' (' ' :: text) = ' ' :: text

theorem stripValue_no_hash (s : Scan) (before : Char) (text : List Char) (h : '#' ∉ text) :
    stripValue s before text = text := by
  fun_induction stripValue s before text <;> simp_all

/-- inside quotes every other character is kept -/
theorem stripValue_single {s : Scan} (hs : s.inSingle = true) {c : Char} (hc : c ≠ '\'') (before : Char) (rest : List Char) :
    stripValue s before (c :: rest) = c :: stripValue s c rest := by
  rw [stripValue.eq_def]
  simp [hs, hc]

theorem stripValue_quoted {s : Scan} (hs : s.inSingle = true) (before : Char) (v : List Char) :
    stripValue s before (doubleQuotes v ++ ['\'']) = doubleQuotes v ++ ['\''] := by
  induction v generalizing before with
  | nil => simp [doubleQuotes, stripValue, hs]
  | cons c v ih =>
    simp only [doubleQuotes] at ih
    by_cases hc : c = '\''
    · subst hc
      simp [doubleQuotes, stripValue, hs, ih]
    · rw [doubleQuotes, List.flatMap_cons, if_neg hc, List.singleton_append, List.cons_append, stripValue_single hs hc, ih]

theorem stripValue_space {s : Scan} (hs : s.inSingle = false) (hd : s.inDouble = false) (before : Char) (rest : List Char) :
    stripValue s before (' ' :: rest) = ' ' :: stripValue s ' ' rest := by
  have hspace : isSpace ' ' = true := rfl
  rw [stripValue.eq_def]
  simp [hs, hd, hspace]

theorem stripValue_open_single {s : Scan} (hs : s.inSingle = false) (hd : s.inDouble = false) (hstart : s.atValueStart = true)
    (before : Char) (rest : List Char) :
    stripValue s before ('\'' :: rest) = '\'' :: stripValue { s with inSingle := true } '\'' rest := by
  have hspace : isSpace '\'' = false := rfl
  rw [stripValue.eq_def]
  simp [hs, hd, hspace, hstart]

theorem stripValue_open_double {s : Scan} (hs : s.inSingle = false) (hd : s.inDouble = false) (hstart : s.atValueStart = true)
    (before : Char) (rest : List Char) :
    stripValue s before ('"' :: rest) = '"' :: stripValue { s with inDouble := true } '"' rest := by
  have hspace : isSpace '"' = false := rfl
  rw [stripValue.eq_def]
  simp [hs, hd, hspace, hstart]

theorem scalar_uncommented (v : Scalar) : Uncommented (yamlScalar v) := by
  have hplain : ∀ text : List Char, '#' ∉ text → Uncommented text := by
    intro text h
    apply stripValue_no_hash
    intro hmem
    rcases List.mem_cons.1 hmem with hspace | hmem
    · cases hspace
    · exact h hmem
  cases v with
  | null => exact hplain _ (by decide)
  | bool b => cases b <;> exact hplain _ (by decide)
  | num n => exact hplain _ fun hmem => (numberChar_facts (n.text_chars _ hmem)).2.2.2.1 rfl
  | str s =>
    rw [yamlScalar]
    cases hquotes : needsQuotes s.toList with
    | true =>
      rw [if_pos rfl, Uncommented, List.cons_append, stripValue_space rfl rfl, stripValue_open_single rfl rfl rfl,
        stripValue_quoted rfl]
    | false =>
      rw [if_neg (by simp)]
      apply hplain
      intro hmem
      have hspecial := (bare_facts hquotes).2.1 _ hmem
      cases hspecial

theorem stripValue_double {s : Scan} (hs : s.inSingle = false) (hd : s.inDouble = true) {c : Char} (hc : c ≠ '"')
    (hb : c ≠ '\\') (before : Char) (rest : List Char) :
    stripValue s before (c :: rest) = c :: stripValue s c rest := by
  rw [stripValue.eq_def]
  simp [hs, hd, hc, hb]

theorem hexDigit_plain (n : ℕ) (hn : n < 16) : hexDigit n ≠ '"' ∧ hexDigit n ≠ '\\' := by
  have hall : ∀ m : Fin 16, hexDigit m ≠ '"' ∧ hexDigit m ≠ '\\' := by decide
  exact hall ⟨n, hn⟩

/-- an escaped character does not end the quotation -/
theorem stripValue_escapeChar {s : Scan} (hs : s.inSingle = false) (hd : s.inDouble = true) (c : Char) {rest : List Char}
    (hrest : ∀ before, stripValue s before rest = rest) (before : Char) :
    stripValue s before (escapeChar c ++ rest) = escapeChar c ++ rest := by
  unfold escapeChar escapeCode
  split_ifs with h₁ h₂ h₃ h₄ h₅ h₆ h₇ h₈
  iterate 7
    · rw [stripValue.eq_def]
      simp [hs, hd, hrest]
  · have hhex₁ := hexDigit_plain (c.toNat / 16) (by omega)
    have hhex₂ := hexDigit_plain (c.toNat % 16) (by omega)
    rw [stripValue.eq_def]
    simp [hs, hd, hrest, stripValue_double hs hd, hhex₁, hhex₂]
  · simp [stripValue_double hs hd h₁ h₂, hrest]

/-- where the scan stands before an entry of a flow sequence, and after it -/
def entryStart : Scan := { bracketDepth := 1 }

def entryEnd : Scan := { bracketDepth := 1, atValueStart := false }

theorem stripValue_quote (s : String) {rest : List Char} (hrest : ∀ before, stripValue entryEnd before rest = rest)
    (before : Char) : stripValue entryStart before (quote s ++ rest) = quote s ++ rest := by
  have hchars : ∀ (cs : List Char) (before : Char),
      stripValue { entryStart with inDouble := true } before (cs.flatMap escapeChar ++ '"' :: rest)
        = cs.flatMap escapeChar ++ '"' :: rest := by
    intro cs
    induction cs with
    | nil =>
      intro before
      rw [List.flatMap_nil, List.nil_append, stripValue.eq_def]
      simpa [entryStart, entryEnd] using hrest '"'
    | cons c cs ih =>
      intro before
      rw [List.flatMap_cons, List.append_assoc]
      exact stripValue_escapeChar rfl rfl c ih before
  rw [quote_append, stripValue_open_double rfl rfl rfl, hchars]

theorem stripValue_quotes (s : String) (ss : List String) (before : Char) :
    stripValue entryStart before ([','].intercalate ((s :: ss).map quote) ++ [']'])
      = [','].intercalate ((s :: ss).map quote) ++ [']'] := by
  induction ss generalizing s before with
  | nil =>
    rw [List.map_singleton, List.intercalate_singleton]
    apply stripValue_quote
    intro before
    rfl
  | cons t ss ih =>
    rw [List.map_cons, List.map_cons, List.intercalate_cons_cons, ← List.map_cons, List.append_assoc, List.append_assoc]
    apply stripValue_quote
    intro before
    rw [List.singleton_append, stripValue.eq_def]
    simpa [entryEnd, entryStart, isSpace] using ih t ','

theorem strings_uncommented (ss : List String) (hss : ss ≠ []) : Uncommented (stringifyStrings ss) := by
  obtain ⟨s, ss, rfl⟩ := List.exists_cons_of_ne_nil hss
  have hbracket : ∀ rest : List Char, stripValue {} ' ' ('[' :: rest) = '[' :: stripValue entryStart '[' rest := by
    intro rest
    rw [stripValue.eq_def]
    simp [isSpace, entryStart]
  rw [Uncommented, stripValue_space rfl rfl, stringifyStrings, List.cons_append, hbracket, stripValue_quotes]

end AstramemLocal.Config
