/-
The string literal that JSON.stringify writes, in UTF-16: quotation marks, backslashes and control characters are escaped,
and so is a surrogate without its other half. The literal is one of the grammar, and reads as the string
(`exists_pieces`). On the units of a string of characters it is the literal of these characters (`quoteString_codeUnits`).
-/
import AstramemLocal.Core.JsonText
import AstramemLocal.Core.Utf16

namespace AstramemLocal.Core.JsonText

/-! ## The literal -/

/-- the letter of a short escape -/
def escapeLetter (u : ℕ) : Option ℕ :=
  ([(0x22, 0x22), (0x5c, 0x5c), (0x8, 0x62), (0x9, 0x74), (0xa, 0x6e), (0xc, 0x66), (0xd, 0x72)].find?
    fun e => e.1 = u).map Prod.snd

def hexUnit (n : ℕ) : ℕ := if n < 10 then 0x30 + n else 0x57 + n

/-- `\u` and four digits -/
def unicodeEscape (u : ℕ) : JsString :=
  [backslash, letterU, hexUnit (u / 0x1000), hexUnit (u / 0x100 % 16), hexUnit (u / 0x10 % 16), hexUnit (u % 16)]

/-- a unit that is no half of a pair -/
def quoteUnit (u : ℕ) : JsString :=
  match escapeLetter u with
  | some letter => [backslash, letter]
  | none => if u < 0x20 || isHighSurrogate u || isLowSurrogate u then unicodeEscape u else [u]

def quoteUnits : JsString → JsString
  | [] => []
  | [u] => quoteUnit u
  | u :: v :: rest =>
    if isHighSurrogate u && isLowSurrogate v then u :: v :: quoteUnits rest else quoteUnit u ++ quoteUnits (v :: rest)

/-- `JSON.stringify(s)` -/
def quoteString (s : JsString) : JsString := quoteMark :: quoteUnits s ++ [quoteMark]

/-! ## What it reads as -/

theorem hexValue_hexUnit {n : ℕ} (h : n < 16) : hexValue (hexUnit n) = some n := by
  have hall : ∀ m : Fin 16, hexValue (hexUnit m) = some m.val := by decide
  exact hall ⟨n, h⟩

theorem codeValue_hexUnits {u : ℕ} (h : u < 0x10000) :
    codeValue (hexUnit (u / 0x1000)) (hexUnit (u / 0x100 % 16)) (hexUnit (u / 0x10 % 16)) (hexUnit (u % 16)) = some u := by
  unfold codeValue
  rw [hexValue_hexUnit (by omega), hexValue_hexUnit (by omega), hexValue_hexUnit (by omega), hexValue_hexUnit (by omega)]
  have hsum : ((u / 0x1000 * 16 + u / 0x100 % 16) * 16 + u / 0x10 % 16) * 16 + u % 16 = u := by omega
  exact congrArg some hsum

theorem escapeLetter_cases {u letter : ℕ} (h : escapeLetter u = some letter) : escapeValue letter = some u := by
  obtain ⟨e, hfind, rfl⟩ := Option.map_eq_some_iff.1 h
  have hmem := List.mem_of_find?_eq_some hfind
  have hu : e.1 = u := by simpa using List.find?_some hfind
  have hall : ∀ e ∈ [(0x22, 0x22), (0x5c, 0x5c), (0x8, 0x62), (0x9, 0x74), (0xa, 0x6e), (0xc, 0x66), (0xd, 0x72)],
      escapeValue e.2 = some e.1 := by decide
  rw [← hu]
  exact hall e hmem

theorem isRaw_of_plain {u : ℕ} (hletter : escapeLetter u = none) (hu : 0x20 ≤ u) : isRaw u = true := by
  simp only [escapeLetter, Option.map_eq_none_iff, List.find?_eq_none] at hletter
  have hquote := hletter (0x22, 0x22) (by decide)
  have hback := hletter (0x5c, 0x5c) (by decide)
  simp only [decide_eq_true_eq] at hquote hback
  simp [isRaw, hu, quoteMark, backslash, Ne.symm hquote, Ne.symm hback]

theorem isRaw_of_surrogate {u : ℕ} (h : (isHighSurrogate u || isLowSurrogate u) = true) : isRaw u = true := by
  simp only [isHighSurrogate, isLowSurrogate, Bool.or_eq_true, Bool.and_eq_true, decide_eq_true_eq] at h
  have hquote : u ≠ quoteMark := by unfold quoteMark; omega
  have hback : u ≠ backslash := by unfold backslash; omega
  have hcontrol : 0x20 ≤ u := by omega
  simp [isRaw, hquote, hback, hcontrol]

theorem exists_piece (u : ℕ) : ∃ p : Piece, p.text = quoteUnit u ∧ p.unit = u := by
  unfold quoteUnit
  split
  next letter hletter => exact ⟨.escape letter u (escapeLetter_cases hletter), rfl, rfl⟩
  next hletter =>
    split_ifs with hcode
    · have hu : u < 0x10000 := by
        simp only [isHighSurrogate, isLowSurrogate, Bool.or_eq_true, Bool.and_eq_true, decide_eq_true_eq] at hcode
        omega
      exact ⟨.code _ _ _ _ u (codeValue_hexUnits hu), rfl, rfl⟩
    · have hplain : 0x20 ≤ u := by
        simp only [Bool.or_eq_true, decide_eq_true_eq, not_or] at hcode
        omega
      exact ⟨.raw u (isRaw_of_plain hletter hplain), rfl, rfl⟩

/-- **The literal reads as the string.** -/
theorem exists_pieces (s : JsString) : ∃ pieces, spelling pieces = quoteUnits s ∧ decode pieces = s := by
  fun_induction quoteUnits s with
  | case1 => exact ⟨[], rfl, rfl⟩
  | case2 u =>
    obtain ⟨p, htext, hunit⟩ := exists_piece u
    exact ⟨[p], by simp [spelling, htext], by simp [decode, hunit]⟩
  | case3 u v rest hpair ih =>
    obtain ⟨pieces, hspelling, hdecode⟩ := ih
    rw [Bool.and_eq_true] at hpair
    have hu : isRaw u = true := isRaw_of_surrogate (by rw [hpair.1, Bool.true_or])
    have hv : isRaw v = true := isRaw_of_surrogate (by rw [hpair.2, Bool.or_true])
    refine ⟨.raw u hu :: .raw v hv :: pieces, ?_, ?_⟩
    · rw [← hspelling]
      rfl
    · rw [← hdecode]
      rfl
  | case4 u v rest hpair ih =>
    obtain ⟨pieces, hspelling, hdecode⟩ := ih
    obtain ⟨p, htext, hunit⟩ := exists_piece u
    refine ⟨p :: pieces, ?_, ?_⟩
    · rw [← hspelling, ← htext]
      rfl
    · rw [← hdecode]
      exact congrArg (· :: decode pieces) hunit

/-! ## Strings of characters -/

theorem quoteUnits_unit {u : ℕ} (hhigh : isHighSurrogate u = false) (rest : JsString) :
    quoteUnits (u :: rest) = quoteUnit u ++ quoteUnits rest := by
  cases rest with
  | nil => simp [quoteUnits]
  | cons v rest => simp [quoteUnits, hhigh]

theorem quoteUnit_plain {u : ℕ} (hu : 0x80 ≤ u) (hhigh : isHighSurrogate u = false) (hlow : isLowSurrogate u = false) :
    quoteUnit u = [u] := by
  have hletter : escapeLetter u = none := by
    simp only [escapeLetter, Option.map_eq_none_iff, List.find?_eq_none]
    intro e he
    have hall : ∀ e ∈ [(0x22, 0x22), (0x5c, 0x5c), (0x8, 0x62), (0x9, 0x74), (0xa, 0x6e), (0xc, 0x66), (0xd, 0x72)],
        e.1 < 0x80 := by decide
    have hlt := hall e he
    simp only [decide_eq_true_eq]
    omega
  have hcontrol : decide (u < 0x20) = false := decide_eq_false (by omega)
  simp [quoteUnit, hletter, hcontrol, hhigh, hlow]

theorem escapeChar_plain {c : Char} (hc : 0x80 ≤ c.toNat) : escapeChar c = [c] := by
  have hne : ∀ d : Char, d.toNat < 0x80 → c ≠ d := by
    rintro d hd rfl
    omega
  have hcode : escapeCode c = none := by
    unfold escapeCode
    rw [if_neg (hne _ (by decide)), if_neg (hne _ (by decide)), if_neg (hne _ (by decide)), if_neg (hne _ (by decide)),
      if_neg (hne _ (by decide)), if_neg (hne _ (by decide)), if_neg (hne _ (by decide)), if_neg (by omega)]
  rw [escapeChar, hcode]

theorem quoteUnit_ascii {c : Char} (hc : c.toNat < 0x80) : quoteUnit c.toNat = (escapeChar c).flatMap charUnits := by
  have hall : ∀ n : Fin 0x80, quoteUnit n = (escapeChar (Char.ofNat n)).flatMap charUnits := by decide +kernel
  have hthis := hall ⟨c.toNat, hc⟩
  rwa [Char.ofNat_toNat] at hthis

/-- characters are whole: their units are no surrogate, or both halves of a pair -/
theorem quoteUnits_char (c : Char) (rest : JsString) :
    quoteUnits (charUnits c ++ rest) = (escapeChar c).flatMap charUnits ++ quoteUnits rest := by
  have hrange := char_range c
  by_cases hascii : c.toNat < 0x80
  · have hunits : charUnits c = [c.toNat] := if_pos (by omega)
    have hhigh : isHighSurrogate c.toNat = false := by simp [isHighSurrogate]; omega
    rw [hunits, List.singleton_append, quoteUnits_unit hhigh, quoteUnit_ascii hascii]
  rw [escapeChar_plain (by omega), List.flatMap_singleton]
  by_cases hunit : c.toNat < 0x10000
  · have hunits : charUnits c = [c.toNat] := if_pos hunit
    have hhigh : isHighSurrogate c.toNat = false := by simp [isHighSurrogate]; omega
    have hlow : isLowSurrogate c.toNat = false := by simp [isLowSurrogate]; omega
    rw [hunits, List.singleton_append, quoteUnits_unit hhigh, quoteUnit_plain (by omega) hhigh hlow]
  · have hunits : charUnits c = [0xd800 + (c.toNat - 0x10000) / 0x400, 0xdc00 + (c.toNat - 0x10000) % 0x400] := if_neg hunit
    have hpair : (isHighSurrogate (0xd800 + (c.toNat - 0x10000) / 0x400) &&
        isLowSurrogate (0xdc00 + (c.toNat - 0x10000) % 0x400)) = true := by
      simp only [isHighSurrogate, isLowSurrogate, Bool.and_eq_true, decide_eq_true_eq]
      omega
    rw [hunits, List.cons_append, List.singleton_append, quoteUnits, if_pos hpair]
    rfl

/-- the same literal, in units -/
theorem quoteString_codeUnits (s : String) : quoteString (codeUnits s) = (quote s).flatMap charUnits := by
  have hchars : ∀ cs : List Char, quoteUnits (cs.flatMap charUnits) = (cs.flatMap escapeChar).flatMap charUnits := by
    intro cs
    induction cs with
    | nil => rfl
    | cons c cs ih => rw [List.flatMap_cons, quoteUnits_char, ih, List.flatMap_cons, List.flatMap_append]
  have hunits : codeUnits s = s.toList.flatMap charUnits := rfl
  rw [quoteString, hunits, hchars, quote, List.flatMap_append, List.flatMap_cons]
  rfl

end AstramemLocal.Core.JsonText
