/-
The text of a finite number as a JSON number: it has the form that JSON prescribes (`isNumber_text`), and no two numbers
share one (`text_injective`).
-/
import AstramemLocal.Core.Decimal
import AstramemLocal.Core.JsonText

namespace AstramemLocal.Core

namespace Decimal

open JsonText (isNumber isNumberUnit isDigit isFraction isExponent allDigits)

/-- `JSON.stringify(n)` -/
def text (d : Decimal) : JsString := (Number.finite d).text.map Char.toNat

def units (cs : List Char) : JsString := cs.map Char.toNat

theorem text_eq (d : Decimal) : d.text = (if d.neg = true then [0x2d] else []) ++ units d.unsignedText := by
  change units (signed d.neg d.unsignedText) = _
  unfold signed
  split_ifs
  · rfl
  · rfl

/-- a whole part, a fraction and an exponent -/
def literal (whole fraction : List (Fin 10)) (exponent : Option ℤ) : List Char :=
  digitChars whole ++ ((if fraction = [] then [] else '.' :: digitChars fraction) ++ exponent.elim [] exponentText)

/-! ## The parts of a text -/

theorem unsignedText_literal (d : Decimal) : ∃ whole fraction exponent,
    d.unsignedText = literal whole fraction exponent ∧ (whole = [0] ∨ whole ≠ [] ∧ whole.head? ≠ some 0) := by
  unfold Decimal.unsignedText
  have hcut : ∀ n : ℕ, 0 < n → (d.digits.take n).head? = d.digits.head? := by
    intro n hn
    rw [List.head?_take, if_neg (by omega)]
  split_ifs with hnil hwhole hmixed hsmall
  · exact ⟨[0], [], none, rfl, .inl rfl⟩
  · refine ⟨d.digits ++ List.replicate (d.point.toNat - d.digits.length) 0, [], none, ?_, .inr ⟨by simp [hnil], ?_⟩⟩
    · simp [literal]
    · rw [List.head?_append_of_ne_nil _ hnil]
      exact d.first
  · have hdrop : d.digits.drop d.point.toNat ≠ [] := by
      rw [← List.length_pos_iff, List.length_drop]
      omega
    refine ⟨d.digits.take d.point.toNat, d.digits.drop d.point.toNat, none, by simp [literal, hdrop], .inr ⟨?_, ?_⟩⟩
    · rw [← List.length_pos_iff, List.length_take]
      have hlength : 0 < d.digits.length := List.length_pos_of_ne_nil hnil
      omega
    · rw [hcut _ (by omega)]
      exact d.first
  · refine ⟨[0], List.replicate (-d.point).toNat 0 ++ d.digits, none, ?_, .inl rfl⟩
    have hne : List.replicate (-d.point).toNat 0 ++ d.digits ≠ [] := by simp [hnil]
    simp only [literal, if_neg hne, Option.elim_none, List.append_nil]
    rfl
  · split
    · contradiction
    next c h => exact ⟨[c], [], some (d.point - 1), by simp [literal, digitChars], .inr ⟨by simp, by simpa using d.head_ne h⟩⟩
    next c cs hcs h =>
      have hne : cs ≠ [] := hcs
      exact ⟨[c], cs, some (d.point - 1), by simp [literal, digitChars, hne], .inr ⟨by simp, by simpa using d.head_ne h⟩⟩

/-- what a number with an exponent looks like -/
theorem unsignedText_exponent {d : Decimal} (h : (Number.finite d).plain = false) :
    ∃ c cs, d.digits = c :: cs ∧ d.unsignedText = literal [c] cs (some (d.point - 1)) := by
  simp only [Number.plain, Bool.or_eq_false_iff, decide_eq_false_iff_not, Bool.and_eq_false_iff] at h
  obtain ⟨hne, hrange⟩ := h
  obtain ⟨c, cs, hdigits⟩ := List.exists_cons_of_ne_nil hne
  refine ⟨c, cs, hdigits, ?_⟩
  unfold Decimal.unsignedText
  rw [if_neg hne, if_neg (by omega), if_neg (by omega), if_neg (by omega), hdigits]
  cases cs with
  | nil => simp [literal, digitChars]
  | cons c' cs => simp [literal, digitChars]

/-! ## JSON -/

theorem isDigit_units (ds : List (Fin 10)) : ∀ u ∈ units (digitChars ds), isDigit u = true := by
  intro u hu
  simp only [units, digitChars, List.map_map] at hu
  obtain ⟨d, -, rfl⟩ := List.mem_map.1 hu
  have hall : ∀ d : Fin 10, isDigit (digitChar d).toNat = true := by decide
  exact hall d

theorem isDigit_of_char {c : Char} (h : c.isDigit = true) : isDigit c.toNat = true := by
  simp only [Char.isDigit, Bool.and_eq_true, decide_eq_true_eq, ge_iff_le, UInt32.le_iff_toNat_le] at h
  simp only [isDigit, Bool.and_eq_true, decide_eq_true_eq]
  exact h

theorem takeWhile_digits {ds rest : JsString} (hds : ∀ u ∈ ds, isDigit u = true)
    (hrest : ∀ u ∈ rest.head?, isDigit u = false) : (ds ++ rest).takeWhile isDigit = ds := by
  rw [List.takeWhile_append_of_pos hds]
  cases rest with
  | nil => simp
  | cons u rest => simp [hrest u rfl]

theorem dropWhile_digits {ds rest : JsString} (hds : ∀ u ∈ ds, isDigit u = true)
    (hrest : ∀ u ∈ rest.head?, isDigit u = false) : (ds ++ rest).dropWhile isDigit = rest := by
  rw [List.dropWhile_append_of_pos hds]
  cases rest with
  | nil => rfl
  | cons u rest => simp [hrest u rfl]

theorem isExponent_text (exponent : Option ℤ) : isExponent (units (exponent.elim [] exponentText)) = true := by
  cases exponent with
  | none => rfl
  | some e =>
    have hne : units (Nat.toDigits 10 e.natAbs) ≠ [] := by simp [units, Nat.toDigits_ne_nil]
    have hdigits : allDigits (units (Nat.toDigits 10 e.natAbs)) = true := by
      simp only [allDigits, decide_not, Bool.and_eq_true, List.all_eq_true]
      refine ⟨by simpa using hne, fun u hu => ?_⟩
      obtain ⟨c, hc, rfl⟩ := List.mem_map.1 hu
      exact isDigit_of_char (Nat.isDigit_of_mem_toDigits (by decide) (by decide) hc)
    have htext : units (exponentText e) =
        0x65 :: (if e < 0 then 0x2d else 0x2b) :: units (Nat.toDigits 10 e.natAbs) := by
      simp only [exponentText, units, List.map_cons]
      split_ifs <;> rfl
    rw [Option.elim_some, htext]
    by_cases hneg : e < 0
    · simpa [isExponent, hneg] using hdigits
    · simpa [isExponent, hneg] using hdigits

theorem head_exponent (exponent : Option ℤ) : ∀ u ∈ (units (exponent.elim [] exponentText)).head?, u = 0x65 := by
  intro u hu
  cases exponent with
  | none => cases hu
  | some e =>
    rw [Option.elim_some, exponentText, units, List.map_cons, List.head?_cons, Option.mem_some_iff] at hu
    exact hu.symm

/-- the fraction and the exponent -/
def tail (fraction : List (Fin 10)) (exponent : Option ℤ) : JsString :=
  units ((if fraction = [] then [] else '.' :: digitChars fraction) ++ exponent.elim [] exponentText)

theorem head_tail (fraction : List (Fin 10)) (exponent : Option ℤ) : ∀ u ∈ (tail fraction exponent).head?, isDigit u = false := by
  intro u hu
  unfold tail at hu
  split_ifs at hu
  · rw [head_exponent exponent u hu]
    rfl
  · rw [List.cons_append, units, List.map_cons, List.head?_cons, Option.mem_some_iff] at hu
    rw [← hu]
    rfl

theorem isFraction_tail (fraction : List (Fin 10)) (exponent : Option ℤ) : isFraction (tail fraction exponent) = true := by
  have hexponent := isExponent_text exponent
  unfold tail
  split_ifs with hnil
  · rw [List.nil_append]
    unfold isFraction
    split_ifs with hpoint
    · cases head_exponent exponent _ hpoint
    · exact hexponent
  · have htext : units ('.' :: digitChars fraction ++ exponent.elim [] exponentText) =
        0x2e :: (units (digitChars fraction) ++ units (exponent.elim [] exponentText)) := by
      rw [List.cons_append, units, List.map_cons, List.map_append]
      rfl
    have hhead : ∀ u ∈ (units (exponent.elim [] exponentText)).head?, isDigit u = false := by
      intro u hu
      rw [head_exponent exponent u hu]
      rfl
    rw [htext, isFraction, List.head?_cons, if_pos rfl, List.tail_cons, takeWhile_digits (isDigit_units fraction) hhead,
      dropWhile_digits (isDigit_units fraction) hhead, hexponent]
    simpa [units, digitChars] using hnil

theorem isNumberUnit_of_digit {u : ℕ} (h : isDigit u = true) : isNumberUnit u = true := by
  rw [isNumberUnit, h, Bool.true_or]

theorem isNumberUnit_exponent (exponent : Option ℤ) :
    ∀ u ∈ units (exponent.elim [] exponentText), isNumberUnit u = true := by
  intro u hu
  cases exponent with
  | none => cases hu
  | some e =>
    rw [Option.elim_some, exponentText, units, List.map_cons, List.map_cons] at hu
    rcases List.mem_cons.1 hu with rfl | hu
    · rfl
    rcases List.mem_cons.1 hu with rfl | hu
    · split_ifs <;> rfl
    · obtain ⟨c, hc, rfl⟩ := List.mem_map.1 hu
      exact isNumberUnit_of_digit (isDigit_of_char (Nat.isDigit_of_mem_toDigits (by decide) (by decide) hc))

theorem isNumberUnit_tail (fraction : List (Fin 10)) (exponent : Option ℤ) :
    ∀ u ∈ tail fraction exponent, isNumberUnit u = true := by
  intro u hu
  rw [tail, units, List.map_append] at hu
  rcases List.mem_append.1 hu with hu | hu
  · split_ifs at hu
    · cases hu
    · rcases List.mem_cons.1 hu with rfl | hu
      · rfl
      · exact isNumberUnit_of_digit (isDigit_units fraction u hu)
  · exact isNumberUnit_exponent exponent u hu

/-- **A number is written as JSON prescribes.** -/
theorem isNumber_text (d : Decimal) : isNumber d.text = true := by
  obtain ⟨whole, fraction, exponent, htext, hwhole⟩ := unsignedText_literal d
  have hparts : units d.unsignedText = units (digitChars whole) ++ tail fraction exponent := by
    rw [htext, literal, units, List.map_append]
    rfl
  have hsign := text_eq d
  have hne : units (digitChars whole) ≠ [] := by
    rcases hwhole with rfl | ⟨hne, -⟩
    · nofun
    · simpa [units, digitChars] using hne
  have hunsigned : (if d.text.head? = some 0x2d then d.text.tail else d.text) = units d.unsignedText := by
    rw [hsign]
    split_ifs with hneg hminus hminus
    · rfl
    · exact absurd rfl hminus
    · rw [List.nil_append, hparts, List.head?_append_of_ne_nil _ hne] at hminus
      have hdigit := isDigit_units whole 0x2d (List.mem_of_mem_head? hminus)
      cases hdigit
    · rfl
  have hfirst : units (digitChars whole) = [0x30] ∨
      units (digitChars whole) ≠ [] ∧ (units (digitChars whole)).head? ≠ some 0x30 := by
    rcases hwhole with rfl | ⟨-, hzero⟩
    · exact .inl rfl
    · refine .inr ⟨hne, fun h => hzero ?_⟩
      rw [units, digitChars, List.map_map, List.head?_map, Option.map_eq_some_iff] at h
      obtain ⟨c, hc, hcu⟩ := h
      have hall : ∀ c : Fin 10, (Char.toNat ∘ digitChar) c = 0x30 → c = 0 := by decide
      rw [hc, hall c hcu]
  have hunits : d.text.all isNumberUnit = true := by
    rw [List.all_eq_true, hsign, hparts]
    intro u hu
    rcases List.mem_append.1 hu with hu | hu
    · split_ifs at hu
      · rw [List.mem_singleton.1 hu]
        rfl
      · cases hu
    rcases List.mem_append.1 hu with hu | hu
    · exact isNumberUnit_of_digit (isDigit_units whole u hu)
    · exact isNumberUnit_tail fraction exponent u hu
  simp only [isNumber]
  rw [hunsigned, hparts, takeWhile_digits (isDigit_units whole) (head_tail fraction exponent),
    dropWhile_digits (isDigit_units whole) (head_tail fraction exponent), hunits, isFraction_tail]
  simpa using hfirst

/-! ## No two numbers share a text -/

theorem toDigits_injective : Function.Injective (Nat.toDigits 10) := by
  intro m n h
  calc m = Nat.ofDigitChars 10 (Nat.toDigits 10 m) 0 := Nat.ofDigitChars_ten_toDigits.symm
    _ = Nat.ofDigitChars 10 (Nat.toDigits 10 n) 0 := by rw [h]
    _ = n := Nat.ofDigitChars_ten_toDigits

theorem exponentText_injective : Function.Injective exponentText := by
  intro m n h
  simp only [exponentText, List.cons.injEq, true_and] at h
  have habs := toDigits_injective h.2
  have hsign : (m < 0 ↔ n < 0) := by
    by_cases hm : m < 0
    · by_cases hn : n < 0
      · exact iff_of_true hm hn
      · simp [hm, hn] at h
    · by_cases hn : n < 0
      · simp [hm, hn] at h
      · exact iff_of_false hm hn
  omega

theorem digitChars_injective : Function.Injective digitChars := by
  apply List.map_injective_iff.2
  intro c d h
  have hread := congrArg digitValue h
  rw [digitValue_digitChar, digitValue_digitChar] at hread
  exact Option.some.inj hread

theorem digitChar_ne (d : Fin 10) : digitChar d ≠ 'e' ∧ digitChar d ≠ '.' ∧ digitChar d ≠ '-' := by
  revert d
  decide

/-- the letter of the exponent stands nowhere else -/
theorem literal_eq_inj {c c' : Fin 10} {cs cs' : List (Fin 10)} {e e' : ℤ}
    (h : literal [c] cs (some e) = literal [c'] cs' (some e')) : c = c' ∧ cs = cs' ∧ e = e' := by
  have hdigits : ∀ ds : List (Fin 10), 'e' ∉ digitChars ds := by
    intro ds hmem
    obtain ⟨d, -, hd⟩ := List.mem_map.1 hmem
    exact (digitChar_ne d).1 hd
  have hfront : ∀ ds : List (Fin 10), 'e' ∉ (if ds = [] then [] else '.' :: digitChars ds) := by
    intro ds
    split_ifs
    · simp
    · simpa using hdigits ds
  have hexponent : ∀ e : ℤ, 'e' ∉ (if e < 0 then '-' else '+') :: Nat.toDigits 10 e.natAbs := by
    intro e hmem
    rcases List.mem_cons.1 hmem with heq | hmem
    · split_ifs at heq <;> cases heq
    · have hdigit := Nat.isDigit_of_mem_toDigits (by decide) (by decide) hmem
      cases hdigit
  obtain ⟨hc, h⟩ := List.cons.inj (show digitChar c :: ((if cs = [] then [] else '.' :: digitChars cs) ++ exponentText e) =
    digitChar c' :: ((if cs' = [] then [] else '.' :: digitChars cs') ++ exponentText e') from h)
  rw [exponentText, exponentText, List.append_cons_inj_of_notMem (hfront cs) (hexponent e)] at h
  obtain ⟨hcs, -, he⟩ := h
  refine ⟨?_, ?_, exponentText_injective (congrArg ('e' :: ·) he)⟩
  · have hone : digitChars [c] = digitChars [c'] := congrArg (· :: []) hc
    simpa using digitChars_injective hone
  · split_ifs at hcs with hnil hnil' hnil'
    · rw [hnil, hnil']
    · exact digitChars_injective (List.cons.inj hcs).2

theorem signed_inj {neg neg' : Bool} {c c' : Char} {cs cs' : List Char} (hc : c ≠ '-') (hc' : c' ≠ '-')
    (h : signed neg (c :: cs) = signed neg' (c' :: cs')) : neg = neg' ∧ c :: cs = c' :: cs' := by
  cases neg <;> cases neg'
  · exact ⟨rfl, h⟩
  · exact absurd (List.cons.inj h).1 hc
  · exact absurd (List.cons.inj h).1.symm hc'
  · exact ⟨rfl, (List.cons.inj h).2⟩

/-- **No two numbers share a text.** -/
theorem text_injective : Function.Injective text := by
  intro a b h
  have htext : (Number.finite a).text = (Number.finite b).text := List.map_injective_iff.2 (fun _ _ => Char.toNat_inj.1) h
  have hplain : (Number.finite a).plain = (Number.finite b).plain := by
    rw [Bool.eq_iff_iff]
    constructor
    · intro ha
      by_contra hb
      have hread := readNumber_text ha
      rw [htext, readNumber_eq_none (Bool.eq_false_iff.2 hb)] at hread
      cases hread
    · intro hb
      by_contra ha
      have hread := readNumber_text hb
      rw [← htext, readNumber_eq_none (Bool.eq_false_iff.2 ha)] at hread
      cases hread
  cases ha : (Number.finite a).plain with
  | true =>
    have hread := readNumber_text ha
    rw [htext, readNumber_text (hplain ▸ ha)] at hread
    exact (Number.finite.inj (Option.some.inj hread)).symm
  | false =>
    obtain ⟨c, cs, hdigits, hunsigned⟩ := unsignedText_exponent ha
    obtain ⟨c', cs', hdigits', hunsigned'⟩ := unsignedText_exponent (hplain ▸ ha)
    simp only [Number.text, hunsigned, hunsigned'] at htext
    obtain ⟨hneg, hliteral⟩ := signed_inj (digitChar_ne c).2.2 (digitChar_ne c').2.2 htext
    obtain ⟨hc, hcs, hpoint⟩ := literal_eq_inj hliteral
    exact Decimal.ext hneg (by rw [hdigits, hdigits', hc, hcs]) (by omega)

end Decimal

end AstramemLocal.Core
