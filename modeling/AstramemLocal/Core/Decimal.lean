/-
JavaScript numbers, each by the shortest decimal that denotes it: `Number.text` is Number.prototype.toString on that
decimal, `readNumber` is Number(..) on the plain decimals `-?\d+(\.\d+)?`.
- `readNumber_text`: a number that is written without an exponent is read back as it was.
- `readNumber_eq_none`: every other number is written as something that is no plain decimal.
Zero has one sign here, as it has for `===`.
-/
import Mathlib.Data.List.Basic
import Mathlib.Data.List.DropRight
import Mathlib.Data.Fin.Basic
import Mathlib.Algebra.Ring.Int.Defs
import Mathlib.Tactic.Common

namespace AstramemLocal.Core

/-- `0.d₁d₂…dₖ · 10 ^ point`; no digit is superfluous -/
@[ext]
structure Decimal where
  neg : Bool
  digits : List (Fin 10)
  point : ℤ
  first : digits.head? ≠ some 0
  last : digits.getLast? ≠ some 0
  zero : digits = [] → neg = false ∧ point = 0
deriving DecidableEq

inductive Number where
  | nan
  | infinity (neg : Bool)
  | finite (d : Decimal)
deriving DecidableEq

/-! ## Text of a number -/

def digitChar (d : Fin 10) : Char := Char.ofNat (48 + d)

def digitChars (ds : List (Fin 10)) : List Char := ds.map digitChar

/-- the exponent `e+21`, `e-7` of a decimal -/
def exponentText (e : ℤ) : List Char :=
  'e' :: (if e < 0 then '-' else '+') :: Nat.toDigits 10 e.natAbs

def Decimal.unsignedText (d : Decimal) : List Char :=
  if d.digits = [] then ['0']
  else if (d.digits.length : ℤ) ≤ d.point ∧ d.point ≤ 21 then
    digitChars (d.digits ++ List.replicate (d.point.toNat - d.digits.length) 0)
  else if 0 < d.point ∧ d.point ≤ 21 then
    digitChars (d.digits.take d.point.toNat) ++ '.' :: digitChars (d.digits.drop d.point.toNat)
  else if -6 < d.point ∧ d.point ≤ 0 then
    '0' :: '.' :: digitChars (List.replicate (-d.point).toNat 0 ++ d.digits)
  else
    match d.digits with
    | [] => []
    | [c] => digitChar c :: exponentText (d.point - 1)
    | c :: cs => digitChar c :: '.' :: digitChars cs ++ exponentText (d.point - 1)

def signed (neg : Bool) (text : List Char) : List Char := if neg then '-' :: text else text

/-- `String(v)` -/
def Number.text : Number → List Char
  | .nan => "NaN".toList
  | .infinity neg => signed neg "Infinity".toList
  | .finite d => signed d.neg d.unsignedText

/-! ## Reading a number -/

def digitValue (c : Char) : Option (Fin 10) :=
  if h : 48 ≤ c.toNat ∧ c.toNat < 58 then some ⟨c.toNat - 48, by omega⟩ else none

/-- the digits at the head of a text, and what follows them -/
def readDigits : List Char → List (Fin 10) × List Char
  | [] => ([], [])
  | c :: rest =>
    match digitValue c with
    | some d => (d :: (readDigits rest).1, (readDigits rest).2)
    | none => ([], c :: rest)

/-- the digits without the zeros before and after them -/
def significant (ds : List (Fin 10)) : List (Fin 10) := (ds.dropWhile (· = 0)).rdropWhile (· = 0)

theorem significant_last (ds : List (Fin 10)) : (significant ds).getLast? ≠ some 0 := by
  intro h
  have hne : significant ds ≠ [] := by
    intro hnil
    simp [hnil] at h
  have hlast := List.rdropWhile_last_not (p := fun d : Fin 10 => d = 0) (l := ds.dropWhile (· = 0)) hne
  rw [List.getLast?_eq_some_getLast hne, Option.some.injEq] at h
  exact hlast (decide_eq_true h)

theorem significant_first (ds : List (Fin 10)) : (significant ds).head? ≠ some 0 := by
  intro h
  obtain ⟨after, hprefix⟩ := List.rdropWhile_prefix (fun d : Fin 10 => d = 0) (l := ds.dropWhile (· = 0))
  have hhead : (ds.dropWhile (· = 0)).head? = some 0 := by
    rw [← hprefix, List.head?_append]
    exact Option.or_eq_some_iff.2 (Or.inl h)
  have hnot := List.head?_dropWhile_not (fun d : Fin 10 => d = 0) ds
  rw [hhead] at hnot
  simp at hnot

/-- the decimal with these digits, `point` of them before its point -/
def Decimal.ofDigits (neg : Bool) (ds : List (Fin 10)) (point : ℤ) : Decimal :=
  if h : significant ds = [] then ⟨false, [], 0, by simp, by simp, by simp⟩
  else
    { neg, digits := significant ds, point := point - (ds.takeWhile (· = 0)).length
      first := significant_first ds
      last := significant_last ds
      zero := fun hnil => absurd hnil h }

/-- the digits of a natural number -/
def natDigits (n : ℕ) : List (Fin 10) := (Nat.toDigits 10 n).filterMap digitValue

instance (n : ℕ) : OfNat Number n := ⟨.finite (.ofDigits false (natDigits n) (natDigits n).length)⟩

instance : OfScientific Number where
  ofScientific m negExponent e :=
    .finite (.ofDigits false (natDigits m) ((natDigits m).length + if negExponent then -(e : ℤ) else e))

/-- digits with a fraction, `\d+(\.\d+)?` to the end -/
def readUnsigned (neg : Bool) (text : List Char) : Option Decimal :=
  let (whole, rest) := readDigits text
  if whole = [] then none
  else
    match rest with
    | [] => some (.ofDigits neg whole whole.length)
    | '.' :: rest =>
      let (fraction, rest) := readDigits rest
      if fraction = [] ∨ rest ≠ [] then none else some (.ofDigits neg (whole ++ fraction) whole.length)
    | _ => none

/-- `Number(v)` where `v` is a plain decimal; `none` where it is not -/
def readNumber : List Char → Option Number
  | '-' :: text => (readUnsigned true text).map .finite
  | text => (readUnsigned false text).map .finite

/-! ## Round trip -/

/-- is the number written without an exponent? -/
def Number.plain : Number → Bool
  | .finite d => d.digits = [] || (-6 < d.point && d.point ≤ 21)
  | _ => false

@[simp] theorem digitValue_digitChar (d : Fin 10) : digitValue (digitChar d) = some d := by
  revert d; decide

theorem readDigits_chars (ds : List (Fin 10)) (rest : List Char) (h : ∀ c ∈ rest.head?, digitValue c = none) :
    readDigits (digitChars ds ++ rest) = (ds, rest) := by
  induction ds with
  | nil =>
    cases rest with
    | nil => rfl
    | cons c rest => simp [digitChars, readDigits, h c rfl]
  | cons d ds ih =>
    simp only [digitChars] at ih
    simp [digitChars, readDigits, ih]

theorem Decimal.head_ne (d : Decimal) {c : Fin 10} {cs : List (Fin 10)} (h : d.digits = c :: cs) : c ≠ 0 := by
  have hfirst := d.first
  rw [h] at hfirst
  simpa using hfirst

theorem Decimal.rdropWhile_digits (d : Decimal) (after : ℕ) :
    (d.digits ++ List.replicate after 0).rdropWhile (· = 0) = d.digits := by
  induction after with
  | zero =>
    rw [List.replicate_zero, List.append_nil, List.rdropWhile_eq_self_iff]
    intro hne hzero
    apply d.last
    rw [List.getLast?_eq_some_getLast hne, of_decide_eq_true hzero]
  | succ n ih =>
    rw [List.replicate_succ', ← List.append_assoc, List.rdropWhile_concat_pos _ _ _ (by simp)]
    exact ih

/-- zeros around the digits of a decimal say nothing -/
theorem Decimal.ofDigits_padded (d : Decimal) (hd : d.digits ≠ []) (before after : ℕ) :
    Decimal.ofDigits d.neg (List.replicate before 0 ++ (d.digits ++ List.replicate after 0)) (d.point + before) = d := by
  obtain ⟨c, cs, hdigits⟩ := List.exists_cons_of_ne_nil hd
  have hc : decide (c = 0) = false := decide_eq_false (d.head_ne hdigits)
  have hzeros : ∀ a ∈ List.replicate before (0 : Fin 10), decide (a = 0) = true := by
    intro a ha
    exact decide_eq_true (List.eq_of_mem_replicate ha)
  have htake : ((List.replicate before 0 ++ (d.digits ++ List.replicate after 0)).takeWhile (· = 0)).length = before := by
    rw [List.takeWhile_append_of_pos hzeros, hdigits, List.cons_append, List.takeWhile_cons, hc]
    simp
  have hsignificant : significant (List.replicate before 0 ++ (d.digits ++ List.replicate after 0)) = d.digits := by
    rw [significant, List.dropWhile_append_of_pos hzeros]
    have hdrop : (d.digits ++ List.replicate after 0).dropWhile (· = 0) = d.digits ++ List.replicate after 0 := by
      rw [hdigits, List.cons_append, List.dropWhile_cons, hc]
      rfl
    rw [hdrop, d.rdropWhile_digits]
  unfold Decimal.ofDigits
  rw [dif_neg (by rw [hsignificant]; exact hd)]
  ext1
  · rfl
  · exact hsignificant
  · simp only [htake]
    omega

theorem Decimal.ofDigits_zero : Decimal.ofDigits false [0] 1 = ⟨false, [], 0, by simp, by simp, by simp⟩ := by decide

theorem readUnsigned_whole (neg : Bool) {whole : List (Fin 10)} (hwhole : whole ≠ []) :
    readUnsigned neg (digitChars whole) = some (Decimal.ofDigits neg whole whole.length) := by
  have hread := readDigits_chars whole [] (by simp)
  rw [List.append_nil] at hread
  simp [readUnsigned, hread, hwhole]

theorem readUnsigned_fraction (neg : Bool) {whole fraction : List (Fin 10)} (hwhole : whole ≠ []) (hfraction : fraction ≠ []) :
    readUnsigned neg (digitChars whole ++ '.' :: digitChars fraction)
      = some (Decimal.ofDigits neg (whole ++ fraction) whole.length) := by
  have hread := readDigits_chars whole ('.' :: digitChars fraction) (by intro c hc; cases hc; rfl)
  have hrest := readDigits_chars fraction [] (by simp)
  rw [List.append_nil] at hrest
  simp [readUnsigned, hread, hrest, hwhole, hfraction]

theorem readUnsigned_text (d : Decimal) (h : (Number.finite d).plain = true) :
    readUnsigned d.neg d.unsignedText = some d := by
  simp only [Number.plain, Bool.or_eq_true, decide_eq_true_eq, Bool.and_eq_true] at h
  unfold Decimal.unsignedText
  by_cases hnil : d.digits = []
  · rw [if_pos hnil]
    obtain ⟨hneg, hpoint⟩ := d.zero hnil
    have hzero := @readUnsigned_whole d.neg [0] (by simp)
    rw [hneg, List.length_singleton, Nat.cast_one, Decimal.ofDigits_zero] at hzero
    rw [hneg]
    refine hzero.trans (congrArg some ?_)
    exact Decimal.ext hneg.symm hnil.symm hpoint.symm
  rw [if_neg hnil]
  have hlength : 0 < d.digits.length := List.length_pos_of_ne_nil hnil
  have hrange := h.resolve_left hnil
  by_cases hwhole : (d.digits.length : ℤ) ≤ d.point ∧ d.point ≤ 21
  · rw [if_pos hwhole, readUnsigned_whole _ (by simp [hnil])]
    have hpadded := d.ofDigits_padded hnil 0 (d.point.toNat - d.digits.length)
    rw [List.replicate_zero, List.nil_append, Nat.cast_zero, add_zero] at hpadded
    have hpoint : ((d.digits ++ List.replicate (d.point.toNat - d.digits.length) 0).length : ℤ) = d.point := by
      rw [List.length_append, List.length_replicate]
      omega
    rw [hpoint, hpadded]
  rw [if_neg hwhole]
  by_cases hmixed : 0 < d.point ∧ d.point ≤ 21
  · rw [if_pos hmixed, readUnsigned_fraction]
    · have hpadded := d.ofDigits_padded hnil 0 0
      rw [List.replicate_zero, List.nil_append, List.append_nil, Nat.cast_zero, add_zero] at hpadded
      have hpoint : ((d.digits.take d.point.toNat).length : ℤ) = d.point := by
        rw [List.length_take]
        omega
      rw [List.take_append_drop, hpoint, hpadded]
    · rw [← List.length_pos_iff, List.length_take]
      omega
    · rw [← List.length_pos_iff, List.length_drop]
      omega
  rw [if_neg hmixed, if_pos (by omega)]
  have hzero : '0' :: '.' :: digitChars (List.replicate (-d.point).toNat 0 ++ d.digits)
      = digitChars [0] ++ '.' :: digitChars (List.replicate (-d.point).toNat 0 ++ d.digits) := rfl
  rw [hzero, readUnsigned_fraction _ (by simp) (by simp [hnil])]
  have hpadded := d.ofDigits_padded hnil ((-d.point).toNat + 1) 0
  rw [List.replicate_zero, List.append_nil, List.replicate_succ] at hpadded
  have hpoint : d.point + (((-d.point).toNat + 1 : ℕ) : ℤ) = 1 := by omega
  rw [hpoint] at hpadded
  simpa using hpadded

theorem readUnsigned_minus (neg : Bool) (text : List Char) : readUnsigned neg ('-' :: text) = none := rfl

theorem readNumber_unsigned {text : List Char} {d : Decimal} (h : readUnsigned false text = some d) :
    readNumber text = some (.finite d) := by
  unfold readNumber
  split
  · rw [readUnsigned_minus] at h
    cases h
  · rw [h]
    rfl

/-- a number without an exponent is read back as it was written -/
theorem readNumber_text {n : Number} (h : n.plain = true) : readNumber n.text = some n := by
  cases n with
  | nan => simp [Number.plain] at h
  | infinity neg => simp [Number.plain] at h
  | finite d =>
    have hread := readUnsigned_text d h
    cases hneg : d.neg with
    | true =>
      rw [hneg] at hread
      simp [Number.text, signed, hneg, readNumber, hread]
    | false =>
      rw [hneg] at hread
      have htext : (Number.finite d).text = d.unsignedText := by simp [Number.text, signed, hneg]
      rw [htext]
      exact readNumber_unsigned hread

/-! ## What is no plain decimal -/

def isDecimalChar (c : Char) : Bool := (digitValue c).isSome || c = '.'

theorem readDigits_split (text : List Char) :
    ∃ taken, text = taken ++ (readDigits text).2 ∧ ∀ c ∈ taken, isDecimalChar c = true := by
  induction text with
  | nil => exact ⟨[], rfl, by simp⟩
  | cons c rest ih =>
    unfold readDigits
    cases hc : digitValue c with
    | none => exact ⟨[], rfl, by simp⟩
    | some d =>
      obtain ⟨taken, hrest, htaken⟩ := ih
      refine ⟨c :: taken, ?_, ?_⟩
      · simpa using hrest
      · intro b hb
        rcases List.mem_cons.1 hb with rfl | hb
        · simp [isDecimalChar, hc]
        · exact htaken b hb

theorem readUnsigned_chars {neg : Bool} {text : List Char} {d : Decimal} (h : readUnsigned neg text = some d) :
    ∀ c ∈ text, isDecimalChar c = true := by
  obtain ⟨whole, htext, hwhole⟩ := readDigits_split text
  unfold readUnsigned at h
  simp only at h
  rw [htext]
  intro c hc
  rcases List.mem_append.1 hc with hc | hc
  · exact hwhole c hc
  split_ifs at h with hnone
  split at h
  · next hnil =>
    rw [hnil] at hc
    cases hc
  · next rest hrest =>
    obtain ⟨fraction, hfraction, hchars⟩ := readDigits_split rest
    split_ifs at h with hend
    push Not at hend
    rw [hrest] at hc
    rcases List.mem_cons.1 hc with rfl | hc
    · rfl
    · rw [hfraction, hend.2, List.append_nil] at hc
      exact hchars c hc
  · cases h

theorem readNumber_chars {text : List Char} {n : Number} (h : readNumber text = some n) :
    ∀ c ∈ text, isDecimalChar c = true ∨ c = '-' := by
  intro c hc
  unfold readNumber at h
  split at h
  · next rest =>
    obtain ⟨d, hd, -⟩ := Option.map_eq_some_iff.1 h
    rcases List.mem_cons.1 hc with rfl | hc
    · exact Or.inr rfl
    · exact Or.inl (readUnsigned_chars hd c hc)
  · obtain ⟨d, hd, -⟩ := Option.map_eq_some_iff.1 h
    exact Or.inl (readUnsigned_chars hd c hc)

theorem exponent_mem (d : Decimal) (h : (Number.finite d).plain = false) : 'e' ∈ d.unsignedText := by
  simp only [Number.plain, Bool.or_eq_false_iff, decide_eq_false_iff_not, Bool.and_eq_false_iff] at h
  obtain ⟨hne, hrange⟩ := h
  unfold Decimal.unsignedText
  rw [if_neg hne, if_neg (by omega), if_neg (by omega), if_neg (by omega)]
  split
  · contradiction
  · simp [exponentText]
  · simp [exponentText]

theorem mem_signed {c : Char} {neg : Bool} {text : List Char} (h : c ∈ text) : c ∈ signed neg text := by
  cases neg
  · exact h
  · exact List.mem_cons_of_mem _ h

/-- every other number is written as something that is no plain decimal -/
theorem readNumber_eq_none {n : Number} (h : n.plain = false) : readNumber n.text = none := by
  have hletter : ∃ c ∈ n.text, isDecimalChar c = false ∧ c ≠ '-' := by
    cases n with
    | nan => exact ⟨'N', by decide, by decide, by decide⟩
    | infinity neg => exact ⟨'I', by cases neg <;> decide, by decide, by decide⟩
    | finite d =>
      exact ⟨'e', mem_signed (exponent_mem d h), by decide, by decide⟩
  obtain ⟨c, hc, hother, hminus⟩ := hletter
  cases hread : readNumber n.text with
  | none => rfl
  | some m =>
    rcases readNumber_chars hread c hc with hdecimal | rfl
    · rw [hother] at hdecimal
      cases hdecimal
    · exact absurd rfl hminus

/-! ## The characters of a number's text -/

def numberChars : List Char := "0123456789+-.eINafinty".toList

theorem digitChars_chars (ds : List (Fin 10)) : ∀ c ∈ digitChars ds, c ∈ numberChars := by
  have hall : ∀ d : Fin 10, digitChar d ∈ numberChars := by decide
  intro c hc
  obtain ⟨d, -, rfl⟩ := List.mem_map.1 hc
  exact hall d

theorem isDigit_mem_numberChars {c : Char} (h : c.isDigit = true) : c ∈ numberChars := by
  have hall : ∀ n : Fin 10, Char.ofNat (48 + n.val) ∈ numberChars := by decide
  simp only [Char.isDigit, Bool.and_eq_true, decide_eq_true_eq, ge_iff_le] at h
  have hlow : 48 ≤ c.toNat := h.1
  have hhigh : c.toNat ≤ 57 := h.2
  have hc := hall ⟨c.toNat - 48, by omega⟩
  rw [show 48 + (c.toNat - 48) = c.toNat by omega, Char.ofNat_toNat] at hc
  exact hc

theorem exponentText_chars (e : ℤ) : ∀ c ∈ exponentText e, c ∈ numberChars := by
  intro c hc
  rw [exponentText] at hc
  rcases List.mem_cons.1 hc with rfl | hc
  · decide
  rcases List.mem_cons.1 hc with rfl | hc
  · split <;> decide
  · exact isDigit_mem_numberChars (Nat.isDigit_of_mem_toDigits (by omega) (by omega) hc)

theorem Decimal.unsignedText_chars (d : Decimal) : ∀ c ∈ d.unsignedText, c ∈ numberChars := by
  intro c hc
  unfold Decimal.unsignedText at hc
  split_ifs at hc with hnil hwhole hmixed hsmall
  · rw [List.mem_singleton.1 hc]
    decide
  · exact digitChars_chars _ c hc
  · rcases List.mem_append.1 hc with hc | hc
    · exact digitChars_chars _ c hc
    rcases List.mem_cons.1 hc with rfl | hc
    · decide
    · exact digitChars_chars _ c hc
  · rcases List.mem_cons.1 hc with rfl | hc
    · decide
    rcases List.mem_cons.1 hc with rfl | hc
    · decide
    · exact digitChars_chars _ c hc
  · split at hc
    · cases hc
    · next d _ =>
      rcases List.mem_cons.1 hc with rfl | hc
      · exact digitChars_chars [d] _ List.mem_cons_self
      · exact exponentText_chars _ c hc
    · next d ds _ _ =>
      rcases List.mem_append.1 hc with hc | hc
      · rcases List.mem_cons.1 hc with rfl | hc
        · exact digitChars_chars [d] _ List.mem_cons_self
        rcases List.mem_cons.1 hc with rfl | hc
        · decide
        · exact digitChars_chars _ c hc
      · exact exponentText_chars _ c hc

theorem Number.text_chars (n : Number) : ∀ c ∈ n.text, c ∈ numberChars := by
  cases n with
  | nan =>
    have hall : "NaN".toList.all (fun c => c ∈ numberChars) = true := by decide
    exact fun c hc => of_decide_eq_true (List.all_eq_true.1 hall c hc)
  | infinity neg =>
    have hall : (Number.infinity neg).text.all (fun c => c ∈ numberChars) = true := by
      cases neg <;> decide
    exact fun c hc => of_decide_eq_true (List.all_eq_true.1 hall c hc)
  | finite d =>
    intro c hc
    unfold Number.text signed at hc
    simp only at hc
    split at hc
    · rcases List.mem_cons.1 hc with rfl | hc
      · decide
      · exact d.unsignedText_chars c hc
    · exact d.unsignedText_chars c hc

theorem Decimal.unsignedText_ne_nil (d : Decimal) : d.unsignedText ≠ [] := by
  unfold Decimal.unsignedText
  intro h
  split_ifs at h with hnil hwhole hmixed hsmall
  · simp [digitChars, hnil] at h
  · simp at h
  · split at h
    · contradiction
    · cases h
    · cases h

theorem Number.text_ne_nil (n : Number) : n.text ≠ [] := by
  cases n with
  | nan => decide
  | infinity neg => cases neg <;> decide
  | finite d =>
    unfold Number.text signed
    simp only
    split
    · simp
    · exact d.unsignedText_ne_nil

end AstramemLocal.Core
