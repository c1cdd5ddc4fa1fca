/-
Plain values of the language, objects as functions of their keys, and JSON.parse into them. `jsonParse_strings`: JSON.parse
takes back what JSON.stringify writes of an array of strings.
-/
import AstramemLocal.Core.Json
import AstramemLocal.Core.Decimal
import AstramemLocal.Core.Utf16

namespace AstramemLocal.Core

/-- a value without functions; an object gives `undefined` at a key it does not have -/
inductive PlainValue where
  | undefined
  | null
  | bool (b : Bool)
  | num (n : Number)
  | str (s : String)
  | arr (items : List PlainValue)
  | obj (get : String → PlainValue)

/-- `{}` -/
def PlainValue.empty : PlainValue := .obj fun _ => .undefined

/-! ## JSON.parse -/

def skipJsonSpace (text : List Char) : List Char := text.dropWhile (· ∈ [' ', '\t', '\n', '\r'])

def hexDigitValue (c : Char) : Option ℕ :=
  if '0' ≤ c ∧ c ≤ '9' then some (c.toNat - 48)
  else if 'a' ≤ c ∧ c ≤ 'f' then some (c.toNat - 87)
  else if 'A' ≤ c ∧ c ≤ 'F' then some (c.toNat - 55)
  else none

/-- the code unit four hexadecimal digits denote -/
def readHex (a b c d : Char) : Option ℕ := do
  let a ← hexDigitValue a
  let b ← hexDigitValue b
  let c ← hexDigitValue c
  let d ← hexDigitValue d
  return ((a * 16 + b) * 16 + c) * 16 + d

/-- what follows `\u`: one code unit, or a pair of surrogates; a surrogate without its other half is no character -/
def readUnicode : List Char → Option (Char × List Char)
  | a :: b :: c :: d :: rest =>
    match readHex a b c d with
    | none => none
    | some n =>
      if isHighSurrogate n then
        match rest with
        | '\\' :: 'u' :: e :: f :: g :: h :: rest =>
          match readHex e f g h with
          | none => none
          | some m =>
            if isLowSurrogate m then some (Char.ofNat (0x10000 + (n - 0xd800) * 0x400 + (m - 0xdc00)), rest) else none
        | _ => none
      else if isLowSurrogate n then none
      else some (Char.ofNat n, rest)
  | _ => none

/-- one character of a string literal -/
def readJsonChar : List Char → Option (Char × List Char)
  | [] => none
  | '\\' :: rest =>
    match rest with
    | '"' :: rest => some ('"', rest)
    | '\\' :: rest => some ('\\', rest)
    | '/' :: rest => some ('/', rest)
    | 'b' :: rest => some ('\x08', rest)
    | 'f' :: rest => some ('\x0c', rest)
    | 'n' :: rest => some ('\n', rest)
    | 'r' :: rest => some ('\r', rest)
    | 't' :: rest => some ('\t', rest)
    | 'u' :: rest => readUnicode rest
    | _ => none
  | c :: rest => if c.toNat < 32 then none else some (c, rest)

/-- the rest of a string literal, after its opening quote -/
def readJsonString : ℕ → List Char → Option (List Char × List Char)
  | 0, _ => none
  | _ + 1, '"' :: rest => some ([], rest)
  | n + 1, text =>
    match readJsonChar text with
    | none => none
    | some (c, rest) => (readJsonString n rest).map fun r => (c :: r.1, r.2)

/-- `[eE][+-]?\d+`, or nothing -/
def readExponent : List Char → Option (ℤ × List Char)
  | 'e' :: rest | 'E' :: rest =>
    let sign : ℤ := if rest.head? = some '-' then -1 else 1
    let (ds, rest) := readDigits (if rest.head? = some '-' ∨ rest.head? = some '+' then rest.tail else rest)
    if ds = [] then none else some (sign * (ds.foldl (fun (n : ℕ) d => 10 * n + d.val) 0 : ℕ), rest)
  | text => some (0, text)

/-- `(0|[1-9]\d*)(\.\d+)?([eE][+-]?\d+)?` -/
def readJsonNumber (neg : Bool) (text : List Char) : Option (Number × List Char) :=
  let (whole, rest) := readDigits text
  if whole = [] ∨ (whole.head?.map Fin.val = some 0 ∧ whole.length ≠ 1) then none
  else
    let fraction := if rest.head? = some '.' then (readDigits rest.tail).1 else []
    if rest.head? = some '.' ∧ fraction = [] then none
    else
      let rest := if rest.head? = some '.' then (readDigits rest.tail).2 else rest
      (readExponent rest).map fun e => (.finite (.ofDigits neg (whole ++ fraction) (whole.length + e.1)), e.2)

mutual
/-- a JSON value at the head of the text, and what follows it -/
def readJson : ℕ → List Char → Option (PlainValue × List Char)
  | 0, _ => none
  | n + 1, text =>
    match skipJsonSpace text with
    | '"' :: rest => (readJsonString (rest.length + 1) rest).map fun r => (.str (String.ofList r.1), r.2)
    | '[' :: rest =>
      match skipJsonSpace rest with
      | ']' :: rest => some (.arr [], rest)
      | _ => (readJsonItems n rest).map fun r => (.arr r.1, r.2)
    | '\x7b' :: rest =>
      match skipJsonSpace rest with
      | '\x7d' :: rest => some (.empty, rest)
      | _ => (readJsonMembers n rest).map fun r => (.obj r.1, r.2)
    | 't' :: 'r' :: 'u' :: 'e' :: rest => some (.bool true, rest)
    | 'f' :: 'a' :: 'l' :: 's' :: 'e' :: rest => some (.bool false, rest)
    | 'n' :: 'u' :: 'l' :: 'l' :: rest => some (.null, rest)
    | '-' :: rest => (readJsonNumber true rest).map fun r => (.num r.1, r.2)
    | rest => (readJsonNumber false rest).map fun r => (.num r.1, r.2)

/-- the items of an array, to its closing bracket -/
def readJsonItems : ℕ → List Char → Option (List PlainValue × List Char)
  | 0, _ => none
  | n + 1, text =>
    match readJson n text with
    | none => none
    | some (v, rest) =>
      match skipJsonSpace rest with
      | ',' :: rest => (readJsonItems n rest).map fun r => (v :: r.1, r.2)
      | ']' :: rest => some ([v], rest)
      | _ => none

/-- the members of an object, to its closing brace; of two with one key the later stands -/
def readJsonMembers : ℕ → List Char → Option ((String → PlainValue) × List Char)
  | 0, _ => none
  | n + 1, text =>
    match skipJsonSpace text with
    | '"' :: rest =>
      match readJsonString (rest.length + 1) rest with
      | none => none
      | some (key, rest) =>
        match skipJsonSpace rest with
        | ':' :: rest =>
          match readJson n rest with
          | none => none
          | some (v, rest) =>
            match skipJsonSpace rest with
            | ',' :: rest =>
              (readJsonMembers n rest).map fun r =>
                (fun k => match r.1 k with
                  | .undefined => if k = String.ofList key then v else .undefined
                  | w => w, r.2)
            | '\x7d' :: rest => some (fun k => if k = String.ofList key then v else .undefined, rest)
            | _ => none
        | _ => none
    | _ => none
end

/-- JSON.parse; `none` where it throws -/
def jsonParse (text : List Char) : Option PlainValue :=
  match readJson (text.length + 1) text with
  | none => none
  | some (v, rest) => if skipJsonSpace rest = [] then some v else none

/-- JSON.stringify of an array of strings -/
def stringifyStrings (strings : List String) : List Char :=
  '[' :: [','].intercalate (strings.map quote) ++ [']']

theorem readUnicode_control (c : Char) (h : c.toNat < 32) (rest : List Char) :
    readUnicode ('0' :: '0' :: hexDigit (c.toNat / 16) :: hexDigit (c.toNat % 16) :: rest) = some (c, rest) := by
  have hall : ∀ n : Fin 32, readHex '0' '0' (hexDigit (n.val / 16)) (hexDigit (n.val % 16)) = some n.val := by decide
  have hhex := hall ⟨c.toNat, h⟩
  have hhigh : isHighSurrogate c.toNat = false := by
    simp only [isHighSurrogate, Bool.and_eq_false_iff, decide_eq_false_iff_not]
    omega
  have hlow : isLowSurrogate c.toNat = false := by
    simp only [isLowSurrogate, Bool.and_eq_false_iff, decide_eq_false_iff_not]
    omega
  simp [readUnicode, hhex, hhigh, hlow, Char.ofNat_toNat]

theorem readJsonChar_escapeChar (c : Char) (rest : List Char) : readJsonChar (escapeChar c ++ rest) = some (c, rest) := by
  unfold escapeChar escapeCode
  split_ifs with h₁ h₂ h₃ h₄ h₅ h₆ h₇ h₈
  · rw [h₁]; rfl
  · rw [h₂]; rfl
  · rw [h₃]; rfl
  · rw [h₄]; rfl
  · rw [h₅]; rfl
  · rw [h₆]; rfl
  · rw [h₇]; rfl
  · simpa [readJsonChar] using readUnicode_control c h₈ rest
  · simp only [List.cons_append, List.nil_append]
    unfold readJsonChar
    split <;> simp_all

theorem escapeChar_head (c : Char) : ∃ d ds, escapeChar c = d :: ds ∧ d ≠ '"' := by
  unfold escapeChar
  cases hcode : escapeCode c with
  | some code => exact ⟨'\\', code, rfl, by decide⟩
  | none =>
    refine ⟨c, [], rfl, ?_⟩
    rintro rfl
    cases hcode

theorem readJsonString_chars (cs rest : List Char) (n : ℕ) (hn : cs.length < n) :
    readJsonString n (cs.flatMap escapeChar ++ '"' :: rest) = some (cs, rest) := by
  induction cs generalizing n with
  | nil =>
    obtain ⟨m, rfl⟩ := Nat.exists_eq_succ_of_ne_zero (Nat.ne_of_gt hn)
    rfl
  | cons c cs ih =>
    obtain ⟨m, rfl⟩ := Nat.exists_eq_succ_of_ne_zero (Nat.ne_of_gt (Nat.zero_lt_of_lt hn))
    have hrest := ih m (Nat.lt_of_succ_lt_succ hn)
    obtain ⟨d, ds, hescape, hd⟩ := escapeChar_head c
    have hread := readJsonChar_escapeChar c (cs.flatMap escapeChar ++ '"' :: rest)
    rw [List.flatMap_cons, List.append_assoc]
    rw [hescape, List.cons_append] at hread ⊢
    rw [readJsonString]
    · rw [hread]
      simp [hrest]
    · intro tail htail
      exact hd (List.cons.inj htail).1

theorem quote_append (s : String) (rest : List Char) :
    quote s ++ rest = '"' :: (s.toList.flatMap escapeChar ++ '"' :: rest) := by
  simp [quote]

theorem length_le_flatMap_escapeChar (cs : List Char) : cs.length ≤ (cs.flatMap escapeChar).length := by
  induction cs with
  | nil => simp
  | cons c cs ih =>
    obtain ⟨d, ds, hescape, -⟩ := escapeChar_head c
    rw [List.flatMap_cons, hescape, List.length_append, List.length_cons, List.length_cons]
    omega

theorem readJson_quote (s : String) (rest : List Char) (n : ℕ) : readJson (n + 1) (quote s ++ rest) = some (.str s, rest) := by
  have hlength := length_le_flatMap_escapeChar s.toList
  have hstring := readJsonString_chars s.toList rest ((s.toList.flatMap escapeChar ++ '"' :: rest).length + 1)
    (by rw [List.length_append]; omega)
  have hspace : ∀ text : List Char, skipJsonSpace ('"' :: text) = '"' :: text := fun _ => rfl
  rw [quote_append, readJson, hspace]
  simp only [hstring, Option.map_some, String.ofList_toList]

theorem readJsonItems_quotes (s : String) (ss : List String) (rest : List Char) (n : ℕ) :
    readJsonItems (n + ss.length + 2) ([','].intercalate ((s :: ss).map quote) ++ ']' :: rest)
      = some ((s :: ss).map .str, rest) := by
  induction ss generalizing s with
  | nil =>
    rw [List.map_singleton, List.intercalate_singleton, List.length_nil, readJsonItems, readJson_quote]
    rfl
  | cons t ss ih =>
    have hrest := ih t
    have hspace : ∀ text : List Char, skipJsonSpace (',' :: text) = ',' :: text := fun _ => rfl
    rw [List.map_cons, List.map_cons, List.intercalate_cons_cons, ← List.map_cons, List.append_assoc, List.append_assoc,
      List.length_cons, ← Nat.add_assoc, readJsonItems, readJson_quote]
    simp only [List.cons_append, List.nil_append, hspace]
    rw [show n + ss.length + 1 + 1 = n + ss.length + 2 from rfl, hrest]
    rfl

theorem length_le_intercalate (ss : List String) : ss.length ≤ ([','].intercalate (ss.map quote)).length := by
  induction ss with
  | nil => simp
  | cons s ss ih =>
    cases ss with
    | nil => simp [quote]
    | cons t ss =>
      rw [List.map_cons, List.map_cons, List.intercalate_cons_cons, ← List.map_cons, List.length_append, List.length_append]
      simp only [List.length_cons, List.length_nil] at ih ⊢
      omega

/-- JSON.parse takes back what JSON.stringify writes of an array of strings -/
theorem jsonParse_strings (ss : List String) : jsonParse (stringifyStrings ss) = some (.arr (ss.map .str)) := by
  cases ss with
  | nil => rfl
  | cons s ss =>
    obtain ⟨text, htext⟩ : ∃ text, [','].intercalate ((s :: ss).map quote) ++ [']'] = '"' :: text := by
      cases ss <;> simp [quote]
    have hfuel : (stringifyStrings (s :: ss)).length
        = ((stringifyStrings (s :: ss)).length - (ss.length + 2)) + ss.length + 2 := by
      have hlength := length_le_intercalate (s :: ss)
      simp only [stringifyStrings, List.length_cons, List.length_append, List.length_nil] at hlength ⊢
      omega
    have hitems := readJsonItems_quotes s ss [] ((stringifyStrings (s :: ss)).length - (ss.length + 2))
    have hbracket : ∀ text : List Char, skipJsonSpace ('[' :: text) = '[' :: text := fun _ => rfl
    have hquote : ∀ text : List Char, skipJsonSpace ('"' :: text) = '"' :: text := fun _ => rfl
    rw [← hfuel, htext] at hitems
    rw [jsonParse, readJson]
    unfold stringifyStrings at hitems ⊢
    rw [List.cons_append, htext] at hitems ⊢
    simp only [hbracket, hquote, hitems]
    rfl

end AstramemLocal.Core
