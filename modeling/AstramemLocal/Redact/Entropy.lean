/-
The detectors of unlabelled secrets (`src/redact/entropy.ts`): tokens of high Shannon entropy, and long runs of digits.
The entropy is compared exactly: `entropyAtLeast` is the comparison in whole numbers, `entropyAtLeast_iff` says that it
is the one of `shannonEntropy`.
-/
import AstramemLocal.Redact.Detectors
import Mathlib.Analysis.SpecialFunctions.Log.Base
import Mathlib.Tactic.FieldSimp
import Mathlib.Tactic.Linarith

namespace AstramemLocal.Redact

open Core Core.Re

/-! ## Entropy -/

/-- `for (const ch of token)`: surrogate pairs together -/
def codePoints : JsString → List ℕ
  | [] => []
  | [u] => [u]
  | u :: v :: rest =>
    if 0xd800 ≤ u ∧ u ≤ 0xdbff ∧ 0xdc00 ≤ v ∧ v ≤ 0xdfff then
      (0x10000 + (u - 0xd800) * 0x400 + (v - 0xdc00)) :: codePoints rest
    else u :: codePoints (v :: rest)

/-- how often each character occurs -/
def frequencies (token : JsString) : List ℕ :=
  let chars := codePoints token
  chars.dedup.map fun c => chars.count c

/-- bits per character over the token's character distribution -/
noncomputable def shannonEntropy (token : JsString) : ℝ :=
  -((frequencies token).map fun count : ℕ => (count / token.length : ℝ) * Real.logb 2 (count / token.length)).sum

/-- `shannonEntropy(token) >= threshold`, both sides times the length and as powers of two -/
def entropyAtLeast (threshold : ℚ) (token : JsString) : Bool :=
  threshold ≤ 0 || (token ≠ [] && 2 ^ (threshold.num.toNat * token.length) *
    ((frequencies token).map fun count => count ^ count).prod ^ threshold.den ≤
      token.length ^ ((frequencies token).sum * threshold.den))

theorem length_codePoints_le (token : JsString) : (codePoints token).length ≤ token.length := by
  induction token using codePoints.induct with
  | case1 => exact le_rfl
  | case2 u => exact le_rfl
  | case3 u v rest h ih =>
    rw [codePoints, if_pos h]
    simp only [List.length_cons]
    omega
  | case4 u v rest h ih =>
    rw [codePoints, if_neg h]
    simpa using ih

theorem frequency_range {token : JsString} {count : ℕ} (h : count ∈ frequencies token) :
    0 < count ∧ count ≤ token.length := by
  obtain ⟨c, hc, rfl⟩ := List.mem_map.1 h
  exact ⟨List.count_pos_iff.2 (List.mem_dedup.1 hc), List.count_le_length.trans (length_codePoints_le token)⟩

theorem sum_weighted_logb {n : ℕ} (hn : 0 < n) {counts : List ℕ} (hpos : ∀ count ∈ counts, 0 < count) :
    (n : ℝ) * (counts.map fun count : ℕ => (count / n : ℝ) * Real.logb 2 (count / n)).sum =
      Real.logb 2 ((counts.map fun count => count ^ count).prod : ℕ) - (counts.sum : ℕ) * Real.logb 2 n := by
  have hn' : (n : ℝ) ≠ 0 := by exact_mod_cast hn.ne'
  induction counts with
  | nil => simp
  | cons c rest ih =>
    obtain ⟨hc, hrest⟩ := List.forall_mem_cons.1 hpos
    have hc' : (c : ℝ) ≠ 0 := by exact_mod_cast hc.ne'
    have hprod : (rest.map fun count => count ^ count).prod ≠ 0 := by
      apply List.prod_ne_zero
      intro hzero
      obtain ⟨d, hd, hzero⟩ := List.mem_map.1 hzero
      exact absurd hzero (pow_ne_zero d (hrest d hd).ne')
    have hhead : (n : ℝ) * ((c / n : ℝ) * Real.logb 2 (c / n)) = c * Real.logb 2 c - c * Real.logb 2 n := by
      rw [Real.logb_div hc' hn']
      field_simp
    rw [List.map_cons, List.map_cons, List.sum_cons, List.sum_cons, List.prod_cons, Nat.cast_mul, Nat.cast_pow,
      Nat.cast_add, mul_add, ih hrest, hhead, Real.logb_mul (pow_ne_zero c hc') (Nat.cast_ne_zero.2 hprod),
      Real.logb_pow]
    ring

theorem shannonEntropy_nonneg (token : JsString) : 0 ≤ shannonEntropy token := by
  unfold shannonEntropy
  rw [neg_nonneg]
  refine (List.sum_le_card_nsmul _ 0 ?_).trans_eq (smul_zero _)
  intro term hterm
  obtain ⟨count, hcount, rfl⟩ := List.mem_map.1 hterm
  obtain ⟨hpos, hle⟩ := frequency_range hcount
  have hratio : (count / token.length : ℝ) ≤ 1 := by
    apply div_le_one_of_le₀ (by exact_mod_cast hle) (Nat.cast_nonneg _)
  exact mul_nonpos_of_nonneg_of_nonpos (by positivity) (Real.logb_nonpos one_lt_two (by positivity) hratio)

/-- **The comparison in whole numbers is the one of the entropy.** -/
theorem entropyAtLeast_iff (threshold : ℚ) (token : JsString) :
    entropyAtLeast threshold token = true ↔ (threshold : ℝ) ≤ shannonEntropy token := by
  unfold entropyAtLeast
  rcases le_or_gt threshold 0 with hle | hgt
  · have hreal : (threshold : ℝ) ≤ shannonEntropy token := le_trans (by exact_mod_cast hle) (shannonEntropy_nonneg token)
    simp [hle, hreal]
  by_cases hnil : token = []
  · have hreal : ¬ (threshold : ℝ) ≤ 0 := by exact_mod_cast hgt.not_ge
    subst hnil
    simp [shannonEntropy, frequencies, codePoints, hgt.not_ge, hreal]
  have hlen : 0 < token.length := List.length_pos_iff.2 hnil
  have hlen' : (0 : ℝ) < token.length := by exact_mod_cast hlen
  have hsum := sum_weighted_logb hlen fun count (h : count ∈ frequencies token) => (frequency_range h).1
  have hprod : 0 < ((frequencies token).map fun count => count ^ count).prod := by
    apply List.prod_pos
    intro term hterm
    obtain ⟨count, hcount, rfl⟩ := List.mem_map.1 hterm
    exact pow_pos (frequency_range hcount).1 count
  have hden : (0 : ℝ) < threshold.den := by exact_mod_cast threshold.den_pos
  have hnum : (threshold : ℝ) = threshold.num.toNat / threshold.den := by
    have hcast : (threshold.num.toNat : ℤ) = threshold.num := Int.toNat_of_nonneg (Rat.num_pos.2 hgt).le
    rw [show (threshold.num.toNat : ℝ) = (threshold.num : ℝ) by exact_mod_cast hcast]
    exact_mod_cast (Rat.num_div_den threshold).symm
  generalize hP : ((frequencies token).map fun count => count ^ count).prod = P at hsum hprod
  have hlog : Real.logb 2 ((2 ^ (threshold.num.toNat * token.length) * P ^ threshold.den : ℕ) : ℝ) =
      threshold.num.toNat * token.length + threshold.den * Real.logb 2 P := by
    push_cast
    rw [Real.logb_mul (by positivity) (by positivity), Real.logb_pow, Real.logb_pow, Real.logb_self_eq_one one_lt_two]
    push_cast
    ring
  have hlog' : Real.logb 2 ((token.length ^ ((frequencies token).sum * threshold.den) : ℕ) : ℝ) =
      threshold.den * ((frequencies token).sum * Real.logb 2 token.length) := by
    push_cast
    rw [Real.logb_pow]
    push_cast
    ring
  have hnat : (2 ^ (threshold.num.toNat * token.length) * P ^ threshold.den ≤
      token.length ^ ((frequencies token).sum * threshold.den)) ↔
        (threshold.num.toNat * token.length + threshold.den * Real.logb 2 P : ℝ) ≤
          threshold.den * ((frequencies token).sum * Real.logb 2 token.length) := by
    rw [← hlog, ← hlog', Real.logb_le_logb one_lt_two (by positivity) (by positivity), Nat.cast_le]
  have hentropy : (token.length : ℝ) * shannonEntropy token =
      (frequencies token).sum * Real.logb 2 token.length - Real.logb 2 P := by
    unfold shannonEntropy
    rw [mul_neg, hsum]
    ring
  have hdecide : (threshold ≤ 0 || (token ≠ [] && 2 ^ (threshold.num.toNat * token.length) * P ^ threshold.den ≤
      token.length ^ ((frequencies token).sum * threshold.den)) : Bool) = true ↔
        2 ^ (threshold.num.toNat * token.length) * P ^ threshold.den ≤
          token.length ^ ((frequencies token).sum * threshold.den) := by
    simp [hgt.not_ge, hnil]
  have hscale : (threshold.num.toNat : ℝ) ≤ shannonEntropy token * threshold.den ↔
      (token.length : ℝ) * threshold.num.toNat ≤
        threshold.den * ((frequencies token).sum * Real.logb 2 token.length - Real.logb 2 P) := by
    rw [← hentropy, ← mul_le_mul_iff_right₀ hlen']
    ring_nf
  rw [hdecide, hnat, hnum, div_le_iff₀ hden, hscale, mul_sub, le_sub_iff_add_le, mul_comm (token.length : ℝ)]

/-! ## Tokens and their guards -/

/-- a part of a text that is not empty -/
structure Stretch (text : JsString) where
  start : ℕ
  stop : ℕ
  lt : start < stop
  le : stop ≤ text.length
deriving DecidableEq, Repr

def Stretch.value {text : JsString} (s : Stretch text) : JsString := text.slice s.start s.stop

def stretch? {text : JsString} (m : Match text) : Option (Stretch text) :=
  if h : m.start < m.stop then some ⟨m.start, m.stop, h, m.stop_le⟩ else none

def minTokenLength : ℕ := 20

def contextWindow : ℕ := 40

def hexDigit (u : ℕ) : Bool := digit u || (0x61 ≤ u && u ≤ 0x66)

def hexDigestContext : RegExp :=
  (.wordBoundary ++ .group 1 (lit "commit" ||| lit "sha" ||| lit "hash" ||| lit "digest") ++ .wordBoundary : Re).compile
    true

def uuid : RegExp :=
  (.atStart ++ exactly 8 (cls hexDigit) ++ lit "-" ++ exactly 4 (cls hexDigit) ++ lit "-" ++ exactly 4 (cls hexDigit) ++
    lit "-" ++ exactly 4 (cls hexDigit) ++ lit "-" ++ exactly 12 (cls hexDigit) ++ .atEnd : Re).compile true

def pureHex : RegExp := (.atStart ++ plus (cls hexDigit) ++ .atEnd : Re).compile true

/-- `[REDACTED:...]` with anything but a closing bracket inside -/
def bracketed : Re := lit "[REDACTED:" ++ plus (notCls (· = 0x5d)) ++ lit "]"

def placeholderToken : RegExp := (.atStart ++ bracketed ++ .atEnd : Re).compile false

def identifier : Re := cls letter ++ star (cls fun u => alnum u || u = 0x5f)

def safeValue : Re := plus (cls digit) ||| lit "true" ||| lit "false"

def configAssignment : RegExp := (.atStart ++ identifier ++ cls (listed ":=") ++ safeValue ++ .atEnd : Re).compile true

def labelCore : RegExp :=
  (.atStart ++ opt anyQuoteChar ++ .group 1 identifier ++ opt anyQuoteChar ++ cls (listed ":=") ++ .atEnd : Re).compile
    false

def secretLabelKeyword : RegExp := genericTrailingKeywords.compile true

def safeValueOnly : RegExp := (.atStart ++ safeValue ++ .atEnd : Re).compile true

def hexLikeMix : RegExp := (cls lower ++ cls digit ||| cls digit ++ cls lower).compile false

def word : RegExp := (plus nonSpace).compile false

/-- without one quote in front and one behind -/
def stripQuotes (value : JsString) : JsString :=
  let rest : JsString := if value.head?.any isQuote then value.tail else value
  if rest.getLast?.any isQuote then rest.dropLast else rest

def isLabelWithSafeValueFollowing (token text : JsString) (stop : ℕ) (threshold : ℚ) : Bool :=
  match ((labelCore.exec token 0).bind fun m => m.groups 1).map fun range => token.slice range.1 range.2 with
  | none => false
  | some core =>
    if !secretLabelKeyword.test core then false
    else if entropyAtLeast threshold core then false
    else if minTokenLength ≤ core.length && hexLikeMix.test core then false
    else
      let rest : JsString := text.drop stop
      match word.exec rest 0 with
      | none => false
      | some next => safeValueOnly.test (stripQuotes (rest.slice next.start next.stop))

/-- white space separates the tokens -/
def tokenize (text : JsString) : List (Stretch text) := (word.allMatches text).filterMap stretch?

/-- a shape that is no secret -/
def isGuarded (token text : JsString) (start stop : ℕ) (threshold : ℚ) : Bool :=
  token.length < minTokenLength || placeholderToken.test token || uuid.test token ||
    (token.any fun u => u = 0x2f || u = 0x5c) || configAssignment.test token ||
    isLabelWithSafeValueFollowing token text stop threshold ||
    -- a digest next to a word for one
    ((token.length = 40 || token.length = 64) && pureHex.test token &&
      hexDigestContext.test (text.slice (start - contextWindow) (min text.length (stop + contextWindow))))

def findEntropySecrets (text : JsString) (threshold : ℚ) : List (Stretch text) :=
  (tokenize text).filter fun tok =>
    !isGuarded tok.value text tok.start tok.stop threshold && entropyAtLeast threshold tok.value

/-! ## Runs of digits -/

def numericSecretMinLength : ℕ := 23

def digitRun : RegExp := (plus (cls digit)).compile false

def labelPrefix : RegExp :=
  (.notBehind (fun u => alnum u || u = 0x5f) ++ opt anyQuoteChar ++ identifier ++ opt anyQuoteChar ++ star space ++
    cls (listed ":=") ++ star space ++ opt anyQuoteChar ++ .atEnd : Re).compile false

/-- `text.lastIndexOf('\n', start - 1) + 1`, where a negative index counts as 0 -/
def lineStart (text : JsString) (start : ℕ) : ℕ :=
  ((List.range (start - 1 + 1)).filter fun i => text[i]? = some JsString.newline).getLast?.elim 0 (· + 1)

/-- a label stands before `start` on its line -/
def hasLabelPrefix (text : JsString) (start : ℕ) : Bool := labelPrefix.test (text.slice (lineStart text start) start)

def findNumericSecretRuns (text : JsString) : List (Stretch text) :=
  ((digitRun.allMatches text).filterMap stretch?).filter fun run =>
    numericSecretMinLength ≤ run.value.length && !hasLabelPrefix text run.start

end AstramemLocal.Redact
