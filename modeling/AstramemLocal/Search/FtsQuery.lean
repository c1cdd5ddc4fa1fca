/-
The FTS5 query of a search (`escapeFtsQuery` of `src/search/search.ts`). What lower case and letters are is a parameter.

- `tokens_iff`: the tokens of a query. A quotation mark opens a phrase where no word is running and another mark follows.
- `query_reads`: the query is nothing but literals between ORs, or between blanks where no unit survives, and they say, in
  order, what is kept of the tokens.
- `edges_departs`: a sign that is no punctuation, and a word of which nothing is left.
-/
import AstramemLocal.Core.JsString
import AstramemLocal.Core.QuotedLiterals
import AstramemLocal.Core.Utf16

namespace AstramemLocal.Search.FtsQuery

open AstramemLocal.Core
open JsString (isSpace trim)

def quoteMark : ℕ := 0x22

structure Env where
  toLowerCase : JsString → JsString
  /-- `[\p{L}\p{N}]`, of a code point -/
  isLetterOrNumber : ℕ → Bool

/-! ## The query -/

def FTS_STOPWORDS : List String :=
  [ -- interrogatives
   "who", "whom", "whose", "what", "which", "when", "where", "why", "how",
   -- auxiliary/copula verbs
   "is", "am", "are", "was", "were", "be", "been", "being",
   "do", "does", "did", "done",
   "have", "has", "had", "having",
   "will", "would", "shall", "should", "can", "could", "may", "might", "must",
   -- articles/determiners
   "a", "an", "the", "this", "that", "these", "those",
   -- pronouns
   "i", "me", "my", "mine", "you", "your", "yours", "he", "him", "his",
   "she", "her", "hers", "it", "its", "we", "us", "our", "ours",
   "they", "them", "their", "theirs",
   -- prepositions/conjunctions
   "of", "to", "in", "on", "at", "for", "with", "about", "against",
   "between", "into", "through", "during", "before", "after", "above",
   "below", "from", "up", "down", "over", "under", "again", "further",
   "and", "or", "but", "if", "so", "than", "as", "not", "no", "nor",
   -- filler
   "there", "here", "then", "once", "all", "any", "both", "each", "few",
   "more", "most", "other", "some", "such", "only", "own", "same", "too",
   "very", "just", "also", "s", "t"]

def isStopword (s : JsString) : Bool := FTS_STOPWORDS.any fun word => JsString.ofString word = s

/-- `s.replace(/"/g, '""')` -/
def escapeFtsLiteral (s : JsString) : JsString := Quoted.doubled quoteMark s

/-- a match of `/"([^"]*)"|(\S+)/g`, by its group -/
inductive Token where
  | quoted (inner : JsString)
  | bare (word : JsString)
deriving DecidableEq, Repr

/-- the matches one after the other: the first alternative where it matches, then the second, then a step on -/
def tokensFrom : ℕ → JsString → List Token
  | 0, _ => []
  | _ + 1, [] => []
  | n + 1, u :: rest =>
    if u = quoteMark ∧ quoteMark ∈ rest then
      .quoted (rest.takeWhile (· ≠ quoteMark)) :: tokensFrom n (rest.dropWhile (· ≠ quoteMark)).tail
    else if isSpace u then tokensFrom n rest
    else .bare (u :: rest.takeWhile (!isSpace ·)) :: tokensFrom n (rest.dropWhile (!isSpace ·))

/-- every round takes a unit -/
def tokens (q : JsString) : List Token := tokensFrom q.length q

structure Term where
  phrase : Bool
  text : JsString
deriving DecidableEq, Repr

def splitQuotedAndBareTerms (q : JsString) : List Term :=
  (tokens q).filterMap fun token =>
    match token with
    | .quoted inner => if trim inner ≠ [] then some ⟨true, trim inner⟩ else none
    | .bare word => some ⟨false, word⟩

/-- the characters, each a unit or both halves of a pair -/
def characters : JsString → List JsString
  | [] => []
  | [u] => [[u]]
  | u :: v :: rest =>
    if isHighSurrogate u && isLowSurrogate v then [u, v] :: characters rest else [u] :: characters (v :: rest)

def codePoint : JsString → ℕ
  | [u, v] => 0x10000 + (u - 0xd800) * 0x400 + (v - 0xdc00)
  | [u] => u
  | _ => 0

section
variable (E : Env)

def isWordCharacter (c : JsString) : Bool := E.isLetterOrNumber (codePoint c)

/-- `s.replace(/^[^\p{L}\p{N}]+|[^\p{L}\p{N}]+$/gu, '')` -/
def stripEdges (s : JsString) : JsString :=
  (((characters s).dropWhile (!isWordCharacter E ·)).rdropWhile (!isWordCharacter E ·)).flatten

/-- a term of the query as it is searched for -/
def survivor (unit : Term) : Option JsString :=
  if unit.phrase then some (quoteMark :: escapeFtsLiteral unit.text ++ [quoteMark])
  else
    let stripped := stripEdges E (E.toLowerCase unit.text)
    if stripped = [] ∨ isStopword stripped then none else some (quoteMark :: escapeFtsLiteral stripped ++ [quoteMark])

def blank : JsString := JsString.ofString " "

def orText : JsString := JsString.ofString " OR "

def escapeFtsQuery (q : JsString) : JsString :=
  if trim q = [] then []
  else
    let units := splitQuotedAndBareTerms (trim q)
    let survivors := units.filterMap (survivor E)
    if survivors = [] then blank.intercalate (units.map fun u => quoteMark :: escapeFtsLiteral u.text ++ [quoteMark])
    else orText.intercalate survivors

end

/-! ## Tokens -/

/-- the tokens of a text -/
inductive Tokens : JsString → List Token → Prop where
  | nil : Tokens [] []
  | space {u : ℕ} {rest : JsString} {ts : List Token} (hu : isSpace u = true) (h : Tokens rest ts) : Tokens (u :: rest) ts
  | quoted {inner rest : JsString} {ts : List Token} (hinner : quoteMark ∉ inner) (h : Tokens rest ts) :
      Tokens (quoteMark :: inner ++ quoteMark :: rest) (.quoted inner :: ts)
  /-- a word goes up to white space; one that begins with a mark is a word if there is no other mark -/
  | bare {u : ℕ} {word rest : JsString} {ts : List Token} (hword : ∀ v ∈ u :: word, isSpace v = false)
      (hend : ∀ v ∈ rest.head?, isSpace v = true) (hopen : u = quoteMark → quoteMark ∉ word ++ rest) (h : Tokens rest ts) :
      Tokens (u :: word ++ rest) (.bare (u :: word) :: ts)

theorem isSpace_quoteMark : isSpace quoteMark = false := by decide

/-- the text that follows a token is shorter -/
theorem tokens_of_from {n : ℕ} {q : JsString} (h : q.length ≤ n) : Tokens q (tokensFrom n q) := by
  induction n generalizing q with
  | zero =>
    rw [List.eq_nil_of_length_eq_zero (Nat.le_zero.1 h)]
    exact .nil
  | succ n ih =>
    cases q with
    | nil => exact .nil
    | cons u rest =>
      rw [List.length_cons] at h
      rw [tokensFrom]
      split_ifs with hquoted hspace
      · obtain ⟨rfl, hmem⟩ := hquoted
        have hne : rest.dropWhile (· ≠ quoteMark) ≠ [] := by
          intro hnil
          have hall := List.dropWhile_eq_nil_iff.1 hnil quoteMark hmem
          simp at hall
        obtain ⟨v, after, hdrop⟩ := List.exists_cons_of_ne_nil hne
        have hv : v = quoteMark := by
          have hhead := List.head?_dropWhile_not (· ≠ quoteMark) rest
          rw [hdrop] at hhead
          simpa using hhead
        rw [hv] at hdrop
        have hsplit : rest = rest.takeWhile (· ≠ quoteMark) ++ quoteMark :: after := by
          rw [← hdrop, List.takeWhile_append_dropWhile]
        have hinner : quoteMark ∉ rest.takeWhile (· ≠ quoteMark) := by
          intro hmem
          simpa using List.mem_takeWhile_imp hmem
        have hlen : after.length ≤ n := by
          have hlength := congrArg List.length hsplit
          simp only [List.length_append, List.length_cons] at hlength
          omega
        rw [hdrop, List.tail_cons]
        nth_rewrite 1 [hsplit]
        exact .quoted hinner (ih hlen)
      · exact .space hspace (ih (by omega))
      · have hsplit : u :: rest = u :: rest.takeWhile (!JsString.isSpace ·) ++ rest.dropWhile (!JsString.isSpace ·) := by
          rw [List.cons_append, List.takeWhile_append_dropWhile]
        have hlen : (rest.dropWhile (!JsString.isSpace ·)).length ≤ n := (List.length_dropWhile_le _ _).trans (by omega)
        nth_rewrite 1 [hsplit]
        refine .bare ?_ ?_ ?_ (ih hlen)
        · intro v hv
          rcases List.mem_cons.1 hv with rfl | hv
          · simpa using hspace
          · simpa using List.mem_takeWhile_imp hv
        · intro v hv
          have hhead := List.head?_dropWhile_not (!JsString.isSpace ·) rest
          rw [hv] at hhead
          simpa using hhead
        · intro hu
          rw [List.takeWhile_append_dropWhile]
          exact fun hmem => hquoted ⟨hu, hmem⟩

theorem takeWhile_to {p : ℕ → Bool} {word rest : JsString} (hword : ∀ v ∈ word, p v = true)
    (hend : ∀ v ∈ rest.head?, p v = false) : (word ++ rest).takeWhile p = word ∧ (word ++ rest).dropWhile p = rest := by
  rw [List.takeWhile_append_of_pos hword, List.dropWhile_append_of_pos hword]
  cases rest with
  | nil => simp
  | cons v rest => simp [hend v rfl]

theorem from_of_tokens {q : JsString} {ts : List Token} (h : Tokens q ts) {n : ℕ} (hn : q.length ≤ n) :
    tokensFrom n q = ts := by
  induction h generalizing n with
  | nil => cases n <;> rfl
  | @space u rest ts hu h ih =>
    rw [List.length_cons] at hn
    obtain ⟨n, rfl⟩ : ∃ m, n = m + 1 := ⟨n - 1, by omega⟩
    have hmark : ¬ (u = quoteMark ∧ quoteMark ∈ rest) := by
      rintro ⟨rfl, -⟩
      rw [isSpace_quoteMark] at hu
      cases hu
    rw [tokensFrom, if_neg hmark, if_pos hu]
    exact ih (by omega)
  | @quoted inner rest ts hinner h ih =>
    rw [List.cons_append, List.length_cons, List.length_append, List.length_cons] at hn
    obtain ⟨n, rfl⟩ : ∃ m, n = m + 1 := ⟨n - 1, by omega⟩
    have hinside : ∀ v ∈ inner, decide (v ≠ quoteMark) = true := by
      intro v hv
      have hne : v ≠ quoteMark := fun heq => hinner (heq ▸ hv)
      simpa using hne
    have hmark : ∀ v ∈ (quoteMark :: rest).head?, decide (v ≠ quoteMark) = false := by simp
    obtain ⟨htake, hdrop⟩ := takeWhile_to hinside hmark
    rw [List.cons_append, tokensFrom, if_pos ⟨rfl, by simp⟩, htake, hdrop, List.tail_cons]
    exact congrArg _ (ih (by omega))
  | @bare u word rest ts hword hend hopen h ih =>
    rw [List.cons_append, List.length_cons, List.length_append] at hn
    obtain ⟨n, rfl⟩ : ∃ m, n = m + 1 := ⟨n - 1, by omega⟩
    have hinside : ∀ v ∈ word, (!JsString.isSpace v) = true := fun v hv => by simpa using hword v (List.mem_cons_of_mem u hv)
    have houtside : ∀ v ∈ rest.head?, (!JsString.isSpace v) = false := fun v hv => by simpa using hend v hv
    obtain ⟨htake, hdrop⟩ := takeWhile_to hinside houtside
    rw [List.cons_append, tokensFrom, if_neg fun hquoted => hopen hquoted.1 hquoted.2,
      if_neg (by simp [hword u List.mem_cons_self]), htake, hdrop]
    exact congrArg _ (ih (by omega))

/-- **The tokens of a query.** -/
theorem tokens_iff {q : JsString} {ts : List Token} : Tokens q ts ↔ tokens q = ts := by
  constructor
  · exact fun h => from_of_tokens h le_rfl
  · rintro rfl
    exact tokens_of_from le_rfl

/-- white space around a query does not matter -/
theorem Tokens.concat_space {q : JsString} {ts : List Token} (h : Tokens q ts) {u : ℕ} (hu : isSpace u = true) :
    Tokens (q ++ [u]) ts := by
  induction h with
  | nil => exact .space hu .nil
  | space hv _ ih => exact .space hv ih
  | quoted hinner _ ih =>
    rw [List.append_assoc, List.cons_append]
    exact .quoted hinner ih
  | @bare v word rest ts hword hend hopen _ ih =>
    rw [List.append_assoc]
    refine .bare hword ?_ ?_ ih
    · intro w hw
      cases rest with
      | nil =>
        rw [List.nil_append, List.head?_cons, Option.mem_some_iff] at hw
        exact hw ▸ hu
      | cons x rest => exact hend w hw
    · intro hv
      rw [← List.append_assoc, List.mem_append, not_or]
      refine ⟨hopen hv, fun hmem => ?_⟩
      rw [← List.mem_singleton.1 hmem, isSpace_quoteMark] at hu
      cases hu

theorem tokens_trim (q : JsString) : tokens (trim q) = tokens q := by
  have hstart : ∀ s ts, Tokens (JsString.trimStart s) ts → Tokens s ts := by
    intro s ts h
    induction s with
    | nil => exact h
    | cons u s ih =>
      cases hu : isSpace u with
      | false => rwa [JsString.trimStart, List.dropWhile_cons_of_neg (by simp [hu])] at h
      | true =>
        rw [JsString.trimStart, List.dropWhile_cons_of_pos hu] at h
        exact .space hu (ih h)
  have hend : ∀ s ts, Tokens (JsString.trimEnd s) ts → Tokens s ts := by
    intro s ts h
    induction s using List.reverseRecOn with
    | nil => exact h
    | append_singleton s u ih =>
      cases hu : isSpace u with
      | false => rwa [JsString.trimEnd, List.rdropWhile_concat_neg _ _ _ (by simp [hu])] at h
      | true =>
        rw [JsString.trimEnd, List.rdropWhile_concat_pos _ _ _ hu] at h
        exact (ih h).concat_space hu
  exact (tokens_iff.1 (hstart q _ (hend _ _ (tokens_iff.2 rfl)))).symm

/-! ## What the query says -/

section
variable (E : Env)

/-- a token as a unit of the query; a blank phrase is none -/
def whole : Token → Option JsString
  | .quoted inner => if trim inner = [] then none else some (trim inner)
  | .bare word => some word

/-- what is searched for: phrases as they are, words in lower case without their edges -/
def kept : Token → Option JsString
  | .quoted inner => if trim inner = [] then none else some (trim inner)
  | .bare word =>
    let stripped := stripEdges E (E.toLowerCase word)
    if stripped = [] ∨ isStopword stripped then none else some stripped

/-- literals with the joiner between them, which say these texts -/
structure Says (joiner query : JsString) (texts : List JsString) : Prop where
  written : query = Quoted.join quoteMark joiner texts
  read : Quoted.readLiterals quoteMark joiner query = some texts

variable {E}

theorem units_eq (q : JsString) :
    (splitQuotedAndBareTerms q).map (fun u => quoteMark :: escapeFtsLiteral u.text ++ [quoteMark]) =
      ((tokens q).filterMap whole).map (Quoted.literal quoteMark) := by
  rw [splitQuotedAndBareTerms, List.map_filterMap, List.map_filterMap]
  apply List.filterMap_congr
  intro token _
  cases token with
  | quoted inner =>
    by_cases hblank : trim inner = []
    · simp [whole, hblank]
    · simp [whole, hblank, Quoted.literal, escapeFtsLiteral]
  | bare word => rfl

theorem survivors_eq (q : JsString) : (splitQuotedAndBareTerms q).filterMap (survivor E) =
    ((tokens q).filterMap (kept E)).map (Quoted.literal quoteMark) := by
  rw [splitQuotedAndBareTerms, List.filterMap_filterMap, List.map_filterMap]
  apply List.filterMap_congr
  intro token _
  cases token with
  | quoted inner =>
    by_cases hblank : trim inner = []
    · simp [kept, hblank]
    · simp [kept, hblank, survivor, Quoted.literal, escapeFtsLiteral]
  | bare word =>
    by_cases hdropped : stripEdges E (E.toLowerCase word) = [] ∨ isStopword (stripEdges E (E.toLowerCase word))
    · simp [kept, survivor, hdropped]
    · simp [kept, survivor, hdropped, Quoted.literal, escapeFtsLiteral]

theorem escapeFtsQuery_eq (q : JsString) : escapeFtsQuery E q =
    if (tokens q).filterMap (kept E) = [] then Quoted.join quoteMark blank ((tokens q).filterMap whole)
    else Quoted.join quoteMark orText ((tokens q).filterMap (kept E)) := by
  have htrim := tokens_trim q
  unfold escapeFtsQuery
  by_cases hblank : trim q = []
  · have hnil : tokens q = [] := by
      rw [← htrim, hblank]
      rfl
    rw [if_pos hblank, hnil]
    rfl
  · simp only [if_neg hblank, units_eq, survivors_eq, htrim, List.map_eq_nil_iff]
    rfl

theorem says_join {joiner : JsString} (hne : joiner ≠ []) (hmark : joiner.head? ≠ some quoteMark) {texts : List JsString}
    (htexts : texts ≠ []) : Says joiner (Quoted.join quoteMark joiner texts) texts :=
  ⟨rfl, Quoted.readLiterals_join hne hmark htexts⟩

/-- a token that is searched for is a unit -/
theorem kept_nil_of_whole {ts : List Token} (h : ts.filterMap whole = []) : ts.filterMap (kept E) = [] := by
  rw [List.filterMap_eq_nil_iff] at h ⊢
  intro token htoken
  have hwhole := h token htoken
  cases token with
  | quoted inner => exact hwhole
  | bare word => cases hwhole

/-- **What a query says.** -/
theorem query_reads (E : Env) (q : JsString) : ∃ ts, Tokens q ts ∧ (∀ ts', Tokens q ts' → ts' = ts) ∧
    (ts.filterMap (kept E) ≠ [] → Says orText (escapeFtsQuery E q) (ts.filterMap (kept E))) ∧
    (ts.filterMap (kept E) = [] → ts.filterMap whole ≠ [] → Says blank (escapeFtsQuery E q) (ts.filterMap whole)) ∧
    (ts.filterMap whole = [] → escapeFtsQuery E q = []) := by
  refine ⟨tokens q, tokens_iff.2 rfl, fun ts' h => (tokens_iff.1 h).symm, ?_, ?_, ?_⟩
  · intro hkept
    rw [escapeFtsQuery_eq, if_neg hkept]
    exact says_join (by decide) (by decide) hkept
  · intro hkept hwhole
    rw [escapeFtsQuery_eq, if_pos hkept]
    exact says_join (by decide) (by decide) hwhole
  · intro hwhole
    rw [escapeFtsQuery_eq, if_pos (kept_nil_of_whole hwhole), hwhole]
    rfl

/-! ## Edges -/

theorem flatten_characters (s : JsString) : (characters s).flatten = s := by
  fun_induction characters s with
  | case1 => rfl
  | case2 u => rfl
  | case3 u v rest hpair ih => rw [List.flatten_cons, ih]; rfl
  | case4 u v rest hpair ih => rw [List.flatten_cons, ih]; rfl

/-- **What is cut off**: the characters at both edges that are neither letters nor numbers, and no others. -/
theorem stripEdges_spec (E : Env) (s : JsString) : ∃ before middle after, characters s = before ++ (middle ++ after) ∧
    stripEdges E s = middle.flatten ∧ (∀ c ∈ before ++ after, isWordCharacter E c = false) ∧
    (∀ c ∈ middle.head?, isWordCharacter E c = true) ∧ ∀ c ∈ middle.getLast?, isWordCharacter E c = true := by
  have hmiddle : ∀ ds : List JsString, ds.rdropWhile (!isWordCharacter E ·) ++ ds.rtakeWhile (!isWordCharacter E ·) = ds :=
    fun ds => List.rdropWhile_append_rtakeWhile
  refine ⟨(characters s).takeWhile (!isWordCharacter E ·),
    ((characters s).dropWhile (!isWordCharacter E ·)).rdropWhile (!isWordCharacter E ·),
    ((characters s).dropWhile (!isWordCharacter E ·)).rtakeWhile (!isWordCharacter E ·), ?_, rfl, ?_, ?_, ?_⟩
  · rw [hmiddle, List.takeWhile_append_dropWhile]
  · intro c hc
    rcases List.mem_append.1 hc with hc | hc
    · simpa using List.mem_takeWhile_imp hc
    · simpa using List.mem_rtakeWhile_imp hc
  · intro c hc
    have hhead : ((characters s).dropWhile (!isWordCharacter E ·)).head? = some c := by
      rw [← hmiddle ((characters s).dropWhile (!isWordCharacter E ·)), List.head?_append, hc, Option.some_or]
    have hnot := List.head?_dropWhile_not (!isWordCharacter E ·) (characters s)
    rw [hhead] at hnot
    simpa using hnot
  · intro c hc
    have hne : ((characters s).dropWhile (!isWordCharacter E ·)).rdropWhile (!isWordCharacter E ·) ≠ [] := by
      intro hnil
      rw [hnil] at hc
      cases hc
    have hlast := List.rdropWhile_last_not (!isWordCharacter E ·) _ hne
    rw [List.getLast?_eq_some_getLast hne, Option.mem_some_iff] at hc
    rw [hc] at hlast
    simpa using hlast

end

/-! ## More than punctuation -/

/-- the texts of the tokens, without punctuation at the edges of words -/
def punctuated (E : Env) (isPunctuation : ℕ → Bool) : Token → Option JsString
  | .quoted inner => some (trim inner)
  | .bare word =>
    let stripped := E.toLowerCase (stripEdges { E with isLetterOrNumber := fun c => !isPunctuation c } word)
    if isStopword stripped then none else some stripped

/-- ASCII, where lower case and the classes of characters are these -/
def ascii : Env where
  toLowerCase s := s.map fun u => if 0x41 ≤ u ∧ u ≤ 0x5a then u + 0x20 else u
  isLetterOrNumber u := (0x30 ≤ u && u ≤ 0x39) || (0x41 ≤ u && u ≤ 0x5a) || (0x61 ≤ u && u ≤ 0x7a)

/-- `\p{P}` in ASCII: the plus sign is a symbol -/
def asciiPunctuation (u : ℕ) : Bool := u ∈ JsString.ofString "!\"#%&'()*,-./:;?@[\\]_\x7b\x7d"

/-- the query says the tokens without their punctuation, all of them -/
def SaysPunctuated (E : Env) (isPunctuation : ℕ → Bool) (q : JsString) : Prop :=
  ∀ ts, Tokens q ts → Says orText (escapeFtsQuery E q) (ts.filterMap (punctuated E isPunctuation))

def signs : JsString := JsString.ofString "C++ ?"

/-- The signs of a word go, and so does a word of punctuation. -/
theorem edges_departs : Quoted.readLiterals quoteMark orText (escapeFtsQuery ascii signs) = some [JsString.ofString "c"] ∧
    (tokens signs).filterMap (punctuated ascii asciiPunctuation) = [JsString.ofString "c++", []] ∧
    ¬ SaysPunctuated ascii asciiPunctuation signs := by
  have hread : Quoted.readLiterals quoteMark orText (escapeFtsQuery ascii signs) = some [JsString.ofString "c"] := by
    decide +kernel
  have htexts : (tokens signs).filterMap (punctuated ascii asciiPunctuation) = [JsString.ofString "c++", []] := by
    decide +kernel
  refine ⟨hread, htexts, fun h => ?_⟩
  have hsays := (h _ (tokens_iff.2 rfl)).read
  rw [hread, htexts] at hsays
  cases hsays

end AstramemLocal.Search.FtsQuery
