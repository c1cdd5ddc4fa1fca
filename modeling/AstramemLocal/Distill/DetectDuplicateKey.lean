/-
`detectDuplicateKey` of `src/distill/stages/parse-salvage.ts`: a scanner that keeps, for every object that is open, the
keys it has seen, as they are spelled. On a JSON text it finds something just when some object spells a name twice
(`detect_iff`). So it answers for what JSON.parse would drop just when no two names of an object are read alike but
spelled differently, or another pair is spelled alike (`detect_exact_iff`).
-/
import AstramemLocal.Core.JsonText
import Mathlib.Tactic.Tauto

namespace AstramemLocal.Distill.ParseSalvage

open AstramemLocal.Core
open JsonText

/-! ## The scanner -/

structure DuplicateKeyFrame where
  isObject : Bool
  keys : List JsString

/-- a string token with this content, before `rest`: the stack it leaves, or `none` if it is a key seen before -/
def closeString (stack : List DuplicateKeyFrame) (content rest : JsString) : Option (List DuplicateKeyFrame) :=
  match stack with
  | [] => some []
  | top :: below =>
    if top.isObject ∧ (rest.dropWhile JsString.isSpace).head? = some colonMark then
      if top.keys.any (· = content) then none else some ({ top with keys := content :: top.keys } :: below)
    else some (top :: below)

/-- the loop from here on; `content` is what has been read of a string -/
def scan (stack : List DuplicateKeyFrame) (content : Option JsString) : JsString → Option JsString
  | [] => none
  | u :: text =>
    match content with
    | none =>
      if u = quoteMark then scan stack (some []) text
      else if u = openBrace then scan (⟨true, []⟩ :: stack) none text
      else if u = openBracket then scan (⟨false, []⟩ :: stack) none text
      else if u = closeBrace ∨ u = closeBracket then scan stack.tail none text
      else scan stack none text
    | some content =>
      if u = backslash then
        match text with
        | [] => none
        | v :: text => scan stack (some (content ++ [u, v])) text
      else if u = quoteMark then
        match closeString stack content text with
        | none => some content
        | some stack => scan stack none text
      else scan stack (some (content ++ [u])) text
termination_by structural text => text

def detectDuplicateKey (jsonText : JsString) : Option JsString := scan [] none jsonText

/-! ## Tokens -/

section
variable {stack : List DuplicateKeyFrame} {rest : JsString}

/-- a unit between tokens that are no strings and open and close nothing -/
def isPlain (u : ℕ) : Bool := u ∉ [quoteMark, openBrace, openBracket, closeBrace, closeBracket]

theorem scan_plain {x : JsString} (h : ∀ u ∈ x, isPlain u = true) : scan stack none (x ++ rest) = scan stack none rest := by
  induction x with
  | nil => rfl
  | cons u x ih =>
    have hu := h u List.mem_cons_self
    simp only [isPlain, List.mem_cons, List.not_mem_nil, or_false, not_or, decide_eq_true_eq] at hu
    obtain ⟨hquote, hopen, hopen', hclose, hclose'⟩ := hu
    rw [List.cons_append, scan.eq_def]
    simp only [hquote, hopen, hopen', hclose, hclose', if_false, or_self]
    exact ih fun v hv => h v (List.mem_cons_of_mem u hv)

theorem scan_comma (text : JsString) : scan stack none (comma :: text) = scan stack none text := by
  have hplain : ∀ u ∈ [comma], isPlain u = true := by decide
  exact scan_plain hplain

theorem scan_colon (text : JsString) : scan stack none (colonMark :: text) = scan stack none text := by
  have hplain : ∀ u ∈ [colonMark], isPlain u = true := by decide
  exact scan_plain hplain

theorem plain_ws (w : Ws) : ∀ u ∈ w.1, isPlain u = true := by
  intro u hu
  have hspace : ∀ y ∈ [0x20, 0x9, 0xa, 0xd], isPlain y = true := by decide
  exact hspace u (of_decide_eq_true (w.2 u hu))

theorem plain_number {u : ℕ} (h : isNumberUnit u = true) : isPlain u = true := by
  have hother : ∀ y ∈ [quoteMark, openBrace, openBracket, closeBrace, closeBracket], isNumberUnit y = false := by decide
  unfold isPlain
  rw [decide_eq_true_eq]
  intro hmem
  rw [hother u hmem] at h
  cases h

/-- a unit that neither ends a string nor escapes is read as it is -/
theorem scan_unit {u : ℕ} (hquote : u ≠ quoteMark) (hescape : u ≠ backslash) (content text : JsString) :
    scan stack (some content) (u :: text) = scan stack (some (content ++ [u])) text := by
  rw [scan.eq_def]
  simp [hquote, hescape]

theorem scan_escape (v : ℕ) (content text : JsString) :
    scan stack (some content) (backslash :: v :: text) = scan stack (some (content ++ [backslash, v])) text := by
  rw [scan.eq_def]
  simp

theorem hex_unit {u n : ℕ} (h : hexValue u = some n) : u ≠ quoteMark ∧ u ≠ backslash := by
  constructor
  · rintro rfl
    cases h
  · rintro rfl
    cases h

theorem codeValue_units {a b c d n : ℕ} (h : codeValue a b c d = some n) :
    ∀ u ∈ [a, b, c, d], u ≠ quoteMark ∧ u ≠ backslash := by
  simp only [codeValue, Option.bind_eq_bind, Option.bind_eq_some_iff] at h
  obtain ⟨_, ha, _, hb, _, hc, _, hd, -⟩ := h
  simp [hex_unit ha, hex_unit hb, hex_unit hc, hex_unit hd]

theorem scan_piece (piece : Piece) (content text : JsString) :
    scan stack (some content) (piece.text ++ text) = scan stack (some (content ++ piece.text)) text := by
  cases piece with
  | raw u h =>
    simp only [isRaw, Bool.and_eq_true, decide_eq_true_eq] at h
    exact scan_unit h.1.2 h.2 content text
  | escape letter u h => exact scan_escape letter content text
  | code a b c d u h =>
    have hunits := codeValue_units h
    simp only [Piece.text, List.cons_append, List.nil_append]
    rw [scan_escape, scan_unit (hunits a (by simp)).1 (hunits a (by simp)).2,
      scan_unit (hunits b (by simp)).1 (hunits b (by simp)).2, scan_unit (hunits c (by simp)).1 (hunits c (by simp)).2,
      scan_unit (hunits d (by simp)).1 (hunits d (by simp)).2]
    simp

theorem scan_spelling (pieces : List Piece) (content text : JsString) :
    scan stack (some content) (spelling pieces ++ text) = scan stack (some (content ++ spelling pieces)) text := by
  induction pieces generalizing content with
  | nil => simp [spelling]
  | cons piece pieces ih =>
    have hcons : spelling (piece :: pieces) = piece.text ++ spelling pieces := List.flatMap_cons
    rw [hcons, List.append_assoc, scan_piece, ih, List.append_assoc]

theorem scan_quoted (pieces : List Piece) :
    scan stack none (quoted pieces ++ rest) =
      match closeString stack (spelling pieces) rest with
      | none => some (spelling pieces)
      | some stack => scan stack none rest := by
  have hne : quoteMark ≠ backslash := by decide
  rw [quoted, List.append_assoc, List.cons_append, List.singleton_append, scan.eq_def]
  simp only [if_true]
  rw [scan_spelling, List.nil_append, scan.eq_def]
  simp only [hne, if_false, if_true]

/-! ## Values -/

/-- what follows is no colon -/
def NoColon (rest : JsString) : Prop := (rest.dropWhile JsString.isSpace).head? ≠ some colonMark

theorem closeString_value (content : JsString) (h : NoColon rest) : closeString stack content rest = some stack := by
  unfold closeString
  cases stack with
  | nil => rfl
  | cons top below => exact if_neg fun hkey => h hkey.2

theorem dropWhile_ws (w : Ws) {u : ℕ} (text : JsString) (h : JsString.isSpace u = false) :
    (w.1 ++ u :: text).dropWhile JsString.isSpace = u :: text := by
  rw [List.dropWhile_append_of_pos fun y hy => isSpace_of_isWs (w.2 y hy)]
  exact List.dropWhile_cons_of_neg (by simp [h])

theorem noColon_ws (w : Ws) {u : ℕ} (text : JsString) (hspace : JsString.isSpace u = false) (hcolon : u ≠ colonMark) :
    NoColon (w.1 ++ u :: text) := by
  unfold NoColon
  rw [dropWhile_ws w text hspace]
  simpa using hcolon

/-- every object of the tree spells its names differently -/
def Unrepeated (t : Tree) : Prop := ∀ names ∈ objects t, (names.map spelling).Nodup

/-- the scanner finds nothing up to the end of the tree just when nothing is repeated in it -/
def ScansTo (t : Tree) : Prop :=
  ∀ stack rest, NoColon rest → (scan stack none (render t ++ rest) = none ↔ Unrepeated t ∧ scan stack none rest = none)

theorem scan_items {items : List (Item Tree)} (h : ∀ item ∈ items, ScansTo item.value) (text : JsString) :
    scan stack none ([comma].intercalate (items.map Item.text) ++ closeBracket :: text) = none ↔
      (∀ item ∈ items, Unrepeated item.value) ∧ scan stack none (closeBracket :: text) = none := by
  induction items with
  | nil => simp
  | cons item items ih =>
    have hitem := h item List.mem_cons_self
    cases items with
    | nil =>
      rw [List.map_cons, List.map_nil, List.intercalate_singleton, Item.text, List.append_assoc, List.append_assoc,
        scan_plain (plain_ws item.pre), hitem stack _ (noColon_ws item.post text (by decide) (by decide)),
        scan_plain (plain_ws item.post)]
      simp
    | cons next items =>
      rw [join_cons, Item.text, List.append_assoc, List.append_assoc, List.append_assoc, List.cons_append,
        scan_plain (plain_ws item.pre), hitem stack _ (noColon_ws item.post _ (by decide) (by decide)),
        scan_plain (plain_ws item.post), scan_comma, ih fun x hx => h x (List.mem_cons_of_mem item hx),
        List.forall_mem_cons (a := item), and_assoc]

/-- a member is in order when its key is new and its value is in order -/
theorem scan_member {m : Member Tree} (h : ScansTo m.value) (keys : List JsString) {tail : JsString}
    (htail : NoColon (m.post.1 ++ tail)) :
    scan (⟨true, keys⟩ :: stack) none (m.text ++ tail) = none ↔
      (spelling m.name ∉ keys ∧ Unrepeated m.value) ∧ scan (⟨true, spelling m.name :: keys⟩ :: stack) none tail = none := by
  have htext : m.text ++ tail = m.pre.1 ++ (quoted m.name ++ (m.mid.1 ++ colonMark ::
      (m.before.1 ++ (render m.value ++ (m.post.1 ++ tail))))) := by
    simp [Member.text]
  have hkey : ∀ text : JsString, closeString (⟨true, keys⟩ :: stack) (spelling m.name) (m.mid.1 ++ colonMark :: text) =
      if spelling m.name ∈ keys then none else some (⟨true, spelling m.name :: keys⟩ :: stack) := by
    intro text
    rw [closeString, dropWhile_ws m.mid text (by decide)]
    simp
  rw [htext, scan_plain (plain_ws m.pre), scan_quoted, hkey]
  by_cases hseen : spelling m.name ∈ keys
  · simp [hseen]
  · rw [if_neg hseen]
    simp only
    rw [scan_plain (plain_ws m.mid), scan_colon, scan_plain (plain_ws m.before), h _ _ htail, scan_plain (plain_ws m.post)]
    simp [hseen]

theorem scan_close (frame : DuplicateKeyFrame) (text : JsString) :
    scan (frame :: stack) none (closeBrace :: text) = scan stack none text ∧
      scan (frame :: stack) none (closeBracket :: text) = scan stack none text := by
  constructor
  · rw [scan.eq_def]
    simp [closeBrace, quoteMark, openBrace, openBracket]
  · rw [scan.eq_def]
    simp [closeBracket, quoteMark, openBrace, openBracket]

theorem scan_members {members : List (Member Tree)} (h : ∀ m ∈ members, ScansTo m.value) (keys : List JsString)
    (text : JsString) :
    scan (⟨true, keys⟩ :: stack) none ([comma].intercalate (members.map Member.text) ++ closeBrace :: text) = none ↔
      ((members.map fun m => spelling m.name).Nodup ∧ (∀ m ∈ members, spelling m.name ∉ keys) ∧
        ∀ m ∈ members, Unrepeated m.value) ∧ scan stack none text = none := by
  induction members generalizing keys with
  | nil =>
    rw [List.map_nil, List.intercalate_nil, List.nil_append, (scan_close _ text).1]
    simp
  | cons m members ih =>
    have hm := h m List.mem_cons_self
    have ih := ih (fun x hx => h x (List.mem_cons_of_mem m hx)) (spelling m.name :: keys)
    have hfresh : (∀ x ∈ members, spelling x.name ∉ spelling m.name :: keys) ↔
        spelling m.name ∉ (members.map fun x => spelling x.name) ∧ ∀ x ∈ members, spelling x.name ∉ keys := by
      simp only [List.mem_cons, not_or, List.mem_map, not_exists, not_and, forall_and]
    rw [hfresh] at ih
    rw [List.map_cons (f := fun m : Member Tree => spelling m.name), List.nodup_cons, List.forall_mem_cons,
      List.forall_mem_cons]
    cases members with
    | nil =>
      rw [List.map_cons, List.map_nil, List.intercalate_singleton,
        scan_member hm keys (noColon_ws m.post text (by decide) (by decide)), (scan_close _ text).1]
      simp
    | cons next members =>
      rw [join_cons, List.append_assoc, List.cons_append,
        scan_member hm keys (noColon_ws m.post _ (by decide) (by decide)), scan_comma, ih]
      tauto

theorem unrepeated_array (ws : Ws) (items : List (Item Tree)) :
    Unrepeated (.array ws items) ↔ ∀ item ∈ items, Unrepeated item.value := by
  unfold Unrepeated
  rw [objects_array]
  simp only [List.mem_flatMap, forall_exists_index, and_imp]
  exact ⟨fun h item hitem names hnames => h names item hitem hnames, fun h names item hitem hnames => h item hitem names hnames⟩

theorem unrepeated_object (ws : Ws) (members : List (Member Tree)) :
    Unrepeated (.object ws members) ↔
      (members.map fun m => spelling m.name).Nodup ∧ ∀ m ∈ members, Unrepeated m.value := by
  unfold Unrepeated
  rw [objects_object, List.forall_mem_cons, List.map_map]
  simp only [List.mem_flatMap, forall_exists_index, and_imp]
  exact and_congr Iff.rfl
    ⟨fun h m hm names hnames => h names m hm hnames, fun h names m hm hnames => h m hm names hnames⟩

/-- **Values.** Every value is scanned through, unless a name is repeated in it. -/
theorem scansTo (t : Tree) : ScansTo t := by
  have hleaf : ∀ t : Tree, objects t = [] → (∀ u ∈ render t, isPlain u = true) → ScansTo t := by
    intro t hobjects hplain stack rest _
    rw [scan_plain hplain]
    simp [Unrepeated, hobjects]
  induction t using Tree.ind with
  | null => exact hleaf .null rfl (by decide)
  | bool b => exact hleaf (.bool b) rfl (by cases b <;> decide)
  | number lexeme h => exact hleaf (.number lexeme h) rfl fun u hu => plain_number (isNumber_units h u hu)
  | string pieces =>
    intro stack rest hrest
    rw [render, scan_quoted, closeString_value _ hrest]
    simp [Unrepeated, objects]
  | array ws items ih =>
    intro stack rest _
    have hopen : ∀ text : JsString, scan stack none (openBracket :: text) = scan (⟨false, []⟩ :: stack) none text := by
      intro text
      rw [scan.eq_def]
      simp [quoteMark, openBrace, openBracket]
    rw [render_array, List.append_assoc, List.cons_append, List.cons_append, List.append_assoc, List.singleton_append, hopen,
      scan_plain (plain_ws ws), scan_items ih, (scan_close _ rest).2, unrepeated_array]
  | object ws members ih =>
    intro stack rest _
    have hopen : ∀ text : JsString, scan stack none (openBrace :: text) = scan (⟨true, []⟩ :: stack) none text := by
      intro text
      rw [scan.eq_def]
      simp [quoteMark, openBrace]
    rw [render_object, List.append_assoc, List.cons_append, List.cons_append, List.append_assoc, List.singleton_append, hopen,
      scan_plain (plain_ws ws), scan_members ih, unrepeated_object]
    simp

end

/-- **The scanner.** On a JSON text it finds a key just when some object spells a name twice. -/
theorem detect_iff (pre post : Ws) (t : Tree) :
    detectDuplicateKey (pre.1 ++ render t ++ post.1) ≠ none ↔ RepeatsName spelling t := by
  have hend : NoColon post.1 := by
    have hall : post.1.dropWhile JsString.isSpace = [] := by
      rw [List.dropWhile_eq_nil_iff]
      exact fun y hy => isSpace_of_isWs (post.2 y hy)
    simp [NoColon, hall]
  have hdone : scan [] none post.1 = none := by
    have hplain : scan [] none (post.1 ++ []) = scan [] none [] := scan_plain (plain_ws post)
    rw [List.append_nil] at hplain
    exact hplain
  rw [detectDuplicateKey, List.append_assoc, scan_plain (plain_ws pre), Ne, scansTo t [] post.1 hend, hdone]
  simp [RepeatsName, Unrepeated]

/-- **Duplicate keys.** The scanner answers for the names as JSON.parse reads them just when these repeat nowhere, or
some object spells a name twice. -/
theorem detect_exact_iff (pre post : Ws) (t : Tree) :
    (detectDuplicateKey (pre.1 ++ render t ++ post.1) ≠ none ↔ RepeatsName decode t) ↔
      (RepeatsName decode t → RepeatsName spelling t) := by
  rw [detect_iff]
  constructor
  · intro h
    exact h.2
  · intro h
    exact ⟨RepeatsName.decode, h⟩

/-- the letter a, spelled out and escaped -/
def rawA : Piece := .raw 0x61 rfl
def escapedA : Piece := .code 0x30 0x30 0x36 0x31 0x61 rfl

/-- `{"a":1,"\u0061":2}` -/
def twoSpellings : Tree :=
  .object noWs [⟨noWs, [rawA], noWs, noWs, .number [0x31] rfl, noWs⟩,
    ⟨noWs, [escapedA], noWs, noWs, .number [0x32] rfl, noWs⟩]

/-- nothing is found, and JSON.parse keeps the second member only -/
theorem spelled_apart : detectDuplicateKey (render twoSpellings) = none ∧ RepeatsName decode twoSpellings ∧
    jsonParse (fun lexeme => lexeme) (render twoSpellings) = some (.obj true [([0x61], .num [0x32])]) :=
  ⟨by decide, ⟨_, List.mem_cons_self, by decide⟩, by rfl⟩

end AstramemLocal.Distill.ParseSalvage
