/-
What the loader makes of the lines of the writer. `read_lines`: the lines of a record, read inside its block, fill the
object of the block with what each line gives and leave the stack of open blocks as it was up to that block.
`parseConfigYaml_configToYaml`: where no written value has a line break, the whole text is read as `parsed`.
-/
import AstramemLocal.Config.Scalars

namespace AstramemLocal.Config

open Core

/-! ## One line -/

/-- a name, which stands for itself in front of the colon -/
def isKey (key : String) : Bool := key ≠ "" && key.toList.all isWordChar

theorem isKey_char {key : String} (hkey : isKey key = true) {c : Char} (hc : c ∈ key.toList) :
    c ≠ ':' ∧ c ≠ '#' ∧ isSpace c = false := by
  simp only [isKey, Bool.and_eq_true, List.all_eq_true] at hkey
  have hword := hkey.2 c hc
  refine ⟨?_, ?_, isSpace_wordChar hword⟩
  · rintro rfl
    cases hword
  · rintro rfl
    cases hword

theorem isKey_ne_nil {key : String} (hkey : isKey key = true) : key.toList ≠ [] := by
  simp only [isKey, Bool.and_eq_true, decide_eq_true_eq] at hkey
  intro hnil
  exact hkey.1 (String.toList_inj.1 hnil)

theorem cutComment_eq_none (before : Option Char) (text : List Char) (h : '#' ∉ text) : cutComment before text = none := by
  induction text generalizing before with
  | nil => rfl
  | cons c text ih =>
    have hc : c ≠ '#' := by
      rintro rfl
      exact h List.mem_cons_self
    rw [cutComment, if_neg (by simp [hc]), ih (some c) fun hmem => h (List.mem_cons_of_mem c hmem)]
    rfl

theorem takeWhile_colon {front : List Char} (h : ∀ c ∈ front, c ≠ ':') (rest : List Char) :
    (front ++ ':' :: rest).takeWhile (· ≠ ':') = front ∧ (front ++ ':' :: rest).dropWhile (· ≠ ':') = ':' :: rest := by
  have hfront : ∀ c ∈ front, decide (c ≠ ':') = true := fun c hc => decide_eq_true (h c hc)
  rw [List.takeWhile_append_of_pos hfront, List.dropWhile_append_of_pos hfront]
  simp

/-- a line `key:` with something after it, at some indent -/
def keyLine (n : ℕ) (key : String) (rest : List Char) : List Char := pad n ++ (key.toList ++ ':' :: rest)

theorem headLine_eq (n : ℕ) (key : String) : headLine n key = keyLine n key [] := by
  simp [headLine, keyLine]

theorem valueLine_eq (n : ℕ) (key : String) (text : List Char) : valueLine n key text = keyLine n key (' ' :: text) := by
  simp [valueLine, keyLine]

theorem pad_char {n : ℕ} {c : Char} (hc : c ∈ pad n) : c = ' ' := List.eq_of_mem_replicate hc

theorem stripComment_keyLine {n : ℕ} {key : String} (hkey : isKey key = true) (rest : List Char) :
    stripComment (keyLine n key rest) = keyLine n key (stripValue {} ':' rest) := by
  have hfront : ∀ c ∈ pad n ++ key.toList, c ≠ ':' ∧ c ≠ '#' := by
    intro c hc
    rcases List.mem_append.1 hc with hc | hc
    · rw [pad_char hc]
      decide
    · have hchar := isKey_char hkey hc
      exact ⟨hchar.1, hchar.2.1⟩
  have hcut := cutComment_eq_none none (pad n ++ key.toList) fun hmem => (hfront _ hmem).2 rfl
  obtain ⟨htake, hdrop⟩ := takeWhile_colon (fun c hc => (hfront c hc).1) rest
  rw [keyLine, keyLine, ← List.append_assoc, ← List.append_assoc, stripComment]
  simp only [htake, hdrop, hcut]

theorem trimStart_pad (n : ℕ) (text : List Char) : trimStart (pad n ++ text) = trimStart text := by
  have hpad : ∀ c ∈ pad n, isSpace c = true := by
    intro c hc
    rw [pad_char hc]
    rfl
  exact List.dropWhile_append_of_pos hpad

theorem trimStart_keyLine {n : ℕ} {key : String} (hkey : isKey key = true) (rest : List Char) :
    trimStart (keyLine n key rest) = key.toList ++ ':' :: rest := by
  obtain ⟨c, cs, hcs⟩ := List.exists_cons_of_ne_nil (isKey_ne_nil hkey)
  have hc := (isKey_char hkey (c := c) (by rw [hcs]; exact List.mem_cons_self)).2.2
  rw [keyLine, trimStart_pad, hcs, List.cons_append, trimStart_word hc]

theorem parseScalar_ne_undefined {raw : List Char} (h : trim raw ≠ []) : parseScalar raw ≠ .undefined := by
  intro hundefined
  rw [parseScalar, if_neg h] at hundefined
  split_ifs at hundefined
  all_goals
    split at hundefined
    · cases hundefined
    · first | cases hundefined | (split at hundefined <;> cases hundefined)

theorem lineValue_ne_undefined (text : List Char) : lineValue text ≠ .undefined := by
  unfold lineValue
  split_ifs with h
  · intro hempty
    cases hempty
  · exact parseScalar_ne_undefined h

/-- **One line.** A line with a key puts its value, without the comment, at the key of the block it stands in. -/
theorem readLine_keyLine {n : ℕ} {key : String} (hkey : isKey key = true) (rest : List Char) (s : Reading) :
    readLine s (keyLine n key rest) =
      { root :=
          modifyAt (parentPath (s.stack.dropWhile (2 * n ≤ ·.1))) (setKey key (lineValue (stripValue {} ':' rest))) s.root
        stack :=
          if trim (stripValue {} ':' rest) = [] then
            (2 * n, parentPath (s.stack.dropWhile (2 * n ≤ ·.1)) ++ [key]) :: s.stack.dropWhile (2 * n ≤ ·.1)
          else s.stack.dropWhile (2 * n ≤ ·.1) } := by
  rw [readLine, stripComment_keyLine hkey]
  generalize stripValue {} ':' rest = value
  have hcolon : isSpace ':' = false := rfl
  have htrim : trim (keyLine n key value) = key.toList ++ ':' :: trimEnd value := by
    rw [trim, trimStart_keyLine hkey, trimEnd_append _ hcolon]
  have hindent : (keyLine n key value).length - (trimStart (keyLine n key value)).length = 2 * n := by
    rw [trimStart_keyLine hkey, keyLine, List.length_append, pad, List.length_replicate]
    omega
  obtain ⟨htake, hdrop⟩ := takeWhile_colon (fun c hc => (isKey_char hkey hc).1) (trimEnd value)
  have hword : trim key.toList = key.toList := trim_words fun c hc => (isKey_char hkey hc).2.2
  simp only [htrim, hindent, htake, hdrop, hword, String.ofList_toList]
  rw [if_neg (by simp), if_neg (isKey_ne_nil hkey), trim_trimEnd, lineValue]
  by_cases hblank : trim value = []
  · rw [if_pos hblank, if_pos hblank, if_pos hblank]
  · rw [if_neg hblank, if_neg hblank, if_neg hblank, parseScalar_trim (trim_trimEnd value)]
    split
    · next hundefined => exact absurd hundefined (parseScalar_ne_undefined hblank)
    · rfl

theorem lineValue_space (text : List Char) : lineValue (' ' :: text) = lineValue text := by
  have htrim : trim (' ' :: text) = trim text := trim_space rfl text
  rw [lineValue, htrim, parseScalar_trim htrim, lineValue]

/-! ## The object of a block -/

theorem modifyAt_id (path : List String) (v : PlainValue) : modifyAt path id v = v := by
  induction path generalizing v with
  | nil => rfl
  | cons key path ih =>
    cases v with
    | obj get => rw [modifyAt, ih, Function.update_eq_self]
    | _ => rfl

theorem modifyAt_modifyAt (path : List String) (f g : PlainValue → PlainValue) (v : PlainValue) :
    modifyAt path g (modifyAt path f v) = modifyAt path (g ∘ f) v := by
  induction path generalizing v with
  | nil => rfl
  | cons key path ih =>
    cases v with
    | obj get => rw [modifyAt, modifyAt, modifyAt, Function.update_self, ih, Function.update_idem]
    | _ => rfl

/-- what is done inside a block that was just opened is done to the empty object -/
theorem modifyAt_opened (path : List String) (key : String) (f : PlainValue → PlainValue) (v : PlainValue) :
    modifyAt (path ++ [key]) f (modifyAt path (setKey key .empty) v) = modifyAt path (setKey key (f .empty)) v := by
  induction path generalizing v with
  | nil =>
    cases v with
    | obj get => simp [modifyAt, setKey]
    | _ => rfl
  | cons first path ih =>
    cases v with
    | obj get => rw [List.cons_append, modifyAt, modifyAt, modifyAt, Function.update_self, ih, Function.update_idem]
    | _ => rfl

theorem dropWhile_dropWhile {α : Type} {p q : α → Bool} (h : ∀ a, p a = true → q a = true) (l : List α) :
    (l.dropWhile p).dropWhile q = l.dropWhile q := by
  induction l with
  | nil => rfl
  | cons a l ih =>
    cases hp : p a with
    | true => rw [List.dropWhile_cons_of_pos hp, ih, List.dropWhile_cons_of_pos (h a hp)]
    | false => rw [List.dropWhile_cons_of_neg (by simp [hp])]

namespace Fields

/-- the keys are names, no record has one twice -/
def wellKeyed : {C : Type} → Fields C → List String → Bool
  | _, .nil, _ => true
  | _, .blank rest, seen => rest.wellKeyed seen
  | _, .setting key _ rest, seen => isKey key && key ∉ seen && rest.wellKeyed (key :: seen)
  | _, .block key _ _ inner rest, seen =>
    isKey key && key ∉ seen && inner.wellKeyed [] && rest.wellKeyed (key :: seen)

/-- what the lines of a record do to the object of its block -/
def fill : {C : Type} → Fields C → C → PlainValue → PlainValue
  | _, .nil, _, v => v
  | _, .blank rest, c, v => rest.fill c v
  | _, .setting key how rest, c, v => rest.fill c ((how.text c).elim v fun text => setKey key (lineValue text) v)
  | _, .block key get fallback inner rest, c, v =>
    rest.fill c ((written (get c) fallback).elim v fun d => setKey key (inner.fill d .empty) v)

end Fields

theorem Setting.text_uncommented {C : Type} {how : Setting C} {c : C} {text : List Char} (h : how.text c = some text) :
    Uncommented text := by
  cases how with
  | always get =>
    obtain rfl := Option.some.inj h
    exact scalar_uncommented _
  | orElse get fallback =>
    obtain rfl := Option.some.inj h
    exact scalar_uncommented _
  | ifDefined get =>
    obtain ⟨v, -, rfl⟩ := Option.map_eq_some_iff.1 h
    exact scalar_uncommented v
  | ifTruthy get =>
    simp only [Setting.text] at h
    split at h
    · split_ifs at h
      obtain rfl := Option.some.inj h
      exact scalar_uncommented _
    · cases h
  | ifNonempty get =>
    simp only [Setting.text] at h
    split_ifs at h with hempty
    obtain rfl := Option.some.inj h
    exact strings_uncommented _ hempty
  | never get => cases h

theorem dropWhile_opened (n : ℕ) (path : List String) (stack : List (ℕ × List String)) :
    ((2 * n, path) :: stack.dropWhile (2 * n ≤ ·.1)).dropWhile (2 * n ≤ ·.1) = stack.dropWhile (2 * n ≤ ·.1) := by
  rw [List.dropWhile_cons_of_pos (by simp), dropWhile_dropWhile fun _ h => h]

theorem readLine_valueLine {n : ℕ} {key : String} (hkey : isKey key = true) {text : List Char} (htext : Uncommented text)
    (s : Reading) :
    (readLine s (valueLine n key text)).root
        = modifyAt (parentPath (s.stack.dropWhile (2 * n ≤ ·.1))) (setKey key (lineValue text)) s.root ∧
      (readLine s (valueLine n key text)).stack.dropWhile (2 * n ≤ ·.1) = s.stack.dropWhile (2 * n ≤ ·.1) := by
  rw [valueLine_eq, readLine_keyLine hkey, htext, lineValue_space]
  refine ⟨rfl, ?_⟩
  dsimp only
  split
  · exact dropWhile_opened n _ s.stack
  · exact dropWhile_dropWhile (fun _ h => h) s.stack

theorem readLine_headLine {n : ℕ} {key : String} (hkey : isKey key = true) (s : Reading) :
    readLine s (headLine n key) =
      { root := modifyAt (parentPath (s.stack.dropWhile (2 * n ≤ ·.1))) (setKey key .empty) s.root
        stack := (2 * n, parentPath (s.stack.dropWhile (2 * n ≤ ·.1)) ++ [key]) :: s.stack.dropWhile (2 * n ≤ ·.1) } := by
  rw [headLine_eq, readLine_keyLine hkey]
  rfl

/-- **The lines of a record.** Read inside the record's block they fill its object, and leave the blocks around it open. -/
theorem read_lines {C : Type} (fs : Fields C) {seen : List String} (hkeys : fs.wellKeyed seen = true) (c : C) (n : ℕ) (s : Reading) :
    ((fs.lines n c).foldl readLine s).root
        = modifyAt (parentPath (s.stack.dropWhile (2 * n ≤ ·.1))) (fs.fill c) s.root ∧
      ((fs.lines n c).foldl readLine s).stack.dropWhile (2 * n ≤ ·.1) = s.stack.dropWhile (2 * n ≤ ·.1) := by
  induction fs generalizing seen n s with
  | nil => exact ⟨(modifyAt_id _ _).symm, rfl⟩
  | blank rest ih => exact ih hkeys c n s
  | setting key how rest ih =>
    simp only [Fields.wellKeyed, Bool.and_eq_true] at hkeys
    simp only [Fields.lines, Fields.fill]
    cases htext : how.text c with
    | none => exact ih hkeys.2 c n s
    | some text =>
      obtain ⟨hroot, hstack⟩ := readLine_valueLine hkeys.1.1 (how.text_uncommented htext) (n := n) s
      obtain ⟨hrest, hkept⟩ := ih hkeys.2 c n (readLine s (valueLine n key text))
      rw [hstack] at hrest hkept
      rw [hroot, modifyAt_modifyAt] at hrest
      exact ⟨hrest, hkept⟩
  | block key get fallback inner rest ihinner ihrest =>
    simp only [Fields.wellKeyed, Bool.and_eq_true] at hkeys
    simp only [Fields.lines, Fields.fill]
    cases Fields.written (get c) fallback with
    | none => exact ihrest hkeys.2 c n s
    | some d =>
      -- inside the block its own entry is the innermost one
      obtain ⟨hinner, hopen⟩ := ihinner hkeys.1.2 d (n + 1) (readLine s (headLine n key))
      have hentry : ∀ path (stack : List (ℕ × List String)),
          ((2 * n, path) :: stack).dropWhile (2 * (n + 1) ≤ ·.1) = (2 * n, path) :: stack := by
        intro path stack
        exact List.dropWhile_cons_of_neg (by simp)
      have hhead := readLine_headLine hkeys.1.1.1 (n := n) s
      obtain ⟨s', hs'⟩ : ∃ s', (inner.lines (n + 1) d).foldl readLine (readLine s (headLine n key)) = s' := ⟨_, rfl⟩
      rw [hs', hhead, hentry] at hinner hopen
      simp only [parentPath, List.head?_cons, Option.map_some, Option.getD_some, modifyAt_opened] at hinner
      simp only [List.cons_append, List.foldl_cons, List.foldl_append, hs']
      -- the next line of the record closes it
      have hclosed : s'.stack.dropWhile (2 * n ≤ ·.1) = s.stack.dropWhile (2 * n ≤ ·.1) := by
        have houter : ∀ entry : ℕ × List String, decide (2 * (n + 1) ≤ entry.1) = true → decide (2 * n ≤ entry.1) = true := by
          intro entry h
          have hle := of_decide_eq_true h
          exact decide_eq_true (by omega)
        rw [← dropWhile_dropWhile houter, hopen, dropWhile_opened]
      obtain ⟨hrest, hkept⟩ := ihrest hkeys.2 c n s'
      rw [hclosed] at hrest hkept
      rw [hinner] at hrest
      exact ⟨hrest.trans (modifyAt_modifyAt _ _ _ _), hkept⟩

/-! ## The whole text -/

namespace Fields

/-- the members of the object a record is read as -/
def parsed : {C : Type} → Fields C → C → String → PlainValue
  | _, .nil, _ => fun _ => .undefined
  | _, .blank rest, c => rest.parsed c
  | _, .setting key how rest, c => Function.update (rest.parsed c) key ((how.text c).elim .undefined lineValue)
  | _, .block key get fallback inner rest, c =>
    Function.update (rest.parsed c) key (optional (fun d => .obj (inner.parsed d)) (written (get c) fallback))

/-- no text of the record has a line break in it -/
def unbroken : {C : Type} → Fields C → C → Prop
  | _, .nil, _ => True
  | _, .blank rest, c => rest.unbroken c
  | _, .setting _ how rest, c => (∀ text ∈ how.text c, '\n' ∉ text) ∧ rest.unbroken c
  | _, .block _ get fallback inner rest, c => (∀ d ∈ written (get c) fallback, inner.unbroken d) ∧ rest.unbroken c

end Fields

theorem parsed_seen {C : Type} (fs : Fields C) {seen : List String} (hkeys : fs.wellKeyed seen = true) (c : C) {k : String}
    (hk : k ∈ seen) : fs.parsed c k = .undefined := by
  induction fs generalizing seen with
  | nil => rfl
  | blank rest ih => exact ih hkeys c hk
  | setting key how rest ih =>
    simp only [Fields.wellKeyed, Bool.and_eq_true, decide_eq_true_eq] at hkeys
    rw [Fields.parsed, Function.update_of_ne (ne_of_mem_of_not_mem hk hkeys.1.2)]
    exact ih hkeys.2 c (List.mem_cons_of_mem key hk)
  | block key get fallback inner rest _ ih =>
    simp only [Fields.wellKeyed, Bool.and_eq_true, decide_eq_true_eq] at hkeys
    rw [Fields.parsed, Function.update_of_ne (ne_of_mem_of_not_mem hk hkeys.1.1.2)]
    exact ih hkeys.2 c (List.mem_cons_of_mem key hk)

theorem members_seen {C : Type} (fs : Fields C) {seen : List String} (hkeys : fs.wellKeyed seen = true) (c : C) {k : String}
    (hk : k ∈ seen) : fs.members c k = .undefined := by
  induction fs generalizing seen with
  | nil => rfl
  | blank rest ih => exact ih hkeys c hk
  | setting key how rest ih =>
    simp only [Fields.wellKeyed, Bool.and_eq_true, decide_eq_true_eq] at hkeys
    rw [Fields.members, Function.update_of_ne (ne_of_mem_of_not_mem hk hkeys.1.2)]
    exact ih hkeys.2 c (List.mem_cons_of_mem key hk)
  | block key get fallback inner rest _ ih =>
    simp only [Fields.wellKeyed, Bool.and_eq_true, decide_eq_true_eq] at hkeys
    rw [Fields.members, Function.update_of_ne (ne_of_mem_of_not_mem hk hkeys.1.1.2)]
    exact ih hkeys.2 c (List.mem_cons_of_mem key hk)

/-- what is put at `key` and then at the keys after it -/
theorem after_update {seen : List String} {key : String} (hkey : key ∉ seen) (g p : String → PlainValue) (v : PlainValue) :
    (fun k => if k ∈ key :: seen then Function.update g key v k else p k)
      = fun k => if k ∈ seen then g k else Function.update p key v k := by
  funext k
  by_cases hk : k = key
  · subst hk
    simp [hkey]
  · simp [hk]

theorem fill_obj {C : Type} (fs : Fields C) {seen : List String} (hkeys : fs.wellKeyed seen = true) (c : C)
    {g : String → PlainValue} (hg : ∀ k, k ∉ seen → g k = .undefined) :
    fs.fill c (.obj g) = .obj fun k => if k ∈ seen then g k else fs.parsed c k := by
  induction fs generalizing seen g with
  | nil =>
    refine congrArg PlainValue.obj (funext fun k => ?_)
    by_cases hk : k ∈ seen
    · rw [if_pos hk]
    · rw [if_neg hk, hg k hk]
      rfl
  | blank rest ih => exact ih hkeys c hg
  | setting key how rest ih =>
    simp only [Fields.wellKeyed, Bool.and_eq_true, decide_eq_true_eq] at hkeys
    have hput : (how.text c).elim (.obj g) (fun text => setKey key (lineValue text) (.obj g))
        = .obj (Function.update g key ((how.text c).elim .undefined lineValue)) := by
      cases how.text c with
      | none => rw [Option.elim_none, Option.elim_none, ← hg key hkeys.1.2, Function.update_eq_self]
      | some text => rfl
    rw [Fields.fill, hput, ih hkeys.2 c]
    · rw [after_update hkeys.1.2, Fields.parsed]
    · intro k hk
      rw [List.mem_cons, not_or] at hk
      rw [Function.update_of_ne hk.1, hg k hk.2]
  | block key get fallback inner rest ihinner ih =>
    simp only [Fields.wellKeyed, Bool.and_eq_true, decide_eq_true_eq] at hkeys
    have hinner : ∀ d, inner.fill d .empty = .obj (inner.parsed d) := by
      intro d
      rw [PlainValue.empty, ihinner hkeys.1.2 d fun _ _ => rfl]
      simp
    have hput : (Fields.written (get c) fallback).elim (.obj g) (fun d => setKey key (inner.fill d .empty) (.obj g))
        = .obj (Function.update g key (optional (fun d => .obj (inner.parsed d)) (Fields.written (get c) fallback))) := by
      cases Fields.written (get c) fallback with
      | none => rw [Option.elim_none, optional, ← hg key hkeys.1.1.2, Function.update_eq_self]
      | some d => rw [Option.elim_some, hinner]; rfl
    rw [Fields.fill, hput, ih hkeys.2 c]
    · rw [after_update hkeys.1.1.2, Fields.parsed]
    · intro k hk
      rw [List.mem_cons, not_or] at hk
      rw [Function.update_of_ne hk.1, hg k hk.2]

theorem keyLine_unbroken {n : ℕ} {key : String} (hkey : isKey key = true) {rest : List Char} (hrest : '\n' ∉ rest) :
    '\n' ∉ keyLine n key rest := by
  intro hmem
  rw [keyLine] at hmem
  rcases List.mem_append.1 hmem with hmem | hmem
  · cases pad_char hmem
  rcases List.mem_append.1 hmem with hmem | hmem
  · have hspace := (isKey_char hkey hmem).2.2
    cases hspace
  rcases List.mem_cons.1 hmem with hcolon | hmem
  · cases hcolon
  · exact hrest hmem

theorem lines_unbroken {C : Type} (fs : Fields C) {seen : List String} (hkeys : fs.wellKeyed seen = true) {c : C}
    (h : fs.unbroken c) (n : ℕ) : ∀ l ∈ fs.lines n c, '\n' ∉ l := by
  induction fs generalizing seen n with
  | nil =>
    intro l hl
    cases hl
  | blank rest ih =>
    intro l hl
    rcases List.mem_cons.1 hl with rfl | hl
    · simp
    · exact ih hkeys h n l hl
  | setting key how rest ih =>
    simp only [Fields.wellKeyed, Bool.and_eq_true] at hkeys
    intro l hl
    rcases List.mem_append.1 hl with hl | hl
    · simp only [Option.mem_toList, Option.map_eq_some_iff] at hl
      obtain ⟨text, htext, rfl⟩ := hl
      rw [valueLine_eq]
      apply keyLine_unbroken hkeys.1.1
      intro hmem
      rcases List.mem_cons.1 hmem with hspace | hmem
      · cases hspace
      · exact h.1 text htext hmem
    · exact ih hkeys.2 h.2 n l hl
  | block key get fallback inner rest ihinner ih =>
    simp only [Fields.wellKeyed, Bool.and_eq_true] at hkeys
    obtain ⟨hinner, hrest⟩ := h
    intro l hl
    rw [Fields.lines] at hl
    cases hwritten : Fields.written (get c) fallback with
    | none =>
      rw [hwritten] at hl
      exact ih hkeys.2 hrest n l hl
    | some d =>
      rw [hwritten] at hl
      rcases List.mem_append.1 hl with hl | hl
      · rcases List.mem_cons.1 hl with rfl | hl
        · rw [headLine_eq]
          exact keyLine_unbroken hkeys.1.1.1 (by simp)
        · exact ihinner hkeys.1.2 (hinner d hwritten) (n + 1) l hl
      · exact ih hkeys.2 hrest n l hl

/-- a record is read from the empty object as `parsed` -/
theorem fill_empty {C : Type} (fs : Fields C) (hkeys : fs.wellKeyed [] = true) (c : C) :
    fs.fill c .empty = .obj (fs.parsed c) := by
  rw [PlainValue.empty, fill_obj fs hkeys c fun _ _ => rfl]
  simp

theorem configFields_wellKeyed : configFields.wellKeyed [] = true := by decide +kernel

theorem readLine_comment (s : Reading) (text : List Char) (h : ':' ∉ text) : readLine s ('#' :: text) = s := by
  have htake : ('#' :: text).takeWhile (· ≠ ':') = '#' :: text := by
    rw [List.takeWhile_eq_self_iff]
    intro c hc
    rcases List.mem_cons.1 hc with rfl | hc
    · rfl
    · exact decide_eq_true fun heq => h (heq ▸ hc)
  have hstrip : stripComment ('#' :: text) = [] := by
    rw [stripComment]
    simp only [htake]
    rfl
  rw [readLine, hstrip]
  rfl

/-- **The whole text.** Where no value has a line break, the text is read as what its lines give. -/
theorem parseConfigYaml_configToYaml {cfg : Config} (h : configFields.unbroken cfg) :
    parseConfigYaml (configToYaml cfg) = .obj (configFields.parsed cfg) := by
  have hlines := lines_unbroken configFields configFields_wellKeyed h 0
  have hsplit : (configToYaml cfg).splitOn '\n'
      = "# AstraMemory Local — config.yaml".toList ::
        "# Generated by `astramem-local init`. Edit manually or re-run init.".toList :: [] :: configFields.lines 0 cfg := by
    apply List.splitOn_intercalate
    · intro l hl
      rcases List.mem_cons.1 hl with rfl | hl
      · decide
      rcases List.mem_cons.1 hl with rfl | hl
      · decide
      rcases List.mem_cons.1 hl with rfl | hl
      · simp
      · exact hlines l hl
    · simp
  obtain ⟨hroot, -⟩ := read_lines configFields configFields_wellKeyed cfg 0 ⟨.empty, []⟩
  simp only [List.dropWhile_nil, parentPath, List.head?_nil, Option.map_none, Option.getD_none, modifyAt] at hroot
  have hfirst : readLine ⟨.empty, []⟩ "# AstraMemory Local — config.yaml".toList = ⟨.empty, []⟩ :=
    readLine_comment _ _ (by decide)
  have hsecond : readLine ⟨.empty, []⟩ "# Generated by `astramem-local init`. Edit manually or re-run init.".toList
      = ⟨.empty, []⟩ := readLine_comment _ _ (by decide)
  have hblank : readLine ⟨.empty, []⟩ [] = ⟨.empty, []⟩ := rfl
  rw [parseConfigYaml, hsplit, List.foldl_cons, List.foldl_cons, List.foldl_cons, hfirst, hsecond, hblank, hroot,
    fill_empty configFields configFields_wellKeyed]

end AstramemLocal.Config
