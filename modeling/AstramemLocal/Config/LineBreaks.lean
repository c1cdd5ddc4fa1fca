/-
A line break in a written string is never read back: the text is cut into lines before anything else is looked at.
- `parseConfigYaml_unbroken`: no string of what is read has a line break in it, whatever the text is.
- `dataDir_read`: whatever the values are, something is read for `dataDir`.
- `unbroken_of_members`: a record without line breaks in its strings is written without line breaks in its values.
-/
import AstramemLocal.Config.Reading

namespace AstramemLocal.Config

open Core

/-- no string in the value, but for those in lists, has a line break -/
def Unbroken : PlainValue → Prop
  | .str s => '\n' ∉ s.toList
  | .obj get => ∀ k, Unbroken (get k)
  | _ => True

theorem deepMerge_unbroken {base overrides : PlainValue} (hbase : Unbroken base) (hover : Unbroken overrides) :
    Unbroken (deepMerge base overrides) := by
  fun_induction deepMerge base overrides with
  | case1 base overrides ih => exact fun k => ih k (hbase k) (hover k)
  | case2 existing => exact hbase
  | case3 existing value _ _ => exact hover

/-! ## What is read -/

theorem parseScalar_unbroken {raw : List Char} (h : '\n' ∉ raw) : Unbroken (parseScalar raw) := by
  have hsub := trim_sublist raw
  cases hvalue : parseScalar raw with
  | str s =>
    intro hmem
    rcases parseScalar_str hvalue with ⟨hinner, -⟩ | ⟨hself, -⟩
    · exact h (hsub.subset ((sliceInner_sublist _).subset (hinner.subset hmem)))
    · rw [hself] at hmem
      exact h (hsub.subset hmem)
  | obj get =>
    rw [parseScalar] at hvalue
    split_ifs at hvalue
    all_goals
      split at hvalue
      · cases hvalue
      · first | cases hvalue | (split at hvalue <;> cases hvalue)
  | _ => trivial

theorem setKey_unbroken {key : String} {value v : PlainValue} (hvalue : Unbroken value) (hv : Unbroken v) :
    Unbroken (setKey key value v) := by
  cases v with
  | obj get =>
    intro k
    by_cases hk : k = key
    · rw [hk, Function.update_self]
      exact hvalue
    · rw [Function.update_of_ne hk]
      exact hv k
  | _ => exact hv

theorem modifyAt_unbroken {f : PlainValue → PlainValue} (hf : ∀ v, Unbroken v → Unbroken (f v)) (path : List String)
    {v : PlainValue} (hv : Unbroken v) : Unbroken (modifyAt path f v) := by
  induction path generalizing v with
  | nil => exact hf v hv
  | cons key path ih =>
    cases v with
    | obj get => exact setKey_unbroken (ih (hv key)) hv
    | _ => exact hv

theorem stripValue_sublist (s : Scan) (before : Char) (text : List Char) : (stripValue s before text).Sublist text := by
  fun_induction stripValue s before text <;> simp_all

theorem cutComment_sublist {before : Option Char} {text kept : List Char} (h : cutComment before text = some kept) :
    kept.Sublist text := by
  induction text generalizing before kept with
  | nil => cases h
  | cons c text ih =>
    rw [cutComment] at h
    split_ifs at h
    · obtain rfl := Option.some.inj h
      exact List.nil_sublist _
    · obtain ⟨rest, hrest, rfl⟩ := Option.map_eq_some_iff.1 h
      exact (ih hrest).cons_cons c

theorem stripComment_sublist (rawLine : List Char) : (stripComment rawLine).Sublist rawLine := by
  unfold stripComment
  simp only
  split
  · next kept _ hcut => exact (cutComment_sublist hcut).trans (List.takeWhile_sublist _)
  · exact List.Sublist.refl _
  · next colon value _ hvalue =>
    have hsplit := List.takeWhile_append_dropWhile (p := fun c => decide (c ≠ ':')) (l := rawLine)
    rw [hvalue] at hsplit
    have hkept := (List.Sublist.refl (rawLine.takeWhile (· ≠ ':'))).append ((stripValue_sublist {} colon value).cons_cons colon)
    rw [hsplit] at hkept
    exact hkept

/-- a line sets one key, to an empty object or to a scalar it holds, or nothing -/
theorem readLine_cases (s : Reading) (rawLine : List Char) : (readLine s rawLine).root = s.root ∨
    ∃ path key value, value ≠ .undefined ∧
      (value = .empty ∨ ∃ rest, rest.Sublist (trim (stripComment rawLine)) ∧ value = parseScalar rest) ∧
      (readLine s rawLine).root = modifyAt path (setKey key value) s.root := by
  have hempty : PlainValue.empty ≠ .undefined := by
    intro h
    cases h
  unfold readLine
  simp only
  split
  · exact .inl rfl
  split
  · exact .inl rfl
  next colon rest hrest =>
    split
    · exact .inl rfl
    split
    · exact .inr ⟨_, _, .empty, hempty, .inl rfl, rfl⟩
    split
    · exact .inl rfl
    · next hdefined =>
      have hsub : rest.Sublist (trim (stripComment rawLine)) :=
        (List.sublist_cons_self colon rest).trans (hrest ▸ List.dropWhile_sublist _)
      exact .inr ⟨_, _, parseScalar rest, fun h => hdefined h, .inr ⟨rest, hsub, rfl⟩, rfl⟩

theorem readLine_unbroken {s : Reading} (hs : Unbroken s.root) {rawLine : List Char} (h : '\n' ∉ rawLine) :
    Unbroken (readLine s rawLine).root := by
  rcases readLine_cases s rawLine with hroot | ⟨path, key, value, -, hvalue, hroot⟩
  · rwa [hroot]
  have hunbroken : Unbroken value := by
    rcases hvalue with rfl | ⟨rest, hsub, rfl⟩
    · exact fun _ => trivial
    · apply parseScalar_unbroken
      intro hmem
      exact h ((stripComment_sublist rawLine).subset ((trim_sublist _).subset (hsub.subset hmem)))
  rw [hroot]
  exact modifyAt_unbroken (fun _ hv => setKey_unbroken hunbroken hv) path hs

theorem not_mem_of_mem_splitOn {text l : List Char} (hl : l ∈ text.splitOn '\n') : '\n' ∉ l := by
  induction text generalizing l with
  | nil =>
    have hnil : l = [] := by simpa using hl
    simp [hnil]
  | cons c text ih =>
    rw [List.splitOn_cons_eq_if_modifyHead] at hl
    split at hl
    · rcases List.mem_cons.1 hl with rfl | hl
      · simp
      · exact ih hl
    · next hc =>
      obtain ⟨first, others, hsplit⟩ := List.exists_cons_of_ne_nil (List.splitOn_ne_nil '\n' text)
      rw [hsplit] at hl ih
      rcases List.mem_cons.1 hl with rfl | hl
      · intro hmem
        rcases List.mem_cons.1 hmem with heq | hmem
        · exact hc (by simp [← heq])
        · exact ih List.mem_cons_self hmem
      · exact ih (List.mem_cons_of_mem first hl)

/-- no string of what is read has a line break -/
theorem parseConfigYaml_unbroken (text : List Char) : Unbroken (parseConfigYaml text) := by
  have hrun : ∀ (ls : List (List Char)) (s : Reading), (∀ l ∈ ls, '\n' ∉ l) → Unbroken s.root →
      Unbroken (ls.foldl readLine s).root := by
    intro ls
    induction ls with
    | nil =>
      intro s _ hs
      exact hs
    | cons l ls ih =>
      intro s hls hs
      exact ih (readLine s l) (fun m hm => hls m (List.mem_cons_of_mem l hm))
        (readLine_unbroken hs (hls l List.mem_cons_self))
  exact hrun _ _ (fun _ hl => not_mem_of_mem_splitOn hl) fun _ => trivial

/-! ## The data directory -/

/-- at the root the key has a value -/
def Present (key : String) (v : PlainValue) : Prop := ∃ get, v = .obj get ∧ get key ≠ .undefined

theorem modifyAt_ne_undefined (path : List String) (key : String) (value : PlainValue) {v : PlainValue} (hv : v ≠ .undefined) :
    modifyAt path (setKey key value) v ≠ .undefined := by
  cases path with
  | nil => cases v <;> first | exact hv | exact fun h => nomatch h
  | cons first path => cases v <;> first | exact hv | exact fun h => nomatch h

theorem modifyAt_present {key : String} (path : List String) (key' : String) {value : PlainValue} (hvalue : value ≠ .undefined)
    {v : PlainValue} (hv : Present key v) : Present key (modifyAt path (setKey key' value) v) := by
  obtain ⟨get, rfl, hget⟩ := hv
  cases path with
  | nil =>
    refine ⟨_, rfl, ?_⟩
    by_cases hk : key = key'
    · rw [hk, Function.update_self]
      exact hvalue
    · rw [Function.update_of_ne hk]
      exact hget
  | cons first path =>
    refine ⟨_, rfl, ?_⟩
    by_cases hk : key = first
    · subst hk
      rw [Function.update_self]
      exact modifyAt_ne_undefined path key' value hget
    · rw [Function.update_of_ne hk]
      exact hget

theorem readLine_present {key : String} {s : Reading} (hs : Present key s.root) (rawLine : List Char) :
    Present key (readLine s rawLine).root := by
  rcases readLine_cases s rawLine with hroot | ⟨path, key', value, hdefined, -, hroot⟩
  · rwa [hroot]
  · rw [hroot]
    exact modifyAt_present path key' hdefined hs

theorem foldl_present {key : String} (ls : List (List Char)) {s : Reading} (hs : Present key s.root) :
    Present key (ls.foldl readLine s).root := by
  induction ls generalizing s with
  | nil => exact hs
  | cons l ls ih => exact ih (readLine_present hs l)

theorem splitOn_intercalate_lines (l : List Char) (ls : List (List Char)) :
    (['\n'].intercalate (l :: ls)).splitOn '\n' = (l :: ls).flatMap (·.splitOn '\n') := by
  induction ls generalizing l with
  | nil => simp
  | cons m ls ih =>
    have hcons : ['\n'].intercalate (l :: m :: ls) = l ++ '\n' :: ['\n'].intercalate (m :: ls) := by
      rw [List.intercalate_cons_cons, List.append_assoc]
      rfl
    rw [hcons, List.splitOn_append_cons_self, ih]
    rfl

/-- the first piece of a text keeps what the text starts with -/
theorem splitOn_front {front : List Char} (h : '\n' ∉ front) (text : List Char) :
    ∃ first others, (front ++ text).splitOn '\n' = (front ++ first) :: others := by
  induction front with
  | nil =>
    obtain ⟨first, others, hsplit⟩ := List.exists_cons_of_ne_nil (List.splitOn_ne_nil '\n' text)
    exact ⟨first, others, hsplit⟩
  | cons c front ih =>
    obtain ⟨first, others, hsplit⟩ := ih fun hmem => h (List.mem_cons_of_mem c hmem)
    have hc : ¬(c == '\n') = true := by
      intro heq
      apply h
      rw [eq_of_beq heq]
      exact List.mem_cons_self
    refine ⟨first, others, ?_⟩
    rw [List.cons_append, List.splitOn_cons_eq_if_modifyHead, if_neg hc, hsplit]
    rfl

/-- a line `key: text` at the root, whatever `text` is, and all that comes after it -/
theorem valueLine_present {key : String} (hkey : isKey key = true) (text : List Char) {s : Reading}
    (hs : ∃ get, s.root = .obj get) : Present key (((valueLine 0 key text).splitOn '\n').foldl readLine s).root := by
  obtain ⟨get, hroot⟩ := hs
  have hfront : '\n' ∉ keyLine 0 key [] := keyLine_unbroken hkey (by simp)
  obtain ⟨first, others, hsplit⟩ := splitOn_front hfront (' ' :: text)
  have hline : valueLine 0 key text = keyLine 0 key [] ++ ' ' :: text := by
    rw [valueLine_eq]
    simp [keyLine]
  have hfirst : keyLine 0 key [] ++ first = keyLine 0 key first := by simp [keyLine]
  rw [hline, hsplit, hfirst, List.foldl_cons]
  apply foldl_present
  have hroots : s.stack.dropWhile (2 * 0 ≤ ·.1) = [] := by simp
  rw [readLine_keyLine hkey, hroots, hroot]
  refine ⟨_, rfl, ?_⟩
  rw [Function.update_self]
  exact lineValue_ne_undefined _

theorem modifyAt_object (path : List String) (key : String) (value : PlainValue) (get : String → PlainValue) :
    ∃ get', modifyAt path (setKey key value) (.obj get) = .obj get' := by
  cases path with
  | nil => exact ⟨_, rfl⟩
  | cons first path => exact ⟨_, rfl⟩

theorem readLine_object {s : Reading} (hs : ∃ get, s.root = .obj get) (rawLine : List Char) :
    ∃ get, (readLine s rawLine).root = .obj get := by
  obtain ⟨get, hroot⟩ := hs
  rcases readLine_cases s rawLine with hsame | ⟨path, key, value, -, -, hset⟩
  · exact ⟨get, hsame.trans hroot⟩
  · rw [hset, hroot]
    exact modifyAt_object path key value get

theorem foldl_object (ls : List (List Char)) {s : Reading} (hs : ∃ get, s.root = .obj get) :
    ∃ get, (ls.foldl readLine s).root = .obj get := by
  induction ls generalizing s with
  | nil => exact hs
  | cons l ls ih => exact ih (readLine_object hs l)

/-- whatever the values are, something is read for `dataDir` -/
theorem dataDir_read (cfg : Config) : Present "dataDir" (parseConfigYaml (configToYaml cfg)) := by
  obtain ⟨more, hlines⟩ : ∃ more, configFields.lines 0 cfg
      = valueLine 0 "port" cfg.port.text :: valueLine 0 "dataDir" (yamlScalar (.str cfg.dataDir)) :: more := ⟨_, rfl⟩
  rw [parseConfigYaml, configToYaml, hlines, splitOn_intercalate_lines]
  simp only [List.flatMap_cons, List.foldl_append]
  apply foldl_present
  apply valueLine_present rfl
  apply foldl_object
  apply foldl_object
  apply foldl_object
  apply foldl_object
  exact ⟨_, rfl⟩

/-! ## What is written -/

theorem yamlScalar_unbroken {v : Scalar} (h : Unbroken v.value) : '\n' ∉ yamlScalar v := by
  cases v with
  | null => decide
  | bool b => cases b <;> decide
  | num n => exact fun hmem => (numberChar_facts (n.text_chars _ hmem)).2.2.2.2 rfl
  | str s =>
    intro hmem
    rw [yamlScalar] at hmem
    split at hmem
    · rcases List.mem_append.1 hmem with hmem | hmem
      · rcases List.mem_cons.1 hmem with hquote | hmem
        · cases hquote
        obtain ⟨c, hc, hin⟩ := List.mem_flatMap.1 hmem
        split at hin
        · simp at hin
        · rw [← List.mem_singleton.1 hin] at hc
          exact h hc
      · cases List.mem_singleton.1 hmem
    · exact h hmem

theorem hexDigit_ne_break (n : ℕ) (hn : n < 16) : hexDigit n ≠ '\n' := by
  have hall : ∀ m : Fin 16, hexDigit m ≠ '\n' := by decide
  exact hall ⟨n, hn⟩

theorem escapeChar_unbroken (c : Char) : '\n' ∉ escapeChar c := by
  unfold escapeChar escapeCode
  split_ifs with h₁ h₂ h₃ h₄ h₅ h₆ h₇ h₈
  iterate 7
    · simp
  · have hhigh := hexDigit_ne_break (c.toNat / 16) (by omega)
    have hlow := hexDigit_ne_break (c.toNat % 16) (by omega)
    simp [hhigh.symm, hlow.symm]
  · simp [Ne.symm h₅]

theorem quote_unbroken (s : String) : '\n' ∉ quote s := by
  intro hmem
  rw [quote] at hmem
  rcases List.mem_append.1 hmem with hmem | hmem
  · rcases List.mem_cons.1 hmem with hquote | hmem
    · cases hquote
    obtain ⟨c, -, hin⟩ := List.mem_flatMap.1 hmem
    exact escapeChar_unbroken c hin
  · cases List.mem_singleton.1 hmem

theorem stringifyStrings_unbroken (ss : List String) : '\n' ∉ stringifyStrings ss := by
  have hitems : '\n' ∉ [','].intercalate (ss.map quote) := by
    induction ss with
    | nil => simp
    | cons s ss ih =>
      cases ss with
      | nil => simpa using quote_unbroken s
      | cons t ss =>
        rw [List.map_cons, List.map_cons, List.intercalate_cons_cons, ← List.map_cons]
        simp only [List.mem_append, not_or]
        exact ⟨⟨quote_unbroken s, by decide⟩, ih⟩
  intro hmem
  rw [stringifyStrings] at hmem
  rcases List.mem_append.1 hmem with hmem | hmem
  · rcases List.mem_cons.1 hmem with hbracket | hmem
    · cases hbracket
    · exact hitems hmem
  · cases List.mem_singleton.1 hmem

theorem text_unbroken {C : Type} {how : Setting C} {c : C} (h : Unbroken (how.value c)) :
    ∀ text ∈ how.text c, '\n' ∉ text := by
  intro text htext
  cases how with
  | always get =>
    obtain rfl := Option.some.inj htext
    exact yamlScalar_unbroken h
  | orElse get fallback =>
    obtain rfl := Option.some.inj htext
    exact yamlScalar_unbroken (v := .bool _) trivial
  | ifDefined get =>
    obtain ⟨v, hget, rfl⟩ := Option.map_eq_some_iff.1 htext
    rw [Setting.value, hget] at h
    exact yamlScalar_unbroken h
  | ifTruthy get =>
    simp only [Setting.text, Setting.value] at h htext
    split at htext
    · next s hget =>
      split_ifs at htext
      · cases htext
      · obtain rfl := Option.some.inj htext
        rw [hget] at h
        exact yamlScalar_unbroken (v := .str s) h
    · cases htext
  | ifNonempty get =>
    simp only [Setting.text] at htext
    split_ifs at htext
    · cases htext
    · obtain rfl := Option.some.inj htext
      exact stringifyStrings_unbroken _
  | never get => cases htext

/-- what is written in place of a missing block has no line break -/
def Fields.fallbacksUnbroken : {C : Type} → Fields C → Prop
  | _, .nil => True
  | _, .blank rest => rest.fallbacksUnbroken
  | _, .setting _ _ rest => rest.fallbacksUnbroken
  | _, .block _ _ fallback inner rest =>
    (∀ d ∈ fallback, inner.unbroken d) ∧ inner.fallbacksUnbroken ∧ rest.fallbacksUnbroken

theorem update_unbroken {key : String} {get : String → PlainValue} (hget : get key = .undefined) {v : PlainValue}
    (h : ∀ k, Unbroken (Function.update get key v k)) : Unbroken v ∧ ∀ k, Unbroken (get k) := by
  refine ⟨by simpa using h key, fun k => ?_⟩
  by_cases hk : k = key
  · rw [hk, hget]
    trivial
  · simpa [hk] using h k

/-- a record without line breaks in its strings is written without line breaks in its values -/
theorem unbroken_of_members {C : Type} (fs : Fields C) {seen : List String} (hkeys : fs.wellKeyed seen = true)
    (hfallbacks : fs.fallbacksUnbroken) {c : C} (h : ∀ k, Unbroken (fs.members c k)) : fs.unbroken c := by
  induction fs generalizing seen with
  | nil => trivial
  | blank rest ih => exact ih hkeys hfallbacks h
  | setting key how rest ih =>
    simp only [Fields.wellKeyed, Bool.and_eq_true] at hkeys
    obtain ⟨hvalue, hrest⟩ := update_unbroken (members_seen rest hkeys.2 c List.mem_cons_self) h
    exact ⟨text_unbroken hvalue, ih hkeys.2 hfallbacks hrest⟩
  | block key get fallback inner rest ihinner ih =>
    simp only [Fields.wellKeyed, Bool.and_eq_true] at hkeys
    obtain ⟨hvalue, hrest⟩ := update_unbroken (members_seen rest hkeys.2 c List.mem_cons_self) h
    refine ⟨fun d hd => ?_, ih hkeys.2 hfallbacks.2.2 hrest⟩
    cases hget : get c with
    | none =>
      rw [hget] at hd
      exact hfallbacks.1 d hd
    | some x =>
      rw [hget] at hd hvalue
      have hwritten : Fields.written (some x) fallback = some x := by cases fallback <;> rfl
      obtain rfl := Option.some.inj (hwritten.symm.trans hd)
      exact ihinner hkeys.1.2 hfallbacks.2.1 hvalue

theorem configFields_fallbacksUnbroken : configFields.fallbacksUnbroken := by
  simp [Fields.fallbacksUnbroken, configFields, blockFields, Fields.unbroken, Setting.text, yamlScalar]

/-! ## The defaults -/

/-- no string of the record has a line break -/
def Fields.valuesUnbroken : {C : Type} → Fields C → C → Prop
  | _, .nil, _ => True
  | _, .blank rest, c => rest.valuesUnbroken c
  | _, .setting _ how rest, c => Unbroken (how.value c) ∧ rest.valuesUnbroken c
  | _, .block _ get _ inner rest, c => (∀ d, get c = some d → inner.valuesUnbroken d) ∧ rest.valuesUnbroken c

theorem members_unbroken {C : Type} (fs : Fields C) {c : C} (h : fs.valuesUnbroken c) : ∀ k, Unbroken (fs.members c k) := by
  have hupdate : ∀ {get : String → PlainValue} {key : String} {v : PlainValue}, (∀ k, Unbroken (get k)) → Unbroken v →
      ∀ k, Unbroken (Function.update get key v k) := by
    intro get key v hget hv
    exact setKey_unbroken (v := .obj get) hv hget
  induction fs with
  | nil => exact fun _ => trivial
  | blank rest ih => exact ih h
  | setting key how rest ih => exact hupdate (ih h.2) h.1
  | block key get fallback inner rest ihinner ih =>
    apply hupdate (ih h.2)
    cases hget : get c with
    | none => trivial
    | some d => exact ihinner (h.1 d hget)

theorem blockFields_valuesUnbroken (dataDir provider : String) :
    blockFields.valuesUnbroken (applyProviderAwareDistillDefaults (defaultConfig dataDir) provider) := by
  unfold applyProviderAwareDistillDefaults
  split <;> simp [Fields.valuesUnbroken, blockFields, defaultConfig, Setting.value, Scalar.value, optional, Unbroken]

end AstramemLocal.Config
