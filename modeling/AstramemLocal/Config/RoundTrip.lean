/-
Writing the configuration and loading it again. Governance, which is applied to what is loaded, is not part of it.
- `config_kept`: a configuration all of whose settings survive is loaded as it was written. A setting that is written
  survives unless it is a string with a line break, a bare string that the reader trims or takes for a quotation or a
  number, or a number with an exponent; one that is left out survives if it is what the defaults have there.
- `survives_of_kept`: no other configuration is.
- `defaultConfig_survives`: the defaults survive, at every data directory that does.
Witness: `override_not_kept`: the model that judges duplicates may be set by hand, but it is never written.
-/
import AstramemLocal.Config.LineBreaks

namespace AstramemLocal.Config

open Core

/-! ## What survives -/

/-- a scalar that is read as itself and stays on one line -/
def Scalar.survives (v : Scalar) : Prop :=
  v.readable = true ∧
    match v with
    | .str s => '\n' ∉ s.toList
    | _ => True

instance (v : Scalar) : Decidable v.survives :=
  match v with
  | .null => isTrue ⟨rfl, trivial⟩
  | .bool _ => isTrue ⟨rfl, trivial⟩
  | .num n => decidable_of_iff (n.plain = true) (and_iff_left trivial).symm
  | .str s => decidable_of_iff ((Scalar.str s).readable = true ∧ '\n' ∉ s.toList) Iff.rfl

theorem bool_survives (b : Bool) : (Scalar.bool b).survives := ⟨rfl, trivial⟩

/-- does the setting survive? `base` is the record of the defaults, where they have one -/
def Setting.survives {C : Type} (base : Option C) (c : C) : Setting C → Prop
  | .always get => (get c).survives
  | .orElse get _ => (get c).isSome
  | .ifDefined get =>
    match get c with
    | some v => v.survives
    | none => base.bind get = none
  | .ifTruthy get =>
    match get c with
    | some s => if s = "" then base.bind get = some "" else (Scalar.str s).survives
    | none => base.bind get = none
  | .ifNonempty get => get c = [] → base.map get = some []
  | .never get => optional get base = get c

/-- does every setting of the record survive? -/
def Fields.survives : {C : Type} → Fields C → Option C → C → Prop
  | _, .nil, _, _ => True
  | _, .blank rest, base, c => rest.survives base c
  | _, .setting _ how rest, base, c => how.survives base c ∧ rest.survives base c
  | _, .block _ get fallback inner rest, base, c =>
    (match get c with
      | some d => inner.survives (base.bind get) d
      | none => fallback.isNone ∧ (base.bind get).isNone) ∧ rest.survives base c

/-! ## Merging over the defaults -/

theorem deepMerge_undefined (existing : PlainValue) : deepMerge existing .undefined = existing := by
  cases existing <;> rfl

theorem undefined_deepMerge (value : PlainValue) : deepMerge .undefined value = value := by
  cases value <;> rfl

theorem deepMerge_arr (existing : PlainValue) (items : List PlainValue) : deepMerge existing (.arr items) = .arr items := by
  cases existing <;> rfl

/-- a written value stands over the default one; an object stands for no scalar -/
theorem deepMerge_scalar_iff (existing : PlainValue) (text : List Char) (v : Scalar) :
    deepMerge existing (lineValue text) = v.value ↔ lineValue text = v.value := by
  have hdefined := lineValue_ne_undefined text
  cases hvalue : lineValue text with
  | undefined => exact absurd hvalue hdefined
  | obj get =>
    have hobj : ∀ get' : String → PlainValue, PlainValue.obj get' ≠ v.value := by
      intro get' h
      cases v <;> cases h
    refine iff_of_false ?_ (hobj get)
    cases existing <;> exact hobj _
  | _ => cases existing <;> rfl

/-- no text of a setting has a line break -/
theorem scalar_survives_iff {v : Scalar} (h : '\n' ∉ yamlScalar v) : v.survives ↔ v.readable = true := by
  refine and_iff_left_of_imp fun _ => ?_
  cases v with
  | str s =>
    intro hmem
    apply h
    rw [yamlScalar]
    split
    · refine List.mem_append_left _ (List.mem_cons_of_mem _ (List.mem_flatMap.2 ⟨'\n', hmem, ?_⟩))
      simp
    · exact hmem
  | _ => trivial

theorem scalar_merged_iff (existing : PlainValue) {v : Scalar} (h : '\n' ∉ yamlScalar v) :
    deepMerge existing (lineValue (yamlScalar v)) = v.value ↔ v.survives := by
  rw [deepMerge_scalar_iff, lineValue_scalar_iff, scalar_survives_iff h]

/-- the member a setting has in the object of the defaults -/
def baseValue {C : Type} (how : Setting C) (base : Option C) : PlainValue := optional (fun b => how.value b) base

theorem optional_bind {α β : Type} (f : β → PlainValue) (get : α → Option β) (base : Option α) :
    optional (fun b => optional f (get b)) base = optional f (base.bind get) := by
  cases base <;> rfl

theorem optional_eq_undefined {α : Type} {f : α → PlainValue} (hf : ∀ a, f a ≠ .undefined) (v : Option α) :
    optional f v = .undefined ↔ v = none := by
  cases v with
  | none => exact iff_of_true rfl rfl
  | some a => exact iff_of_false (hf a) (by simp)

theorem deepMerge_bool (existing : PlainValue) (b : Bool) :
    deepMerge existing (lineValue (yamlScalar (.bool b))) = .bool b :=
  (deepMerge_scalar_iff existing _ (.bool b)).2 (lineValue_bool b)

theorem Scalar.value_ne_undefined (v : Scalar) : v.value ≠ .undefined := by
  cases v <;> exact fun h => nomatch h

/-- **One setting.** Written and merged over the default it is the setting again if and only if it survives. -/
theorem setting_merged_iff {C : Type} (how : Setting C) (base : Option C) (c : C)
    (h : ∀ text ∈ how.text c, '\n' ∉ text) :
    deepMerge (baseValue how base) ((how.text c).elim .undefined lineValue) = how.value c ↔ how.survives base c := by
  cases how with
  | always get => exact scalar_merged_iff _ (h _ rfl)
  | orElse get fallback =>
    simp only [Setting.text, Setting.value, Setting.survives, Option.elim_some]
    cases hget : get c with
    | none =>
      refine iff_of_false (fun hmerged => ?_) (by simp)
      rw [Option.getD_none, deepMerge_bool] at hmerged
      cases hmerged
    | some b => exact iff_of_true (deepMerge_bool _ b) rfl
  | ifDefined get =>
    simp only [Setting.text, Setting.value, Setting.survives, baseValue] at h ⊢
    cases hget : get c with
    | none =>
      simp only [Option.map_none, Option.elim_none, deepMerge_undefined, optional_bind]
      exact optional_eq_undefined Scalar.value_ne_undefined _
    | some v =>
      rw [hget] at h
      exact scalar_merged_iff _ (h _ rfl)
  | ifTruthy get =>
    simp only [Setting.text, Setting.value, Setting.survives, baseValue] at h ⊢
    cases hget : get c with
    | none =>
      simp only [Option.elim_none, deepMerge_undefined, optional_bind]
      refine optional_eq_undefined (f := PlainValue.str) (fun s h => ?_) _
      cases h
    | some s =>
      rw [hget] at h
      by_cases hs : s = ""
      · subst hs
        simp only [if_true, Option.elim_none, deepMerge_undefined, optional_bind]
        cases base.bind get with
        | none => exact iff_of_false (fun hsame => by cases hsame) (by simp)
        | some t => simp [optional]
      · simp only [if_neg hs, Option.elim_some] at h ⊢
        exact scalar_merged_iff _ (h _ rfl)
  | ifNonempty get =>
    simp only [Setting.text, Setting.value, Setting.survives, baseValue] at h ⊢
    by_cases hget : get c = []
    · simp only [hget, if_true, Option.elim_none, deepMerge_undefined, forall_const]
      cases base with
      | none => exact iff_of_false (fun hsame => by cases hsame) (by simp)
      | some b => simp [optional]
    · rw [if_neg hget, Option.elim_some, lineValue_strings, deepMerge_arr]
      exact iff_of_true rfl fun hnil => absurd hnil hget
  | never get => rw [Setting.text, Option.elim_none, deepMerge_undefined]; rfl

/-! ## Merging a record -/

/-- the members of the record of the defaults, where there is one -/
def Fields.baseMembers {C : Type} (fs : Fields C) (base : Option C) : String → PlainValue :=
  base.elim (fun _ => .undefined) fs.members

/-- the object of a record, where there is one -/
def Fields.toObject {C : Type} (fs : Fields C) (record : Option C) : PlainValue :=
  optional (fun c => .obj (fs.members c)) record

theorem baseMembers_seen {C : Type} (fs : Fields C) {seen : List String} (hkeys : fs.wellKeyed seen = true) (base : Option C)
    {k : String} (hk : k ∈ seen) : fs.baseMembers base k = .undefined := by
  cases base with
  | none => rfl
  | some b => exact members_seen fs hkeys b hk

/-- one key of two objects is merged on its own -/
theorem update_merged_iff {key : String} {A P M : String → PlainValue} (hA : A key = .undefined) (hP : P key = .undefined)
    (hM : M key = .undefined) (a p m : PlainValue) :
    (∀ k, deepMerge (Function.update A key a k) (Function.update P key p k) = Function.update M key m k) ↔
      deepMerge a p = m ∧ ∀ k, deepMerge (A k) (P k) = M k := by
  constructor
  · intro h
    refine ⟨by simpa using h key, fun k => ?_⟩
    by_cases hk : k = key
    · rw [hk, hA, hP, hM]
      rfl
    · simpa [hk] using h k
  · intro h k
    by_cases hk : k = key
    · subst hk
      simpa using h.1
    · simpa [hk] using h.2 k

theorem baseMembers_setting {C : Type} (key : String) (how : Setting C) (rest : Fields C) (base : Option C) :
    (Fields.setting key how rest).baseMembers base = Function.update (rest.baseMembers base) key (baseValue how base) := by
  cases base with
  | none => exact (Function.update_eq_self key _).symm
  | some b => rfl

theorem baseMembers_block {C D : Type} (key : String) (get : C → Option D) (fallback : Option D) (inner : Fields D)
    (rest : Fields C) (base : Option C) :
    (Fields.block key get fallback inner rest).baseMembers base
      = Function.update (rest.baseMembers base) key (inner.toObject (base.bind get)) := by
  cases base with
  | none => exact (Function.update_eq_self key _).symm
  | some b => rfl

theorem deepMerge_toObject {D : Type} (inner : Fields D) (base : Option D) (p : String → PlainValue) :
    deepMerge (inner.toObject base) (.obj p) = .obj fun k => deepMerge (inner.baseMembers base k) (p k) := by
  cases base with
  | none => exact congrArg PlainValue.obj (funext fun k => (undefined_deepMerge (p k)).symm)
  | some b => rfl

theorem obj_eq_iff (f g : String → PlainValue) : PlainValue.obj f = .obj g ↔ ∀ k, f k = g k := by
  rw [PlainValue.obj.injEq, funext_iff]

/-- **One record.** Written and merged over the defaults it is the record again if and only if every setting survives. -/
theorem record_merged_iff {C : Type} (fs : Fields C) {seen : List String} (hkeys : fs.wellKeyed seen = true)
    (base : Option C) {c : C} (h : fs.unbroken c) :
    (∀ k, deepMerge (fs.baseMembers base k) (fs.parsed c k) = fs.members c k) ↔ fs.survives base c := by
  induction fs generalizing seen with
  | nil =>
    refine iff_of_true (fun k => ?_) trivial
    cases base <;> rfl
  | blank rest ih => exact ih hkeys base h
  | setting key how rest ih =>
    simp only [Fields.wellKeyed, Bool.and_eq_true] at hkeys
    have hseen : key ∈ key :: seen := List.mem_cons_self
    rw [baseMembers_setting, Fields.parsed, Fields.members,
      update_merged_iff (baseMembers_seen rest hkeys.2 base hseen) (parsed_seen rest hkeys.2 c hseen)
        (members_seen rest hkeys.2 c hseen), setting_merged_iff how base c h.1, ih hkeys.2 base h.2]
    rfl
  | block key get fallback inner rest ihinner ih =>
    simp only [Fields.wellKeyed, Bool.and_eq_true] at hkeys
    have hseen : key ∈ key :: seen := List.mem_cons_self
    rw [baseMembers_block, Fields.parsed, Fields.members,
      update_merged_iff (baseMembers_seen rest hkeys.2 base hseen) (parsed_seen rest hkeys.2 c hseen)
        (members_seen rest hkeys.2 c hseen), ih hkeys.2 base h.2, Fields.survives]
    refine and_congr_left fun _ => ?_
    have hinner := h.1
    cases hget : get c with
    | some d =>
      rw [hget] at hinner
      have hwritten : Fields.written (some d) fallback = some d := by cases fallback <;> rfl
      rw [hwritten, optional, optional, deepMerge_toObject, obj_eq_iff]
      exact ihinner hkeys.1.2 _ (hinner d hwritten)
    | none =>
      cases fallback with
      | some d =>
        refine iff_of_false (fun hmerged => ?_) (fun hsurvives => by cases hsurvives.1)
        change deepMerge (inner.toObject (base.bind get)) (.obj (inner.parsed d)) = .undefined at hmerged
        rw [deepMerge_toObject] at hmerged
        cases hmerged
      | none =>
        have habsent := optional_eq_undefined (f := fun d => .obj (inner.members d)) (fun _ h => by cases h) (base.bind get)
        change deepMerge (inner.toObject (base.bind get)) .undefined = .undefined ↔ _
        rw [deepMerge_undefined, Fields.toObject, habsent]
        simp

/-! ## The whole configuration -/

theorem scalar_unbroken {v : Scalar} (h : v.survives) : '\n' ∉ yamlScalar v := by
  apply yamlScalar_unbroken
  cases v with
  | str s => exact h.2
  | _ => trivial

theorem setting_unbroken {C : Type} {how : Setting C} {base : Option C} {c : C} (h : how.survives base c) :
    ∀ text ∈ how.text c, '\n' ∉ text := by
  intro text htext
  cases how with
  | always get =>
    obtain rfl := Option.some.inj htext
    exact scalar_unbroken h
  | orElse get fallback =>
    obtain rfl := Option.some.inj htext
    exact yamlScalar_unbroken (v := .bool _) trivial
  | ifDefined get =>
    obtain ⟨v, hget, rfl⟩ := Option.map_eq_some_iff.1 htext
    simp only [Setting.survives, hget] at h
    exact scalar_unbroken h
  | ifTruthy get =>
    simp only [Setting.text, Setting.survives] at h htext
    split at htext
    · next s hget =>
      by_cases hs : s = ""
      · rw [if_pos hs] at htext
        cases htext
      · rw [if_neg hs] at htext
        obtain rfl := Option.some.inj htext
        rw [hget] at h
        simp only [if_neg hs] at h
        exact scalar_unbroken h
    · cases htext
  | ifNonempty get => exact @text_unbroken C (.ifNonempty get) c trivial text htext
  | never get => cases htext

theorem unbroken_of_survives {C : Type} (fs : Fields C) {base : Option C} {c : C} (h : fs.survives base c) : fs.unbroken c := by
  induction fs with
  | nil => trivial
  | blank rest ih => exact ih h
  | setting key how rest ih => exact ⟨setting_unbroken h.1, ih h.2⟩
  | block key get fallback inner rest ihinner ih =>
    refine ⟨fun d hd => ?_, ih h.2⟩
    have hblock := h.1
    cases hget : get c with
    | none =>
      rw [hget] at hblock hd
      obtain rfl := Option.isNone_iff_eq_none.1 hblock.1
      cases hd
    | some x =>
      rw [hget] at hblock hd
      have hwritten : Fields.written (some x) fallback = some x := by cases fallback <;> rfl
      obtain rfl := Option.some.inj (hwritten.symm.trans hd)
      exact ihinner hblock

/-- the defaults that depend on the provider are of settings that are always written -/
theorem survives_providerAware (d cfg : Config) (provider : String) :
    configFields.survives (some (applyProviderAwareDistillDefaults d provider)) cfg ↔ configFields.survives (some d) cfg := by
  unfold applyProviderAwareDistillDefaults
  split
  · exact Iff.rfl
  · exact Iff.rfl

theorem trim_configToYaml (cfg : Config) : trim (configToYaml cfg) ≠ [] := by
  obtain ⟨rest, hrest⟩ : ∃ rest, configToYaml cfg = '#' :: rest := ⟨_, rfl⟩
  have hhash : isSpace '#' = false := rfl
  rw [hrest, trim, trimStart_word hhash, trimEnd_word hhash]
  simp

theorem restart_eq (dataDir : String) (cfg : Config) :
    ∃ provider, loadConfigFromDiskRaw dataDir (some (configToYaml cfg))
      = deepMerge (applyProviderAwareDistillDefaults (defaultConfig dataDir) provider).toObject
          (parseConfigYaml (configToYaml cfg)) := by
  refine ⟨diskProvider (defaultConfig dataDir) (parseConfigYaml (configToYaml cfg)), ?_⟩
  unfold loadConfigFromDiskRaw
  exact if_neg (trim_configToYaml cfg)

theorem configFields_members (cfg : Config) : configFields.members cfg
    = Function.update (Function.update (blockFields.members cfg) "dataDir" (.str cfg.dataDir)) "port" (.num cfg.port) := rfl

/-- whatever is written, no string of what is loaded has a line break -/
theorem restart_unbroken (dataDir : String) (cfg : Config) :
    Unbroken (loadConfigFromDiskRaw dataDir (some (configToYaml cfg))) := by
  obtain ⟨provider, hrestart⟩ := restart_eq dataDir cfg
  obtain ⟨get, hparsed, hdataDir⟩ := dataDir_read cfg
  have hread := parseConfigYaml_unbroken (configToYaml cfg)
  rw [hparsed] at hread
  rw [hrestart, hparsed]
  intro k
  by_cases hk : k = "dataDir"
  · -- the data directory of the platform is not looked at
    subst hk
    have hread := hread "dataDir"
    show Unbroken (deepMerge (.str _) (get "dataDir"))
    cases hvalue : get "dataDir" with
    | undefined => exact absurd hvalue hdataDir
    | _ =>
      rw [hvalue] at hread
      exact hread
  · have hbase := members_unbroken blockFields (blockFields_valuesUnbroken dataDir provider) k
    refine deepMerge_unbroken ?_ (hread k)
    rw [configFields_members]
    by_cases hport : k = "port"
    · rw [hport, Function.update_self]
      trivial
    · rw [Function.update_of_ne hport, Function.update_of_ne hk]
      exact hbase

theorem merged_config_iff (dataDir provider : String) {cfg : Config} (h : configFields.unbroken cfg) :
    deepMerge (applyProviderAwareDistillDefaults (defaultConfig dataDir) provider).toObject (.obj (configFields.parsed cfg))
        = cfg.toObject ↔ configFields.survives (some (defaultConfig dataDir)) cfg := by
  have hmerged := record_merged_iff configFields configFields_wellKeyed
    (some (applyProviderAwareDistillDefaults (defaultConfig dataDir) provider)) h
  rw [survives_providerAware] at hmerged
  exact (obj_eq_iff _ _).trans hmerged

/-- a configuration that comes back the same survives, field by field -/
theorem survives_of_kept {dataDir : String} {cfg : Config}
    (h : loadConfigFromDiskRaw dataDir (some (configToYaml cfg)) = cfg.toObject) :
    configFields.survives (some (defaultConfig dataDir)) cfg := by
  have hloaded := restart_unbroken dataDir cfg
  rw [h] at hloaded
  have hunbroken := unbroken_of_members configFields configFields_wellKeyed configFields_fallbacksUnbroken hloaded
  obtain ⟨provider, hrestart⟩ := restart_eq dataDir cfg
  rw [hrestart, parseConfigYaml_configToYaml hunbroken, merged_config_iff dataDir provider hunbroken] at h
  exact h

/-- the defaults survive, wherever the data directory is -/
theorem defaultConfig_survives (platformDir : String) {dataDir : String} (h : (Scalar.str dataDir).survives) :
    configFields.survives (some (defaultConfig platformDir)) (defaultConfig dataDir) := by
  simp [Fields.survives, Setting.survives, configFields, blockFields, defaultConfig, h, bool_survives, optional]
  -- what is left is one closed fact for each string and number
  and_intros
  all_goals decide +kernel

/-- **The configuration comes back.** Written and loaded again, a configuration all of whose settings survive is the same. -/
theorem config_kept (dataDir : String) (cfg : Config) (h : configFields.survives (some (defaultConfig dataDir)) cfg) :
    loadConfigFromDiskRaw dataDir (some (configToYaml cfg)) = cfg.toObject := by
  have hunbroken := unbroken_of_survives configFields h
  obtain ⟨provider, hrestart⟩ := restart_eq dataDir cfg
  rw [hrestart, parseConfigYaml_configToYaml hunbroken]
  exact (merged_config_iff dataDir provider hunbroken).2 h

theorem config_kept_quoted :
    loadConfigFromDiskRaw "/var/lib/astra-memory" (some (configToYaml (defaultConfig "/srv/it's: #1")))
      = (defaultConfig "/srv/it's: #1").toObject :=
  config_kept _ _ (defaultConfig_survives _ (by decide))

/-- the defaults with a model of its own for the judge of duplicates -/
def judgeOverride : Config :=
  let cfg := defaultConfig "/var/lib/astra-memory"
  { cfg with
    consolidation := { cfg.consolidation with dupJudge := { cfg.consolidation.dupJudge with model := some "gpt-6-luna" } } }

theorem override_not_kept :
    ¬∀ (dataDir : String) (cfg : Config), loadConfigFromDiskRaw dataDir (some (configToYaml cfg)) = cfg.toObject := by
  intro h
  have hsurvives := survives_of_kept (h "/var/lib/astra-memory" judgeOverride)
  simp [Fields.survives, Setting.survives, configFields, blockFields, judgeOverride, defaultConfig, optional] at hsurvives

end AstramemLocal.Config
