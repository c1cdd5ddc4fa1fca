/-
`sanitizeJsonbHostile` of `src/sync/shipper.ts`: NULs dropped and unpaired surrogates replaced in every string and key
of a payload. The three replacements of a string are `cleanText` (`sanitizeString_eq`), so what comes out is always
clean (`sanitize_clean`). The object is rebuilt by assignments, so a member is kept only if its cleaned name is no other
member's and is not `__proto__` (`assignAll_length`): then and only then is the function a normaliser that loses nothing
(`sanitize_normalises_iff`).
-/
import AstramemLocal.Core.JsValue
import AstramemLocal.Core.Utf16
import AstramemLocal.Sync.Shipper

namespace AstramemLocal.Sync.Jsonb

open AstramemLocal.Core
open JsString (Paired toWellFormed)
open JsValue (Everywhere Plain names put putAll Ordered)

/-! ## Strings -/

/-- `/[\uD800-\uDBFF](?![\uDC00-\uDFFF])/g`, each by U+FFFD -/
def replaceLoneHighs : JsString → JsString
  | [] => []
  | u :: rest =>
    (if isHighSurrogate u && !rest.head?.any isLowSurrogate then JsString.replacement else u) :: replaceLoneHighs rest

/-- `/(?<![\uD800-\uDBFF])[\uDC00-\uDFFF]/g`, each by U+FFFD; `last` is the unit before the text -/
def replaceLoneLows (last : Option ℕ) : JsString → JsString
  | [] => []
  | u :: rest =>
    (if isLowSurrogate u && !last.any isHighSurrogate then JsString.replacement else u) :: replaceLoneLows (some u) rest

def sanitizeString (value : JsString) : JsString := replaceLoneLows none (replaceLoneHighs (value.filter (· ≠ 0)))

/-- the text without its NULs, U+FFFD for every surrogate that stands alone in it -/
def cleanText (s : JsString) : JsString := toWellFormed (s.filter (· ≠ 0))

/-- no NUL and no unpaired surrogate -/
def CleanText (s : JsString) : Prop := 0 ∉ s ∧ Paired s

theorem replaceLone_eq (s : JsString) :
    ∀ last : Option ℕ, last.any isHighSurrogate = false → replaceLoneLows last (replaceLoneHighs s) = toWellFormed s := by
  fun_induction toWellFormed s with
  | case1 => simp [replaceLoneHighs, replaceLoneLows]
  | case2 u =>
    intro last hlast
    cases hhigh : isHighSurrogate u <;> cases hlow : isLowSurrogate u <;>
      simp [replaceLoneHighs, replaceLoneLows, JsString.replaceLone, hhigh, hlow, hlast]
  | case3 u v rest h ih =>
    intro last hlast
    rw [Bool.and_eq_true] at h
    have hu := JsString.isLowSurrogate_of_high h.1
    have hv : isHighSurrogate v = false := by
      cases hv : isHighSurrogate v with
      | false => rfl
      | true => exact absurd h.2 (by simp [JsString.isLowSurrogate_of_high hv])
    have ih := ih (some v) (by simp [hv])
    simp [replaceLoneHighs, replaceLoneLows, h.1, h.2, hu, hv, ih]
  | case4 u v rest h ih =>
    intro last hlast
    cases hhigh : isHighSurrogate u with
    | true =>
      have hv : isLowSurrogate v = false := by simpa [hhigh] using h
      have ih := ih (some JsString.replacement) (by decide)
      rw [replaceLoneHighs, List.head?_cons]
      simp only [hhigh, hv, Option.any_some, Bool.not_false, Bool.and_self, if_true]
      have hrepl : isLowSurrogate JsString.replacement = false := by decide
      rw [replaceLoneLows, hrepl, ih]
      simp [JsString.replaceLone, hhigh]
    | false =>
      have ih := ih (some u) (by simp [hhigh])
      rw [replaceLoneHighs]
      simp only [hhigh, Bool.false_and, Bool.false_eq_true, if_false]
      rw [replaceLoneLows, ih, hlast]
      simp [JsString.replaceLone, hhigh]

/-- **Strings.** The three replacements are the removal of NULs and the repair of the surrogates. -/
theorem sanitizeString_eq (s : JsString) : sanitizeString s = cleanText s := replaceLone_eq _ none rfl

theorem cleanText_clean (s : JsString) : CleanText (cleanText s) := by
  refine ⟨?_, JsString.paired_toWellFormed _⟩
  intro h
  rcases JsString.mem_toWellFormed h with hmem | hrepl
  · simp at hmem
  · exact absurd hrepl (by decide)

theorem cleanText_of_clean {s : JsString} (h : CleanText s) : cleanText s = s := by
  have hfilter : s.filter (· ≠ 0) = s := by
    rw [List.filter_eq_self]
    intro u hu
    exact decide_eq_true fun h0 => h.1 (h0 ▸ hu)
  rw [cleanText, hfilter, JsString.toWellFormed_of_paired h.2]

/-- the units of a character: one that is no surrogate, or a pair -/
def charUnits (c : Char) : JsString :=
  if c.toNat < 0x10000 then [c.toNat]
  else [0xd800 + (c.toNat - 0x10000) / 0x400, 0xdc00 + (c.toNat - 0x10000) % 0x400]

theorem paired_charUnits (c : Char) {rest : JsString} (hrest : Paired rest) : Paired (charUnits c ++ rest) := by
  have hvalid : c.toNat < 0xd800 ∨ (0xdfff < c.toNat ∧ c.toNat < 0x110000) := c.valid
  unfold charUnits
  split_ifs with hsmall
  · refine .unit ?_ ?_ hrest
    · simp only [isHighSurrogate, Bool.and_eq_false_iff, decide_eq_false_iff_not]
      omega
    · simp only [isLowSurrogate, Bool.and_eq_false_iff, decide_eq_false_iff_not]
      omega
  · refine .pair ?_ ?_ hrest
    · simp only [isHighSurrogate, Bool.and_eq_true, decide_eq_true_eq]
      omega
    · simp only [isLowSurrogate, Bool.and_eq_true, decide_eq_true_eq]
      omega

theorem filter_charUnits (c : Char) :
    (charUnits c).filter (· ≠ 0) = if c = '\x00' then [] else charUnits c := by
  split_ifs with hc
  · rw [hc]
    rfl
  · have hne : c.toNat ≠ 0 := fun h => hc (Char.toNat_inj.1 h)
    unfold charUnits
    split_ifs <;> simp [hne]

/-- a text without lone surrogates only loses its NULs, as the shipper's own model has it -/
theorem cleanText_ofString (t : String) :
    cleanText (JsString.ofString t) = JsString.ofString (Sync.sanitizeJsonbHostile t) := by
  have hchars : ∀ cs : List Char, cleanText (cs.flatMap charUnits) = (cs.filter (· ≠ '\x00')).flatMap charUnits := by
    intro cs
    have hpaired : ∀ ds : List Char, Paired (ds.flatMap charUnits) := by
      intro ds
      induction ds with
      | nil => exact .nil
      | cons d ds ih => exact paired_charUnits d ih
    have hfilter : (cs.flatMap charUnits).filter (· ≠ 0) = (cs.filter (· ≠ '\x00')).flatMap charUnits := by
      induction cs with
      | nil => rfl
      | cons c cs ih =>
        rw [List.flatMap_cons, List.filter_append, ih, filter_charUnits]
        by_cases hc : c = '\x00' <;> simp [hc]
    rw [cleanText, hfilter, JsString.toWellFormed_of_paired (hpaired _)]
  have hunits : ∀ u : String, JsString.ofString u = u.toList.flatMap charUnits := fun _ => rfl
  rw [hunits, hunits, hchars, Sync.sanitizeJsonbHostile, String.toList_ofList]

/-! ## Values -/

variable {N : Type}

abbrev Members (N : Type) := List (JsString × JsValue N)

def protoKey : JsString := JsString.ofString "__proto__"

/-- `out[key] = value`, where `out` began as `{}`; the setter of `__proto__` takes an object or null as the prototype -/
def assign (out : Bool × Members N) (key : JsString) (value : JsValue N) : Bool × Members N :=
  if key = protoKey ∧ out.1 then
    match value with
    | .null => (false, out.2)
    | .obj setter _ => (setter, out.2)
    | _ => out
  else (out.1, put out.2 key value)

mutual
def sanitizeJsonbHostile : JsValue N → JsValue N
  | .str s => .str (sanitizeString s)
  | .arr items => .arr (sanitizeItems items)
  | .obj _ members =>
    let out := sanitizeEntries (true, []) members
    .obj out.1 out.2
  | .null => .null
  | .bool b => .bool b
  | .num n => .num n
def sanitizeItems : List (JsValue N) → List (JsValue N)
  | [] => []
  | v :: items => sanitizeJsonbHostile v :: sanitizeItems items
def sanitizeEntries (out : Bool × Members N) : Members N → Bool × Members N
  | [] => out
  | (k, v) :: members => sanitizeEntries (assign out (sanitizeString k) (sanitizeJsonbHostile v)) members
end

def assignAll (members : Members N) : Bool × Members N := members.foldl (fun out m => assign out m.1 m.2) (true, [])

def sanitizeMember (m : JsString × JsValue N) : JsString × JsValue N := (cleanText m.1, sanitizeJsonbHostile m.2)

@[simp] theorem sanitize_arr (items : List (JsValue N)) :
    sanitizeJsonbHostile (.arr items) = .arr (items.map sanitizeJsonbHostile) := by
  have hitems : sanitizeItems items = items.map sanitizeJsonbHostile := by
    induction items with
    | nil => rfl
    | cons v items ih => rw [sanitizeItems, ih, List.map_cons]
  rw [sanitizeJsonbHostile, hitems]

theorem sanitizeEntries_eq (members : Members N) (out : Bool × Members N) :
    sanitizeEntries out members = (members.map sanitizeMember).foldl (fun out m => assign out m.1 m.2) out := by
  induction members generalizing out with
  | nil => rfl
  | cons m members ih =>
    obtain ⟨k, v⟩ := m
    rw [sanitizeEntries, ih, sanitizeString_eq]
    rfl

@[simp] theorem sanitize_obj (setter : Bool) (members : Members N) :
    sanitizeJsonbHostile (.obj setter members) =
      .obj (assignAll (members.map sanitizeMember)).1 (assignAll (members.map sanitizeMember)).2 := by
  rw [sanitizeJsonbHostile, sanitizeEntries_eq]
  rfl

@[simp] theorem sanitize_str (s : JsString) : sanitizeJsonbHostile (.str s : JsValue N) = .str (cleanText s) := by
  rw [sanitizeJsonbHostile, sanitizeString_eq]

theorem names_sanitize (members : Members N) : names (members.map sanitizeMember) = (names members).map cleanText := by
  simp [names, sanitizeMember]

/-! ## Assignments -/

theorem assignAll_append (before : Members N) (m : JsString × JsValue N) :
    assignAll (before ++ [m]) = assign (assignAll before) m.1 m.2 := by
  simp [assignAll]

theorem assign_put {out : Bool × Members N} {key : JsString} (value : JsValue N) (h : ¬ (key = protoKey ∧ out.1 = true)) :
    assign out key value = (out.1, put out.2 key value) := if_neg h

theorem assign_proto {out : Bool × Members N} (value : JsValue N) (h : out.1 = true) :
    (assign out protoKey value).2 = out.2 := by
  unfold assign
  rw [if_pos ⟨rfl, h⟩]
  cases value <;> rfl

theorem assignAll_eq {members : Members N} (h : protoKey ∉ names members) : assignAll members = (true, putAll members) := by
  induction members using List.reverseRecOn with
  | nil => rfl
  | append_singleton before m ih =>
    have hsplit : protoKey ∉ names before ∧ protoKey ≠ m.1 := by simpa [names, not_or] using h
    rw [assignAll_append, JsValue.putAll_append, ih hsplit.1, assign_put m.2 fun hkey => hsplit.2 hkey.1.symm]

theorem mem_put {members : Members N} {key : JsString} {value : JsValue N} {m : JsString × JsValue N}
    (h : m ∈ put members key value) : m = (key, value) ∨ m ∈ members := by
  by_cases hkey : key ∈ names members
  · rw [JsValue.put_of_mem hkey, List.mem_map] at h
    obtain ⟨n, hn, heq⟩ := h
    split_ifs at heq
    · exact .inl heq.symm
    · exact .inr (heq ▸ hn)
  · have hperm : (put members key value).Perm ((key, value) :: members) := JsValue.put_perm hkey
    simpa using hperm.mem_iff.1 h

theorem mem_assignAll {members : Members N} {m : JsString × JsValue N} (h : m ∈ (assignAll members).2) : m ∈ members := by
  induction members using List.reverseRecOn with
  | nil => exact absurd h (by simp [assignAll])
  | append_singleton before last ih =>
    rw [assignAll_append] at h
    by_cases hproto : last.1 = protoKey ∧ (assignAll before).1 = true
    · rw [hproto.1, assign_proto _ hproto.2] at h
      exact List.mem_append_left _ (ih h)
    · rw [assign_put _ hproto] at h
      rcases mem_put h with heq | hmem
      · exact List.mem_append_right _ (List.mem_singleton.2 heq)
      · exact List.mem_append_left _ (ih hmem)

/-- **Losses.** The object has no more members than were assigned, and as many only if no name was assigned twice and
none was `__proto__`. -/
theorem assignAll_length (members : Members N) :
    (assignAll members).2.length ≤ members.length ∧
      ((assignAll members).2.length = members.length → (names members).Nodup ∧ protoKey ∉ names members) := by
  induction members using List.reverseRecOn with
  | nil => simp [assignAll, names]
  | append_singleton before m ih =>
    obtain ⟨hle, hfull⟩ := ih
    rw [assignAll_append, List.length_append, List.length_singleton]
    by_cases hproto : m.1 = protoKey ∧ (assignAll before).1 = true
    · rw [hproto.1, assign_proto _ hproto.2]
      exact ⟨by omega, fun heq => by omega⟩
    · rw [assign_put _ hproto]
      by_cases hmem : m.1 ∈ names (assignAll before).2
      · rw [JsValue.length_put_of_mem hmem]
        exact ⟨by omega, fun heq => by omega⟩
      · rw [(JsValue.put_perm hmem).length_eq, List.length_cons]
        refine ⟨by omega, fun heq => ?_⟩
        obtain ⟨hnodup, hfree⟩ := hfull (by omega)
        rw [assignAll_eq hfree] at hmem hproto
        have hfresh : m.1 ∉ names before := by
          intro hm
          exact hmem (((JsValue.putAll_perm hnodup).map Prod.fst).mem_iff.2 hm)
        constructor
        · rw [names, List.map_append, List.nodup_append]
          refine ⟨hnodup, List.nodup_singleton _, ?_⟩
          intro a ha b hb hab
          rw [List.map_singleton, List.mem_singleton] at hb
          exact hfresh (hb ▸ hab ▸ ha)
        · rw [names, List.map_append, List.mem_append, not_or]
          refine ⟨hfree, ?_⟩
          rw [List.map_singleton, List.mem_singleton]
          exact fun heq => hproto ⟨heq.symm, rfl⟩

/-! ## The normaliser -/

/-- the texts an array, object or string holds itself -/
def TextsClean : JsValue N → Prop
  | .str s => CleanText s
  | .obj _ members => ∀ k ∈ names members, CleanText k
  | _ => True

/-- the names of an object stay apart, and none becomes `__proto__` -/
def NamesApart : JsValue N → Prop
  | .obj _ members => ((names members).map cleanText).Nodup ∧ protoKey ∉ (names members).map cleanText
  | _ => True

/-- `Keeps v w`: `w` has the shape of `v`, its leaves other than strings, and every member under its cleaned name -/
inductive Keeps : JsValue N → JsValue N → Prop where
  | null : Keeps .null .null
  | bool (b : Bool) : Keeps (.bool b) (.bool b)
  | num (n : N) : Keeps (.num n) (.num n)
  | str (s t : JsString) : Keeps (.str s) (.str t)
  | arr {items kept : List (JsValue N)} (h : List.Forall₂ Keeps items kept) : Keeps (.arr items) (.arr kept)
  | obj {setter setter' : Bool} {members order kept : Members N} (hperm : order.Perm kept)
      (hnames : names order = (names members).map cleanText)
      (hvalues : List.Forall₂ Keeps (members.map Prod.snd) (order.map Prod.snd)) :
      Keeps (.obj setter members) (.obj setter' kept)

structure Normalises (v : JsValue N) : Prop where
  clean : Everywhere TextsClean (sanitizeJsonbHostile v)
  unchanged : Everywhere TextsClean v → sanitizeJsonbHostile v = v
  idempotent : sanitizeJsonbHostile (sanitizeJsonbHostile v) = sanitizeJsonbHostile v
  keeps : Keeps v (sanitizeJsonbHostile v)

/-- **Clean.** Whatever collapses, no NUL and no unpaired surrogate comes out. -/
theorem sanitize_clean (v : JsValue N) : Everywhere TextsClean (sanitizeJsonbHostile v) := by
  induction v using JsValue.ind with
  | null => simp [sanitizeJsonbHostile, TextsClean]
  | bool b => simp [sanitizeJsonbHostile, TextsClean]
  | num n => simp [sanitizeJsonbHostile, TextsClean]
  | str s => simp [TextsClean, cleanText_clean]
  | arr items ih => simpa [TextsClean] using ih
  | obj setter members ih =>
    rw [sanitize_obj, JsValue.everywhere_obj]
    constructor
    · intro k hk
      obtain ⟨m, hm, rfl⟩ := List.mem_map.1 hk
      obtain ⟨n, -, rfl⟩ := List.mem_map.1 (mem_assignAll hm)
      exact cleanText_clean n.1
    · intro m hm
      obtain ⟨n, hn, rfl⟩ := List.mem_map.1 (mem_assignAll hm)
      exact ih n hn

/-- an object whose names stay apart is rebuilt member by member -/
theorem sanitize_apart {setter : Bool} {members : Members N} (h : NamesApart (.obj setter members)) :
    sanitizeJsonbHostile (.obj setter members) = .obj true (putAll (members.map sanitizeMember)) ∧
      (putAll (members.map sanitizeMember)).Perm (members.map sanitizeMember) := by
  obtain ⟨hnodup, hproto⟩ := h
  rw [← names_sanitize] at hnodup hproto
  exact ⟨by rw [sanitize_obj, assignAll_eq hproto], JsValue.putAll_perm hnodup⟩

theorem sanitize_unchanged {v : JsValue N} (hplain : Plain v) (hapart : Everywhere NamesApart v)
    (hclean : Everywhere TextsClean v) : sanitizeJsonbHostile v = v := by
  induction v using JsValue.ind with
  | null => rfl
  | bool b => rfl
  | num n => rfl
  | str s => rw [sanitize_str, cleanText_of_clean hclean.here]
  | arr items ih =>
    unfold Plain at hplain
    rw [JsValue.everywhere_arr] at hplain hapart hclean
    have hitems : items.map sanitizeJsonbHostile = items.map id :=
      List.map_congr_left fun v hv => ih v hv (hplain.2 v hv) (hapart.2 v hv) (hclean.2 v hv)
    rw [sanitize_arr, hitems, List.map_id]
  | obj setter members ih =>
    unfold Plain at hplain
    rw [JsValue.everywhere_obj] at hplain hapart hclean
    have hmembers : members.map sanitizeMember = members.map id := by
      apply List.map_congr_left
      intro m hm
      have hname := cleanText_of_clean (hclean.1 m.1 (List.mem_map_of_mem hm))
      have hvalue := ih m hm (hplain.2 m hm) (hapart.2 m hm) (hclean.2 m hm)
      exact Prod.ext hname hvalue
    rw [(sanitize_apart hapart.1).1, hmembers, List.map_id, JsValue.putAll_of_ordered hplain.1.2, hplain.1.1]

theorem sanitize_idempotent {v : JsValue N} (hapart : Everywhere NamesApart v) :
    sanitizeJsonbHostile (sanitizeJsonbHostile v) = sanitizeJsonbHostile v := by
  induction v using JsValue.ind with
  | null => rfl
  | bool b => rfl
  | num n => rfl
  | str s => rw [sanitize_str, sanitize_str, cleanText_of_clean (cleanText_clean s)]
  | arr items ih =>
    rw [JsValue.everywhere_arr] at hapart
    rw [sanitize_arr, sanitize_arr, List.map_map]
    congr 1
    exact List.map_congr_left fun v hv => ih v hv (hapart.2 v hv)
  | obj setter members ih =>
    rw [JsValue.everywhere_obj] at hapart
    obtain ⟨heq, hperm⟩ := sanitize_apart hapart.1
    have hfix : (putAll (members.map sanitizeMember)).map sanitizeMember =
        (putAll (members.map sanitizeMember)).map id := by
      apply List.map_congr_left
      intro m hm
      obtain ⟨n, hn, rfl⟩ := List.mem_map.1 (hperm.mem_iff.1 hm)
      exact Prod.ext (cleanText_of_clean (cleanText_clean n.1)) (ih n hn (hapart.2 n hn))
    have hproto : protoKey ∉ names (putAll (members.map sanitizeMember)) := by
      intro hmem
      have hmem := (hperm.map Prod.fst).mem_iff.1 hmem
      exact hapart.1.2 (names_sanitize members ▸ hmem)
    rw [heq, sanitize_obj, hfix, List.map_id, assignAll_eq hproto,
      JsValue.putAll_of_ordered (JsValue.ordered_putAll _)]

theorem sanitize_keeps {v : JsValue N} (hapart : Everywhere NamesApart v) : Keeps v (sanitizeJsonbHostile v) := by
  induction v using JsValue.ind with
  | null => exact .null
  | bool b => exact .bool b
  | num n => exact .num n
  | str s =>
    rw [sanitize_str]
    exact .str s _
  | arr items ih =>
    rw [JsValue.everywhere_arr] at hapart
    rw [sanitize_arr]
    refine .arr ?_
    rw [List.forall₂_map_right_iff, List.forall₂_same]
    exact fun v hv => ih v hv (hapart.2 v hv)
  | obj setter members ih =>
    rw [JsValue.everywhere_obj] at hapart
    obtain ⟨heq, hperm⟩ := sanitize_apart hapart.1
    rw [heq]
    refine .obj hperm.symm (names_sanitize members) ?_
    rw [List.map_map, List.forall₂_map_left_iff, List.forall₂_map_right_iff, List.forall₂_same]
    exact fun m hm => ih m hm (hapart.2 m hm)

/-- members are known by their names -/
theorem eq_of_names {order kept : Members N} (hperm : order.Perm kept) (hnames : names order = names kept)
    (hnodup : (names kept).Nodup) : order = kept := by
  apply List.ext_getElem hperm.length_eq
  intro i hi hi'
  have hmem : order[i] ∈ kept := hperm.mem_iff.1 (List.getElem_mem hi)
  have hname : order[i].1 = kept[i].1 := by
    have hget := List.getElem_of_eq hnames (i := i) (by simpa [names] using hi)
    simpa [names] using hget
  exact List.inj_on_of_nodup_map hnodup hmem (List.getElem_mem hi') hname

theorem apart_of_keeps {v : JsValue N} (h : Keeps v (sanitizeJsonbHostile v)) : Everywhere NamesApart v := by
  induction v using JsValue.ind with
  | null => simp [NamesApart]
  | bool b => simp [NamesApart]
  | num n => simp [NamesApart]
  | str s => simp [NamesApart]
  | arr items ih =>
    rw [sanitize_arr] at h
    cases h with
    | arr h =>
      rw [List.forall₂_map_right_iff, List.forall₂_same] at h
      rw [JsValue.everywhere_arr]
      exact ⟨trivial, fun v hv => ih v hv (h v hv)⟩
  | obj setter members ih =>
    rw [sanitize_obj] at h
    cases h with
    | @obj _ _ _ order _ hperm hnames hvalues =>
      have hlength : (assignAll (members.map sanitizeMember)).2.length = (members.map sanitizeMember).length := by
        have hlen := congrArg List.length hnames
        simp only [names, List.length_map] at hlen
        rw [← hperm.length_eq, hlen, List.length_map]
      obtain ⟨hnodup, hproto⟩ := (assignAll_length _).2 hlength
      rw [assignAll_eq hproto] at hperm
      have horder : order = members.map sanitizeMember :=
        eq_of_names (hperm.trans (JsValue.putAll_perm hnodup)) (hnames.trans (names_sanitize members).symm) hnodup
      rw [horder, List.map_map, List.forall₂_map_left_iff, List.forall₂_map_right_iff, List.forall₂_same] at hvalues
      rw [JsValue.everywhere_obj]
      rw [names_sanitize] at hnodup hproto
      exact ⟨⟨hnodup, hproto⟩, fun m hm => ih m hm (hvalues m hm)⟩

/-- **The normaliser.** It normalises a value without loss just when in every object of it the cleaned names are distinct
and none is `__proto__`. -/
theorem sanitize_normalises_iff (v : JsValue N) (h : Plain v) : Normalises v ↔ Everywhere NamesApart v := by
  constructor
  · intro hv
    exact apart_of_keeps hv.keeps
  · intro hapart
    exact ⟨sanitize_clean v, sanitize_unchanged h hapart, sanitize_idempotent hapart, sanitize_keeps hapart⟩

/-- `{ "a\u0000": "x\ud800" }` -/
def poisoned : JsValue ℕ := .obj true [([0x61, 0], .str [0x78, 0xd800])]

theorem poisoned_normalises : Normalises poisoned := by
  have hplain : Plain poisoned := by simp [Plain, poisoned, JsValue.ObjectOk, Ordered]
  refine (sanitize_normalises_iff poisoned hplain).2 ?_
  simp only [poisoned, JsValue.everywhere_obj, NamesApart]
  refine ⟨by decide, fun m hm => ?_⟩
  rw [List.mem_singleton] at hm
  subst hm
  simp [NamesApart]

/-- `{ "a\u0000": 1, "a": 2 }` -/
def collapsing : JsValue ℕ := .obj true [([0x61, 0], .num 1), ([0x61], .num 2)]

/-- the first member is overwritten -/
theorem keys_collapse : Plain collapsing ∧ sanitizeJsonbHostile collapsing = .obj true [([0x61], .num 2)] ∧
    ¬ Keeps collapsing (sanitizeJsonbHostile collapsing) ∧ ¬ Normalises collapsing := by
  have hkeeps : ¬ Keeps collapsing (sanitizeJsonbHostile collapsing) := by
    intro h
    have hnodup := (apart_of_keeps h).here.1
    exact absurd hnodup (by decide)
  refine ⟨?_, by rfl, hkeeps, fun h => hkeeps h.keeps⟩
  simp [Plain, collapsing, JsValue.ObjectOk, Ordered, JsValue.Stands, JsValue.arrayIndex, Nat.toDigits, Nat.toDigitsCore]

end AstramemLocal.Sync.Jsonb
