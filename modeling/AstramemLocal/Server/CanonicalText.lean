/-
`stableStringify` (`src/server/lib/stable-stringify.ts`) on every JSON value, strings in UTF-16, and the replay decision
of an ingest, which compares the hashes of two such texts.

- `exists_tree`: the text is one of the value, as JSON.parse reads it.
- `stableStringify_of_same`: the order of the keys does not show.
- `canonical_form`: two texts are equal exactly when the values are the same JSON. An ingest under a key that is live with
  one body is a replay exactly when its own body is the same JSON, and a conflict otherwise.
-/
import AstramemLocal.Core.DecimalText
import AstramemLocal.Core.JsonQuote
import AstramemLocal.Core.JsonSame
import AstramemLocal.Core.JsonPaths
import AstramemLocal.Server.IngestSpec

namespace AstramemLocal.Server.CanonicalText

open AstramemLocal.Core AstramemLocal.Store AstramemLocal.Ingest
open JsonText (Tree render value quoteString quoted comma colonMark openBracket closeBracket openBrace closeBrace nullText
  trueText falseText isNumber jsonParse)
open JsValue (Same UniqueKeys JsonValue Everywhere names mapValues putAll)

variable {N : Type}

section
variable (numberText : N → JsString)

def memberText (member : JsString × JsString) : JsString := quoteString member.1 ++ colonMark :: member.2

/-- the members by their keys, which compare by code units -/
def sortKeys {α : Type*} (members : List (JsString × α)) : List (JsString × α) :=
  members.insertionSort fun a b => a.1 ≤ b.1

mutual
def stableStringify : JsValue N → JsString
  | .null => nullText
  | .bool b => if b then trueText else falseText
  | .num n => numberText n
  | .str s => quoteString s
  | .arr items => openBracket :: [comma].intercalate (stableStringifyAll items) ++ [closeBracket]
  | .obj _ members =>
    openBrace :: [comma].intercalate ((sortKeys (stableStringifyMembers members)).map memberText) ++ [closeBrace]
def stableStringifyAll : List (JsValue N) → List JsString
  | [] => []
  | item :: items => stableStringify item :: stableStringifyAll items
def stableStringifyMembers : List (JsString × JsValue N) → List (JsString × JsString)
  | [] => []
  | (key, value) :: members => (key, stableStringify value) :: stableStringifyMembers members
end

theorem stableStringify_arr (items : List (JsValue N)) : stableStringify numberText (.arr items) =
    openBracket :: [comma].intercalate (items.map (stableStringify numberText)) ++ [closeBracket] := by
  have hall : stableStringifyAll numberText items = items.map (stableStringify numberText) := by
    induction items with
    | nil => rfl
    | cons item items ih => rw [stableStringifyAll, ih, List.map_cons]
  rw [stableStringify, hall]

theorem stableStringify_obj (setter : Bool) (members : List (JsString × JsValue N)) :
    stableStringify numberText (.obj setter members) = openBrace ::
      [comma].intercalate ((sortKeys (mapValues (stableStringify numberText) members)).map memberText) ++ [closeBrace] := by
  have hall : stableStringifyMembers numberText members = mapValues (stableStringify numberText) members := by
    induction members with
    | nil => rfl
    | cons m members ih =>
      obtain ⟨key, v⟩ := m
      rw [stableStringifyMembers, ih]
      rfl
  rw [stableStringify, hall]

end

/-! ## The order of the keys -/

section
variable {α : Type*} {members members' : List (JsString × α)}

theorem sortKeys_perm (members : List (JsString × α)) : (sortKeys members).Perm members :=
  List.perm_insertionSort _ members

theorem sortKeys_pairwise (members : List (JsString × α)) : (sortKeys members).Pairwise fun a b => a.1 ≤ b.1 := by
  have : Std.Total fun a b : JsString × α => a.1 ≤ b.1 := ⟨fun a b => le_total a.1 b.1⟩
  have : IsTrans (JsString × α) fun a b => a.1 ≤ b.1 := ⟨fun _ _ _ hab hbc => le_trans hab hbc⟩
  exact List.pairwise_insertionSort _ members

/-- keys that are all different have one order -/
theorem sortKeys_eq_of_perm (h : members.Perm members') (hkeys : (names members).Nodup) :
    sortKeys members = sortKeys members' := by
  have hperm : (sortKeys members).Perm (sortKeys members') :=
    (sortKeys_perm members).trans (h.trans (sortKeys_perm members').symm)
  refine List.Perm.eq_of_pairwise (fun a b ha hb hab hba => ?_) (sortKeys_pairwise members) (sortKeys_pairwise members') hperm
  have ha := (sortKeys_perm members).mem_iff.1 ha
  have hb := ((sortKeys_perm members').trans h.symm).mem_iff.1 hb
  exact List.inj_on_of_nodup_map hkeys ha hb (le_antisymm hab hba)

theorem sortKeys_mapValues {β : Type*} (f : α → β) (members : List (JsString × α)) :
    sortKeys (mapValues f members) = mapValues f (sortKeys members) := by
  symm
  apply List.map_insertionSort
  intro a _ b _
  exact Iff.rfl

end

/-- **The order of the keys does not show.** -/
theorem stableStringify_of_same (numberText : N → JsString) {v w : JsValue N} (hv : Everywhere UniqueKeys v)
    (hw : Everywhere UniqueKeys w) (h : Same v w) : stableStringify numberText v = stableStringify numberText w := by
  induction h with
  | null => rfl
  | bool b => rfl
  | num n => rfl
  | str s => rfl
  | @arr items items' hlen hitems ih =>
    rw [JsValue.everywhere_arr] at hv hw
    have hall : items.map (stableStringify numberText) = items'.map (stableStringify numberText) := by
      apply List.ext_getElem
      · rw [List.length_map, List.length_map, hlen]
      · intro i hi hi'
        rw [List.length_map] at hi hi'
        rw [List.getElem_map, List.getElem_map]
        exact ih i _ _ (List.getElem?_eq_getElem hi) (List.getElem?_eq_getElem hi') (hv.2 _ (List.getElem_mem hi))
          (hw.2 _ (List.getElem_mem hi'))
    rw [stableStringify_arr, stableStringify_arr, hall]
  | @obj setter setter' members members' hkeys hvalues ih =>
    rw [JsValue.everywhere_obj] at hv hw
    have hlookup : ∀ key, (members.lookup key).map (stableStringify numberText) =
        (members'.lookup key).map (stableStringify numberText) := by
      intro key
      have hkey := hkeys key
      cases hx : members.lookup key with
      | none =>
        cases hy : members'.lookup key with
        | none => rfl
        | some y => simp [hx, hy] at hkey
      | some x =>
        cases hy : members'.lookup key with
        | none => simp [hx, hy] at hkey
        | some y =>
          exact congrArg some (ih key x y hx hy (hv.2 _ (JsValue.mem_of_lookup hx)) (hw.2 _ (JsValue.mem_of_lookup hy)))
    have hperm := (JsValue.perm_map_iff (stableStringify numberText) hv.1 hw.1).2 hlookup
    rw [stableStringify_obj, stableStringify_obj, sortKeys_eq_of_perm hperm]
    rw [JsValue.names_mapValues]
    exact hv.1

/-! ## The text is read back -/

section
variable {numberText : N → JsString} {number : JsString → N}

/-- a JSON text of the value -/
structure TextOf (numberText : N → JsString) (number : JsString → N) (v : JsValue N) (t : Tree) : Prop where
  text : render t = stableStringify numberText v
  same : Same v (value number t)

theorem textOf_arr {items : List (JsValue N)} {tree : JsValue N → Tree}
    (h : ∀ v ∈ items, TextOf numberText number v (tree v)) :
    TextOf numberText number (.arr items) (.array JsonText.noWs (items.map fun v => ⟨JsonText.noWs, tree v, JsonText.noWs⟩)) where
  text := by
    have htexts : (items.map fun v => (⟨JsonText.noWs, tree v, JsonText.noWs⟩ : JsonText.Item Tree)).map JsonText.Item.text =
        items.map (stableStringify numberText) := by
      rw [List.map_map]
      apply List.map_congr_left
      intro v hv
      simp [JsonText.Item.text, JsonText.noWs, (h v hv).text]
    rw [JsonText.render_array, htexts, stableStringify_arr]
    rfl
  same := by
    rw [value, JsonText.valueItems_eq, List.map_map]
    refine .arr (by simp) fun i v w hv hw => ?_
    rw [List.getElem?_map, hv] at hw
    rw [← Option.some.inj hw]
    exact (h v (List.mem_of_getElem? hv)).same

theorem quoted_of_pieces {pieces : List JsonText.Piece} {s : JsString} (h : JsonText.spelling pieces = JsonText.quoteUnits s) :
    quoted pieces = quoteString s := by
  rw [quoted, h]
  rfl

theorem textOf_obj {setter : Bool} {members : List (JsString × JsValue N)} (hkeys : (names members).Nodup)
    {tree : JsValue N → Tree} (h : ∀ m ∈ members, TextOf numberText number m.2 (tree m.2)) :
    ∃ t, TextOf numberText number (.obj setter members) t := by
  choose pieces hspelling hdecode using JsonText.exists_pieces
  let member (m : JsString × JsValue N) : JsonText.Member Tree :=
    ⟨JsonText.noWs, pieces m.1, JsonText.noWs, JsonText.noWs, tree m.2, JsonText.noWs⟩
  refine ⟨.object JsonText.noWs ((sortKeys members).map member), ?_, ?_⟩
  · have htexts : ((sortKeys members).map member).map JsonText.Member.text =
        (sortKeys (mapValues (stableStringify numberText) members)).map memberText := by
      rw [sortKeys_mapValues, mapValues, List.map_map, List.map_map]
      apply List.map_congr_left
      intro m hm
      have htext := (h m ((sortKeys_perm members).mem_iff.1 hm)).text
      simp [member, JsonText.Member.text, JsonText.noWs, memberText, htext, quoted_of_pieces (hspelling m.1)]
    rw [JsonText.render_object, htexts, stableStringify_obj]
    rfl
  · -- the members that are read back are those of the object, in some order
    have hvalues : JsonText.valueMembers number ((sortKeys members).map member) =
        mapValues (fun v => value number (tree v)) (sortKeys members) := by
      rw [JsonText.valueMembers_eq, List.map_map]
      apply List.map_congr_left
      intro m _
      simp [member, hdecode]
    have hsorted : (names (sortKeys members)).Nodup := ((sortKeys_perm members).map Prod.fst).nodup_iff.2 hkeys
    have hread : (mapValues (fun v => value number (tree v)) members).Perm
        (putAll (mapValues (fun v => value number (tree v)) (sortKeys members))) := by
      have hnames : (names (mapValues (fun v => value number (tree v)) (sortKeys members))).Nodup := by
        rwa [JsValue.names_mapValues]
      have hput := JsValue.putAll_perm hnames
      exact (hput.trans ((sortKeys_perm members).map _)).symm
    have hlookup : ∀ key, (putAll (mapValues (fun v => value number (tree v)) (sortKeys members))).lookup key =
        (members.lookup key).map fun v => value number (tree v) := by
      intro key
      rw [← JsValue.lookup_eq_of_perm hread (by rwa [JsValue.names_mapValues]), JsValue.lookup_mapValues]
    rw [value, hvalues]
    refine .obj (fun key => ?_) fun key v w hv hw => ?_
    · rw [hlookup, Option.isSome_map]
    · rw [hlookup, hv] at hw
      rw [← Option.some.inj hw]
      exact (h (key, v) (JsValue.mem_of_lookup hv)).same

theorem textOf_leaf {v : JsValue N} {t : Tree} (htext : render t = stableStringify numberText v) (h : value number t = v) :
    TextOf numberText number v t := ⟨htext, h ▸ Same.refl v⟩

/-- **The text is a JSON text of the value.** -/
theorem exists_tree (hnumber : ∀ n, isNumber (numberText n) = true) (hread : ∀ n, number (numberText n) = n) {v : JsValue N}
    (hv : Everywhere UniqueKeys v) : ∃ t, TextOf numberText number v t := by
  have : Nonempty Tree := ⟨.null⟩
  induction v using JsValue.ind with
  | null => exact ⟨.null, textOf_leaf rfl rfl⟩
  | bool b => exact ⟨.bool b, textOf_leaf rfl rfl⟩
  | num n => exact ⟨.number (numberText n) (hnumber n), textOf_leaf rfl (by rw [value, hread])⟩
  | str s =>
    obtain ⟨pieces, hspelling, hdecode⟩ := JsonText.exists_pieces s
    exact ⟨.string pieces, textOf_leaf (quoted_of_pieces hspelling) (by rw [value, hdecode])⟩
  | arr items ih =>
    rw [JsValue.everywhere_arr] at hv
    have hitems : ∀ v ∈ items, ∃ t, TextOf numberText number v t := fun v hmem => ih v hmem (hv.2 v hmem)
    choose! tree htree using hitems
    exact ⟨_, textOf_arr htree⟩
  | obj setter members ih =>
    rw [JsValue.everywhere_obj] at hv
    have hvalues : ∀ v, v ∈ members.map Prod.snd → ∃ t, TextOf numberText number v t := by
      intro v hmem
      obtain ⟨m, hm, rfl⟩ := List.mem_map.1 hmem
      exact ih m hm (hv.2 m hm)
    choose! tree htree using hvalues
    exact textOf_obj hv.1 fun m hm => htree m.2 (List.mem_map_of_mem hm)

/-- JSON.parse makes the same JSON of the text -/
theorem jsonParse_stableStringify (hnumber : ∀ n, isNumber (numberText n) = true) (hread : ∀ n, number (numberText n) = n)
    {v : JsValue N} (hv : Everywhere UniqueKeys v) :
    ∃ w, jsonParse number (stableStringify numberText v) = some w ∧ Same v w := by
  obtain ⟨t, ht⟩ := exists_tree hnumber hread hv
  refine ⟨value number t, ?_, ht.same⟩
  have hparse : jsonParse number (JsonText.noWs.1 ++ render t ++ JsonText.noWs.1) = some (value number t) :=
    JsonText.jsonParse_render JsonText.noWs JsonText.noWs t
  have hnoWs : JsonText.noWs.1 ++ render t ++ JsonText.noWs.1 = render t := List.append_nil _
  rwa [hnoWs, ht.text] at hparse

end

/-- **A canonical form.** Numbers have texts of their own, as JSON prescribes. -/
theorem stableStringify_eq_iff [Nonempty N] {numberText : N → JsString} (hnumber : ∀ n, isNumber (numberText n) = true)
    (hinj : Function.Injective numberText) (v w : JsonValue N) :
    stableStringify numberText v.1 = stableStringify numberText w.1 ↔ Same v.1 w.1 := by
  constructor
  · intro h
    have hread : ∀ n, Function.invFun numberText (numberText n) = n := Function.leftInverse_invFun hinj
    obtain ⟨x, hx, hvx⟩ := jsonParse_stableStringify hnumber hread v.2
    obtain ⟨y, hy, hwy⟩ := jsonParse_stableStringify hnumber hread w.2
    rw [h, hy] at hx
    exact hvx.trans (Option.some.inj hx ▸ hwy.symm)
  · exact stableStringify_of_same numberText v.2 w.2

/-! ## The replay decision -/

instance : Nonempty Decimal := ⟨.ofDigits false [] 0⟩

/-- the hash of a body, with the text of its numbers as JSON.stringify writes them -/
def contentHash (sha256 : JsString → String) (data : JsonValue Decimal) : String :=
  sha256 (stableStringify Decimal.text data.1)

section
variable {E : Ingest.Env} {db : Db} {key hash other : String} {n : ℕ} {now : Time} {session : Session}
  {transcript : ℕ → Transcript} {events : List String} {kind : Pipeline.JobKind}

/-- a live row has one hash -/
theorem live_iff (h : Live db key hash n) : Live db key other n ↔ hash = other := by
  constructor
  · rintro ⟨row, hrow, rfl, -, -⟩
    obtain ⟨row', hrow', rfl, -, -⟩ := h
    rw [Option.some.inj (hrow.symm.trans hrow')]
  · rintro rfl
    exact h

theorem slotFree_iff (h : Live db key hash n) : SlotFree db key other ↔ hash = other := by
  obtain ⟨row, hrow, rfl, hid, -⟩ := h
  constructor
  · intro hfree
    rcases hfree row hrow with hpending | hhash
    · rw [hid] at hpending
      cases hpending
    · exact hhash
  · rintro rfl row' hrow'
    exact .inr (congrArg _ (Option.some.inj (hrow'.symm.trans hrow)))

/-- **The decision of an ingest** under a key that is live with another body. -/
theorem ingest_decision (h : Live db key hash n) :
    (ingestTx E db (some key) other now session transcript events kind = .error (.idempotentReplay n) ↔ hash = other) ∧
    (ingestTx E db (some key) other now session transcript events kind = .error (.idempotencyConflict key) ↔
      ¬ hash = other) :=
  ⟨ingestTx_replay.trans (live_iff h), ingestTx_conflict.trans (not_congr (slotFree_iff h))⟩

end

/-- **Replays are the same content.** Equal texts are the same JSON. Where the texts of two bodies do not collide, an ingest
of one under a key that is live with the other is a replay if they are the same JSON, and a conflict if they are not. -/
theorem canonical_form (a b : JsonValue Decimal) :
    (stableStringify Decimal.text a.1 = stableStringify Decimal.text b.1 ↔ Same a.1 b.1) ∧
    ∀ sha256 : JsString → String,
      (contentHash sha256 a = contentHash sha256 b →
        stableStringify Decimal.text a.1 = stableStringify Decimal.text b.1) →
      ∀ (E : Ingest.Env) (db : Db) (key : String) (n : ℕ), Live db key (contentHash sha256 a) n →
      ∀ (now : Time) (session : Session) (transcript : ℕ → Transcript) (events : List String) (kind : Pipeline.JobKind),
        (ingestTx E db (some key) (contentHash sha256 b) now session transcript events kind = .error (.idempotentReplay n) ↔
          Same a.1 b.1) ∧
        (ingestTx E db (some key) (contentHash sha256 b) now session transcript events kind =
          .error (.idempotencyConflict key) ↔ ¬ Same a.1 b.1) := by
  have hform := stableStringify_eq_iff Decimal.isNumber_text Decimal.text_injective a b
  refine ⟨hform, fun sha256 hcollision E db key n hlive now session transcript events kind => ?_⟩
  have hhash : contentHash sha256 a = contentHash sha256 b ↔ Same a.1 b.1 :=
    ⟨fun h => hform.1 (hcollision h), fun h => congrArg sha256 (hform.2 h)⟩
  rw [← hhash]
  exact ingest_decision hlive

/-- an object with two members -/
def pair (x y : JsString × Decimal) (h : x.1 ≠ y.1) : JsonValue Decimal where
  val := .obj true [(x.1, .num x.2), (y.1, .num y.2)]
  property := by simpa [UniqueKeys, names] using h

theorem one_lt_ten : 1 < 10 := by decide

theorem two_lt_ten : 2 < 10 := by decide

def one : Decimal := .ofDigits false [⟨1, one_lt_ten⟩] 1

def two : Decimal := .ofDigits false [⟨2, two_lt_ten⟩] 1

/-- `a` is 1 and `b` is 2, and the same with the keys the other way round -/
def body : JsonValue Decimal := pair (JsString.ofString "a", one) (JsString.ofString "b", two) (by decide)

def swapped : JsonValue Decimal := pair (JsString.ofString "b", two) (JsString.ofString "a", one) (by decide)

/-- the digest of their text -/
def digest (text : JsString) : String :=
  if text = JsString.ofString "\x7b\"a\":1,\"b\":2\x7d" then "43258cff783fe7036d8a43033f830adfc60ec037382473548ac742b888292777"
  else ""

def heldDb : Db where
  transcripts := [{ id := 0, sessionId := "s", source := "claude", content := "", ingestedAt := 0 }]
  idempotency := [⟨"k", contentHash digest body, some (.id 0), 0⟩]

theorem canonical_form_swapped :
    stableStringify Decimal.text body.1 = stableStringify Decimal.text swapped.1 ∧ Same body.1 swapped.1 ∧
    ingestTx (tableEnv [] []) heldDb (some "k") (contentHash digest swapped) 1 { id := "s", startedAt := 1 }
      (fun id => { id, sessionId := "s", source := "claude", content := "", ingestedAt := 1 }) [] .distill =
        .error (.idempotentReplay 0) := by
  have htexts : stableStringify Decimal.text body.1 = stableStringify Decimal.text swapped.1 := by decide +kernel
  have hsame : Same body.1 swapped.1 := (canonical_form body swapped).1.1 htexts
  have hlive : Live heldDb "k" (contentHash digest body) 0 := ⟨_, rfl, rfl, rfl, rfl⟩
  exact ⟨htexts, hsame,
    ((canonical_form body swapped).2 digest (fun _ => htexts) (tableEnv [] []) heldDb "k" 0 hlive _ _ _ _ _).1.2 hsame⟩

/-! ## Strings of characters -/

mutual
/-- a value with strings of characters, in UTF-16 -/
def ofJson : Json → JsValue ℚ
  | .null => .null
  | .bool b => .bool b
  | .num n => .num n
  | .str s => .str (codeUnits s)
  | .arr items => .arr (ofJsonAll items)
  | .obj members => .obj true (ofJsonMembers members)
def ofJsonAll : List Json → List (JsValue ℚ)
  | [] => []
  | item :: items => ofJson item :: ofJsonAll items
def ofJsonMembers : List (String × Json) → List (JsString × JsValue ℚ)
  | [] => []
  | (key, v) :: members => (codeUnits key, ofJson v) :: ofJsonMembers members
end

theorem ofJsonAll_eq (items : List Json) : ofJsonAll items = items.map ofJson := by
  induction items with
  | nil => rfl
  | cons item items ih => rw [ofJsonAll, ih, List.map_cons]

theorem ofJsonMembers_eq (members : List (String × Json)) :
    ofJsonMembers members = members.map fun m => (codeUnits m.1, ofJson m.2) := by
  induction members with
  | nil => rfl
  | cons m members ih =>
    obtain ⟨key, v⟩ := m
    rw [ofJsonMembers, ih, List.map_cons]

theorem flatMap_intercalate (parts : List (List Char)) :
    ([','].intercalate parts).flatMap charUnits = [comma].intercalate (parts.map (List.flatMap charUnits)) := by
  induction parts with
  | nil => rfl
  | cons part parts ih =>
    cases parts with
    | nil => simp
    | cons next parts =>
      simp only [List.map_cons, List.intercalate_cons_cons, List.flatMap_append] at ih ⊢
      rw [ih]
      rfl

theorem stableStringifyAll_eq (numberText : ℚ → List Char) (items : List Json) :
    Server.stableStringifyAll numberText items = items.map (Server.stableStringify numberText) := by
  induction items with
  | nil => rfl
  | cons item items ih => rw [Server.stableStringifyAll, ih, List.map_cons]

/-- **The text that is hashed**, of a body whose strings are strings of characters. -/
theorem stableStringify_ofJson (numberText : ℚ → List Char) (j : Json) :
    stableStringify (fun n => (numberText n).flatMap charUnits) (ofJson j) =
      (Server.stableStringify numberText j).flatMap charUnits := by
  have hframe : ∀ (opening closing : Char) (parts : List (List Char)),
      (opening :: [','].intercalate parts ++ [closing]).flatMap charUnits =
        charUnits opening ++ [comma].intercalate (parts.map (List.flatMap charUnits)) ++ charUnits closing := by
    intro opening closing parts
    rw [List.flatMap_append, List.flatMap_cons, flatMap_intercalate, List.flatMap_singleton]
  induction j using Json.ind with
  | null =>
    have htext : nullText = "null".toList.flatMap charUnits := by decide
    exact htext
  | bool b =>
    have htexts : trueText = "true".toList.flatMap charUnits ∧ falseText = "false".toList.flatMap charUnits := by decide
    cases b
    · exact htexts.2
    · exact htexts.1
  | num n => rfl
  | str s => exact JsonText.quoteString_codeUnits s
  | arr items ih =>
    have hitems : (items.map ofJson).map (stableStringify fun n => (numberText n).flatMap charUnits) =
        (items.map (Server.stableStringify numberText)).map (List.flatMap charUnits) := by
      rw [List.map_map, List.map_map]
      exact List.map_congr_left ih
    rw [ofJson, ofJsonAll_eq, stableStringify_arr, hitems, Server.stableStringify, stableStringifyAll_eq, hframe]
    rfl
  | obj members ih =>
    let member (m : String × Json) : JsString × JsString :=
      (codeUnits m.1, stableStringify (fun n => (numberText n).flatMap charUnits) (ofJson m.2))
    have hmembers : mapValues (stableStringify fun n => (numberText n).flatMap charUnits) (ofJsonMembers members) =
        members.map member := by
      rw [ofJsonMembers_eq, mapValues, List.map_map]
      rfl
    have hsort : sortKeys (members.map member) = (Server.sortKeys members).map member := by
      symm
      apply List.map_insertionSort
      intro a _ b _
      exact Iff.rfl
    have htexts : ((Server.sortKeys members).map member).map memberText =
        ((Server.sortKeys members).map (sortedText numberText)).map (List.flatMap charUnits) := by
      rw [List.map_map, List.map_map]
      apply List.map_congr_left
      intro m hm
      have htext := ih m ((List.mem_insertionSort _).1 hm)
      simp only [Function.comp_apply, memberText, member, htext, sortedText, Server.memberText, List.flatMap_append,
        List.flatMap_cons, JsonText.quoteString_codeUnits]
      rfl
    rw [ofJson, stableStringify_obj, hmembers, hsort, htexts, Server.stableStringify_obj, hframe]
    rfl

end AstramemLocal.Server.CanonicalText
