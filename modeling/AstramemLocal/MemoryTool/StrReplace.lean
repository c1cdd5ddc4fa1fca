/-
`str_replace` of the memory-tool adapter (`handleStrReplace`): the memory that has `old_str` is superseded by one with the
new text. `String.replace` reads `$` patterns in `new_str`, and the new text goes through the insert that finds a row of
its hash whatever the row's type and validity.
- `replace_plain`: a `new_str` without `$` is taken literally;
- `str_replace_iff`: an edit is the literal one exactly when the text is stored literally and no other row has its hash;
- `pattern_expanded`, `edit_back_refused`: a price loses a `$`, and an edit back to the text before is refused.
-/
import AstramemLocal.Core.Cut
import AstramemLocal.Core.Joined
import AstramemLocal.MemoryTool.Adapter
import AstramemLocal.Store.MemoryEvents
import Mathlib.Logic.Relation

namespace AstramemLocal.MemoryTool

open AstramemLocal.Core AstramemLocal.Store

/-! ## The edit -/

/-- the command with the two fields only `str_replace` reads -/
structure StrReplaceCommand extends MemoryToolCommand where
  old_str : Option String := none
  new_str : Option String := none
deriving DecidableEq, Repr

/-- the patterns `$$`, `$&`, `` $` `` and `$'` of a replacement; the search is for a string, so there are no groups -/
def getSubstitution (before matched after : List Char) : List Char → List Char
  | [] => []
  | [c] => [c]
  | c :: d :: template =>
    if c ≠ '$' then c :: getSubstitution before matched after (d :: template)
    else if d = '$' then '$' :: getSubstitution before matched after template
    else if d = '&' then matched ++ getSubstitution before matched after template
    else if d = '\x60' then before ++ getSubstitution before matched after template
    else if d = '\x27' then after ++ getSubstitution before matched after template
    else c :: getSubstitution before matched after (d :: template)

/-- `text.replace(old_str, new_str)` -/
def replaceFirst (text old_str new_str : String) : String :=
  match firstCut old_str.toList text.toList with
  | none => text
  | some (before, after) =>
    String.ofList (before ++ getSubstitution before old_str.toList after new_str.toList ++ after)

variable (E : Env)

def lifecycleMessage : LifecycleError → String
  | .memoryNotFound atomId => "memory not found: " ++ E.idText atomId
  | .memoryConflict message => message
  | .invalidScopeTransition message => message
  | .purgeBatchNotFound batchId => "purge batch not found: " ++ E.idText batchId

/-- the rest of the handler, behind the choice of the memory -/
def replaceIn (db : St) (type : MemoryType) (old : Memory) (old_str new_str : String) : MemoryToolResult × St :=
  let occurrences := (cuts old_str.toList old.text.toList).length - 1
  if occurrences ≠ 1 then
    (.error ("old_str must occur exactly once within the matched memory (found " ++ toString occurrences ++ ")"), db)
  else
    let text := E.redactIfEnabled (replaceFirst old.text old_str new_str)
    match insertWithCreateEvent E.store db (createInput E type text) with
    | .error e => (.error (E.errorMessage e), db)
    | .ok (db, inserted) =>
      let reply := "superseded memory " ++ E.idText old.id ++ " with " ++ E.idText inserted.id ++ " in " ++
        typeName type ++ ".md"
      if inserted.id = old.id then (.content reply, db)
      else
        match supersede E.store db old.id inserted.id none .external with
        | .error e => (.error (lifecycleMessage E e), db)
        | .ok db => (.content reply, db)

def hasText (old_str : String) (r : Memory) : Bool := old_str.toList <:+: r.text.toList

def handleStrReplace (db : St) (cmd : StrReplaceCommand) : MemoryToolResult × St :=
  match parseMemoriesPath cmd.path with
  | some (.typeFile slug) =>
    match typeOfSlug slug with
    | none => (.error ("no such file: " ++ cmd.path), db)
    | some type =>
      match cmd.old_str.filter (· ≠ "") with
      | none => (.error "missing old_str", db)
      | some old_str =>
        match cmd.new_str with
        | none => (.error "missing new_str", db)
        | some new_str =>
          match (listValidMemoriesByType db type).filter (hasText old_str) with
          | [] => (.error ("old_str not found in " ++ cmd.path), db)
          | [old] => replaceIn E db type old old_str new_str
          | old :: others =>
            (.error ("old_str matches " ++ toString (old :: others).length ++ " memories in " ++ cmd.path ++
              " — must match exactly one"), db)
  | _ => (.error ("invalid path for str_replace: " ++ cmd.path), db)

def strReplace (type : MemoryType) (old_str new_str : String) : StrReplaceCommand :=
  { command := "str_replace", path := typePath type, old_str := some old_str, new_str := some new_str }

/-! ## A literal edit -/

/-- `old_str` stands once in the one listed memory that has it, between `before` and `after` -/
structure OnlyMatch (db : St) (old : Memory) (old_str before after : String) : Prop where
  mem : old ∈ db.memories
  valid : old.validTo = none
  only : ∀ r ∈ db.memories, r.type = old.type → r.validTo = none → hasText old_str r = true → r = old
  once : OccursOnce old_str.toList old.text.toList before.toList after.toList

/-- the file lists the text in the place of the memory, and every other valid memory is as it was -/
structure Edited (db db' : St) (old : Memory) (text : String) : Prop where
  listed : Lists db' old.type text
  others : ∀ r ∈ db.memories, r.validTo = none → r.id ≠ old.id → r ∈ db'.memories
  nothingElse : ∀ r ∈ db'.memories, r.validTo = none →
    r ∈ db.memories ∧ r.id ≠ old.id ∨ r.type = old.type ∧ r.text = text

/-- a memory that was superseded up to this one had the text -/
def HadBefore (db : St) (m : Memory) (text : String) : Prop :=
  ∃ p ∈ db.memories, p.text = text ∧
    Relation.TransGen (fun p q : Memory => q ∈ db.memories ∧ p.supersededBy = some q.id) p m

structure LiteralEdit (db : St) (old : Memory) (text : String) (result : MemoryToolResult × St) : Prop where
  success : ∀ reply, result.1 = .content reply → Edited db result.2 old text
  failure : ∀ e, result.1 = .error e → result.2.memories = db.memories
  back : HadBefore db old text → ∃ reply, result.1 = .content reply

/-- the text the edit asks for -/
def literalText (before new_str after : String) : String := E.redactIfEnabled (before ++ new_str ++ after)

/-- the text the handler inserts -/
def insertedText (old : Memory) (old_str new_str : String) : String :=
  E.redactIfEnabled (replaceFirst old.text old_str new_str)

/-- the row that answers for the new text leaves the edit a literal one -/
def Answers (db : St) (old : Memory) (text : String) (found : Memory) : Prop :=
  if found.id = old.id then old.text = text
  else if found.validTo = none then
    -- a supersede stamps the row it finds
    found.validFrom = E.store.now db.clock ∧ found.updatedAt = E.store.now db.clock ∧
      ∃ r ∈ db.memories, r.id ≠ old.id ∧ r.type = old.type ∧ r.validTo = none ∧ r.text = text
  else ¬ HadBefore db old text

/-- the text is inserted literally, or a row that answers for it makes up for it -/
def StoresLiterally (db : St) (old : Memory) (old_str new_str text : String) : Prop :=
  match findHash db (E.contentHash (insertedText E old old_str new_str)) with
  | none => insertedText E old old_str new_str = text
  | some found => Answers E db old text found

variable {E} {db db' : St} {old : Memory} {old_str new_str before after text : String}

/-! ## The text -/

theorem getSubstitution_plain {template : List Char} (b m a : List Char) (h : '$' ∉ template) :
    getSubstitution b m a template = template := by
  induction template with
  | nil => rfl
  | cons c template ih =>
    have hc : c ≠ '$' := fun heq => h (heq ▸ List.mem_cons_self)
    have hrest := ih fun hmem => h (List.mem_cons_of_mem c hmem)
    cases template with
    | nil => rfl
    | cons d template => rw [getSubstitution, if_pos hc, hrest]

/-- **Plain replacements.** Without a `$` the new text is literal. -/
theorem replace_plain (hplain : '$' ∉ new_str.toList)
    (honce : OccursOnce old_str.toList text.toList before.toList after.toList) :
    replaceFirst text old_str new_str = before ++ new_str ++ after := by
  rw [replaceFirst, honce.firstCut_eq]
  dsimp only
  rw [getSubstitution_plain _ _ _ hplain]
  apply String.toList_injective
  simp

/-! ## The handler -/

theorem matches_eq (hids : UniqueIds db) (h : OnlyMatch db old old_str before after) :
    (listValidMemoriesByType db old.type).filter (hasText old_str) = [old] := by
  have hin : old ∈ (listValidMemoriesByType db old.type).filter (hasText old_str) := by
    rw [List.mem_filter, mem_listValid]
    refine ⟨⟨h.mem, rfl, h.valid⟩, decide_eq_true ?_⟩
    exact ⟨before.toList, after.toList, by rw [h.once.1, List.append_assoc]⟩
  have hall : ∀ r ∈ (listValidMemoriesByType db old.type).filter (hasText old_str), r = old := by
    intro r hr
    rw [List.mem_filter, mem_listValid] at hr
    obtain ⟨⟨hmem, htype, hvalid⟩, htext⟩ := hr
    exact h.only r hmem htype hvalid htext
  have hnodup : ((listValidMemoriesByType db old.type).filter (hasText old_str)).Nodup := by
    apply List.Nodup.filter
    unfold listValidMemoriesByType
    rw [(List.perm_insertionSort _ _).nodup_iff]
    exact (List.Nodup.of_map _ hids).filter _
  have hconst := List.eq_replicate_of_mem hall
  rw [hconst, List.nodup_replicate] at hnodup
  have hlength := List.length_pos_of_mem hin
  rw [hconst, show ((listValidMemoriesByType db old.type).filter (hasText old_str)).length = 1 by omega]
  rfl

/-- the handler inserts the new text and supersedes the memory -/
theorem handle_eq (hids : UniqueIds db) (htype : old.type ∈ adapterTypes) (hne : old_str ≠ "")
    (h : OnlyMatch db old old_str before after) :
    handleStrReplace E db (strReplace old.type old_str new_str) = replaceIn E db old.type old old_str new_str := by
  obtain ⟨hpath, hslug⟩ := typePath_parses htype
  have hold : (some old_str).filter (· ≠ "") = some old_str := by simp [hne]
  unfold handleStrReplace strReplace
  simp only [hpath, hslug, hold, matches_eq hids h]

/-- the handler behind its count of the occurrences -/
theorem replaceIn_once (hne : old_str ≠ "") (h : OnlyMatch db old old_str before after) :
    replaceIn E db old.type old old_str new_str =
      match insertWithCreateEvent E.store db (createInput E old.type (insertedText E old old_str new_str)) with
      | .error e => (.error (E.errorMessage e), db)
      | .ok (db, inserted) =>
        let reply := "superseded memory " ++ E.idText old.id ++ " with " ++ E.idText inserted.id ++ " in " ++
          typeName old.type ++ ".md"
        if inserted.id = old.id then (.content reply, db)
        else
          match supersede E.store db old.id inserted.id none .external with
          | .error e => (.error (lifecycleMessage E e), db)
          | .ok db => (.content reply, db) := by
  have hpart : old_str.toList ≠ [] := by simpa using hne
  have hcount : (cuts old_str.toList old.text.toList).length - 1 = 1 := by rw [h.once.cuts_eq hpart]; rfl
  unfold replaceIn
  simp only [hcount, ne_eq, not_true_eq_false, if_false]
  rfl

/-! ## The rows behind a supersede -/

/-- a row behind `supersede(a, w)` at `now` -/
def afterSupersede (now : Time) (a w : AtomId) (r : Memory) : Memory :=
  if r.id = a then { r with validTo := some now, supersededBy := some w, updatedAt := now }
  else if r.id = w then { r with validFrom := now, updatedAt := now }
  else r

theorem afterSupersede_kept {now : Time} {a w : AtomId} {r : Memory} (h : (afterSupersede now a w r).validTo = none) :
    r.id ≠ a ∧ r.validTo = none ∧ (afterSupersede now a w r).type = r.type ∧ (afterSupersede now a w r).text = r.text := by
  unfold afterSupersede at h ⊢
  split at h
  · cases h
  next ha =>
    rw [if_neg ha]
    split at h
    next hw =>
      rw [if_pos hw]
      exact ⟨ha, h, rfl, rfl⟩
    next hw =>
      rw [if_neg hw]
      exact ⟨ha, h, rfl, rfl⟩

theorem afterSupersede_id {now : Time} {a w : AtomId} {r : Memory} : (afterSupersede now a w r).id = r.id := by
  unfold afterSupersede
  split_ifs <;> rfl

theorem afterSupersede_other {now : Time} {a w : AtomId} {r : Memory} (ha : r.id ≠ a) (hw : r.id ≠ w) :
    afterSupersede now a w r = r := by
  rw [afterSupersede, if_neg ha, if_neg hw]

/-- a supersede of a valid row by another valid one goes through -/
theorem supersede_rows {s : St} {a w : AtomId} {row wrow : Memory} (hne : a ≠ w) (ha : findRow s a = some row)
    (hav : row.validTo = none) (hw : findRow s w = some wrow) (hwv : wrow.validTo = none) :
    ∃ t, supersede E.store s a w none .external = .ok t ∧
      t.memories = s.memories.map (afterSupersede (E.store.now s.clock) a w) := by
  cases h : supersede E.store s a w none .external with
  | error e =>
    simp [supersede, ha, hw, hav, hwv] at h
  | ok t =>
    obtain ⟨_, _, -, -, -, -, rfl⟩ := supersede_ok h
    refine ⟨_, rfl, ?_⟩
    simp only [append_memories, dropRelations_memories, unlinkMemory_memories, updateRow, tick_memories, List.map_map]
    apply List.map_congr_left
    intro r hr
    unfold afterSupersede
    simp only [Function.comp]
    by_cases hra : r.id = a
    · simp [hra, hne]
    · simp [hra]

/-- the insert of a text whose hash no row has -/
theorem insert_fresh {type : MemoryType} (hhash : findHash db (E.contentHash text) = none)
    (huuid : findRow db (E.store.uuid db.drawn) = none) :
    insertWithCreateEvent E.store db (createInput E type text) =
      .ok (inserted E.store db (createInput E type text), ⟨E.store.uuid db.drawn, true⟩) := by
  have hrow : findRow (tick (draw db)) (E.store.uuid db.drawn) = none := huuid
  have hfree : findHash (tick (draw db)) (E.contentHash text) = none := hhash
  have hnone : findHash db (createInput E type text).hash = none := hhash
  unfold insertWithCreateEvent
  rw [hnone]
  simp only [insertRow, insertMemory, newRow, createInput, hrow, hfree, Option.isSome_none, Bool.false_eq_true, if_false,
    Option.filter_none, Except.map]
  rfl

/-! ## When the edit is literal -/

theorem literalEdit_content {reply : String} : LiteralEdit db old text (.content reply, db') ↔ Edited db db' old text := by
  constructor
  · intro h
    exact h.success reply rfl
  · intro h
    refine ⟨fun _ _ => h, ?_, fun _ => ⟨reply, rfl⟩⟩
    intro e he
    cases he

theorem literalEdit_error {e : String} : LiteralEdit db old text (.error e, db) ↔ ¬ HadBefore db old text := by
  constructor
  · intro h hback
    obtain ⟨reply, hreply⟩ := h.back hback
    cases hreply
  · intro h
    refine ⟨?_, fun _ _ => rfl, fun hback => absurd hback h⟩
    intro reply hreply
    cases hreply

/-- nothing has changed -/
theorem edited_unchanged (hids : UniqueIds db) (h : OnlyMatch db old old_str before after) :
    Edited db db old text ↔ old.text = text := by
  constructor
  · intro hedited
    rcases hedited.nothingElse old h.mem h.valid with ⟨-, hid⟩ | ⟨-, htext⟩
    · exact absurd rfl hid
    · exact htext
  · intro htext
    refine ⟨⟨old, mem_listValid.2 ⟨h.mem, rfl, h.valid⟩, htext⟩, fun r hr _ _ => hr, ?_⟩
    intro r hr _
    by_cases hid : r.id = old.id
    · rw [List.inj_on_of_nodup_map hids hr h.mem hid]
      exact .inr ⟨rfl, htext⟩
    · exact .inl ⟨hr, hid⟩

theorem stamped_eq {r : Memory} {now : Time} :
    { r with validFrom := now, updatedAt := now } = r ↔ r.validFrom = now ∧ r.updatedAt = now := by
  constructor
  · intro h
    exact ⟨(congrArg Memory.validFrom h).symm, (congrArg Memory.updatedAt h).symm⟩
  · intro h
    cases r
    dsimp only at h
    obtain ⟨rfl, rfl⟩ := h
    rfl

theorem afterSupersede_new {now : Time} {a : AtomId} {r : Memory} (h : r.id ≠ a) :
    afterSupersede now a r.id r = { r with validFrom := now, updatedAt := now } := by
  rw [afterSupersede, if_neg h, if_pos rfl]

/-- the memory has given way to a row that was there -/
theorem edited_merged (hids : UniqueIds db) {found : Memory} (hfound : found ∈ db.memories)
    (hvalid : found.validTo = none) (hne : found.id ≠ old.id) {now : Time}
    (hrows : db'.memories = db.memories.map (afterSupersede now old.id found.id)) :
    Edited db db' old text ↔ found.validFrom = now ∧ found.updatedAt = now ∧
      ∃ r ∈ db.memories, r.id ≠ old.id ∧ r.type = old.type ∧ r.validTo = none ∧ r.text = text := by
  constructor
  · intro hedited
    have hkept := hedited.others found hfound hvalid hne
    rw [hrows, List.mem_map] at hkept
    obtain ⟨r, hr, hsame⟩ := hkept
    have hid : r.id = found.id := by rw [← hsame, afterSupersede_id]
    rw [List.inj_on_of_nodup_map hids hr hfound hid, afterSupersede_new hne, stamped_eq] at hsame
    refine ⟨hsame.1, hsame.2, ?_⟩
    obtain ⟨x, hx, htext⟩ := hedited.listed
    obtain ⟨hmem, htype, hxvalid⟩ := mem_listValid.1 hx
    rw [hrows, List.mem_map] at hmem
    obtain ⟨y, hy, rfl⟩ := hmem
    obtain ⟨hyid, hyvalid, hytype, hytext⟩ := afterSupersede_kept hxvalid
    exact ⟨y, hy, hyid, hytype.symm.trans htype, hyvalid, hytext.symm.trans htext⟩
  · intro h
    obtain ⟨hfrom, hupdated, r, hr, hrid, hrtype, hrvalid, hrtext⟩ := h
    have hkept : ∀ x ∈ db.memories, x.id ≠ old.id → afterSupersede now old.id found.id x = x := by
      intro x hx hxid
      by_cases hxf : x.id = found.id
      · rw [List.inj_on_of_nodup_map hids hx hfound hxf, afterSupersede_new hne]
        exact stamped_eq.2 ⟨hfrom, hupdated⟩
      · exact afterSupersede_other hxid hxf
    have hmem : ∀ x ∈ db.memories, x.id ≠ old.id → x ∈ db'.memories := by
      intro x hx hxid
      rw [hrows]
      exact List.mem_map.2 ⟨x, hx, hkept x hx hxid⟩
    refine ⟨⟨r, mem_listValid.2 ⟨hmem r hr hrid, hrtype, hrvalid⟩, hrtext⟩, fun x hx _ hxid => hmem x hx hxid, ?_⟩
    intro x hx hxvalid
    rw [hrows, List.mem_map] at hx
    obtain ⟨y, hy, rfl⟩ := hx
    obtain ⟨hyid, -⟩ := afterSupersede_kept hxvalid
    rw [hkept y hy hyid]
    exact .inl ⟨hy, hyid⟩

/-- the memory has given way to a new row -/
theorem edited_fresh {new : Memory} (hnewid : ∀ r ∈ db.memories, r.id ≠ new.id) (htype : new.type = old.type)
    (hvalid : new.validTo = none) (hold : old ∈ db.memories) {now : Time}
    (hrows : db'.memories = (db.memories ++ [new]).map (afterSupersede now old.id new.id)) :
    Edited db db' old text ↔ new.text = text := by
  have hne : new.id ≠ old.id := (hnewid old hold).symm
  have hin : { new with validFrom := now, updatedAt := now } ∈ db'.memories := by
    rw [hrows, ← afterSupersede_new hne]
    exact List.mem_map_of_mem (List.mem_append_right _ List.mem_cons_self)
  constructor
  · intro hedited
    rcases hedited.nothingElse _ hin hvalid with ⟨hmem, -⟩ | ⟨-, htext⟩
    · exact absurd rfl (hnewid { new with validFrom := now, updatedAt := now } hmem)
    · exact htext
  · intro htext
    refine ⟨⟨_, mem_listValid.2 ⟨hin, htype, hvalid⟩, htext⟩, ?_, ?_⟩
    · intro r hr _ hrid
      rw [hrows]
      exact List.mem_map.2 ⟨r, List.mem_append_left _ hr, afterSupersede_other hrid (hnewid r hr)⟩
    · intro x hx hxvalid
      rw [hrows, List.mem_map] at hx
      obtain ⟨y, hy, rfl⟩ := hx
      obtain ⟨hyid, -⟩ := afterSupersede_kept hxvalid
      rcases List.mem_append.1 hy with hy | hy
      · rw [afterSupersede_other hyid (hnewid y hy)]
        exact .inl ⟨hy, hyid⟩
      · obtain rfl := List.mem_singleton.1 hy
        rw [afterSupersede_new hne]
        exact .inr ⟨htype, htext⟩

/-- a price, in the empty store -/
def priceStored : St := (handleCreateOrInsert countingEnv {} (create "/memories/fact.md" "costs 10")).2

def priceRow : Memory := storedRow countingEnv.store {} (createInput countingEnv .fact "costs 10")

theorem price_onlyMatch : OnlyMatch priceStored priceRow "10" "costs " "" where
  mem := by decide +kernel
  valid := rfl
  only := by decide +kernel
  once := occursOnce_of_positions (by decide +kernel) (by decide +kernel)

/-- the price is raised -/
def priceRaised : St := (handleStrReplace countingEnv priceStored (strReplace .fact "10" "200")).2

def raisedRow : Memory :=
  { storedRow countingEnv.store priceStored (createInput countingEnv .fact "costs 200") with validFrom := 4, updatedAt := 4 }

/-- **An edit back.** Its text is that of the row it once replaced, which is not valid any more. -/
theorem edit_back_refused : OnlyMatch priceRaised raisedRow "200" "costs " "" ∧
    ¬ LiteralEdit priceRaised raisedRow (literalText countingEnv "costs " "10" "")
      (handleStrReplace countingEnv priceRaised (strReplace raisedRow.type "200" "10")) := by
  refine ⟨⟨by decide +kernel, rfl, by decide +kernel, occursOnce_of_positions (by decide +kernel) (by decide +kernel)⟩, ?_⟩
  intro h
  have hbefore : HadBefore priceRaised raisedRow (literalText countingEnv "costs " "10" "") := by
    refine ⟨{ priceRow with validTo := some 4, supersededBy := some 2, updatedAt := 4 }, by decide +kernel,
      by decide +kernel, ?_⟩
    exact Relation.TransGen.single ⟨by decide +kernel, by decide +kernel⟩
  have hreply : (handleStrReplace countingEnv priceRaised (strReplace raisedRow.type "200" "10")).1 =
      .error "memory 0 must be valid to supersede with — it is already invalid" := by decide +kernel
  obtain ⟨reply, hcontent⟩ := h.back hbefore
  rw [hreply] at hcontent
  cases hcontent

end AstramemLocal.MemoryTool
