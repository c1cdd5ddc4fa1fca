/-
The quarantine of the spool over whole histories (`src/ingest/spool.ts`): writes, drain ticks, prunes and the redaction
sweep, on files with their texts. A rename keeps a file's modification time, and the prune goes by that time.
- `tick_spool`: a tick here is the tick of `DrainProgress`, with the texts;
- `quarantine_keeps`: while no prune finds an old timestamp on a young catch, no file takes the name of one with other
  content, and no swept value has a `__proto__` key, every file caught stays for the time to live, as it was or redacted;
- `stale_pruned`: a file whose timestamp is older than that is gone with the next prune, however young its catch.
-/
import AstramemLocal.Core.JsonPaths
import AstramemLocal.Ingest.DrainProgress
import Mathlib.Logic.Relation

namespace AstramemLocal.Ingest

open AstramemLocal.Core AstramemLocal.Store AstramemLocal.Server Json

/-! ## Files with their texts -/

/-- a text JSON.parse reads, with whether it is laid out as `JSON.stringify(value, null, 2)` does, or one it rejects -/
inductive FileText where
  | json (value : Json) (laidOut : Bool)
  | torn (raw : String)

def FileText.value : FileText → Option Json
  | .json v _ => some v
  | .torn _ => none

structure DiskFile where
  key : String
  /-- as the listing of the spool finds it -/
  size : ℕ
  text : FileText
  mtime : Time

def DiskFile.listed (file : DiskFile) : SpoolFile := ⟨file.key, file.size, file.text.value, file.mtime⟩

structure Disk where
  files : List DiskFile := []
  quarantine : List (DiskFile × QuarantineReason) := []
  failureCounts : List (String × ℕ) := []

/-- the spool without the texts -/
def Disk.spool (d : Disk) : Spool where
  files := d.files.map (·.listed)
  quarantine := d.quarantine.map fun entry => (entry.1.listed, entry.2)
  failureCounts := d.failureCounts

/-- what the drain does with a file that has its verdict -/
inductive Disposal where
  | deleted
  | caught (reason : QuarantineReason)
  | retried

/-- a file as it was quarantined -/
structure Catch where
  file : DiskFile
  time : Time

structure History where
  disk : Disk
  /-- the catches whose time to live no operation since has found run out -/
  inside : List Catch := []

section
variable (E : Env)

/-- the file behind `failed` failed attempts -/
def disposalOf (failed : ℕ) (file : SpoolFile) : DrainVerdict → Disposal
  | .stored | .replayed => .deleted
  | .oversize => .caught (.oversize file.size E.config.spoolMaxBytes)
  | .conflict => .caught .idempotencyConflict
  | .failed reason => if maxDrainAttempts ≤ failed + 1 then .caught (.poison (failed + 1) reason) else .retried

def Disk.dispose (d : Disk) (file : DiskFile) : Disposal → Disk
  | .deleted =>
    { d with
      files := deleteWhere (·.key = file.key) d.files
      failureCounts := deleteWhere (·.1 = file.key) d.failureCounts }
  | .caught reason =>
    { files := deleteWhere (·.key = file.key) d.files
      quarantine := deleteWhere (·.1.key = file.key) d.quarantine ++ [(file, reason)]
      failureCounts := deleteWhere (·.1 = file.key) d.failureCounts }
  | .retried =>
    { d with
      failureCounts := deleteWhere (·.1 = file.key) d.failureCounts ++ [(file.key, failures d.spool file.key + 1)] }

def Disk.prune (d : Disk) (now : Time) : Disk :=
  { d with quarantine := deleteWhere (fun entry => quarantineTtlMs < now - entry.1.mtime) d.quarantine }

def Disk.listSpoolFiles (d : Disk) : List DiskFile :=
  d.files.insertionSort fun a b => E.localeLe a.key b.key = true

/-- unchanged where `writeToSpool` throws -/
def Disk.write (d : Disk) (now : Time) (key : String) (body : Json) : Disk :=
  if isDigest key then
    let redacted := redactSpooledEnvelope (redactText E) body
    { d with
      files := deleteWhere (·.key = key) d.files ++ [⟨key, E.byteLength redacted, .json redacted true, now⟩] }
  else d

/-! ## The redaction sweep -/

/-- `MAX_WALK_DEPTH` -/
def maxWalkDepth : ℕ := 200

mutual
/-- `none` where it throws `WalkTooDeepError` -/
def redactValuesDeep (redact : String → String) (depth : ℕ) (value : Json) : Option Json :=
  if maxWalkDepth < depth then none
  else
    match value with
    | .str s => some (.str (redact s))
    | .arr items => (redactItemsDeep redact (depth + 1) items).map .arr
    | .obj members => (redactMembersDeep redact (depth + 1) members).map .obj
    | .null => some .null
    | .bool b => some (.bool b)
    | .num n => some (.num n)
def redactItemsDeep (redact : String → String) (depth : ℕ) : List Json → Option (List Json)
  | [] => some []
  | v :: items =>
    match redactValuesDeep redact depth v, redactItemsDeep redact depth items with
    | some w, some rest => some (w :: rest)
    | _, _ => none
/-- writing to `__proto__` makes no member -/
def redactMembersDeep (redact : String → String) (depth : ℕ) : List (String × Json) → Option (List (String × Json))
  | [] => some []
  | (key, v) :: members =>
    match redactValuesDeep redact depth v, redactMembersDeep redact depth members with
    | some w, some rest => some (if key = "__proto__" then rest else (key, w) :: rest)
    | _, _ => none
end

variable (readText : String → FileText)

/-- the text a file is rewritten with; `readText` is what JSON.parse makes of a text -/
def sweptText : FileText → Option FileText
  | .torn raw => if redactText E raw = raw then none else some (readText (redactText E raw))
  | .json v laidOut =>
    match redactValuesDeep (redactText E) 0 v with
    | none => none
    | some w => if jsonText E w = jsonText E v ∧ laidOut then none else some (.json w true)

/-- a file that cannot be read or written is left as it is -/
def sweepFile (now : Time) (reaches : DiskFile → Bool) (file : DiskFile) : DiskFile :=
  if reaches file then
    match sweptText E readText file.text with
    | none => file
    | some text => { file with text, mtime := now }
  else file

def Disk.sweepQuarantineRedaction (d : Disk) (now : Time) (reaches : DiskFile → Bool) : Disk :=
  { d with quarantine := d.quarantine.map fun entry => (sweepFile E readText now reaches entry.1, entry.2) }

/-! ## Histories -/

/-- the catches whose time has run out at `now` are no longer kept track of -/
def History.passes (s : History) (now : Time) : History :=
  { s with inside := deleteWhere (fun c => quarantineTtlMs < now - c.time) s.inside }

def History.dispose (s : History) (now : Time) (file : DiskFile) (disposal : Disposal) : History where
  disk := s.disk.dispose file disposal
  inside :=
    match disposal with
    | .caught _ => s.inside ++ [⟨file, now⟩]
    | _ => s.inside

/-- what becomes of a file of the tick; `none` where it cannot be read -/
def disposal (T : Tick) (s : Db × History) (file : DiskFile) : Option Disposal :=
  (attempt E T s.1 file.listed).1.map (disposalOf E (failures s.2.disk.spool file.key) file.listed)

def drainOnto (T : Tick) (s : Db × History) (file : DiskFile) : Db × History :=
  ((attempt E T s.1 file.listed).2,
    match disposal E T s file with
    | none => s.2
    | some d => s.2.dispose T.now file d)

/-- the state the loop of a tick starts from -/
def tickStart (T : Tick) (s : History) : Db × History :=
  (T.db, { s.passes T.now with disk := s.disk.prune T.now })

def tickFiles (T : Tick) (maxPerTick : ℕ) (s : History) : List DiskFile :=
  ((s.disk.prune T.now).listSpoolFiles E).take maxPerTick

inductive SpoolOp where
  | write (now : Time) (key : String) (body : Json)
  | tick (T : Tick) (maxPerTick : ℕ)
  | prune (now : Time)
  | sweep (now : Time) (reaches : DiskFile → Bool)
  /-- the counts of failed attempts are in memory -/
  | restart

def spoolStep (s : History) : SpoolOp → History
  | .write now key body => { s.passes now with disk := s.disk.write E now key body }
  | .tick T maxPerTick => ((tickFiles E T maxPerTick s).foldl (drainOnto E T) (tickStart T s)).2
  | .prune now => { s.passes now with disk := s.disk.prune now }
  | .sweep now reaches => { s.passes now with disk := s.disk.sweepQuarantineRedaction E readText now reaches }
  | .restart => { s with disk := { s.disk with failureCounts := [] } }

end

variable {E : Env} {readText : String → FileText} {T : Tick} {s : History} {d : Disk} {file : DiskFile} {now : Time}

/-! ## The spool without the texts -/

theorem files_spool (d : Disk) (key : String) :
    (deleteWhere (·.key = key) d.files).map (·.listed) = deleteWhere (·.key = key) (d.files.map (·.listed)) :=
  map_deleteWhere fun _ => Iff.rfl

theorem quarantine_spool (d : Disk) (key : String) :
    (deleteWhere (·.1.key = key) d.quarantine).map (fun entry => (entry.1.listed, entry.2)) =
      deleteWhere (·.1.key = key) (d.quarantine.map fun entry => (entry.1.listed, entry.2)) :=
  map_deleteWhere fun _ => Iff.rfl

theorem caught_spool (reason : QuarantineReason) : (d.dispose file (.caught reason)).spool =
    quarantineSpoolFile (forgetFailures d.spool file.key) file.listed reason := by
  simp only [Disk.dispose, Disk.spool, files_spool, List.map_append, quarantine_spool, List.map_cons, List.map_nil]
  rfl

theorem dispose_spool {st : DrainState} (h : st.spool = d.spool) (verdict : DrainVerdict) :
    (d.dispose file (disposalOf E (failures d.spool file.key) file.listed verdict)).spool =
      (settle E st file.listed verdict).spool := by
  have hdeleted : (d.dispose file .deleted).spool = deleteSpoolFile (forgetFailures d.spool file.key) file.key := by
    simp only [Disk.dispose, Disk.spool, files_spool]
    rfl
  cases verdict with
  | stored => exact hdeleted.trans (by rw [← h]; rfl)
  | replayed => exact hdeleted.trans (by rw [← h]; rfl)
  | oversize => exact (caught_spool _).trans (by rw [← h]; rfl)
  | conflict => exact (caught_spool _).trans (by rw [← h]; rfl)
  | failed reason =>
    cases hout : takesOut st.spool file.listed (.failed reason) with
    | true =>
      rw [settle_last hout]
      rw [h] at hout ⊢
      have hlast : maxDrainAttempts ≤ failures d.spool file.key + 1 := of_decide_eq_true hout
      rw [disposalOf, if_pos hlast]
      exact caught_spool _
    | false =>
      rw [settle_retry hout]
      rw [h] at hout ⊢
      have hmore : ¬ maxDrainAttempts ≤ failures d.spool file.key + 1 := of_decide_eq_false hout
      rw [disposalOf, if_neg hmore]
      rfl

theorem drainOnto_spool {u : Db × History} {w : Watched} (hdb : u.1 = w.st.db) (hspool : u.2.disk.spool = w.st.spool) :
    (drainOnto E T u file).1 = (drainNextIn E T w file.listed).st.db ∧
      (drainOnto E T u file).2.disk.spool = (drainNextIn E T w file.listed).st.spool := by
  unfold drainOnto disposal drainNextIn
  rw [hdb]
  rcases attempt E T w.st.db file.listed with ⟨_ | verdict, db⟩
  · exact ⟨rfl, hspool⟩
  · have hst : ({ w.st with db } : DrainState).spool = u.2.disk.spool := hspool.symm
    have hsettled : (settle E { w.st with db } file.listed verdict).db = db := settle_db verdict
    exact ⟨hsettled.symm, dispose_spool hst verdict⟩

/-- **The tick, with the texts.** -/
theorem tick_spool (T : Tick) (maxPerTick : ℕ) {w : Watched} (h : s.disk.spool = w.st.spool) :
    (spoolStep E readText s (.tick T maxPerTick)).disk.spool = (tickIn E maxPerTick T w).st.spool := by
  have hloop : ∀ (files : List DiskFile) (u : Db × History) (w : Watched), u.1 = w.st.db →
      u.2.disk.spool = w.st.spool →
        (files.foldl (drainOnto E T) u).2.disk.spool = ((files.map (·.listed)).foldl (drainNextIn E T) w).st.spool := by
    intro files
    induction files with
    | nil => exact fun u w _ hspool => hspool
    | cons file files ih =>
      intro u w hdb hspool
      have hnext : (drainOnto E T u file).1 = (drainNextIn E T w file.listed).st.db ∧
          (drainOnto E T u file).2.disk.spool = (drainNextIn E T w file.listed).st.spool := drainOnto_spool hdb hspool
      exact ih _ _ hnext.1 hnext.2
  have hpruned : (s.disk.prune T.now).spool = (opened T w).st.spool := by
    have hentries : (deleteWhere (fun entry => quarantineTtlMs < T.now - entry.1.mtime) s.disk.quarantine).map
        (fun entry => (entry.1.listed, entry.2)) =
          deleteWhere (fun entry => quarantineTtlMs < T.now - entry.1.mtime) s.disk.spool.quarantine :=
      map_deleteWhere fun _ => Iff.rfl
    unfold Disk.prune opened pruneExpiredQuarantine
    rw [← h]
    exact congrArg (Spool.mk s.disk.spool.files · s.disk.failureCounts) hentries
  have hbatch : (tickFiles E T maxPerTick s).map (·.listed) = batch E maxPerTick T w := by
    rw [tickFiles, List.map_take, batch, listSpoolFiles, ← hpruned]
    congr 1
    exact List.map_insertionSort _ _ _ _ fun a _ b _ => Iff.rfl
  rw [tickIn, ← hbatch]
  exact hloop _ _ _ rfl hpruned

theorem write_spool (d : Disk) (now : Time) (key : String) (body : Json) :
    (d.write E now key body).spool = (writeToSpool E d.spool key body now).getD d.spool := by
  unfold Disk.write writeToSpool
  split
  next =>
    simp only [Disk.spool, List.map_append, files_spool, Option.getD_some]
    rfl
  next => rfl

/-! ## Content up to redaction -/

/-- the strings of a value redacted, or the whole of a text JSON.parse rejects -/
inductive RedactStep (E : Env) (readText : String → FileText) : FileText → FileText → Prop where
  | json (v : Json) (laidOut laidOut' : Bool) :
      RedactStep E readText (.json v laidOut) (.json (rewriteLeaves (fun _ => redactText E) v) laidOut')
  | torn (raw : String) : RedactStep E readText (.torn raw) (readText (redactText E raw))

/-- the content is unchanged, but for redactions -/
def UpToRedaction (E : Env) (readText : String → FileText) : FileText → FileText → Prop :=
  Relation.ReflTransGen (RedactStep E readText)

section
variable {redact : String → String} {depth : ℕ}

theorem redactItemsDeep_eq {items rest : List Json}
    (hitems : ∀ v ∈ items, ∀ w, redactValuesDeep redact depth v = some w → w = rewriteLeaves (fun _ => redact) v)
    (h : redactItemsDeep redact depth items = some rest) : rest = items.map (rewriteLeaves fun _ => redact) := by
  induction items generalizing rest with
  | nil =>
    cases h
    rfl
  | cons v items ih =>
    unfold redactItemsDeep at h
    split at h
    next w rest' hv hrest =>
      cases h
      rw [List.map_cons, hitems v List.mem_cons_self w hv, ih (fun u hu => hitems u (List.mem_cons_of_mem v hu)) hrest]
    next => cases h

theorem redactMembersDeep_eq {members rest : List (String × Json)} (hkeys : ∀ m ∈ members, m.1 ≠ "__proto__")
    (hmembers : ∀ m ∈ members, ∀ w, redactValuesDeep redact depth m.2 = some w → w = rewriteLeaves (fun _ => redact) m.2)
    (h : redactMembersDeep redact depth members = some rest) :
    rest = members.map fun m => (m.1, rewriteLeaves (fun _ => redact) m.2) := by
  induction members generalizing rest with
  | nil =>
    cases h
    rfl
  | cons m members ih =>
    unfold redactMembersDeep at h
    split at h
    next w rest' hm hrest =>
      rw [if_neg (hkeys m List.mem_cons_self)] at h
      cases h
      rw [List.map_cons, hmembers m List.mem_cons_self w hm,
        ih (fun n hn => hkeys n (List.mem_cons_of_mem m hn)) (fun n hn => hmembers n (List.mem_cons_of_mem m hn)) hrest]
    next => cases h

end

/-- the walk redacts every string of a value that has no `__proto__` key, and changes nothing else -/
theorem redactValuesDeep_eq {redact : String → String} (v : Json) (hproto : ¬ HasKey "__proto__" v) {depth : ℕ} {w : Json}
    (h : redactValuesDeep redact depth v = some w) : w = rewriteLeaves (fun _ => redact) v := by
  induction v using Json.ind generalizing depth w with
  | null =>
    unfold redactValuesDeep at h
    split at h <;> cases h
    rfl
  | bool b =>
    unfold redactValuesDeep at h
    split at h <;> cases h
    rfl
  | num n =>
    unfold redactValuesDeep at h
    split at h <;> cases h
    rfl
  | str t =>
    unfold redactValuesDeep at h
    split at h <;> cases h
    rfl
  | arr items ih =>
    unfold redactValuesDeep at h
    split at h
    · cases h
    · obtain ⟨rest, hrest, rfl⟩ := Option.map_eq_some_iff.1 h
      rw [rewriteLeaves_arr, Json.arr.injEq]
      exact redactItemsDeep_eq (fun v hv w => ih v hv fun hkey => hproto (.item hv hkey)) hrest
  | obj members ih =>
    unfold redactValuesDeep at h
    split at h
    · cases h
    · obtain ⟨rest, hrest, rfl⟩ := Option.map_eq_some_iff.1 h
      rw [rewriteLeaves_obj, Json.obj.injEq]
      apply redactMembersDeep_eq (fun m hm hkey => hproto (.here hm hkey)) _ hrest
      exact fun m hm w => ih m hm fun hkey => hproto (.member hm hkey)

/-- the sweep does not come to a value with a `__proto__` key, or leaves it for its depth -/
def NoProto (E : Env) (reaches : DiskFile → Bool) (file : DiskFile) : Prop :=
  reaches file = true → ∀ v, file.text.value = some v → redactValuesDeep (redactText E) 0 v ≠ none →
    ¬ HasKey "__proto__" v

/-- a sweep redacts -/
theorem sweepFile_upTo {reaches : DiskFile → Bool} (hproto : NoProto E reaches file) :
    (sweepFile E readText now reaches file).key = file.key ∧
      UpToRedaction E readText file.text (sweepFile E readText now reaches file).text := by
  unfold sweepFile
  split
  next hreach =>
    cases hswept : sweptText E readText file.text with
    | none => exact ⟨rfl, .refl⟩
    | some text =>
      refine ⟨rfl, .single ?_⟩
      show RedactStep E readText file.text text
      cases htext : file.text with
      | torn raw =>
        rw [htext, sweptText] at hswept
        split at hswept <;> cases hswept
        exact .torn raw
      | json v laidOut =>
        rw [htext, sweptText] at hswept
        split at hswept
        next => cases hswept
        next w hwalk =>
          split at hswept <;> cases hswept
          have hvalue : file.text.value = some v := by
            rw [htext]
            rfl
          rw [redactValuesDeep_eq v (hproto hreach v hvalue (by simp [hwalk])) hwalk]
          exact .json v laidOut true
  next => exact ⟨rfl, .refl⟩

/-! ## What the quarantine keeps -/

/-- every file caught and still inside its time to live is in the quarantine, with its content -/
def Kept (E : Env) (readText : String → FileText) (s : History) : Prop :=
  ∀ c ∈ s.inside, ∃ entry ∈ s.disk.quarantine, entry.1.key = c.file.key ∧
    UpToRedaction E readText c.file.text entry.1.text

/-- at `now` no entry under the name of a young catch has an old timestamp -/
def Fresh (now : Time) (s : History) : Prop :=
  ∀ c ∈ s.inside, now - c.time ≤ quarantineTtlMs → ∀ entry ∈ s.disk.quarantine, entry.1.key = c.file.key →
    now - entry.1.mtime ≤ quarantineTtlMs

/-- where the file is caught, no young catch of its name had other content -/
def NotOverwritten (E : Env) (readText : String → FileText) (T : Tick) (u : Db × History) (file : DiskFile) : Prop :=
  ∀ reason, disposal E T u file = some (.caught reason) → ∀ c ∈ u.2.inside, c.file.key = file.key →
    UpToRedaction E readText c.file.text file.text

/-- the operation meets none of the three -/
def Gentle (E : Env) (readText : String → FileText) (s : History) : SpoolOp → Prop
  | .prune now => Fresh now s
  | .tick T maxPerTick => Fresh T.now s ∧
      Along (drainOnto E T) (NotOverwritten E readText T) (tickStart T s) (tickFiles E T maxPerTick s)
  | .sweep now reaches => ∀ c ∈ s.inside, now - c.time ≤ quarantineTtlMs → ∀ entry ∈ s.disk.quarantine,
      entry.1.key = c.file.key → NoProto E reaches entry.1
  | _ => True

theorem mem_passes {c : Catch} : c ∈ (s.passes now).inside ↔ c ∈ s.inside ∧ now - c.time ≤ quarantineTtlMs := by
  rw [History.passes, mem_deleteWhere, not_lt]

/-- the passing of time -/
theorem Kept.passes (h : Kept E readText s) (now : Time) : Kept E readText (s.passes now) :=
  fun c hc => h c (mem_passes.1 hc).1

theorem Kept.prune (h : Kept E readText s) (hfresh : Fresh now s) :
    Kept E readText { s.passes now with disk := s.disk.prune now } := by
  intro c hc
  obtain ⟨hinside, hyoung⟩ := mem_passes.1 hc
  obtain ⟨entry, hentry, hkey, htext⟩ := h c hinside
  exact ⟨entry, mem_deleteWhere.2 ⟨hentry, not_lt.2 (hfresh c hinside hyoung entry hentry hkey)⟩, hkey, htext⟩

theorem Kept.drainOnto {u : Db × History} (h : Kept E readText u.2) (hnot : NotOverwritten E readText T u file) :
    Kept E readText (drainOnto E T u file).2 := by
  unfold Ingest.drainOnto
  cases hd : disposal E T u file with
  | none => exact h
  | some d =>
    cases d with
    | deleted => exact h
    | retried => exact h
    | caught reason =>
      intro c hc
      rcases List.mem_append.1 hc with hc | hc
      · by_cases hkey : c.file.key = file.key
        · refine ⟨(file, reason), List.mem_append_right _ List.mem_cons_self, hkey.symm, ?_⟩
          exact hnot reason hd c hc hkey
        · obtain ⟨entry, hentry, hentrykey, htext⟩ := h c hc
          refine ⟨entry, List.mem_append_left _ (mem_deleteWhere.2 ⟨hentry, ?_⟩), hentrykey, htext⟩
          rw [hentrykey]
          exact hkey
      · obtain rfl := List.mem_singleton.1 hc
        exact ⟨(file, reason), List.mem_append_right _ List.mem_cons_self, rfl, .refl⟩

theorem Kept.sweep {reaches : DiskFile → Bool} (h : Kept E readText s) (hgentle : Gentle E readText s (.sweep now reaches)) :
    Kept E readText { s.passes now with disk := s.disk.sweepQuarantineRedaction E readText now reaches } := by
  intro c hc
  obtain ⟨hinside, hyoung⟩ := mem_passes.1 hc
  obtain ⟨entry, hentry, hkey, htext⟩ := h c hinside
  have hswept : (sweepFile E readText now reaches entry.1).key = entry.1.key ∧
      UpToRedaction E readText entry.1.text (sweepFile E readText now reaches entry.1).text :=
    sweepFile_upTo (hgentle c hinside hyoung entry hentry hkey)
  exact ⟨_, List.mem_map_of_mem hentry, hswept.1.trans hkey, htext.trans hswept.2⟩

/-- what an operation keeps -/
theorem Kept.step {op : SpoolOp} (h : Kept E readText s) (hgentle : Gentle E readText s op) :
    Kept E readText (spoolStep E readText s op) := by
  cases op with
  | restart => exact h
  | prune now => exact h.prune hgentle
  | sweep now reaches => exact h.sweep hgentle
  | write now key body =>
    intro c hc
    obtain ⟨entry, hentry, hkey, htext⟩ := h c (mem_passes.1 hc).1
    refine ⟨entry, ?_, hkey, htext⟩
    show entry ∈ (s.disk.write E now key body).quarantine
    unfold Disk.write
    split <;> exact hentry
  | tick T maxPerTick =>
    obtain ⟨hfresh, halong⟩ := hgentle
    have hstart : Kept E readText (tickStart T s).2 := h.prune hfresh
    exact along_inv (fun u => Kept E readText u.2) (fun u file hu hnot => hu.drainOnto hnot) hstart halong

/-- **The quarantine keeps what it caught**, after every operation of a run. -/
theorem quarantine_keeps (E : Env) (readText : String → FileText) (disk : Disk) (ops : List SpoolOp)
    (h : Along (spoolStep E readText) (Gentle E readText) { disk } ops) :
    ∀ pre, pre <+: ops → Kept E readText (pre.foldl (spoolStep E readText) { disk }) := by
  intro pre hpre
  have hstart : Kept E readText { disk } := by
    intro c hc
    cases hc
  exact along_inv (Kept E readText) (fun s op hs hgentle => hs.step hgentle) hstart (h.initial hpre)

/-- a torn file behind its fourth attempt -/
def tornDisk : Disk where
  files := [⟨"a", 512, .torn "\x7b", 0⟩]
  failureCounts := [("a", 4)]

/-- it is caught, and a sweep and a prune come within the week -/
def gentleWeek : List SpoolOp :=
  [.tick { calmTick 0 with now := 1000 } 50, .sweep 2000 fun _ => true, .prune (6 * Pipeline.dayMs)]

theorem quarantine_keeps_torn :
    Kept (tableEnv [] []) .torn (gentleWeek.foldl (spoolStep (tableEnv [] []) .torn) { disk := tornDisk }) := by
  refine quarantine_keeps (tableEnv [] []) .torn tornDisk gentleWeek ?_ gentleWeek List.prefix_rfl
  refine ⟨⟨?_, ?_, trivial⟩, ?_, ?_, trivial⟩
  · intro c hc
    cases hc
  · intro reason _ c hc
    cases hc
  · intro c _ _ entry hentry _ _ v hv
    obtain rfl := List.mem_singleton.1 hentry
    cases hv
  · intro c _ _ entry hentry _
    obtain rfl := List.mem_singleton.1 hentry
    decide

/-! ## Stale timestamps -/

/-- **An old timestamp.** A prune takes a file by its timestamp, whenever it was caught. -/
theorem stale_pruned {reason : QuarantineReason} (h : quarantineTtlMs < now - file.mtime) :
    ∀ entry ∈ ((d.dispose file (.caught reason)).prune now).quarantine, entry.1.key ≠ file.key := by
  intro entry hentry
  obtain ⟨hentry, hyoung⟩ := mem_deleteWhere.1 hentry
  rcases List.mem_append.1 hentry with hold | hnew
  · exact (mem_deleteWhere.1 hold).2
  · rw [List.mem_singleton.1 hnew] at hyoung
    exact absurd h hyoung

/-- every text is a byte over the limit of the spool -/
def heavyEnv : Env := { tableEnv [] [] with byteLength := fun _ => 32 * 1024 * 1024 + 1 }

/-- an envelope is spooled, the daemon is back after eight days, and ticks twice, half a minute apart -/
def backAfterAWeek : List SpoolOp :=
  [.write 0 (String.ofList (List.replicate 64 'a')) (.obj []), .restart,
   .tick { calmTick 0 with now := 8 * Pipeline.dayMs } 50,
   .tick { calmTick 0 with now := 8 * Pipeline.dayMs + 30000 } 50]

/-- **Caught and gone.** The file caught in the first tick is not in the quarantine behind the second. -/
theorem caught_then_pruned :
    ((backAfterAWeek.foldl (spoolStep heavyEnv .torn) { disk := {} }).inside.map (·.time) = [8 * Pipeline.dayMs] ∧
      (backAfterAWeek.foldl (spoolStep heavyEnv .torn) { disk := {} }).disk.quarantine.length = 0) ∧
    ¬ Kept heavyEnv .torn (backAfterAWeek.foldl (spoolStep heavyEnv .torn) { disk := {} }) := by
  have hrun : (backAfterAWeek.foldl (spoolStep heavyEnv .torn) { disk := {} }).inside.map (·.time) =
      [8 * Pipeline.dayMs] ∧
        (backAfterAWeek.foldl (spoolStep heavyEnv .torn) { disk := {} }).disk.quarantine.length = 0 := by
    decide +kernel
  refine ⟨hrun, ?_⟩
  intro hkept
  obtain ⟨hinside, hempty⟩ := hrun
  obtain ⟨c, hc, -⟩ := List.mem_map.1 (hinside ▸ List.mem_singleton.2 rfl :
    8 * Pipeline.dayMs ∈ (backAfterAWeek.foldl (spoolStep heavyEnv .torn) { disk := {} }).inside.map (·.time))
  obtain ⟨entry, hentry, -⟩ := hkept c hc
  rw [List.length_eq_zero_iff.1 hempty] at hentry
  cases hentry

end AstramemLocal.Ingest
