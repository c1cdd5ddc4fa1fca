/-
`src/storage/migrate-encrypt.ts`: at startup a plaintext database file is replaced by an encrypted one. The file is
checkpointed, copied, the copy is encrypted and verified, the file is kept as `.pre-encryption.bak`, and the copy is renamed
over it. A process can be cut off in every step, in the middle of a copy or of an encryption too, and an exception ends the
process in a state that a cut leaves.

The next startup deletes the copy of one that was cut off, but not the journal beside it. SQLite rolls such a journal back
into the next copy, so that what is encrypted can be older than what was copied.

- `backup_survives`: over every history of startups, cut off anywhere, and of commits between them, the plaintext database
opens with what was committed last until it is replaced, and from then on the backup holds what was replaced.
- `encryption_survives`: where no startup finds the journal of a copy, the database opens with what was committed last, and a
startup that is not cut off replaces the file.
- `migrated_iff`: what the verification lets through. A commit that changes no row count can be missing in the encrypted file,
and where another connection holds the file open it is missing in the backup too (`migrated_iff_unfolded`).
-/
import AstramemLocal.Core.CrashProg
import AstramemLocal.Core.Runs

namespace AstramemLocal.Storage.MigrateEncrypt

open AstramemLocal.Core

/-! ## Model -/

/-- a database file; `key` is `none` for plaintext -/
inductive DbFile (D : Type) where
  | pages (key : Option String) (data : D)
  /-- a copy or an encryption that was cut off, and whether it begins like a plaintext file -/
  | torn (magic : Bool)
deriving DecidableEq, Repr

/-- a transaction in the `-wal` file: what it makes of the database, in pages under the key of its file -/
structure Commit (D : Type) where
  key : Option String
  data : D
deriving DecidableEq, Repr

structure Disk (D : Type) where
  db : Option (DbFile D) := none
  /-- since the last checkpoint, oldest first -/
  wal : List (Commit D) := []
  /-- `.encrypting-tmp` -/
  tmp : Option (DbFile D) := none
  /-- an encryption that was cut off has left its journal beside `.encrypting-tmp` -/
  journal : Bool := false
  /-- `.pre-encryption.bak` -/
  bak : Option (DbFile D) := none
deriving DecidableEq, Repr

structure TableCounts where
  memories : ℕ
  transcripts : ℕ
deriving DecidableEq, Repr

inductive EncryptMigrationResult where
  | migrated
  | alreadyEncrypted
  | missing
deriving DecidableEq, Repr

inductive MigrationError where
  /-- SQLite's "file is not a database" -/
  | notADatabase
  | plaintextHeader
  | rowCountMismatch (before after : TableCounts)
deriving DecidableEq, Repr

def MigrationError.message (dbPath : String) : MigrationError → String
  | .notADatabase => "file is not a database"
  | .plaintextHeader => s!"encryptIfPlaintext: PRAGMA rekey left {dbPath}.encrypting-tmp with a plaintext header; " ++
      s!"aborting — plaintext DB at {dbPath} was left untouched"
  | .rowCountMismatch before after => "encryptIfPlaintext: row count mismatch after rekey " ++
      s!"(memories {before.memories} -> {after.memories}, transcripts {before.transcripts} -> {after.transcripts}); " ++
      s!"aborting — plaintext DB at {dbPath} was left untouched"

/-- what SQLite does in a call -/
structure Attempt (D : Type) where
  /-- how many commits the checkpoint and the close of the connection move into the file -/
  folded : ℕ
  /-- `PRAGMA rekey` encrypts the copy -/
  rekeys : Bool := true
  /-- what the copy holds once a journal has been rolled back into it -/
  recovered : D
deriving DecidableEq, Repr

-- `D` is what a database with both tables holds; without one of them `tableCounts` throws
variable {D : Type}

def isPlaintextSqlite : DbFile D → Bool
  | .pages key _ => key.isNone
  | .torn magic => magic

/-- what the pages hold, read with a key or without -/
def DbFile.opened (key : Option String) : DbFile D → Option D
  | .pages k data => if k = key then some data else none
  | .torn _ => none

def newest (main : D) (wal : List (Commit D)) : D := (wal.getLast?.map (·.data)).getD main

/-- what a connection reads: the last commit of the WAL, or the file -/
def Disk.opened (key : Option String) (disk : Disk D) : Option D :=
  (disk.db.bind (·.opened key)).bind fun main =>
    if ∀ c ∈ disk.wal, c.key = key then some (newest main disk.wal) else none

def Disk.fold (n : ℕ) (disk : Disk D) : Disk D :=
  match disk.db with
  | some (.pages key main) => { disk with db := some (.pages key (newest main (disk.wal.take n))), wal := disk.wal.drop n }
  | _ => disk

abbrev Migration (D : Type) := CrashProg (Disk D) MigrationError

def removeTmp : Migration D Unit := .write (fun _ => []) fun disk => { disk with tmp := none }

def walCheckpoint (n : ℕ) : Migration D Unit := .write (fun disk => (List.range n).map (disk.fold ·)) (·.fold n)

def tableCounts (counts : D → TableCounts) (opened : Disk D → Option D) : Migration D TableCounts :=
  .read fun disk => ((opened disk).map fun data => Except.ok (counts data)).getD (.error .notADatabase)

def copyToTmp : Migration D Unit :=
  .write (fun disk => [false, true].map fun magic => { disk with tmp := some (.torn magic) })
    fun disk => { disk with tmp := disk.db }

/-- what a copy of `x` holds when it is encrypted -/
def Attempt.copied (a : Attempt D) (journal : Bool) (x : D) : D := if journal then a.recovered else x

def DbFile.rekey (key : String) (copied : D → D) : DbFile D → DbFile D
  | .pages _ data => .pages (some key) (copied data)
  | .torn magic => .torn magic

def rekeyTmp (key : String) (a : Attempt D) : Migration D Unit :=
  .write (fun disk => [true, false].flatMap fun magic =>
      [disk.journal, true].map fun journal => { disk with tmp := some (.torn magic), journal })
    fun disk => if a.rekeys then
        { disk with tmp := disk.tmp.map (·.rekey key (a.copied disk.journal)), journal := false }
      else disk

def copyToBak : Migration D Unit :=
  .write (fun disk => [false, true].map fun magic => { disk with bak := some (.torn magic) })
    fun disk => { disk with bak := disk.db }

def renameTmp : Migration D Unit := .write (fun _ => []) fun disk => { disk with db := disk.tmp, tmp := none }

/-- the copy is verified and takes the place of the file -/
def verifyAndSwap (counts : D → TableCounts) (key : String) (before : TableCounts) : Migration D EncryptMigrationResult := do
  let after ← tableCounts counts fun disk => disk.tmp.bind (·.opened (some key))
  if after ≠ before then do
    removeTmp
    CrashProg.fail (.rowCountMismatch before after)
  else do
    copyToBak
    renameTmp
    pure .migrated

def migrateFile (counts : D → TableCounts) (key : String) (a : Attempt D) : Migration D EncryptMigrationResult := do
  removeTmp
  walCheckpoint a.folded
  let before ← tableCounts counts (·.opened none)
  copyToTmp
  rekeyTmp key a
  let copy ← CrashProg.read fun disk => .ok disk.tmp
  if copy.any isPlaintextSqlite then do
    removeTmp
    CrashProg.fail .plaintextHeader
  else verifyAndSwap counts key before

def encryptIfPlaintext (counts : D → TableCounts) (key : String) (a : Attempt D) : Migration D EncryptMigrationResult := do
  let file ← CrashProg.read fun disk => .ok disk.db
  match file with
  | none => pure .missing
  | some file => if isPlaintextSqlite file then migrateFile counts key a else pure .alreadyEncrypted

/-! ### Histories -/

inductive Event (D : Type) where
  /-- a startup, cut off at a state of its migration or not at all -/
  | boot (a : Attempt D) (cut : Option ℕ)
  /-- a transaction on the open database -/
  | commit (data : D)
  | checkpoint (n : ℕ)

/-- the disk, what was committed last, and what the replacement replaced -/
structure History (D : Type) where
  disk : Disk D
  latest : D
  replaced : Option D := none

def keyOf (disk : Disk D) : Option String :=
  match disk.db with
  | some (.pages key _) => key
  | _ => none

def happen (counts : D → TableCounts) (key : String) (h : History D) : Event D → History D
  | .boot a cut =>
    let disk := (encryptIfPlaintext counts key a).left h.disk cut
    { h with disk, replaced := if keyOf h.disk = none ∧ keyOf disk ≠ none then some h.latest else h.replaced }
  | .commit data =>
    if (h.disk.opened (keyOf h.disk)).isSome then
      { h with disk := { h.disk with wal := h.disk.wal ++ [⟨keyOf h.disk, data⟩] }, latest := data }
    else h
  | .checkpoint n => { h with disk := h.disk.fold n }

/-! ## The WAL -/

variable {disk : Disk D} {main d : D} {wal rest : List (Commit D)} {key : String} {k : Option String} {n : ℕ}
  {counts : D → TableCounts} {a : Attempt D}

theorem newest_append : newest main (wal ++ rest) = newest (newest main wal) rest := by
  unfold newest
  rw [List.getLast?_append]
  cases rest.getLast? <;> rfl

theorem newest_take_drop (n : ℕ) (wal : List (Commit D)) : newest (newest main (wal.take n)) (wal.drop n) = newest main wal := by
  rw [← newest_append, List.take_append_drop]

theorem opened_eq_some : disk.opened k = some d ↔
    ∃ main, disk.db = some (.pages k main) ∧ (∀ c ∈ disk.wal, c.key = k) ∧ newest main disk.wal = d := by
  unfold Disk.opened
  rw [Option.bind_eq_some_iff]
  constructor
  · rintro ⟨main, hmain, hwal⟩
    obtain ⟨file, hfile, hopened⟩ := Option.bind_eq_some_iff.1 hmain
    cases file with
    | torn magic => cases hopened
    | pages key data =>
      simp only [DbFile.opened, Option.ite_none_right_eq_some, Option.some.injEq] at hopened hwal
      obtain ⟨rfl, rfl⟩ := hopened
      exact ⟨data, hfile, hwal⟩
  · rintro ⟨main, hdb, hwal, rfl⟩
    refine ⟨main, by simp [hdb, DbFile.opened], ?_⟩
    rw [if_pos hwal]

theorem opened_fold (h : disk.opened k = some d) (n : ℕ) : (disk.fold n).opened k = some d := by
  obtain ⟨main, hdb, hwal, rfl⟩ := opened_eq_some.1 h
  refine opened_eq_some.2 ⟨newest main (disk.wal.take n), ?_, ?_, ?_⟩
  · simp only [Disk.fold, hdb]
  · simp only [Disk.fold, hdb]
    exact fun c hc => hwal c (List.mem_of_mem_drop hc)
  · simp only [Disk.fold, hdb]
    exact newest_take_drop n disk.wal

theorem fold_bak (n : ℕ) (disk : Disk D) : (disk.fold n).bak = disk.bak := by
  unfold Disk.fold
  split <;> rfl

theorem fold_journal (n : ℕ) (disk : Disk D) : (disk.fold n).journal = disk.journal := by
  unfold Disk.fold
  split <;> rfl

theorem keyOf_opened (h : disk.opened k = some d) : keyOf disk = k := by
  obtain ⟨main, hdb, -, -⟩ := opened_eq_some.1 h
  simp only [keyOf, hdb]

theorem opened_commit (h : disk.opened k = some d) (data : D) :
    ({ disk with wal := disk.wal ++ [⟨k, data⟩] } : Disk D).opened k = some data := by
  obtain ⟨main, hdb, hwal, -⟩ := opened_eq_some.1 h
  refine opened_eq_some.2 ⟨main, hdb, ?_, by simp [newest]⟩
  intro c hc
  rcases List.mem_append.1 hc with hc | hc
  · exact hwal c hc
  · rw [List.mem_singleton.1 hc]

/-! ## One call -/

/-- the file is plaintext, with these commits behind it -/
def Plain (main : D) (wal : List (Commit D)) (disk : Disk D) : Prop :=
  (disk.db = some (.pages none main) ∧ disk.wal = wal) ∧ ∀ c ∈ wal, c.key = none

theorem Plain.opened (h : Plain main wal disk) : disk.opened none = some (newest main wal) := by
  obtain ⟨⟨hdb, rfl⟩, hwal⟩ := h
  exact opened_eq_some.2 ⟨main, hdb, hwal, rfl⟩

theorem Plain.fold (h : Plain main wal disk) (n : ℕ) : Plain (newest main (wal.take n)) (wal.drop n) (disk.fold n) := by
  obtain ⟨⟨hdb, rfl⟩, hwal⟩ := h
  refine ⟨⟨?_, ?_⟩, fun c hc => hwal c (List.mem_of_mem_drop hc)⟩ <;> simp only [Disk.fold, hdb]

/-- the file is encrypted and holds `y`, behind a plaintext backup of `x` -/
def Swapped (key : String) (y x : D) (rest : List (Commit D)) (disk : Disk D) : Prop :=
  disk.db = some (.pages (some key) y) ∧ disk.wal = rest ∧ disk.bak = some (.pages none x)

/-- what a crash leaves of a call: the plaintext file, as it was read before, or the encrypted one and its backup -/
def Kept (key : String) (y x : D) (rest : List (Commit D)) (disk : Disk D) : Prop :=
  disk.opened none = some (newest x rest) ∨ Swapped key y x rest disk

variable {x y : D} {before : TableCounts}

/-- the copy stands beside the file, encrypted unless `PRAGMA rekey` did nothing -/
def Copied (k : Option String) (y x : D) (rest : List (Commit D)) (disk : Disk D) : Prop :=
  Plain x rest disk ∧ disk.tmp = some (.pages k y)

theorem Plain.kept (h : Plain x rest disk) : Kept key y x rest disk := Or.inl h.opened

theorem removeTmp_triple {P Q C : Disk D → Prop} {T : MigrationError → Disk D → Prop}
    (hQ : ∀ disk, P disk → Q { disk with tmp := none }) (hC : ∀ disk, Q disk → C disk) :
    CrashProg.Triple P removeTmp (fun _ => Q) T C :=
  CrashProg.triple_write (fun _ _ _ ht => by cases ht) hQ fun disk h => hC _ (hQ disk h)

/-- a database that opens is counted -/
theorem tableCounts_triple {opened : Disk D → Option D} {P C : Disk D → Prop} {T : MigrationError → Disk D → Prop}
    (hopened : ∀ disk, P disk → opened disk = some d) :
    CrashProg.Triple P (tableCounts counts opened) (fun r disk => P disk ∧ r = counts d) T C := by
  have hread : ∀ disk, P disk →
      ((opened disk).map fun data => Except.ok (counts data)).getD (.error MigrationError.notADatabase) = .ok (counts d) := by
    intro disk h
    rw [hopened disk h]
    rfl
  refine CrashProg.triple_read (fun disk h r hr => ⟨h, ?_⟩) fun disk h e he => ?_
  · exact (Except.ok.inj ((hread disk h).symm.trans hr)).symm
  · cases (hread disk h).symm.trans he

/-- the verification passes exactly when the counts agree, and then the copy takes the place of the file -/
theorem verifyAndSwap_triple : CrashProg.Triple (Copied (some key) y x rest) (verifyAndSwap counts key before)
    (fun r disk => (r = .migrated ∧ counts y = before) ∧ Swapped key y x rest disk)
    (fun _ disk => counts y ≠ before ∧ Plain x rest disk) (Kept key y x rest) := by
  unfold verifyAndSwap
  refine CrashProg.triple_bind (Q := fun after disk => Copied (some key) y x rest disk ∧ after = counts y) ?_ fun after => ?_
  · refine tableCounts_triple fun disk h => ?_
    rw [h.2]
    simp [DbFile.opened]
  refine CrashProg.triple_of_fact ?_
  rintro rfl
  refine CrashProg.triple_ite (fun hne => ?_) fun heq => ?_
  · refine CrashProg.triple_bind (Q := fun _ => Plain x rest) ?_ fun _ => CrashProg.triple_fail fun disk h => ⟨hne, h⟩
    exact removeTmp_triple (fun disk h => h.1) fun disk h => h.kept
  refine CrashProg.triple_bind (Q := fun _ disk => Copied (some key) y x rest disk ∧ disk.bak = some (.pages none x)) ?_
    fun _ => ?_
  · refine CrashProg.triple_write (fun disk h t ht => ?_) (fun disk h => ⟨h, h.1.1.1⟩) fun disk h => Plain.kept h.1
    obtain ⟨magic, -, rfl⟩ := List.mem_map.1 ht
    exact Plain.kept h.1
  · have hswap : ∀ disk : Disk D, Copied (some key) y x rest disk ∧ disk.bak = some (.pages none x) →
        Swapped key y x rest { disk with db := disk.tmp, tmp := none } := fun disk h => ⟨h.1.2, h.1.1.1.2, h.2⟩
    refine CrashProg.triple_bind (Q := fun _ => Swapped key y x rest) ?_ fun _ => CrashProg.triple_pure fun disk h => ?_
    · exact CrashProg.triple_write (fun disk _ t ht => by cases ht) hswap fun disk h => Or.inr (hswap disk h)
    · exact ⟨⟨rfl, not_not.1 heq⟩, h⟩

/-- the copy holds what the file does -/
theorem copyToTmp_triple {journal : Bool} : CrashProg.Triple (fun disk => Plain x rest disk ∧ disk.journal = journal) copyToTmp
    (fun _ disk => Copied none x x rest disk ∧ disk.journal = journal) (fun (_ : MigrationError) _ => False)
    (Kept key y x rest) := by
  refine CrashProg.triple_write (fun disk h t ht => ?_) (fun disk h => ⟨⟨h.1, h.1.1.1⟩, h.2⟩) fun disk h => h.1.kept
  obtain ⟨magic, -, rfl⟩ := List.mem_map.1 ht
  exact h.1.kept

/-- the copy is encrypted, or left as it was -/
theorem rekeyTmp_triple {journal : Bool} : CrashProg.Triple (fun disk => Copied none x x rest disk ∧ disk.journal = journal)
    (rekeyTmp key a) (fun _ => if a.rekeys then Copied (some key) (a.copied journal x) x rest else Copied none x x rest)
    (fun (_ : MigrationError) _ => False) (Kept key y x rest) := by
  have hdone : ∀ disk : Disk D, Copied none x x rest disk ∧ disk.journal = journal →
      (if a.rekeys then Copied (some key) (a.copied journal x) x rest else Copied none x x rest)
        (if a.rekeys then { disk with tmp := disk.tmp.map (·.rekey key (a.copied disk.journal)), journal := false }
          else disk) := by
    rintro disk ⟨⟨hplain, htmp⟩, rfl⟩
    cases a.rekeys with
    | false => exact ⟨hplain, htmp⟩
    | true => exact ⟨hplain, by simp [htmp, DbFile.rekey]⟩
  refine CrashProg.triple_write (fun disk h t ht => ?_) hdone fun disk h => ?_
  · obtain ⟨magic, -, hmagic⟩ := List.mem_flatMap.1 ht
    obtain ⟨left, -, rfl⟩ := List.mem_map.1 hmagic
    exact h.1.1.kept
  · have hplain := h.1.1
    cases a.rekeys with
    | false => exact hplain.kept
    | true => exact hplain.kept

/-- a call on a plaintext file, of which the checkpoint folds what it folds -/
theorem migrateFile_triple (counts : D → TableCounts) (key : String) (a : Attempt D) (main : D) (wal : List (Commit D))
    (journal : Bool) :
    CrashProg.Triple (fun disk => Plain main wal disk ∧ disk.journal = journal) (migrateFile counts key a)
      (fun r disk => (r = .migrated ∧ a.rekeys = true ∧
          counts (a.copied journal (newest main (wal.take a.folded))) = counts (newest main wal)) ∧
        Swapped key (a.copied journal (newest main (wal.take a.folded))) (newest main (wal.take a.folded))
          (wal.drop a.folded) disk)
      (fun _ disk => ¬ (a.rekeys = true ∧
          counts (a.copied journal (newest main (wal.take a.folded))) = counts (newest main wal)) ∧
        disk.opened none = some (newest main wal))
      (Kept key (a.copied journal (newest main (wal.take a.folded))) (newest main (wal.take a.folded)) (wal.drop a.folded)) := by
  have hnewest : newest (newest main (wal.take a.folded)) (wal.drop a.folded) = newest main wal :=
    newest_take_drop a.folded wal
  generalize hx : newest main (wal.take a.folded) = x at hnewest ⊢
  generalize hrest : wal.drop a.folded = rest at hnewest ⊢
  have hfold : ∀ disk : Disk D, Plain main wal disk → Plain x rest (disk.fold a.folded) := by
    intro disk h
    rw [← hx, ← hrest]
    exact h.fold a.folded
  unfold migrateFile
  refine CrashProg.triple_bind (Q := fun _ disk => Plain main wal disk ∧ disk.journal = journal) ?_ fun _ => ?_
  · refine removeTmp_triple (fun disk h => h) fun disk h => Or.inl ?_
    rw [hnewest]
    exact h.1.opened
  refine CrashProg.triple_bind (Q := fun _ disk => Plain x rest disk ∧ disk.journal = journal) ?_ fun _ => ?_
  · refine CrashProg.triple_write (fun disk h t ht => Or.inl ?_)
      (fun disk h => ⟨hfold disk h.1, (fold_journal a.folded disk).trans h.2⟩) fun disk h => (hfold disk h.1).kept
    obtain ⟨k, -, rfl⟩ := List.mem_map.1 ht
    rw [hnewest]
    exact opened_fold h.1.opened k
  refine CrashProg.triple_bind (Q := fun before disk => (Plain x rest disk ∧ disk.journal = journal) ∧
    before = counts (newest main wal)) ?_ fun before => ?_
  · refine tableCounts_triple fun disk h => ?_
    rw [h.1.opened, hnewest]
  refine CrashProg.triple_of_fact ?_
  rintro rfl
  refine CrashProg.triple_bind (copyToTmp_triple.weaken (fun _ _ h => h) fun _ _ h => h.elim) fun _ => ?_
  refine CrashProg.triple_bind (rekeyTmp_triple.weaken (fun _ _ h => h) fun _ _ h => h.elim) fun _ => ?_
  cases hrekeys : a.rekeys with
  | false =>
    -- the header of the copy is still the plaintext one
    simp only [Bool.false_eq_true, if_false]
    refine CrashProg.triple_bind (Q := fun copy disk => Plain x rest disk ∧ copy = some (.pages none x)) ?_ fun copy => ?_
    · refine CrashProg.triple_read (fun disk h copy hcopy => ⟨h.1, ?_⟩) fun disk h e he => by cases he
      rw [← Except.ok.inj hcopy, h.2]
    refine CrashProg.triple_of_fact ?_
    rintro rfl
    refine CrashProg.triple_ite (fun _ => ?_) fun hencrypted => absurd (by simp [isPlaintextSqlite]) hencrypted
    refine CrashProg.triple_bind (Q := fun _ => Plain x rest) ?_ fun _ => CrashProg.triple_fail fun disk h => ⟨by simp, ?_⟩
    · exact removeTmp_triple (fun disk h => h) fun disk h => h.kept
    · rw [h.opened, hnewest]
  | true =>
    simp only [if_true]
    refine CrashProg.triple_bind (Q := fun copy disk => Copied (some key) (a.copied journal x) x rest disk ∧
      copy = some (.pages (some key) (a.copied journal x))) ?_ fun copy => ?_
    · refine CrashProg.triple_read (fun disk h copy hcopy => ⟨h, ?_⟩) fun disk h e he => by cases he
      rw [← Except.ok.inj hcopy, h.2]
    refine CrashProg.triple_of_fact ?_
    rintro rfl
    refine CrashProg.triple_ite (fun hplain => absurd hplain (by simp [isPlaintextSqlite])) fun _ => ?_
    refine verifyAndSwap_triple.weaken (fun r disk h => ⟨⟨h.1.1, trivial, h.1.2⟩, h.2⟩) fun e disk h =>
      ⟨fun hboth => h.1 hboth.2, ?_⟩
    rw [h.2.opened, hnewest]

/-- a plaintext file is migrated -/
theorem encrypt_plain (h : Plain main wal disk) : encryptIfPlaintext counts key a disk = migrateFile counts key a disk := by
  have hrun : encryptIfPlaintext counts key a disk = _ := CrashProg.bind_ok rfl
  rw [hrun, h.1.1]
  rfl

/-- any other one is left alone -/
theorem encrypt_encrypted (h : disk.opened (some key) = some d) :
    encryptIfPlaintext counts key a disk = ⟨[], disk, .ok .alreadyEncrypted⟩ := by
  obtain ⟨main, hdb, -, -⟩ := opened_eq_some.1 h
  have hrun : encryptIfPlaintext counts key a disk = _ := CrashProg.bind_ok rfl
  rw [hrun, hdb]
  rfl

/-- **What the verification lets through.** A call migrates exactly when `PRAGMA rekey` works and the copy that it encrypts has
the row counts of the last commit. The encrypted file then holds that copy, and the backup what the checkpoint had folded.
Otherwise the plaintext database opens as before. -/
theorem migrated_iff (counts : D → TableCounts) (key : String) (a : Attempt D) {disk : Disk D} {main : D}
    (hdb : disk.db = some (.pages none main)) (hwal : ∀ c ∈ disk.wal, c.key = none) :
    let folded := newest main (disk.wal.take a.folded)
    let r := encryptIfPlaintext counts key a disk
    (r.result = .ok .migrated ↔
      a.rekeys = true ∧ counts (a.copied disk.journal folded) = counts (newest main disk.wal)) ∧
    (r.result = .ok .migrated →
      Swapped key (a.copied disk.journal folded) folded (disk.wal.drop a.folded) r.final) ∧
    (r.result ≠ .ok .migrated → r.final.opened none = some (newest main disk.wal)) := by
  intro folded r
  have hplain : Plain main disk.wal disk := ⟨⟨hdb, rfl⟩, hwal⟩
  have htriple := migrateFile_triple counts key a main disk.wal disk.journal
  have hr : r = migrateFile counts key a disk := encrypt_plain hplain
  rw [hr]
  cases hresult : (migrateFile counts key a disk).result with
  | ok result =>
    obtain ⟨⟨rfl, hboth⟩, hswapped⟩ := htriple.returns disk ⟨hplain, rfl⟩ result hresult
    exact ⟨iff_of_true rfl hboth, fun _ => hswapped, fun hne => absurd rfl hne⟩
  | error e =>
    obtain ⟨hnot, hopened⟩ := htriple.throws disk ⟨hplain, rfl⟩ e hresult
    exact ⟨iff_of_false (by simp) hnot, fun hmigrated => absurd hmigrated (by simp), fun _ => hopened⟩

/-- the rows of the one table, a text each -/
def rowCounts (rows : List String) : TableCounts := ⟨rows.length, 0⟩

/-- a row was changed, and the commit has not been folded when the file is migrated -/
def heldOpen : Disk (List String) where
  db := some (.pages none ["old"])
  wal := [⟨none, ["new"]⟩]

theorem migrated_iff_unfolded :
    (encryptIfPlaintext rowCounts "key" { folded := 0, recovered := [] } heldOpen).result = .ok .migrated ∧
    Swapped "key" ["old"] ["old"] [⟨none, ["new"]⟩]
      (encryptIfPlaintext rowCounts "key" { folded := 0, recovered := [] } heldOpen).final := by
  have hcall := migrated_iff rowCounts "key" { folded := 0, recovered := [] }
    (show heldOpen.db = some (.pages none ["old"]) from rfl) (by simp [heldOpen])
  have hmigrated := hcall.1.2 ⟨rfl, by decide⟩
  exact ⟨hmigrated, hcall.2.1 hmigrated⟩

/-! ## Histories -/

/-- no other connection holds the file when it is migrated: the checkpoint folds every commit -/
def Alone (h : History D) : Event D → Prop
  | .boot a _ => keyOf h.disk = none → h.disk.wal.length ≤ a.folded
  | _ => True

/-- no startup copies the file beside the journal of an earlier copy -/
def Clean (h : History D) : Event D → Prop
  | .boot _ _ => keyOf h.disk = none → h.disk.journal = false
  | _ => True

/-- the plaintext database opens with what was committed last, or it was replaced, the backup holds what was replaced, and the
encrypted one opens: with what was committed last, where `upToDate` holds -/
def Intact (key : String) (upToDate : Prop) (h : History D) : Prop :=
  (h.replaced = none ∧ h.disk.opened none = some h.latest) ∨
    ∃ x d, h.replaced = some x ∧ h.disk.bak = some (.pages none x) ∧ h.disk.opened (some key) = some d ∧ (upToDate → d = h.latest)

variable {upToDate : Prop}

theorem Swapped.opened (h : Swapped key y x [] disk) : disk.opened (some key) = some y := by
  obtain ⟨hdb, hwal, -⟩ := h
  refine opened_eq_some.2 ⟨y, hdb, ?_, by rw [hwal]; rfl⟩
  rw [hwal]
  intro c hc
  cases hc

theorem intact_boot {h : History D} {cut : Option ℕ} (hi : Intact key upToDate h) (halone : Alone h (.boot a cut))
    (hclean : upToDate → Clean h (.boot a cut)) : Intact key upToDate (happen counts key h (.boot a cut)) := by
  rcases hi with ⟨hnone, hopened⟩ | ⟨x, d, hsome, hbak, hopened, hexact⟩
  · have hkey := keyOf_opened hopened
    have hfolds : h.disk.wal.length ≤ a.folded := halone hkey
    obtain ⟨main, hdb, hwal, hlatest⟩ := opened_eq_some.1 hopened
    have hplain : Plain main h.disk.wal h.disk := ⟨⟨hdb, rfl⟩, hwal⟩
    have htriple := migrateFile_triple counts key a main h.disk.wal h.disk.journal
    rw [List.drop_of_length_le hfolds, List.take_of_length_le hfolds, hlatest] at htriple
    have hkept : Kept key (a.copied h.disk.journal h.latest) h.latest [] ((encryptIfPlaintext counts key a).left h.disk cut) := by
      have hbefore : Kept key (a.copied h.disk.journal h.latest) h.latest [] h.disk := Or.inl hopened
      rw [CrashProg.left_congr (encrypt_plain hplain)]
      refine (htriple.weaken (fun r disk hr => ?_) fun e disk he => ?_).left ⟨hplain, rfl⟩ hbefore cut
      · exact Or.inr hr.2
      · exact Or.inl he.2
    rcases hkept with hleft | hswapped
    · refine Or.inl ⟨?_, hleft⟩
      simp only [happen, keyOf_opened hleft, ne_eq, not_true_eq_false, and_false, if_false]
      exact hnone
    · refine Or.inr ⟨h.latest, a.copied h.disk.journal h.latest, ?_, hswapped.2.2, hswapped.opened, fun he => ?_⟩
      · simp only [happen, keyOf_opened hswapped.opened, hkey, ne_eq, reduceCtorEq, not_false_eq_true, and_self, if_true]
      · have hjournal : h.disk.journal = false := hclean he hkey
        simp [Attempt.copied, hjournal, happen]
  · have hsame : (encryptIfPlaintext counts key a).left h.disk cut = h.disk := by
      cases cut with
      | none => simp only [CrashProg.left, encrypt_encrypted hopened]
      | some cut => cases cut <;> simp [CrashProg.left, encrypt_encrypted hopened]
    refine Or.inr ⟨x, d, ?_, ?_, ?_, hexact⟩
    · simp only [happen, hsame, keyOf_opened hopened, reduceCtorEq, false_and, if_false]
      exact hsome
    · simp only [happen, hsame]
      exact hbak
    · simp only [happen, hsame]
      exact hopened

theorem intact_step {h : History D} {e : Event D} (hi : Intact key upToDate h) (halone : Alone h e)
    (hclean : upToDate → Clean h e) : Intact key upToDate (happen counts key h e) := by
  cases e with
  | boot a cut => exact intact_boot hi halone hclean
  | commit data =>
    rcases hi with ⟨hnone, hopened⟩ | ⟨x, d, hsome, hbak, hopened, -⟩
    · simp only [happen, keyOf_opened hopened, hopened, Option.isSome_some, if_true]
      exact Or.inl ⟨hnone, opened_commit hopened data⟩
    · simp only [happen, keyOf_opened hopened, hopened, Option.isSome_some, if_true]
      exact Or.inr ⟨x, data, hsome, hbak, opened_commit hopened data, fun _ => rfl⟩
  | checkpoint n =>
    rcases hi with ⟨hnone, hopened⟩ | ⟨x, d, hsome, hbak, hopened, hexact⟩
    · exact Or.inl ⟨hnone, opened_fold hopened n⟩
    · exact Or.inr ⟨x, d, hsome, (fold_bak n h.disk).trans hbak, opened_fold hopened n, hexact⟩

/-- **What was replaced is kept.** From a plaintext database, over every history of startups that are alone, each cut off
anywhere or not at all, of commits and of checkpoints: until it is replaced the database opens with what was committed last,
and from then on the backup holds what was replaced, whatever the encrypted database holds. -/
theorem backup_survives (counts : D → TableCounts) (key : String) {h : History D} {events : List (Event D)}
    (hopen : h.disk.opened none = some h.latest) (hfresh : h.replaced = none)
    (halone : Along (happen counts key) Alone h events) : Intact key False (events.foldl (happen counts key) h) :=
  along_inv (Intact key False) (fun _ _ hi he => intact_step hi he False.elim) (Or.inl ⟨hfresh, hopen⟩) halone

/-- one row, in plaintext -/
def plainHistory : History (List String) where
  disk := { db := some (.pages none ["old"]) }
  latest := ["old"]

/-- an encryption is cut off, and after the next commit SQLite rolls its journal back into the next copy -/
def rolledBack : List (Event (List String)) :=
  [.boot { folded := 0, recovered := [] } (some 7), .commit ["new"], .boot { folded := 1, recovered := ["old"] } none]

theorem backup_survives_journal :
    Intact "key" False (rolledBack.foldl (happen rowCounts "key") plainHistory) ∧
    (rolledBack.foldl (happen rowCounts "key") plainHistory).disk.opened (some "key") = some ["old"] ∧
    (rolledBack.foldl (happen rowCounts "key") plainHistory).replaced = some ["new"] :=
  ⟨backup_survives rowCounts "key" (by decide) rfl ⟨fun _ => by decide, trivial, fun _ => by decide, trivial⟩,
    by decide, by decide⟩

/-- **Nothing is lost.** Where besides no startup copies the file beside a journal, the database opens with what was committed
last, and a startup that is not cut off ends with the encrypted one, whatever the ones before it left. -/
theorem encryption_survives (counts : D → TableCounts) (key : String) {h : History D} {events : List (Event D)}
    (hopen : h.disk.opened none = some h.latest) (hfresh : h.replaced = none)
    (halone : Along (happen counts key) (fun h e => Alone h e ∧ Clean h e) h events) :
    Intact key True (events.foldl (happen counts key) h) ∧
    ∀ a, a.rekeys = true → Alone (events.foldl (happen counts key) h) (.boot a none) →
      Clean (events.foldl (happen counts key) h) (.boot a none) →
      (encryptIfPlaintext counts key a (events.foldl (happen counts key) h).disk).final.opened (some key) =
        some (events.foldl (happen counts key) h).latest := by
  have hintact : Intact key True (events.foldl (happen counts key) h) :=
    along_inv (Intact key True) (fun _ _ hi he => intact_step hi he.1 fun _ => he.2) (Or.inl ⟨hfresh, hopen⟩) halone
  refine ⟨hintact, fun a hworks hlast hclean => ?_⟩
  generalize events.foldl (happen counts key) h = last at hintact hlast hclean
  rcases hintact with ⟨-, hopened⟩ | ⟨x, d, -, -, hopened, hexact⟩
  · have hfolds : last.disk.wal.length ≤ a.folded := hlast (keyOf_opened hopened)
    have hjournal : last.disk.journal = false := hclean (keyOf_opened hopened)
    obtain ⟨main, hdb, hwal, hlatest⟩ := opened_eq_some.1 hopened
    have hplain : Plain main last.disk.wal last.disk := ⟨⟨hdb, rfl⟩, hwal⟩
    have htriple := migrateFile_triple counts key a main last.disk.wal last.disk.journal
    rw [List.drop_of_length_le hfolds, List.take_of_length_le hfolds, hlatest, hjournal] at htriple
    rw [encrypt_plain hplain]
    cases hresult : (migrateFile counts key a last.disk).result with
    | ok r => exact (htriple.returns last.disk ⟨hplain, hjournal⟩ r hresult).2.opened
    | error e => exact absurd ⟨hworks, rfl⟩ (htriple.throws last.disk ⟨hplain, hjournal⟩ e hresult).1
  · rw [encrypt_encrypted hopened]
    exact hopened.trans (congrArg some (hexact trivial))

/-- a commit changes a row, and then a process is killed while it copies the file -/
def interrupted : List (Event (List String)) := [.commit ["new"], .boot { folded := 1, recovered := [] } (some 5)]

theorem encryption_survives_interrupted :
    Intact "key" True (interrupted.foldl (happen rowCounts "key") plainHistory) ∧
    ∀ a, a.rekeys = true → Alone (interrupted.foldl (happen rowCounts "key") plainHistory) (.boot a none) →
      Clean (interrupted.foldl (happen rowCounts "key") plainHistory) (.boot a none) →
      (encryptIfPlaintext rowCounts "key" a (interrupted.foldl (happen rowCounts "key") plainHistory).disk).final.opened
        (some "key") = some (interrupted.foldl (happen rowCounts "key") plainHistory).latest :=
  encryption_survives rowCounts "key" (by decide) rfl
    ⟨⟨trivial, trivial⟩, ⟨fun _ => by decide, fun _ => by decide⟩, trivial⟩

end AstramemLocal.Storage.MigrateEncrypt
