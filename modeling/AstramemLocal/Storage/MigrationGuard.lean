/-
What the migration guard refuses (`verifyAndBackfill` of `src/storage/migrate.ts`). A row holds the hash of the file that
was applied, of its bytes or of its LF form, and the guard accepts the file of today when that hash is the one of its
bytes or of its LF form.
- `verifyAndBackfill_refuses_iff`: it refuses exactly when the check of a row fails;
- `migrate_refuses_iff`: a boot that comes to the guard refuses as the guard does;
- `migrationGuard_exact_iff`: it refuses just the files whose lines are not those that were applied, exactly when no hash of
  a CR LF text meets another text with the same lines, and no text is the LF form of another one and still has a CR LF;
- `crlf_recording_refused`: the hash of a CR LF checkout refuses the LF checkout of the same file.
-/
import AstramemLocal.Storage.Migrate
import Mathlib.Logic.Encodable.Basic
import Mathlib.Logic.Equiv.List

namespace AstramemLocal.Storage

open AstramemLocal.Core JsString

variable {hash : JsString → String} {files : List MigrationFile} {db : Database}

/-! ## The guard -/

/-- **Row by row.** -/
theorem verifyAndBackfill_refuses_iff (rows : List VersionRow) (db : Database) :
    (∃ e, verifyAndBackfill hash files rows db = .error e) ↔ ∃ row ∈ rows, ∃ e, verifyRow hash files row = .error e := by
  unfold verifyAndBackfill
  induction rows generalizing db with
  | nil =>
    refine iff_of_false ?_ (by simp)
    intro h
    obtain ⟨e, he⟩ := h
    cases he
  | cons row rows ih =>
    simp only [List.mem_cons, exists_eq_or_imp]
    cases hrow : verifyRow hash files row with
    | error e =>
      refine iff_of_true ⟨e, ?_⟩ (.inl ⟨e, rfl⟩)
      simp only [List.foldlM_cons, hrow]
      rfl
    | ok filled =>
      rw [or_iff_right (by simp)]
      cases filled with
      | none =>
        rw [← ih db]
        simp only [List.foldlM_cons, hrow]
        rfl
      | some filling =>
        rw [← ih (db.backfill row.version filling.1.name filling.2)]
        simp only [List.foldlM_cons, hrow]
        rfl

/-- what is no error of the guard -/
def MigrateError.isReplaced : MigrateError → Bool
  | .replaced .. => true
  | _ => false

theorem verifyRow_error {row : VersionRow} {e : MigrateError} (h : verifyRow hash files row = .error e) : e.isReplaced = true := by
  unfold verifyRow at h
  split at h
  · cases h
  · dsimp only at h
    split_ifs at h
    cases h
    rfl

theorem verifyAndBackfill_error {rows : List VersionRow} {e : MigrateError}
    (h : verifyAndBackfill hash files rows db = .error e) : e.isReplaced = true := by
  unfold verifyAndBackfill at h
  induction rows generalizing db with
  | nil => cases h
  | cons row rows ih =>
    simp only [List.foldlM_cons] at h
    cases hrow : verifyRow hash files row with
    | error e' =>
      rw [hrow] at h
      cases h
      exact verifyRow_error hrow
    | ok filled =>
      rw [hrow] at h
      cases filled with
      | none => exact ih h
      | some filling => exact ih h

theorem healAndCheck_error {exec : JsString → Database → Except SqlError Database} {R : Release} {now : Store.Time}
    {e : MigrateError} (h : (healAndCheck exec R now db).1 = .error e) : e.isReplaced = false := by
  unfold healAndCheck at h
  split at h
  · cases h
    rfl
  · split at h
    · cases h
      rfl
    · unfold checkVersion at h
      split at h
      · cases h
        rfl
      · split_ifs at h <;> cases h <;> rfl

/-- **A boot refuses as the guard does**, once it has come to it. -/
theorem migrate_refuses_iff {exec : JsString → Database → Except SqlError Database} {R : Release} {dim : ℕ}
    {now : Store.Time} {applied : List ℤ} {before : Database} {rows : List VersionRow} (hdim : dim ≠ 0)
    (happlied : db.createVersionTable.selectVersions = .ok applied) (hshared : sharedVersion R.files = none)
    (hpending : applyPending exec dim now applied R.files db.createVersionTable = (none, before))
    (hrows : before.selectVersionRows = .ok rows) :
    (∃ e, e.isReplaced = true ∧ (migrate exec hash R dim now db).1 = .error e) ↔
      ∃ e, verifyAndBackfill hash R.files rows before = .error e := by
  have hmigrate : migrate exec hash R dim now db = verifyAndHeal exec hash R now before := by
    unfold migrate
    rw [if_neg hdim]
    dsimp only
    rw [happlied]
    dsimp only
    rw [hshared]
    dsimp only
    rw [hpending]
  rw [hmigrate, verifyAndHeal, hrows]
  dsimp only
  cases hguard : verifyAndBackfill hash R.files rows before with
  | error e => exact iff_of_true ⟨e, verifyAndBackfill_error hguard, rfl⟩ ⟨e, rfl⟩
  | ok after =>
    refine iff_of_false ?_ (by simp)
    intro h
    obtain ⟨e, hreplaced, he⟩ := h
    rw [healAndCheck_error he] at hreplaced
    cases hreplaced

/-! ## What was applied -/

/-- how a release recorded the hash of a file -/
inductive HashConvention where
  | raw
  | normalized
deriving DecidableEq, Repr

/-- a migration as some release applied it -/
structure AppliedMigration where
  version : ℤ
  filename : String
  content : JsString
  convention : HashConvention

variable (hash) in
def AppliedMigration.row (a : AppliedMigration) : VersionRow where
  version := a.version
  filename := .text a.filename
  contentHash :=
    match a.convention with
    | .raw => .text (hash a.content)
    | .normalized => .text (migrationFileHash hash a.content)

/-- the file of today differs in more than its line endings -/
def Replaced (files : List MigrationFile) (a : AppliedMigration) : Prop :=
  ∃ f, fileByVersion files a.version = some f ∧ endedLines f.sql ≠ endedLines a.content

def Refuses (hash : JsString → String) (files : List MigrationFile) (rows : List VersionRow) : Prop :=
  ∀ db, ∃ e, verifyAndBackfill hash files rows db = .error e

theorem refuses_iff {rows : List VersionRow} :
    Refuses hash files rows ↔ ∃ row ∈ rows, ∃ e, verifyRow hash files row = .error e := by
  constructor
  · intro h
    exact (verifyAndBackfill_refuses_iff rows ⟨[], []⟩).1 (h ⟨[], []⟩)
  · exact fun h db => (verifyAndBackfill_refuses_iff rows db).2 h

/-- of two texts with the same lines, one recorded by its bytes has no CR LF or is that of today; and no text of the two
is the LF form of the other, and still has a CR LF -/
def Traceable (files : List MigrationFile) (a : AppliedMigration) : Prop :=
  ∀ f, fileByVersion files a.version = some f →
    match a.convention with
    | .raw => (endedLines f.sql = endedLines a.content → f.sql = a.content ∨ ¬ [0xd, 0xa] <:+: a.content) ∧
        (a.content = unixEndings f.sql → ¬ [0xd, 0xa] <:+: a.content)
    | .normalized => f.sql = unixEndings a.content → ¬ [0xd, 0xa] <:+: f.sql

theorem verifyRow_raw (hinj : Function.Injective hash) {a : AppliedMigration} (ha : a.convention = .raw)
    {f : MigrationFile} (hf : fileByVersion files a.version = some f) :
    (∃ e, verifyRow hash files (a.row hash) = .error e) ↔ a.content ≠ unixEndings f.sql ∧ a.content ≠ f.sql := by
  simp only [verifyRow, AppliedMigration.row, hf, ha, migrationFileHash, reduceCtorEq, if_false, SqlCell.text.injEq,
    hinj.eq_iff]
  split_ifs with hunix hsame <;> simp_all

theorem verifyRow_normalized (hinj : Function.Injective hash) {a : AppliedMigration} (ha : a.convention = .normalized)
    {f : MigrationFile} (hf : fileByVersion files a.version = some f) :
    (∃ e, verifyRow hash files (a.row hash) = .error e) ↔
      unixEndings a.content ≠ unixEndings f.sql ∧ unixEndings a.content ≠ f.sql := by
  simp only [verifyRow, AppliedMigration.row, hf, ha, migrationFileHash, reduceCtorEq, if_false, SqlCell.text.injEq,
    hinj.eq_iff]
  split_ifs with hunix hsame <;> simp_all

theorem verifyRow_gone {a : AppliedMigration} (hf : fileByVersion files a.version = none) :
    ¬ ∃ e, verifyRow hash files (a.row hash) = .error e := by
  intro h
  obtain ⟨e, he⟩ := h
  have hok : verifyRow hash files (a.row hash) = .ok none := by simp [verifyRow, AppliedMigration.row, hf]
  rw [hok] at he
  cases he

/-- one migration -/
theorem traceable_iff (hinj : Function.Injective hash) (a : AppliedMigration) :
    ((∃ e, verifyRow hash files (a.row hash) = .error e) ↔ Replaced files a) ↔ Traceable files a := by
  cases hf : fileByVersion files a.version with
  | none =>
    refine iff_of_true ?_ ?_
    · refine iff_of_false (verifyRow_gone hf) ?_
      intro h
      obtain ⟨f, hfile, -⟩ := h
      rw [hf] at hfile
      cases hfile
    · intro f hfile
      rw [hf] at hfile
      cases hfile
  | some f =>
    have hreplaced : Replaced files a ↔ unixEndings f.sql ≠ unixEndings a.content := by
      rw [Ne, unixEndings_eq_iff]
      constructor
      · intro h
        obtain ⟨g, hg, hlines⟩ := h
        obtain rfl := Option.some.inj (hf.symm.trans hg)
        exact hlines
      · exact fun h => ⟨f, hf, h⟩
    have htraceable : Traceable files a ↔
        match a.convention with
        | .raw => (endedLines f.sql = endedLines a.content → f.sql = a.content ∨ ¬ [0xd, 0xa] <:+: a.content) ∧
            (a.content = unixEndings f.sql → ¬ [0xd, 0xa] <:+: a.content)
        | .normalized => f.sql = unixEndings a.content → ¬ [0xd, 0xa] <:+: f.sql := by
      constructor
      · exact fun h => h f hf
      · intro h g hg
        obtain rfl := Option.some.inj (hf.symm.trans hg)
        exact h
    rw [hreplaced, htraceable]
    cases ha : a.convention with
    | raw =>
      rw [verifyRow_raw hinj ha hf]
      simp only [← unixEndings_eq_iff, ← unixEndings_eq_self_iff]
      grind
    | normalized =>
      rw [verifyRow_normalized hinj ha hf]
      simp only [← unixEndings_eq_self_iff]
      grind

/-- **The guard is exact** just where every recorded hash can be traced. -/
theorem migrationGuard_exact_iff (hash : JsString → String) (hinj : Function.Injective hash) (files : List MigrationFile)
    (applied : List AppliedMigration) :
    ((∀ a ∈ applied, Refuses hash files [a.row hash] ↔ Replaced files a) ∧
      (Refuses hash files (applied.map (·.row hash)) ↔ ∃ a ∈ applied, Replaced files a)) ↔
        ∀ a ∈ applied, Traceable files a := by
  have hone : ∀ a : AppliedMigration, (Refuses hash files [a.row hash] ↔ Replaced files a) ↔ Traceable files a := by
    intro a
    rw [refuses_iff, ← traceable_iff hinj a]
    simp
  constructor
  · exact fun h a ha => (hone a).1 (h.1 a ha)
  · intro h
    refine ⟨fun a ha => (hone a).2 (h a ha), ?_⟩
    rw [refuses_iff]
    constructor
    · intro hrefused
      obtain ⟨row, hrow, e, he⟩ := hrefused
      obtain ⟨a, ha, rfl⟩ := List.mem_map.1 hrow
      exact ⟨a, ha, ((traceable_iff hinj a).2 (h a ha)).1 ⟨e, he⟩⟩
    · intro hreplaced
      obtain ⟨a, ha, hreplaced⟩ := hreplaced
      exact ⟨a.row hash, List.mem_map_of_mem ha, ((traceable_iff hinj a).2 (h a ha)).2 hreplaced⟩

/-- a migration recorded by its bytes on a CR LF checkout -/
def crlfInit : AppliedMigration :=
  ⟨1, "001-init.sql", JsString.ofString "CREATE TABLE t (\r\n  id INTEGER\r\n);\r\n", .raw⟩

/-- its file on an LF checkout -/
def lfInit : MigrationFile := ⟨"001-init.sql", JsString.ofString "CREATE TABLE t (\n  id INTEGER\n);\n"⟩

/-- a hash without collisions -/
def codeHash (text : JsString) : String := String.ofList (List.replicate (Encodable.encode text) '1')

theorem codeHash_injective : Function.Injective codeHash := by
  intro a b h
  have hlength := congrArg (·.toList.length) h
  simpa [codeHash] using hlength

theorem migrationGuard_exact_init :
    ((∀ a ∈ [crlfInit], Refuses codeHash [lfInit] [a.row codeHash] ↔ Replaced [lfInit] a) ∧
      (Refuses codeHash [lfInit] ([crlfInit].map (·.row codeHash)) ↔ ∃ a ∈ [crlfInit], Replaced [lfInit] a)) ↔
        ∀ a ∈ [crlfInit], Traceable [lfInit] a :=
  migrationGuard_exact_iff codeHash codeHash_injective [lfInit] [crlfInit]

/-- **The LF checkout of a CR LF recording.** Nothing but the line endings differs, and the boot is refused. -/
theorem crlf_recording_refused :
    (∀ hash : JsString → String, Function.Injective hash → Refuses hash [lfInit] [crlfInit.row hash]) ∧
      ¬ Replaced [lfInit] crlfInit := by
  have hfile : fileByVersion [lfInit] crlfInit.version = some lfInit := by decide +kernel
  constructor
  · intro hash hinj
    rw [refuses_iff]
    refine ⟨_, List.mem_singleton_self _, (verifyRow_raw hinj rfl hfile).2 ?_⟩
    exact ⟨by decide +kernel, by decide +kernel⟩
  · intro h
    obtain ⟨f, hf, hlines⟩ := h
    obtain rfl := Option.some.inj (hfile.symm.trans hf)
    exact hlines (by decide +kernel)

end AstramemLocal.Storage
