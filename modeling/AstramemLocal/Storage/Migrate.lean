/-
The migrations a boot runs (`src/storage/migrate.ts`, `src/storage/migration-self-heal.ts`): the files of the release are
applied in order (`applyPending`), the recorded hashes are checked against them and the missing ones filled in
(`verifyAndBackfill`), columns that are missing are added again (`selfHealMissingColumns`), and at the end the highest
version of the database is compared with that of the release. What SQLite does with the SQL of a file is a parameter.
The conditions of a table, its triggers and its key apart from `version` are left out.
-/
import AstramemLocal.Core.Cut
import AstramemLocal.Core.LineEndings
import AstramemLocal.Core.Regex
import AstramemLocal.Core.Table
import AstramemLocal.Core.Text
import AstramemLocal.Store.Schema
import Mathlib.Data.List.Sort
import Mathlib.Algebra.Order.BigOperators.Group.List

namespace AstramemLocal.Storage

open AstramemLocal.Core

/-! ## Databases -/

inductive SqlCell where
  | null
  | integer (n : ℤ)
  | text (s : String)
  | other (bytes : List ℕ)
deriving DecidableEq, Repr

abbrev SqlRow := List (String × SqlCell)

structure SqlColumn where
  name : String
  /-- NOT NULL without a default -/
  required : Bool := false
  fallback : SqlCell := .null
deriving DecidableEq, Repr

structure SqlTable where
  name : String
  columns : List SqlColumn
  rows : List SqlRow := []
  /-- a row has its columns in the table's order -/
  aligned : ∀ row ∈ rows, row.map (·.1) = columns.map (·.name) := by decide
deriving DecidableEq

structure Database where
  tables : List SqlTable
  /-- the other entries of `sqlite_master` -/
  objects : List String := []
deriving DecidableEq

inductive SqlError where
  | noSuchTable (table : String)
  | noSuchColumn (table : String)
  | constraint (table : String)
  | other (message : String)
deriving DecidableEq, Repr

namespace SqlTable

def hasColumn (t : SqlTable) (column : String) : Bool := t.columns.any (·.name = column)

def insertRow (t : SqlTable) (cells : SqlRow) : SqlTable where
  name := t.name
  columns := t.columns
  rows := t.rows ++ [t.columns.map fun c => (c.name, (cells.lookup c.name).getD c.fallback)]
  aligned row h := by
    rcases List.mem_append.1 h with h | h
    · exact t.aligned row h
    · rw [List.mem_singleton.1 h, List.map_map]
      rfl

/-- `ALTER TABLE ... ADD COLUMN` -/
def addColumn (t : SqlTable) (column : SqlColumn) : SqlTable where
  name := t.name
  columns := t.columns ++ [column]
  rows := t.rows.map (· ++ [(column.name, column.fallback)])
  aligned row h := by
    obtain ⟨old, hold, rfl⟩ := List.mem_map.1 h
    simp [t.aligned old hold]

end SqlTable

/-- `version` is an INTEGER PRIMARY KEY -/
def rowVersion (row : SqlRow) : Option ℤ :=
  match row.lookup "version" with
  | some (.integer n) => some n
  | _ => none

def setCell (column : String) (cell : SqlCell) (row : SqlRow) : SqlRow :=
  row.map fun entry => if entry.1 = column then (column, cell) else entry

theorem setCell_columns (column : String) (cell : SqlCell) (row : SqlRow) :
    (setCell column cell row).map (·.1) = row.map (·.1) := by
  rw [setCell, List.map_map]
  apply List.map_congr_left
  intro entry _
  rw [Function.comp_apply]
  split
  next h => exact h.symm
  next => rfl

namespace SqlTable

def versions (t : SqlTable) : List ℤ := t.rows.filterMap rowVersion

def backfill (t : SqlTable) (version : ℤ) (file diskHash : String) : SqlTable where
  name := t.name
  columns := t.columns
  rows := updateWhere (fun row => rowVersion row = some version)
    (fun row => setCell "content_hash" (.text diskHash) (setCell "filename" (.text file) row)) t.rows
  aligned row h := by
    obtain ⟨old, hold, rfl⟩ := mem_updateWhere.1 h
    split
    · rw [setCell_columns, setCell_columns, t.aligned old hold]
    · exact t.aligned old hold

end SqlTable

namespace Database

def table (db : Database) (name : String) : Option SqlTable := lookup (·.name) name db.tables

def updateTable (db : Database) (name : String) (f : SqlTable → SqlTable) : Database :=
  { db with tables := updateWhere (·.name = name) f db.tables }

/-- the table, where it has the columns -/
def select (db : Database) (name : String) (columns : List String) : Except SqlError SqlTable :=
  match db.table name with
  | none => .error (.noSuchTable name)
  | some t => if columns.all t.hasColumn then .ok t else .error (.noSuchColumn name)

/-- one row of `INSERT INTO name (...) VALUES (...)` -/
def insertInto (db : Database) (name : String) (cells : SqlRow) : Except SqlError Database :=
  match db.select name (cells.map (·.1)) with
  | .error e => .error e
  | .ok t =>
    if t.columns.any fun c => c.required && (cells.lookup c.name).getD .null = .null then .error (.constraint name)
    else .ok (db.updateTable name (·.insertRow cells))

def addColumn (db : Database) (name : String) (column : SqlColumn) : Database := db.updateTable name (·.addColumn column)

def createVersionTable (db : Database) : Database :=
  if (db.table "schema_version").isSome then db
  else
    { db with
      tables := db.tables ++
        [{ name := "schema_version"
           columns := [⟨"version", false, .null⟩, ⟨"applied_at", true, .null⟩] }] }

/-- `SELECT version FROM schema_version` -/
def selectVersions (db : Database) : Except SqlError (List ℤ) :=
  (db.select "schema_version" ["version"]).map (·.versions)

/-- the versions the database records -/
def recorded (db : Database) : List ℤ :=
  match db.selectVersions with
  | .ok versions => versions
  | .error _ => []

/-- `SELECT MAX(version)`, 0 where there is none -/
def maxVersion (db : Database) : ℤ := (db.recorded.max?).getD 0

def recordVersion (db : Database) (version : ℤ) (now : Store.Time) : Except SqlError Database :=
  if version ∈ db.recorded then .error (.constraint "schema_version")
  else db.insertInto "schema_version" [("version", .integer version), ("applied_at", .integer now)]

end Database

/-! ## The release -/

structure MigrationFile where
  name : String
  sql : JsString
deriving DecidableEq, Repr

def decimalValue (digits : List Char) : ℕ := digits.foldl (fun n c => 10 * n + (c.toNat - '0'.toNat)) 0

/-- `parseInt(text, 10)`; `none` for NaN -/
def parseInt (text : List Char) : Option ℤ :=
  let (negative, rest) :=
    match trimStart text with
    | '-' :: rest => (true, rest)
    | '+' :: rest => (false, rest)
    | rest => (false, rest)
  match rest.takeWhile (·.isDigit) with
  | [] => none
  | digits => some (if negative then -decimalValue digits else decimalValue digits)

/-- `parseInt(f.split('-')[0], 10)` -/
def MigrationFile.version (f : MigrationFile) : Option ℤ := parseInt (f.name.toList.takeWhile (· ≠ '-'))

/-- the number of a name as `/^(\d+)-.+\.sql$/` finds it -/
def schemaNumber (name : String) : Option ℕ :=
  let digits := name.toList.takeWhile (·.isDigit)
  match name.toList.drop digits.length with
  | '-' :: rest =>
    if digits ≠ [] ∧ ".sql".toList <:+ rest ∧ 4 < rest.length ∧ rest.all isDot then some (decimalValue digits) else none
  | _ => none

/-- `none` where it throws -/
def deriveSchemaVersion (files : List MigrationFile) : Option ℕ := (files.filterMap fun f => schemaNumber f.name).max?

/-- a release whose modules load -/
structure Release where
  /-- the `.sql` files of `migrations/`, sorted by name -/
  files : List MigrationFile
  /-- `SCHEMA_VERSION` -/
  schemaVersion : ℕ
  derived : deriveSchemaVersion files = some schemaVersion

/-- the files under each number, in the order of a Map -/
def filesByVersion (files : List MigrationFile) : List (ℤ × List MigrationFile) :=
  files.foldl (fun byVersion f =>
    match f.version with
    | none => byVersion
    | some v =>
      if byVersion.any (·.1 = v) then updateWhere (·.1 = v) (fun entry => (entry.1, entry.2 ++ [f])) byVersion
      else byVersion ++ [(v, [f])]) []

/-- a number of more than one file -/
def sharedVersion (files : List MigrationFile) : Option (ℤ × List MigrationFile) :=
  (filesByVersion files).find? fun entry => 1 < entry.2.length

def fileByVersion (files : List MigrationFile) (version : ℤ) : Option MigrationFile :=
  ((filesByVersion files).lookup version).bind (·.head?)

inductive MigrateError where
  | invalidDim
  /-- `share version ... -- one of them will never run` -/
  | sharedVersion (version : ℤ) (files : List String)
  | badName (file : String)
  /-- `a half-migrated or corrupted datadir` -/
  | failedToApply (file : String) (version : ℤ) (cause : SqlError)
  /-- `A migration was renumbered or replaced after being applied.` -/
  | replaced (version : ℤ) (was : SqlCell) (recorded : SqlCell) (file diskHash : String)
  /-- `SchemaNewerThanDaemonError` -/
  | schemaNewer (dbSchema daemonSchema : ℤ)
  /-- `Schema-version constant drift` -/
  | constantDrift (daemonSchema dbSchema : ℤ)
  | sql (e : SqlError)
deriving DecidableEq, Repr

/-! ## The apply loop -/

section
variable (exec : JsString → Database → Except SqlError Database) (hash : JsString → String)

/-- `rawSql.split(EMBED_DIM_PLACEHOLDER).join(String(dim))` -/
def withDim (dim : ℕ) (sql : JsString) : JsString :=
  (JsString.ofString (toString dim)).intercalate (cuts (JsString.ofString "__EMBED_DIM__") sql)

/-- a file in its transaction -/
def applyFile (dim : ℕ) (now : Store.Time) (f : MigrationFile) (version : ℤ) (db : Database) :
    Except SqlError Database :=
  match exec (withDim dim f.sql) db with
  | .error e => .error e
  | .ok db => db.recordVersion version now

def applyPending (dim : ℕ) (now : Store.Time) (applied : List ℤ) :
    List MigrationFile → Database → Option MigrateError × Database
  | [], db => (none, db)
  | f :: files, db =>
    match f.version with
    | none => (some (.badName f.name), db)
    | some version =>
      if version ∈ applied then applyPending dim now applied files db
      else
        match applyFile exec dim now f version db with
        | .error e => (some (.failedToApply f.name version e), db)
        | .ok db => applyPending dim now applied files db

/-! ## The hashes -/

structure VersionRow where
  version : ℤ
  filename : SqlCell
  contentHash : SqlCell
deriving DecidableEq, Repr

/-- `SELECT version, filename, content_hash FROM schema_version ORDER BY version` -/
def Database.selectVersionRows (db : Database) : Except SqlError (List VersionRow) :=
  (db.select "schema_version" ["version", "filename", "content_hash"]).map fun t =>
    (t.rows.filterMap fun row => (rowVersion row).map fun version =>
      ⟨version, (row.lookup "filename").getD .null, (row.lookup "content_hash").getD .null⟩).insertionSort
        fun a b => a.version ≤ b.version

def migrationFileHash (raw : JsString) : String := hash (JsString.unixEndings raw)

/-- what the check of a row does: the file and hash it fills in, if any -/
def verifyRow (files : List MigrationFile) (row : VersionRow) : Except MigrateError (Option (MigrationFile × String)) :=
  match fileByVersion files row.version with
  | none => .ok none
  | some file =>
    let diskHash := migrationFileHash hash file.sql
    if row.contentHash = .null then .ok (some (file, diskHash))
    else if row.contentHash = .text diskHash then .ok none
    else if row.contentHash = .text (hash file.sql) then .ok none
    else .error (.replaced row.version row.filename row.contentHash file.name diskHash)

/-- `UPDATE schema_version SET filename = ?, content_hash = ? WHERE version = ?` -/
def Database.backfill (db : Database) (version : ℤ) (file diskHash : String) : Database :=
  db.updateTable "schema_version" (·.backfill version file diskHash)

def verifyAndBackfill (files : List MigrationFile) (rows : List VersionRow) (db : Database) :
    Except MigrateError Database :=
  rows.foldlM (fun db row =>
    match verifyRow hash files row with
    | .error e => .error e
    | .ok none => .ok db
    | .ok (some (file, diskHash)) => .ok (db.backfill row.version file.name diskHash)) db

/-! ## The missing columns -/

/-- `/ALTER TABLE\s+(\w+)\s+ADD COLUMN\s+(\w+)\s+[^;]+;/gi` -/
def addColumnRe : RegExp :=
  (Re.lit "ALTER TABLE" ++ Re.plus Re.space ++ Re.group 1 (Re.plus (Re.cls Re.isWordUnit)) ++ Re.plus Re.space ++
    Re.lit "ADD COLUMN" ++ Re.plus Re.space ++ Re.group 2 (Re.plus (Re.cls Re.isWordUnit)) ++ Re.plus Re.space ++
    Re.plus (Re.notCls (· = 0x3b)) ++ Re.lit ";").compile true

structure AddColumnStatement where
  migrationFile : String
  table : String
  column : String
  statement : JsString
deriving DecidableEq, Repr

/-- a group of word characters -/
def groupText (text : JsString) (group : Option (ℕ × ℕ)) : Option String :=
  group.map fun range => String.ofList ((text.slice range.1 range.2).map Char.ofNat)

def extractAddColumnStatements (f : MigrationFile) : List AddColumnStatement :=
  (addColumnRe.allMatches f.sql).filterMap fun m =>
    match groupText f.sql (m.groups 1), groupText f.sql (m.groups 2) with
    | some table, some column => some ⟨f.name, table, column, JsString.trim (f.sql.slice m.start m.stop)⟩
    | _, _ => none

def Release.addColumnStatements (R : Release) : List AddColumnStatement := R.files.flatMap extractAddColumnStatements

structure Healing where
  db : Database
  columnsByTable : List (String × List String) := []
  actions : List AddColumnStatement := []

def selfHealMissingColumns : List AddColumnStatement → Healing → Option SqlError × Healing
  | [], s => (none, s)
  | stmt :: statements, s =>
    match s.db.table stmt.table with
    | none => selfHealMissingColumns statements s
    | some t =>
      let known := (s.columnsByTable.lookup stmt.table).getD (t.columns.map (·.name))
      if stmt.column ∈ known then
        selfHealMissingColumns statements { s with columnsByTable := (stmt.table, known) :: s.columnsByTable }
      else
        match exec stmt.statement s.db with
        | .error e => (some e, s)
        | .ok db =>
          selfHealMissingColumns statements
            { db
              columnsByTable := (stmt.table, known ++ [stmt.column]) :: s.columnsByTable
              actions := s.actions ++ [stmt] }

def recordSelfHealActions (actions : List AddColumnStatement) (now : Store.Time) (db : Database) :
    Except SqlError Database :=
  actions.foldlM (fun db action => db.insertInto "migration_self_heal_log"
    [("migration_file", .text action.migrationFile), ("table", .text action.table),
     ("column_name", .text action.column), ("healed_at", .integer now)]) db

/-! ## The boot -/

def checkVersion (R : Release) (db : Database) : Except MigrateError Unit × Database :=
  match db.selectVersions with
  | .error e => (.error (.sql e), db)
  | .ok _ =>
    if R.schemaVersion < db.maxVersion then (.error (.schemaNewer db.maxVersion R.schemaVersion), db)
    else if db.maxVersion < R.schemaVersion then (.error (.constantDrift R.schemaVersion db.maxVersion), db)
    else (.ok (), db)

def healAndCheck (R : Release) (now : Store.Time) (db : Database) : Except MigrateError Unit × Database :=
  match selfHealMissingColumns exec R.addColumnStatements { db } with
  | (some e, s) => (.error (.sql e), s.db)
  | (none, s) =>
    match recordSelfHealActions s.actions now s.db with
    | .error e => (.error (.sql e), s.db)
    | .ok db => checkVersion R db

def verifyAndHeal (R : Release) (now : Store.Time) (db : Database) : Except MigrateError Unit × Database :=
  match db.selectVersionRows with
  | .error e => (.error (.sql e), db)
  | .ok rows =>
    match verifyAndBackfill hash R.files rows db with
    | .error e => (.error e, db)
    | .ok db => healAndCheck exec R now db

/-- `now` stands for all readings of the clock -/
def migrate (R : Release) (dim : ℕ) (now : Store.Time) (db : Database) : Except MigrateError Unit × Database :=
  if dim = 0 then (.error .invalidDim, db)
  else
    let db := db.createVersionTable
    match db.selectVersions with
    | .error e => (.error (.sql e), db)
    | .ok applied =>
      match sharedVersion R.files with
      | some entry => (.error (.sharedVersion entry.1 (entry.2.map (·.name))), db)
      | none =>
        match applyPending exec dim now applied R.files db with
        | (some e, db) => (.error e, db)
        | (none, db) => verifyAndHeal exec hash R now db

end

end AstramemLocal.Storage
