/-
A boot on a database of a newer release (`src/storage/migrate.ts`). The version check comes last: before it, missing
migrations are applied, missing hashes filled in and missing columns added. `Grows` is what these steps do to a database:
no version is lost, and every write makes it heavier.
- `newer_refused_iff`: the boot says that the database is newer and leaves it as it is exactly when every file of the
  release is recorded under its hash and no column of one is missing (`Untouchable`);
- `dropped_column_returns`: a column the newer release has dropped is added again.
-/
import AstramemLocal.Core.Runs
import AstramemLocal.Storage.MigrationGuard
import Mathlib.Algebra.Order.BigOperators.Group.List
import Mathlib.Algebra.Order.Ring.Nat

namespace AstramemLocal.Storage

open AstramemLocal.Core

/-! ## Growing databases -/

def hasHash (row : SqlRow) : Bool := (row.lookup "content_hash").getD .null ≠ .null

def SqlTable.weight (t : SqlTable) : ℕ := t.columns.length + t.rows.length + t.rows.countP hasHash

def Database.weight (db : Database) : ℕ := (db.tables.map (·.weight)).sum

structure SqlTable.Grows (t t' : SqlTable) : Prop where
  name : t'.name = t.name
  columns : ∀ c, t.hasColumn c = true → t'.hasColumn c = true
  versions : t.versions ⊆ t'.versions
  weight : t.weight ≤ t'.weight

structure Grows (db db' : Database) : Prop where
  recorded : db.recorded ⊆ db'.recorded
  weight : db.weight ≤ db'.weight

variable {db db' : Database} {t : SqlTable}

theorem Grows.refl (db : Database) : Grows db db := ⟨List.Subset.refl _, le_rfl⟩

theorem Grows.trans {db'' : Database} (h : Grows db db') (h' : Grows db' db'') : Grows db db'' :=
  ⟨List.Subset.trans h.recorded h'.recorded, h.weight.trans h'.weight⟩

theorem mem_recorded {v : ℤ} : v ∈ db.recorded ↔
    ∃ t, db.table "schema_version" = some t ∧ t.hasColumn "version" = true ∧ v ∈ t.versions := by
  unfold Database.recorded Database.selectVersions Database.select
  cases ht : db.table "schema_version" with
  | none => simp [Except.map]
  | some t =>
    cases hcolumn : t.hasColumn "version" with
    | true => simp [Except.map, hcolumn]
    | false => simp [Except.map, hcolumn]

theorem table_updateTable {f : SqlTable → SqlTable} (hf : ∀ t, (f t).name = t.name) (name other : String) :
    (db.updateTable name f).table other = (db.table other).map fun t => if t.name = name then f t else t :=
  lookup_updateWhere hf

theorem updateTable_grows {f : SqlTable → SqlTable} (name : String) (hf : ∀ t, SqlTable.Grows t (f t)) :
    Grows db (db.updateTable name f) := by
  refine ⟨?_, ?_⟩
  · intro v hv
    obtain ⟨t, ht, hcolumn, hversion⟩ := mem_recorded.1 hv
    refine mem_recorded.2 ⟨if t.name = name then f t else t, ?_, ?_, ?_⟩
    · rw [table_updateTable fun t => (hf t).name, ht, Option.map_some]
    · split
      · exact (hf t).columns _ hcolumn
      · exact hcolumn
    · split
      · exact (hf t).versions hversion
      · exact hversion
  · unfold Database.weight Database.updateTable updateWhere
    rw [List.map_map]
    apply List.sum_le_sum
    intro t _
    rw [Function.comp_apply]
    split
    · exact (hf t).weight
    · exact le_rfl

/-- a write to a table that is there is a proper one -/
theorem updateTable_heavier {f : SqlTable → SqlTable} {name : String} (hf : ∀ t, SqlTable.Grows t (f t))
    (ht : db.table name = some t) (hlt : t.weight < (f t).weight) : db.weight < (db.updateTable name f).weight := by
  obtain ⟨hmem, hname⟩ := lookup_mem ht
  unfold Database.weight Database.updateTable updateWhere
  rw [List.map_map]
  apply List.sum_lt_sum
  · intro u _
    rw [Function.comp_apply]
    split
    · exact (hf u).weight
    · exact le_rfl
  · refine ⟨t, hmem, ?_⟩
    rw [Function.comp_apply, if_pos hname]
    exact hlt

/-! ## The three writes -/

theorem versions_subset {rows : List SqlRow} {f : SqlRow → SqlRow} (hf : ∀ row v, rowVersion row = some v → rowVersion (f row) = some v) :
    rows.filterMap rowVersion ⊆ (rows.map f).filterMap rowVersion := by
  intro v hv
  obtain ⟨row, hrow, hversion⟩ := List.mem_filterMap.1 hv
  exact List.mem_filterMap.2 ⟨f row, List.mem_map_of_mem hrow, hf row v hversion⟩

theorem countP_map_le {rows : List SqlRow} {f : SqlRow → SqlRow} (hf : ∀ row, hasHash row = true → hasHash (f row) = true) :
    rows.countP hasHash ≤ (rows.map f).countP hasHash := by
  rw [List.countP_map]
  exact List.countP_mono_left fun row _ => hf row

theorem countP_map_lt {rows : List SqlRow} {f : SqlRow → SqlRow} (hf : ∀ row, hasHash row = true → hasHash (f row) = true)
    (hmore : ∃ row ∈ rows, hasHash row = false ∧ hasHash (f row) = true) :
    rows.countP hasHash < (rows.map f).countP hasHash := by
  obtain ⟨row, hrow, hno, hyes⟩ := hmore
  obtain ⟨before, after, rfl⟩ := List.append_of_mem hrow
  have hbefore : before.countP hasHash ≤ (before.map f).countP hasHash := countP_map_le hf
  have hafter : after.countP hasHash ≤ (after.map f).countP hasHash := countP_map_le hf
  rw [List.map_append, List.map_cons, List.countP_append, List.countP_append,
    List.countP_cons_of_neg (by simp [hno]), List.countP_cons_of_pos hyes]
  omega

theorem insertRow_grows (cells : SqlRow) (t : SqlTable) : SqlTable.Grows t (t.insertRow cells) := by
  refine ⟨rfl, fun c h => h, ?_, ?_⟩
  · intro v hv
    unfold SqlTable.versions SqlTable.insertRow
    rw [List.filterMap_append]
    exact List.mem_append_left _ hv
  · simp only [SqlTable.weight, SqlTable.insertRow, List.length_append, List.countP_append]
    omega

theorem lookup_append_some {row more : SqlRow} {c : String} {cell : SqlCell} (h : row.lookup c = some cell) :
    (row ++ more).lookup c = some cell := by
  rw [List.lookup_append, h, Option.some_or]

theorem addedCell_hasHash (column : SqlColumn) (row : SqlRow) (h : hasHash row = true) :
    hasHash (row ++ [(column.name, column.fallback)]) = true := by
  unfold hasHash at *
  cases hcell : row.lookup "content_hash" with
  | none => simp [hcell] at h
  | some cell =>
    rw [lookup_append_some hcell]
    rw [hcell] at h
    exact h

theorem addColumn_grows (column : SqlColumn) (t : SqlTable) : SqlTable.Grows t (t.addColumn column) := by
  refine ⟨rfl, ?_, ?_, ?_⟩
  · intro c h
    unfold SqlTable.hasColumn SqlTable.addColumn at *
    rw [List.any_append, h]
    rfl
  · apply versions_subset
    intro row v h
    unfold rowVersion at *
    split at h
    next n heq =>
      rw [lookup_append_some heq]
      exact h
    next => cases h
  · have hcount : t.rows.countP hasHash ≤ (t.addColumn column).rows.countP hasHash := by
      apply countP_map_le
      exact addedCell_hasHash column
    have hrows : (t.addColumn column).rows.length = t.rows.length := List.length_map _
    have hcolumns : (t.addColumn column).columns.length = t.columns.length + 1 := List.length_append
    unfold SqlTable.weight
    omega

theorem lookup_setCell {column other : String} {cell : SqlCell} {row : SqlRow} :
    (setCell column cell row).lookup other =
      (row.lookup other).map fun old => if other = column then cell else old := by
  induction row with
  | nil => rfl
  | cons entry row ih =>
    unfold setCell at ih ⊢
    rw [List.map_cons, List.lookup_cons, List.lookup_cons]
    grind

theorem setCell_hasHash {row : SqlRow} {file diskHash : String} (h : (row.lookup "content_hash").isSome = true) :
    hasHash (setCell "content_hash" (.text diskHash) (setCell "filename" (.text file) row)) = true := by
  obtain ⟨cell, hcell⟩ := Option.isSome_iff_exists.1 h
  unfold hasHash
  rw [lookup_setCell, lookup_setCell, hcell]
  rfl

theorem hasHash_isSome {row : SqlRow} (h : hasHash row = true) : (row.lookup "content_hash").isSome = true := by
  unfold hasHash at h
  cases hcell : row.lookup "content_hash" with
  | none => simp [hcell] at h
  | some cell => rfl

theorem backfillRow_hasHash (version : ℤ) (file diskHash : String) (row : SqlRow) (h : hasHash row = true) :
    hasHash (if rowVersion row = some version then
      setCell "content_hash" (.text diskHash) (setCell "filename" (.text file) row) else row) = true := by
  split
  next => exact setCell_hasHash (hasHash_isSome h)
  next => exact h

theorem backfill_grows (version : ℤ) (file diskHash : String) (t : SqlTable) :
    SqlTable.Grows t (t.backfill version file diskHash) := by
  refine ⟨rfl, fun c h => h, ?_, ?_⟩
  · apply versions_subset
    intro row v h
    split
    next =>
      unfold rowVersion at *
      rw [lookup_setCell, lookup_setCell]
      cases hcell : row.lookup "version" with
      | none => simp [hcell] at h
      | some cell =>
        rw [hcell] at h
        exact h
    next => exact h
  · have hcount : t.rows.countP hasHash ≤ (t.backfill version file diskHash).rows.countP hasHash :=
      countP_map_le (backfillRow_hasHash version file diskHash)
    have hrows : (t.backfill version file diskHash).rows.length = t.rows.length := List.length_map _
    have hcolumns : (t.backfill version file diskHash).columns.length = t.columns.length := rfl
    unfold SqlTable.weight
    omega

/-- a row without a hash gets one -/
theorem backfill_heavier {version : ℤ} {file diskHash : String} {row : SqlRow} (hrow : row ∈ t.rows)
    (hcolumn : t.hasColumn "content_hash" = true) (hversion : rowVersion row = some version)
    (hnull : (row.lookup "content_hash").getD .null = .null) :
    t.weight < (t.backfill version file diskHash).weight := by
  have hcell : (row.lookup "content_hash").isSome = true := by
    have hname : "content_hash" ∈ row.map (·.1) := by
      rw [t.aligned row hrow]
      obtain ⟨column, hmem, hname⟩ := List.any_eq_true.1 hcolumn
      exact List.mem_map.2 ⟨column, hmem, of_decide_eq_true hname⟩
    obtain ⟨entry, hentry, hname⟩ := List.mem_map.1 hname
    rw [List.lookup_isSome_iff]
    exact ⟨entry, hentry, by simp [hname]⟩
  have hno : hasHash row = false := by
    unfold hasHash
    rw [hnull]
    rfl
  have hcount : t.rows.countP hasHash < (t.backfill version file diskHash).rows.countP hasHash := by
    apply countP_map_lt (backfillRow_hasHash version file diskHash)
    refine ⟨row, hrow, hno, ?_⟩
    rw [if_pos hversion]
    exact setCell_hasHash hcell
  have hrows : (t.backfill version file diskHash).rows.length = t.rows.length := List.length_map _
  have hcolumns : (t.backfill version file diskHash).columns.length = t.columns.length := rfl
  unfold SqlTable.weight
  omega

/-! ## The steps of a boot -/

variable {exec : JsString → Database → Except SqlError Database} {hash : JsString → String} {R : Release}
  {files : List MigrationFile} {statements : List AddColumnStatement} {now : Store.Time} {dim : ℕ}

theorem select_ok {name : String} {columns : List String} {t : SqlTable} (h : db.select name columns = .ok t) :
    db.table name = some t ∧ ∀ c ∈ columns, t.hasColumn c = true := by
  unfold Database.select at h
  cases ht : db.table name with
  | none =>
    rw [ht] at h
    cases h
  | some found =>
    rw [ht] at h
    dsimp only at h
    split_ifs at h with hcolumns
    cases h
    exact ⟨rfl, List.all_eq_true.1 hcolumns⟩

theorem insertInto_ok {name : String} {cells : SqlRow} (h : db.insertInto name cells = .ok db') :
    db' = db.updateTable name (·.insertRow cells) ∧ ∃ t, db.table name = some t ∧ ∀ c ∈ cells, t.hasColumn c.1 = true := by
  unfold Database.insertInto at h
  cases hselect : db.select name (cells.map (·.1)) with
  | error e =>
    rw [hselect] at h
    cases h
  | ok t =>
    obtain ⟨ht, hcolumns⟩ := select_ok hselect
    rw [hselect] at h
    dsimp only at h
    split_ifs at h
    cases h
    exact ⟨rfl, t, ht, fun c hc => hcolumns _ (List.mem_map_of_mem hc)⟩

theorem insertInto_grows {name : String} {cells : SqlRow} (h : db.insertInto name cells = .ok db') : Grows db db' := by
  rw [(insertInto_ok h).1]
  exact updateTable_grows name (insertRow_grows cells)

theorem lookup_inserted {columns : List SqlColumn} {cells : SqlRow} {c : String} {cell : SqlCell}
    (hcell : cells.lookup c = some cell) (hcolumn : columns.any (·.name = c) = true) :
    (columns.map fun column => (column.name, (cells.lookup column.name).getD column.fallback)).lookup c = some cell := by
  induction columns with
  | nil => cases hcolumn
  | cons column columns ih =>
    rw [List.map_cons, List.lookup_cons]
    by_cases hname : c = column.name
    · simp [← hname, hcell]
    · have hfalse : (c == column.name) = false := by simpa using hname
      rw [hfalse]
      apply ih
      rw [List.any_cons] at hcolumn
      simpa [Ne.symm hname] using hcolumn

theorem recordVersion_ok {version : ℤ} (h : db.recordVersion version now = .ok db') :
    Grows db db' ∧ version ∈ db'.recorded := by
  unfold Database.recordVersion at h
  split_ifs at h
  refine ⟨insertInto_grows h, ?_⟩
  obtain ⟨rfl, t, ht, hcolumns⟩ := insertInto_ok h
  have hcolumn : t.hasColumn "version" = true := hcolumns _ List.mem_cons_self
  refine mem_recorded.2 ⟨t.insertRow [("version", .integer version), ("applied_at", .integer now)], ?_, hcolumn, ?_⟩
  · rw [table_updateTable (fun t => (insertRow_grows _ t).name), ht, Option.map_some, if_pos (lookup_mem ht).2]
  · refine List.mem_filterMap.2 ⟨_, List.mem_append_right _ List.mem_cons_self, ?_⟩
    unfold rowVersion
    rw [lookup_inserted rfl hcolumn]

/-- ALTER TABLE ADD COLUMN throws or adds the column -/
def AddsColumns (exec : JsString → Database → Except SqlError Database) (statements : List AddColumnStatement) : Prop :=
  ∀ stmt ∈ statements, ∀ db db', exec stmt.statement db = .ok db' →
    ∃ column : SqlColumn, column.name = stmt.column ∧ db' = db.addColumn stmt.table column

/-- what `exec` stands for -/
structure SqliteLaws (exec : JsString → Database → Except SqlError Database) (R : Release) (dim : ℕ) : Prop where
  adds : AddsColumns exec R.addColumnStatements
  /-- no migration of the release takes a row from `schema_version` -/
  keeps : ∀ f ∈ R.files, ∀ db db', exec (withDim dim f.sql) db = .ok db' → db.recorded ⊆ db'.recorded

theorem applyPending_quiet {applied : List ℤ} (h : ∀ f ∈ files, ∃ v, f.version = some v ∧ v ∈ applied) :
    applyPending exec dim now applied files db = (none, db) := by
  induction files with
  | nil => rfl
  | cons f files ih =>
    obtain ⟨v, hv, happlied⟩ := h f List.mem_cons_self
    unfold applyPending
    rw [hv]
    dsimp only
    rw [if_pos happlied]
    exact ih fun g hg => h g (List.mem_cons_of_mem _ hg)

/-- behind the loop every file is recorded -/
theorem applyPending_recorded {applied : List ℤ}
    (hkeep : ∀ f ∈ files, ∀ db db', exec (withDim dim f.sql) db = .ok db' → db.recorded ⊆ db'.recorded)
    (h : applyPending exec dim now applied files db = (none, db')) :
    db.recorded ⊆ db'.recorded ∧ ∀ f ∈ files, ∃ v, f.version = some v ∧ (v ∈ applied ∨ v ∈ db'.recorded) := by
  induction files generalizing db with
  | nil =>
    cases h
    exact ⟨List.Subset.refl _, by simp⟩
  | cons f files ih =>
    have hkeepRest : ∀ g ∈ files, ∀ db db', exec (withDim dim g.sql) db = .ok db' → db.recorded ⊆ db'.recorded :=
      fun g hg => hkeep g (List.mem_cons_of_mem _ hg)
    unfold applyPending at h
    cases hv : f.version with
    | none =>
      rw [hv] at h
      cases h
    | some v =>
      rw [hv] at h
      dsimp only at h
      split at h
      next happlied =>
        obtain ⟨hkept, hall⟩ := ih hkeepRest h
        exact ⟨hkept, List.forall_mem_cons.2 ⟨⟨v, hv, .inl happlied⟩, hall⟩⟩
      next =>
        split at h
        next => cases h
        next after hfile =>
          obtain ⟨hkept, hall⟩ := ih hkeepRest h
          unfold applyFile at hfile
          split at hfile
          next => cases hfile
          next executed hexec =>
            obtain ⟨hgrows, hrecorded⟩ := recordVersion_ok hfile
            refine ⟨?_, List.forall_mem_cons.2 ⟨⟨v, hv, .inr (hkept hrecorded)⟩, hall⟩⟩
            intro w hw
            exact hkept (hgrows.recorded (hkeep f List.mem_cons_self db executed hexec hw))

theorem verifyRow_fills {row : VersionRow} {filling : MigrationFile × String}
    (h : verifyRow hash files row = .ok (some filling)) : row.contentHash = .null := by
  unfold verifyRow at h
  split at h
  · cases h
  · by_contra hnull
    dsimp only at h
    rw [if_neg hnull] at h
    split_ifs at h <;> cases h

theorem verifyAndBackfill_grows {rows : List VersionRow} (h : verifyAndBackfill hash files rows db = .ok db') :
    Grows db db' := by
  refine foldlM_ok (fun _ after => Grows db after) ?_ (Grows.refl db) h
  intro row _ before after hgrows hstep
  split at hstep
  · cases hstep
  · cases hstep
    exact hgrows
  · cases hstep
    exact hgrows.trans (updateTable_grows _ (backfill_grows _ _ _))

/-- nothing is written exactly when every row passes -/
theorem verifyAndBackfill_still {rows : List VersionRow}
    (hrows : ∀ row ∈ rows, row.contentHash = .null → ∀ file diskHash,
      db.weight < (db.backfill row.version file diskHash).weight)
    (h : verifyAndBackfill hash files rows db = .ok db') (hweight : db'.weight ≤ db.weight) :
    db' = db ∧ ∀ row ∈ rows, verifyRow hash files row = .ok none := by
  unfold verifyAndBackfill at h
  induction rows with
  | nil =>
    cases h
    exact ⟨rfl, by simp⟩
  | cons row rows ih =>
    simp only [List.foldlM_cons] at h
    cases hrow : verifyRow hash files row with
    | error e =>
      rw [hrow] at h
      cases h
    | ok filled =>
      rw [hrow] at h
      cases filled with
      | none =>
        obtain ⟨rfl, hall⟩ := ih (fun r hr => hrows r (List.mem_cons_of_mem _ hr)) h
        exact ⟨rfl, List.forall_mem_cons.2 ⟨hrow, hall⟩⟩
      | some filling =>
        have hheavier := hrows row List.mem_cons_self (verifyRow_fills hrow) filling.1.name filling.2
        have hgrows : Grows (db.backfill row.version filling.1.name filling.2) db' := verifyAndBackfill_grows h
        have := hgrows.weight
        omega

theorem verifyAndBackfill_quiet {rows : List VersionRow} (h : ∀ row ∈ rows, verifyRow hash files row = .ok none) :
    verifyAndBackfill hash files rows db = .ok db := by
  unfold verifyAndBackfill
  induction rows with
  | nil => rfl
  | cons row rows ih =>
    simp only [List.foldlM_cons, h row List.mem_cons_self]
    exact ih fun r hr => h r (List.mem_cons_of_mem _ hr)

/-- the rows that are read are in the table -/
theorem selectVersionRows_mem {rows : List VersionRow} (h : db.selectVersionRows = .ok rows) {row : VersionRow}
    (hrow : row ∈ rows) : ∃ t, db.table "schema_version" = some t ∧ t.hasColumn "content_hash" = true ∧ ∃ r ∈ t.rows,
      rowVersion r = some row.version ∧ (r.lookup "content_hash").getD .null = row.contentHash := by
  unfold Database.selectVersionRows at h
  cases hselect : db.select "schema_version" ["version", "filename", "content_hash"] with
  | error e =>
    rw [hselect] at h
    cases h
  | ok t =>
    obtain ⟨ht, hcolumns⟩ := select_ok hselect
    rw [hselect] at h
    cases h
    obtain ⟨r, hr, hmade⟩ := List.mem_filterMap.1 ((List.mem_insertionSort _).1 hrow)
    obtain ⟨version, hversion, rfl⟩ := Option.map_eq_some_iff.1 hmade
    exact ⟨t, ht, hcolumns _ (by simp), r, hr, hversion, rfl⟩

theorem selectVersionRows_heavier {rows : List VersionRow} (h : db.selectVersionRows = .ok rows) :
    ∀ row ∈ rows, row.contentHash = .null → ∀ file diskHash,
      db.weight < (db.backfill row.version file diskHash).weight := by
  intro row hrow hnull file diskHash
  obtain ⟨t, ht, hcolumn, r, hr, hversion, hhash⟩ := selectVersionRows_mem h hrow
  exact updateTable_heavier (backfill_grows _ _ _) ht (backfill_heavier hr hcolumn hversion (hhash.trans hnull))

/-! ## Missing columns -/

/-- the cache holds what the tables have -/
def CacheOk (s : Healing) : Prop :=
  ∀ name cols t, s.columnsByTable.lookup name = some cols → s.db.table name = some t → cols = t.columns.map (·.name)

/-- no column of a statement is missing -/
def Healed (statements : List AddColumnStatement) (db : Database) : Prop :=
  ∀ stmt ∈ statements, ∀ t, db.table stmt.table = some t → stmt.column ∈ t.columns.map (·.name)

theorem CacheOk.known {s : Healing} (h : CacheOk s) {name : String} {t : SqlTable} (ht : s.db.table name = some t) :
    (s.columnsByTable.lookup name).getD (t.columns.map (·.name)) = t.columns.map (·.name) := by
  cases hcols : s.columnsByTable.lookup name with
  | none => rfl
  | some cols => exact h name cols t hcols ht

theorem CacheOk.cons {s : Healing} (h : CacheOk s) {name : String} {t : SqlTable} (ht : s.db.table name = some t) :
    CacheOk { s with columnsByTable :=
      (name, (s.columnsByTable.lookup name).getD (t.columns.map (·.name))) :: s.columnsByTable } := by
  intro other cols u hlookup hu
  rw [h.known ht, List.lookup_cons] at hlookup
  by_cases hname : other = name
  · subst hname
    have huser : s.db.table other = some u := hu
    rw [beq_self_eq_true] at hlookup
    obtain rfl := Option.some.inj (ht.symm.trans huser)
    exact (Option.some.inj hlookup).symm
  · have hfalse : (other == name) = false := by simpa using hname
    rw [hfalse] at hlookup
    exact h other cols u hlookup hu

theorem addColumn_heavier {column : SqlColumn} {name : String} (ht : db.table name = some t) :
    db.weight < (db.addColumn name column).weight := by
  apply updateTable_heavier (addColumn_grows column) ht
  have hcount : t.rows.countP hasHash ≤ (t.addColumn column).rows.countP hasHash :=
    countP_map_le (addedCell_hasHash column)
  have hrows : (t.addColumn column).rows.length = t.rows.length := List.length_map _
  have hcolumns : (t.addColumn column).columns.length = t.columns.length + 1 := List.length_append
  unfold SqlTable.weight
  omega

theorem selfHeal_grows {s s' : Healing} (hadds : AddsColumns exec statements)
    (h : selfHealMissingColumns exec statements s = (none, s')) : Grows s.db s'.db := by
  induction statements generalizing s with
  | nil =>
    cases h
    exact Grows.refl _
  | cons stmt statements ih =>
    have haddsRest : AddsColumns exec statements := fun u hu => hadds u (List.mem_cons_of_mem _ hu)
    unfold selfHealMissingColumns at h
    split at h
    next => exact ih haddsRest h
    next t ht =>
      dsimp only at h
      split at h
      next =>
        have hrest := ih haddsRest h
        exact hrest
      next =>
        split at h
        next => cases h
        next db hexec =>
          obtain ⟨column, -, hdb⟩ := hadds stmt List.mem_cons_self s.db db hexec
          have hadded : Grows s.db db := by
            rw [hdb]
            exact updateTable_grows _ (addColumn_grows column)
          exact hadded.trans (ih haddsRest h)

/-- nothing is written exactly when no column is missing -/
theorem selfHeal_still {s s' : Healing} (hadds : AddsColumns exec statements) (hcache : CacheOk s)
    (h : selfHealMissingColumns exec statements s = (none, s')) (hweight : s'.db.weight ≤ s.db.weight) :
    Healed statements s.db := by
  induction statements generalizing s with
  | nil =>
    intro stmt hstmt
    cases hstmt
  | cons stmt statements ih =>
    have haddsRest : AddsColumns exec statements := fun u hu => hadds u (List.mem_cons_of_mem _ hu)
    unfold selfHealMissingColumns at h
    split at h
    next hnone =>
      refine List.forall_mem_cons.2 ⟨?_, ih haddsRest hcache h hweight⟩
      intro t ht
      rw [hnone] at ht
      cases ht
    next t ht =>
      dsimp only at h
      split at h
      next hknown =>
        have hrest := ih haddsRest (hcache.cons ht) h hweight
        refine List.forall_mem_cons.2 ⟨?_, hrest⟩
        intro u hu
        obtain rfl := Option.some.inj (ht.symm.trans hu)
        rw [hcache.known ht] at hknown
        exact hknown
      next =>
        split at h
        next => cases h
        next db hexec =>
          obtain ⟨column, -, hdb⟩ := hadds stmt List.mem_cons_self s.db db hexec
          have hheavier : s.db.weight < db.weight := by
            rw [hdb]
            exact addColumn_heavier ht
          have hrest : Grows db s'.db := selfHeal_grows haddsRest h
          have := hrest.weight
          omega

theorem selfHeal_quiet {s : Healing} (hcache : CacheOk s) (h : Healed statements s.db) :
    ∃ s', selfHealMissingColumns exec statements s = (none, s') ∧ s'.db = s.db ∧ s'.actions = s.actions := by
  induction statements generalizing s with
  | nil => exact ⟨s, rfl, rfl, rfl⟩
  | cons stmt statements ih =>
    obtain ⟨hstmt, hrest⟩ := List.forall_mem_cons.1 h
    unfold selfHealMissingColumns
    cases ht : s.db.table stmt.table with
    | none => exact ih hcache hrest
    | some t =>
      dsimp only
      have hcons := hcache.cons ht
      have hknown := hstmt t ht
      rw [← hcache.known ht] at hknown
      rw [if_pos hknown]
      obtain ⟨s', hs', hdb, hactions⟩ := ih hcons hrest
      exact ⟨s', hs', hdb, hactions⟩

theorem recordSelfHealActions_grows {actions : List AddColumnStatement}
    (h : recordSelfHealActions actions now db = .ok db') : Grows db db' := by
  refine foldlM_ok (fun _ after => Grows db after) ?_ (Grows.refl db) h
  intro action _ before after hgrows hstep
  exact hgrows.trans (insertInto_grows hstep)

/-! ## The boot -/

/-- every row of a version that has a file holds a hash of this file -/
def Hashed (hash : JsString → String) (R : Release) (db : Database) : Prop :=
  ∃ rows, db.selectVersionRows = .ok rows ∧ ∀ row ∈ rows, ∀ f, fileByVersion R.files row.version = some f →
    row.contentHash = .text (migrationFileHash hash f.sql) ∨ row.contentHash = .text (hash f.sql)

/-- every file of the release is recorded under its hash, and no column of one is missing -/
structure Untouchable (hash : JsString → String) (R : Release) (dim : ℕ) (db : Database) : Prop where
  dim_pos : dim ≠ 0
  unshared : sharedVersion R.files = none
  applied : ∀ f ∈ R.files, ∃ v, f.version = some v ∧ v ∈ db.recorded
  hashed : Hashed hash R db
  healed : Healed R.addColumnStatements db

theorem verifyRow_passes {row : VersionRow} : verifyRow hash files row = .ok none ↔
    ∀ f, fileByVersion files row.version = some f →
      row.contentHash = .text (migrationFileHash hash f.sql) ∨ row.contentHash = .text (hash f.sql) := by
  unfold verifyRow
  cases hf : fileByVersion files row.version with
  | none => simp
  | some f =>
    simp only [Option.some.injEq, forall_eq']
    split_ifs with hnull hunix hraw <;> simp_all

theorem createVersionTable_recorded (h : db.recorded ≠ []) : db.createVersionTable = db := by
  obtain ⟨v, hv⟩ := List.exists_mem_of_ne_nil _ h
  obtain ⟨t, ht, -⟩ := mem_recorded.1 hv
  unfold Database.createVersionTable
  rw [ht]
  rfl

theorem selectVersions_recorded (h : db.recorded ≠ []) : db.selectVersions = .ok db.recorded := by
  unfold Database.recorded at *
  split at h
  next versions hversions => rw [hversions]
  next => exact absurd rfl h

theorem applyPending_error {applied : List ℤ} {e : MigrateError}
    (h : applyPending exec dim now applied files db = (some e, db')) (a b : ℤ) : e ≠ .schemaNewer a b := by
  induction files generalizing db with
  | nil => cases h
  | cons f files ih =>
    unfold applyPending at h
    split at h
    next =>
      cases h
      simp
    next =>
      split at h
      next => exact ih h
      next =>
        split at h
        next =>
          cases h
          simp
        next => exact ih h

/-- a boot that comes to the version check has only made the database grow -/
theorem healAndCheck_newer {a b : ℤ} (hadds : AddsColumns exec R.addColumnStatements)
    (h : healAndCheck exec R now db = (.error (.schemaNewer a b), db')) :
    Grows db db' ∧ (db'.weight ≤ db.weight → Healed R.addColumnStatements db) := by
  have hcache : CacheOk { db } := by
    intro name cols t hlookup
    cases hlookup
  unfold healAndCheck at h
  split at h
  next => simp at h
  next s hheal =>
    have hhealed : Grows db s.db := selfHeal_grows hadds hheal
    split at h
    next => simp at h
    next after hrecord =>
      have hlogged := recordSelfHealActions_grows hrecord
      have hsame : after = db' := by
        unfold checkVersion at h
        split at h
        next => simp at h
        next => split_ifs at h <;> simp_all
      subst hsame
      refine ⟨hhealed.trans hlogged, ?_⟩
      intro hweight
      exact selfHeal_still hadds hcache hheal (hlogged.weight.trans hweight)

theorem verifyAndHeal_newer {a b : ℤ} (hadds : AddsColumns exec R.addColumnStatements)
    (h : verifyAndHeal exec hash R now db = (.error (.schemaNewer a b), db')) :
    Grows db db' ∧ (db'.weight ≤ db.weight → Hashed hash R db ∧ Healed R.addColumnStatements db) := by
  unfold verifyAndHeal at h
  split at h
  next => simp at h
  next rows hrows =>
    split at h
    next e hguard =>
      have hreplaced := verifyAndBackfill_error hguard
      obtain ⟨rfl, -⟩ : e = .schemaNewer a b ∧ db = db' := by simpa using h
      cases hreplaced
    next filled hguard =>
      have hfilled := verifyAndBackfill_grows hguard
      obtain ⟨hgrows, hstill⟩ := healAndCheck_newer hadds h
      refine ⟨hfilled.trans hgrows, ?_⟩
      intro hweight
      obtain ⟨rfl, hpass⟩ := verifyAndBackfill_still (selectVersionRows_heavier hrows) hguard
        (hgrows.weight.trans hweight)
      exact ⟨⟨rows, hrows, fun row hrow => verifyRow_passes.1 (hpass row hrow)⟩, hstill hweight⟩

/-- **A newer database.** The boot refuses it, and leaves it as it is, just when it is untouchable. -/
theorem newer_refused_iff (exec : JsString → Database → Except SqlError Database) (hash : JsString → String) (R : Release)
    (dim : ℕ) (now : Store.Time) (db : Database) (hlaws : SqliteLaws exec R dim) (hnewer : R.schemaVersion < db.maxVersion) :
    migrate exec hash R dim now db = (.error (.schemaNewer db.maxVersion R.schemaVersion), db) ↔
      Untouchable hash R dim db := by
  have hne : db.recorded ≠ [] := by
    intro h
    have hzero : db.maxVersion = 0 := by simp [Database.maxVersion, h]
    rw [hzero] at hnewer
    exact absurd hnewer (by simp)
  unfold migrate
  dsimp only
  rw [createVersionTable_recorded hne, selectVersions_recorded hne]
  constructor
  · intro h
    split at h
    next => simp at h
    next hdim =>
      cases hshared : sharedVersion R.files with
      | some entry => simp [hshared] at h
      | none =>
        simp only [hshared] at h
        rcases hpending : applyPending exec dim now db.recorded R.files db with ⟨_ | e, before⟩
        · rw [hpending] at h
          obtain ⟨hgrows, hstill⟩ := verifyAndHeal_newer hlaws.adds h
          obtain ⟨-, hall⟩ := applyPending_recorded hlaws.keeps hpending
          have happlied : ∀ f ∈ R.files, ∃ v, f.version = some v ∧ v ∈ db.recorded := by
            intro f hf
            obtain ⟨v, hv, hrecorded⟩ := hall f hf
            exact ⟨v, hv, hrecorded.elim id fun hbefore => hgrows.recorded hbefore⟩
          rw [applyPending_quiet happlied] at hpending
          obtain ⟨-, rfl⟩ := Prod.mk.inj hpending
          obtain ⟨hhashed, hhealed⟩ := hstill le_rfl
          exact ⟨hdim, hshared, happlied, hhashed, hhealed⟩
        · rw [hpending] at h
          exact absurd (Except.error.inj (Prod.mk.inj h).1) (applyPending_error hpending _ _)
  · intro h
    obtain ⟨rows, hrows, hhashed⟩ := h.hashed
    have hcache : CacheOk { db } := by
      intro name cols t hlookup
      cases hlookup
    obtain ⟨s, hheal, hdb, hactions⟩ : ∃ s, selfHealMissingColumns exec R.addColumnStatements { db } = (none, s) ∧
      s.db = db ∧ s.actions = [] := selfHeal_quiet hcache h.healed
    rw [if_neg h.dim_pos, h.unshared]
    dsimp only
    rw [applyPending_quiet h.applied]
    dsimp only
    rw [verifyAndHeal, hrows]
    dsimp only
    rw [verifyAndBackfill_quiet fun row hrow => verifyRow_passes.2 (hhashed row hrow)]
    dsimp only
    rw [healAndCheck, hheal]
    dsimp only
    rw [hactions, hdb]
    have hlogged : recordSelfHealActions [] now db = .ok db := rfl
    rw [hlogged]
    dsimp only
    rw [checkVersion, selectVersions_recorded hne]
    dsimp only
    rw [if_pos hnewer]

/-! ## A dropped column -/

def initSql : JsString := JsString.ofString "CREATE TABLE jobs (id INTEGER);"

def kindSql : JsString := JsString.ofString "ALTER TABLE jobs ADD COLUMN kind TEXT;"

def smallRelease : Release where
  files := [⟨"001-init.sql", initSql⟩, ⟨"002-kind.sql", kindSql⟩]
  schemaVersion := 2
  derived := by decide +kernel

/-- SQLite on the two files -/
def smallExec (sql : JsString) (db : Database) : Except SqlError Database :=
  if sql = kindSql then
    match db.table "jobs" with
    | none => .error (.noSuchTable "jobs")
    | some t =>
      if t.hasColumn "kind" then .error (.other "duplicate column name: kind")
      else .ok (db.addColumn "jobs" { name := "kind" })
  else if sql = initSql then
    match db.table "jobs" with
    | none => .ok { db with tables := db.tables ++ [{ name := "jobs", columns := [{ name := "id" }] }] }
    | some _ => .error (.other "table jobs already exists")
  else .error (.other "near: syntax error")

def textHash (text : JsString) : String := String.ofList (text.map Char.ofNat)

def versionRow (version : ℤ) (file diskHash : String) : SqlRow :=
  [("version", .integer version), ("applied_at", .integer 0), ("filename", .text file), ("content_hash", .text diskHash)]

/-- a third migration has dropped `jobs.kind` -/
def newerDatabase : Database where
  tables := [
    { name := "schema_version"
      columns := [⟨"version", false, .null⟩, ⟨"applied_at", true, .null⟩, ⟨"filename", false, .null⟩,
        ⟨"content_hash", false, .null⟩]
      rows := [versionRow 1 "001-init.sql" (textHash initSql), versionRow 2 "002-kind.sql" (textHash kindSql),
        versionRow 3 "003-drop-kind.sql" "3"] },
    { name := "jobs", columns := [{ name := "id" }] },
    { name := "migration_self_heal_log"
      columns := [{ name := "id" }, ⟨"migration_file", true, .null⟩, ⟨"table", true, .null⟩,
        ⟨"column_name", true, .null⟩, ⟨"healed_at", true, .null⟩] }]

theorem smallLaws : SqliteLaws smallExec smallRelease 1024 := by
  refine ⟨?_, ?_⟩
  · have hstatements : smallRelease.addColumnStatements = [⟨"002-kind.sql", "jobs", "kind", kindSql⟩] := by decide +kernel
    intro stmt hstmt db db' h
    rw [hstatements] at hstmt
    obtain rfl := List.mem_singleton.1 hstmt
    unfold smallExec at h
    rw [if_pos rfl] at h
    split at h
    next => cases h
    next =>
      split_ifs at h
      cases h
      exact ⟨{ name := "kind" }, rfl, rfl⟩
  · have hfiles : ∀ f ∈ smallRelease.files, withDim 1024 f.sql = f.sql := by decide +kernel
    intro f hf db db' h
    rw [hfiles f hf] at h
    unfold smallExec at h
    split_ifs at h
    · split at h
      next => cases h
      next =>
        split_ifs at h
        cases h
        exact (updateTable_grows _ (addColumn_grows _)).recorded
    · split at h
      next =>
        cases h
        intro v hv
        obtain ⟨t, ht, hcolumn, hversion⟩ := mem_recorded.1 hv
        refine mem_recorded.2 ⟨t, ?_, hcolumn, hversion⟩
        unfold Database.table at ht ⊢
        rw [lookup_insert, ht, Option.some_or]
      next => cases h

theorem newer_refused_small :
    migrate smallExec textHash smallRelease 1024 0 newerDatabase =
      (.error (.schemaNewer newerDatabase.maxVersion smallRelease.schemaVersion), newerDatabase) ↔
        Untouchable textHash smallRelease 1024 newerDatabase :=
  newer_refused_iff smallExec textHash smallRelease 1024 0 newerDatabase smallLaws (by decide +kernel)

/-- **A dropped column returns.** The boot refuses the newer database, but it has added the column again. -/
theorem dropped_column_returns : smallRelease.schemaVersion < newerDatabase.maxVersion ∧
    (migrate smallExec textHash smallRelease 1024 0 newerDatabase).1 = .error (.schemaNewer 3 2) ∧
    (migrate smallExec textHash smallRelease 1024 0 newerDatabase).2 ≠ newerDatabase := by
  have hdropped : (newerDatabase.table "jobs").any (·.hasColumn "kind") = false := by decide +kernel
  have hback : ((migrate smallExec textHash smallRelease 1024 0 newerDatabase).2.table "jobs").any (·.hasColumn "kind") =
      true := by decide +kernel
  refine ⟨by decide +kernel, rfl, ?_⟩
  intro hsame
  rw [hsame, hdropped] at hback
  cases hback

end AstramemLocal.Storage
