/-
`src/tag-hygiene/repo-identity-backfill.ts`: the re-stamp of the rows whose repo or project has the name of a worktree.
`runRepoIdentityBackfill_follows`: a run does what `identityRules` say. `queued_foldl`, `not_stale_of_restamped`: it stamps
a session only when the session has not yet the name that its directory resolves to, and gives it that name.
-/
import AstramemLocal.Core.ObjectMap
import AstramemLocal.Core.Regex
import AstramemLocal.TagHygiene.DeriveRepo
import AstramemLocal.TagHygiene.LimitedRuns

namespace AstramemLocal.TagHygiene

open AstramemLocal.Store AstramemLocal.Core

/-! ## Options and results -/

inductive RepoIdentityBackfillColumn where
  | repo | project
deriving DecidableEq, Repr

namespace RepoIdentityBackfillColumn

def ofMemory : RepoIdentityBackfillColumn → Memory → Option String
  | .repo, m => m.repo
  | .project, m => m.project

def setMemory (value : String) : RepoIdentityBackfillColumn → Memory → Memory
  | .repo, m => { m with repo := some value }
  | .project, m => { m with project := some value }

def ofSession : RepoIdentityBackfillColumn → SessionRow → Option String
  | .repo, s => s.repo
  | .project, s => s.project

def setSession (value : String) : RepoIdentityBackfillColumn → SessionRow → SessionRow
  | .repo, s => { s with repo := some value }
  | .project, s => { s with project := some value }

end RepoIdentityBackfillColumn

section
open Re

def hexDigit (u : ℕ) : Bool := digit u || (0x61 ≤ u && u ≤ 0x66)

def lowerAlnum (u : ℕ) : Bool := lower u || digit u

def DEFAULT_BAD_REPO_PATTERN : RegExp :=
  compile true (.atStart ++ (
    (lit "agent-" ++ atLeast 6 (cls hexDigit)) |||
    (lit "wt-" ++ cls lowerAlnum ++ star (cls fun u => lowerAlnum u || u = 0x2d)) |||
    (lit "worktree-" ++ cls lowerAlnum ++ star (cls fun u => lowerAlnum u || u = 0x2d)) |||
    (plus (cls lower) ++ between 2 3 (lit "-" ++ plus (cls lower)))) ++ .atEnd)

end

/-- the options beside `dryRun` and `limit` -/
structure RepoIdentityBackfillOptions where
  /-- `pattern.test`, of a pattern without the flags `g` and `y` -/
  pattern : Option (String → Bool) := none
  column : RepoIdentityBackfillColumn := .repo
  includeSessions : Bool := false

/-- `opts.pattern ?? DEFAULT_BAD_REPO_PATTERN` -/
def RepoIdentityBackfillOptions.matchesPattern (opts : RepoIdentityBackfillOptions) : String → Bool :=
  opts.pattern.getD fun value => DEFAULT_BAD_REPO_PATTERN.test (JsString.ofString value)

inductive RepoIdentityBackfillReason where
  | noSession | noCwd | unresolved
deriving DecidableEq, Repr

structure RepoIdentityBackfillCandidate where
  memoryId : AtomId
  sessionId : Option SessionId
  currentValue : String
  cwdBasename : Option String
  resolvedValue : Option String
  source : Option RepoIdentityBackfillSource
  joiningExistingCount : ℕ
  applied : Bool
  reason : Option RepoIdentityBackfillReason := none
deriving DecidableEq, Repr

structure RepoIdentityBackfillResult where
  column : RepoIdentityBackfillColumn
  scanned : ℕ
  applied : ℕ
  unresolved : ℕ
  dryRun : Bool
  candidates : List RepoIdentityBackfillCandidate
  sessionsRestamped : ℕ
deriving DecidableEq, Repr

/-! ## The run -/

/-- SQLite's `TRIM`, which takes spaces only -/
def sqlTrim (s : String) : List Char := (s.toList.dropWhile (· = ' ')).rdropWhile (· = ' ')

/-- the variables of the loop, and the UPDATEs so far -/
structure Scan where
  db : TagDb
  updates : List (AtomId × String) := []
  candidates : List RepoIdentityBackfillCandidate := []
  scanned : ℕ := 0
  applied : ℕ := 0
  unresolved : ℕ := 0
  sessionsToRestamp : OwnMap SessionId String := []

section
variable (G : GitAnswers) (now : ℕ → Time) (opts : RepoIdentityBackfillOptions) (dryRun : Bool)

def Scan.leave (scan : Scan) (candidate : RepoIdentityBackfillCandidate) : Scan :=
  { scan with candidates := scan.candidates ++ [candidate], scanned := scan.scanned + 1, unresolved := scan.unresolved + 1 }

theorem setMemory_id (column : RepoIdentityBackfillColumn) (value : String) (m : Memory) :
    (column.setMemory value m).id = m.id := by
  cases column <;> rfl

/-- a row the resolver disagrees with -/
def Scan.apply (scan : Scan) (row : Memory) (sessionId : SessionId) (session : SessionRow)
    (resolved : ResolvedColumnIdentity) : Scan where
  db := if dryRun then scan.db
    else scan.db.updateMemory now row.id (opts.column.setMemory resolved.value) (setMemory_id opts.column resolved.value)
  updates := if dryRun then scan.updates else scan.updates ++ [(row.id, resolved.value)]
  candidates := scan.candidates ++ [
    { memoryId := row.id
      sessionId := some sessionId
      currentValue := (opts.column.ofMemory row).getD ""
      cwdBasename := redactCwd session.cwd (some resolved.value)
      resolvedValue := some resolved.value
      source := some resolved.source
      joiningExistingCount := scan.db.memories.countP fun m => opts.column.ofMemory m = some resolved.value
      applied := !dryRun }]
  scanned := scan.scanned + 1
  applied := scan.applied + 1
  unresolved := scan.unresolved
  sessionsToRestamp :=
    if opts.includeSessions ∧ opts.column.ofSession session ≠ some resolved.value then
      scan.sessionsToRestamp.set sessionId resolved.value
    else scan.sessionsToRestamp

/-- one row that matches the pattern; `row` is as the SELECT has read it -/
def Scan.visit (scan : Scan) (row : Memory) : Scan :=
  let currentValue := (opts.column.ofMemory row).getD ""
  match row.sessionId with
  | none => scan.leave ⟨row.id, none, currentValue, none, none, none, 0, false, some .noSession⟩
  | some sessionId =>
    match findSession scan.db.sessions sessionId with
    | none => scan.leave ⟨row.id, some sessionId, currentValue, none, none, none, 0, false, some .noCwd⟩
    | some session =>
      match session.cwd.filter (· ≠ "") with
      | none => scan.leave ⟨row.id, some sessionId, currentValue, none, none, none, 0, false, some .noCwd⟩
      | some cwd =>
        match resolveColumnIdentity G cwd with
        | none =>
          scan.leave ⟨row.id, some sessionId, currentValue, redactCwd (some cwd) none, none, none, 0, false,
            some .unresolved⟩
        | some resolved =>
          if resolved.value = currentValue then
            scan.leave ⟨row.id, some sessionId, currentValue, redactCwd (some cwd) (some resolved.value),
              some resolved.value, some resolved.source, 0, false, some .unresolved⟩
          else scan.apply now opts dryRun row sessionId session resolved

/-- `pattern.test(row.value)` -/
def matchesRow (row : Memory) : Bool := opts.matchesPattern ((opts.column.ofMemory row).getD "")

/-- the loop, which ends at the limit -/
def scanRows (limit : Option ℕ) : List Memory → Scan → Scan
  | [], scan => scan
  | row :: rows, scan =>
    if !matchesRow opts row then scanRows limit rows scan
    else if limit.any (· ≤ scan.scanned) then scan
    else scanRows limit rows (scan.visit G now opts dryRun row)

/-- `WHERE column IS NOT NULL AND TRIM(column) != ''` -/
def hasValue (row : Memory) : Bool := (opts.column.ofMemory row).any fun value => sqlTrim value ≠ []

/-- one session of the map -/
def restampSession (sessions : List SessionRow) (entry : SessionId × String) : List SessionRow :=
  updateWhere (·.id = entry.1) (opts.column.setSession entry.2) sessions

def runRepoIdentityBackfill (limit : Option ℕ) (db : TagDb) :
    TagDb × RepoIdentityBackfillResult × List (AtomId × String) × List SessionId :=
  let rows := (byCreation db.memories).filter (hasValue opts)
  let scan := scanRows G now opts dryRun limit rows { db := db }
  let restamped := if opts.includeSessions then scan.sessionsToRestamp else []
  let sessions := if dryRun then scan.db.sessions else restamped.foldl (restampSession opts) scan.db.sessions
  ({ scan.db with sessions := sessions },
    { column := opts.column
      scanned := scan.scanned
      applied := scan.applied
      unresolved := scan.unresolved
      dryRun := dryRun
      candidates := scan.candidates
      sessionsRestamped := restamped.length },
    scan.updates, if dryRun then [] else restamped.map Prod.fst)

/-- a candidate without a reason against it reports its row -/
def reportedRow (c : RepoIdentityBackfillCandidate) : Option (AtomId × String) :=
  if c.reason.isNone then c.resolvedValue.map fun value => (c.memoryId, value) else none

def repoIdentityRun (limit : Option ℕ) (db : TagDb) : Run String :=
  let r := runRepoIdentityBackfill G now opts dryRun limit db
  { db := r.1
    updates := r.2.2.1
    sessionUpdates := r.2.2.2
    applied := r.2.1.applied
    reported := r.2.1.candidates.filterMap reportedRow
    reportedSessions := r.2.1.sessionsRestamped }

end

/-! ## The rules -/

section
variable (G : GitAnswers) (opts : RepoIdentityBackfillOptions)

/-- the name the directory of a session resolves to -/
def sessionIdentity (session : SessionRow) : Option ResolvedColumnIdentity :=
  (session.cwd.filter (· ≠ "")).bind (resolveColumnIdentity G)

/-- the name a row of the session should have -/
def rowIdentity (sessions : List SessionRow) (sessionId : Option SessionId) : Option String :=
  ((sessionId.bind (findSession sessions)).bind (sessionIdentity G)).map (·.value)

/-- what a row is given: the name it should have, where it has another -/
def fixIdentity (sessions : List SessionRow) (m : Memory) : Option String :=
  (rowIdentity G sessions m.sessionId).filter (· ≠ (opts.column.ofMemory m).getD "")

def identityRules : Rules String where
  selects m := hasValue opts m && matchesRow opts m
  fix := fixIdentity G opts
  write value := opts.column.setMemory value
  write_id v m := setMemory_id opts.column v m
  write_createdAt v m := by
    cases opts.column <;> rfl
  fix_write sessions m v h t := by
    have hresolved : rowIdentity G sessions m.sessionId = some v := (Option.filter_eq_some_iff.1 h).1
    have hwritten : fixIdentity G opts sessions { opts.column.setMemory v m with updatedAt := t } =
        (rowIdentity G sessions m.sessionId).filter (· ≠ v) := by
      unfold fixIdentity
      cases opts.column <;> rfl
    rw [hwritten, hresolved]
    simp

end

theorem identity_proposal (G : GitAnswers) (opts : RepoIdentityBackfillOptions) (sessions : List SessionRow) (m : Memory) :
    (identityRules G opts).proposal sessions m = (fixIdentity G opts sessions m).map fun value => (m.id, value) := rfl

/-! ## The loop -/

section
variable {G : GitAnswers} {now : ℕ → Time} {opts : RepoIdentityBackfillOptions} {dryRun : Bool} {scan : Scan} {row : Memory}

/-- a row is left with a reason where there is nothing to give it, and is written where there is -/
theorem visit_cases (G : GitAnswers) (now : ℕ → Time) (opts : RepoIdentityBackfillOptions) (dryRun : Bool) (scan : Scan)
    (row : Memory) :
    (fixIdentity G opts scan.db.sessions row = none ∧
      ∃ c, c.reason.isSome = true ∧ scan.visit G now opts dryRun row = scan.leave c) ∨
    ∃ sessionId session resolved, row.sessionId = some sessionId ∧
      findSession scan.db.sessions sessionId = some session ∧ sessionIdentity G session = some resolved ∧
      fixIdentity G opts scan.db.sessions row = some resolved.value ∧
      scan.visit G now opts dryRun row = scan.apply now opts dryRun row sessionId session resolved := by
  unfold fixIdentity rowIdentity Scan.visit
  cases hid : row.sessionId with
  | none => exact .inl ⟨rfl, _, rfl, rfl⟩
  | some sessionId =>
    rw [Option.bind_some]
    dsimp only
    cases hsession : findSession scan.db.sessions sessionId with
    | none => exact .inl ⟨rfl, _, rfl, rfl⟩
    | some session =>
      rw [Option.bind_some, sessionIdentity]
      dsimp only
      cases hcwd : session.cwd.filter (· ≠ "") with
      | none => exact .inl ⟨rfl, _, rfl, rfl⟩
      | some cwd =>
        rw [Option.bind_some]
        dsimp only
        cases hresolved : resolveColumnIdentity G cwd with
        | none => exact .inl ⟨rfl, _, rfl, rfl⟩
        | some resolved =>
          rw [Option.map_some]
          dsimp only
          by_cases hsame : resolved.value = (opts.column.ofMemory row).getD ""
          · rw [if_pos hsame]
            exact .inl ⟨by simp [hsame], _, rfl, rfl⟩
          · rw [if_neg hsame]
            refine .inr ⟨sessionId, session, resolved, rfl, hsession, ?_, by simp [hsame], rfl⟩
            rw [sessionIdentity, hcwd, Option.bind_some, hresolved]

theorem visit_scanned : (scan.visit G now opts dryRun row).scanned = scan.scanned + 1 := by
  rcases visit_cases G now opts dryRun scan row with
    ⟨-, c, -, heq⟩ | ⟨sessionId, session, resolved, -, -, -, -, heq⟩
  · rw [heq]
    rfl
  · rw [heq]
    rfl

/-- the loop visits the first rows that match, as many as the limit leaves -/
theorem scanRows_eq (limit : Option ℕ) (rows : List Memory) (scan : Scan) :
    scanRows G now opts dryRun limit rows scan =
      (takeLimit (limit.map (· - scan.scanned)) (rows.filter (matchesRow opts))).foldl
        (fun scan row => scan.visit G now opts dryRun row) scan := by
  induction rows generalizing scan with
  | nil =>
    cases limit with
    | none => rfl
    | some n => simp [scanRows, takeLimit]
  | cons row rows ih =>
    rw [scanRows]
    by_cases hmatch : matchesRow opts row = true
    · rw [List.filter_cons_of_pos hmatch, hmatch]
      cases limit with
      | none =>
        rw [if_neg (by decide), if_neg (by simp), ih]
        rfl
      | some n =>
        rw [if_neg (by decide)]
        by_cases hfull : n ≤ scan.scanned
        · have hzero : n - scan.scanned = 0 := by omega
          rw [if_pos (by simpa using hfull), Option.map_some, hzero]
          rfl
        · obtain ⟨k, hk⟩ : ∃ k, n - scan.scanned = k + 1 := ⟨n - scan.scanned - 1, by omega⟩
          have hnext : n - (scan.scanned + 1) = k := by omega
          rw [if_neg (by simpa using hfull), ih, visit_scanned, Option.map_some, Option.map_some, hk, hnext]
          rfl
    · rw [List.filter_cons_of_neg hmatch, if_pos (by simpa using hmatch), ih]

/-- one row's part in the map of sessions -/
def queueSession (G : GitAnswers) (opts : RepoIdentityBackfillOptions) (sessions : List SessionRow)
    (queue : OwnMap SessionId String) (row : Memory) : OwnMap SessionId String :=
  match row.sessionId, fixIdentity G opts sessions row with
  | some sessionId, some value =>
    if opts.includeSessions ∧ (findSession sessions sessionId).bind opts.column.ofSession ≠ some value then
      queue.set sessionId value
    else queue
  | _, _ => queue

/-- what the loop has done behind some rows -/
structure Scanned (G : GitAnswers) (now : ℕ → Time) (opts : RepoIdentityBackfillOptions) (dryRun : Bool) (start : TagDb)
    (rows : List Memory) (scan : Scan) : Prop where
  scans : (identityRules G opts).Scans now dryRun start rows scan.db scan.updates (scan.candidates.filterMap reportedRow)
    scan.applied
  queue : scan.sessionsToRestamp = rows.foldl (queueSession G opts start.sessions) []

theorem Scanned.visit {start : TagDb} {rows : List Memory} (h : Scanned G now opts dryRun start rows scan) (row : Memory) :
    Scanned G now opts dryRun start (rows ++ [row]) (scan.visit G now opts dryRun row) := by
  have hsessions := h.scans.sessions
  rcases visit_cases G now opts dryRun scan row with
    ⟨hfix, c, hreason, heq⟩ | ⟨sessionId, session, resolved, hid, hsession, -, hfix, heq⟩
  · rw [hsessions] at hfix
    have hqueue : queueSession G opts start.sessions (rows.foldl (queueSession G opts start.sessions) []) row =
        rows.foldl (queueSession G opts start.sessions) [] := by
      unfold queueSession
      rw [hfix]
      cases row.sessionId <;> rfl
    have hnone : reportedRow c = none := if_neg (by simpa using Option.isSome_iff_ne_none.1 hreason)
    have hreported : (scan.leave c).candidates.filterMap reportedRow = scan.candidates.filterMap reportedRow := by
      rw [Scan.leave, List.filterMap_append, List.filterMap_cons_none hnone, List.filterMap_nil, List.append_nil]
    rw [heq]
    refine ⟨?_, ?_⟩
    · rw [hreported]
      exact h.scans.skip hfix
    · rw [List.foldl_concat, hqueue]
      exact h.queue
  · rw [hsessions] at hfix hsession
    have hreported : (scan.apply now opts dryRun row sessionId session resolved).candidates.filterMap reportedRow =
        scan.candidates.filterMap reportedRow ++ [(row.id, resolved.value)] := by
      rw [Scan.apply, List.filterMap_append]
      rfl
    rw [heq]
    refine ⟨?_, ?_⟩
    · rw [hreported]
      exact h.scans.write hfix
    · rw [List.foldl_concat, ← h.queue, queueSession, hid, hfix]
      dsimp only
      rw [hsession]
      rfl

theorem scanned_foldl (start : TagDb) (rows : List Memory) : Scanned G now opts dryRun start rows
    (rows.foldl (fun scan row => scan.visit G now opts dryRun row) { db := start }) := by
  induction rows using List.reverseRecOn with
  | nil => exact ⟨.nil, rfl⟩
  | append_singleton rows row ih =>
    rw [List.foldl_concat]
    exact ih.visit row

/-- the rows of the query that match are those the rules select -/
theorem scanned_run (G : GitAnswers) (now : ℕ → Time) (opts : RepoIdentityBackfillOptions) (dryRun : Bool) (limit : Option ℕ)
    (db : TagDb) :
    Scanned G now opts dryRun db ((identityRules G opts).scannedRows db limit)
      (scanRows G now opts dryRun limit ((byCreation db.memories).filter (hasValue opts)) { db := db }) := by
  have hrows : ((byCreation db.memories).filter (hasValue opts)).filter (matchesRow opts) =
      (byCreation db.memories).filter (identityRules G opts).selects := by
    rw [List.filter_filter]
    congr 1
    funext row
    exact Bool.and_comm _ _
  have hlimit : limit.map (· - 0) = limit := by simp
  rw [scanRows_eq, hrows]
  dsimp only
  rw [hlimit]
  exact scanned_foldl db _

/-! ## Sessions -/

theorem sessionIdentity_setSession (value : String) (session : SessionRow) :
    sessionIdentity G (opts.column.setSession value session) = sessionIdentity G session := by
  cases opts.column <;> rfl

theorem setSession_id (value : String) (session : SessionRow) : (opts.column.setSession value session).id = session.id := by
  cases opts.column <;> rfl

theorem find_restampSession (sessions : List SessionRow) (entry : SessionId × String) (id : SessionId) :
    findSession (restampSession opts sessions entry) id =
      (findSession sessions id).map fun s => if s.id = entry.1 then opts.column.setSession entry.2 s else s :=
  lookup_updateWhere (setSession_id entry.2)

/-- a stamp leaves the names the directories resolve to alone -/
theorem rowIdentity_restamp (sessions : List SessionRow) (queue : OwnMap SessionId String) (id : Option SessionId) :
    rowIdentity G (queue.foldl (restampSession opts) sessions) id = rowIdentity G sessions id := by
  induction queue generalizing sessions with
  | nil => rfl
  | cons entry queue ih =>
    rw [List.foldl_cons, ih]
    unfold rowIdentity
    cases id with
    | none => rfl
    | some id =>
      rw [Option.bind_some, Option.bind_some, find_restampSession]
      cases findSession sessions id with
      | none => rfl
      | some s =>
        rw [Option.map_some, Option.bind_some, Option.bind_some]
        split
        · rw [sessionIdentity_setSession]
        · rfl

/-- a session that has not the name its directory resolves to -/
def StaleSession (G : GitAnswers) (opts : RepoIdentityBackfillOptions) (sessions : List SessionRow) (id : SessionId) :
    Prop :=
  ∃ s r, findSession sessions id = some s ∧ sessionIdentity G s = some r ∧ opts.column.ofSession s ≠ some r.value

/-- what the map of sessions holds: sessions that are stale, with the names their directories resolve to -/
structure Queued (G : GitAnswers) (opts : RepoIdentityBackfillOptions) (sessions : List SessionRow)
    (queue : OwnMap SessionId String) : Prop where
  keyed : Keyed Prod.fst queue
  stale : ∀ e ∈ queue, ∃ s r, findSession sessions e.1 = some s ∧ sessionIdentity G s = some r ∧ r.value = e.2 ∧
    opts.column.ofSession s ≠ some e.2

variable {sessions : List SessionRow} {queue : OwnMap SessionId String}

theorem Queued.visitRow (h : Queued G opts sessions queue) (row : Memory) :
    Queued G opts sessions (queueSession G opts sessions queue row) := by
  unfold queueSession
  split
  next sessionId value hid hfix =>
    split
    next hstale =>
      refine ⟨OwnMap.keyed_set h.keyed, ?_⟩
      intro e he
      rcases OwnMap.mem_set_cases he with rfl | he
      · have hidentity : rowIdentity G sessions row.sessionId = some value := (Option.filter_eq_some_iff.1 hfix).1
        rw [hid] at hidentity
        obtain ⟨r, hr, rfl⟩ := Option.map_eq_some_iff.1 hidentity
        rw [Option.bind_some] at hr
        obtain ⟨s, hs, hr⟩ := Option.bind_eq_some_iff.1 hr
        refine ⟨s, r, hs, hr, rfl, ?_⟩
        rw [hs] at hstale
        exact hstale.2
      · exact h.stale e he
    next => exact h
  next => exact h

theorem queued_foldl (rows : List Memory) : Queued G opts sessions (rows.foldl (queueSession G opts sessions) []) := by
  induction rows using List.reverseRecOn with
  | nil => exact ⟨List.nodup_nil, fun e he => by cases he⟩
  | append_singleton rows row ih =>
    rw [List.foldl_concat]
    exact ih.visitRow row

theorem find_restampAll_other {id : SessionId} (h : id ∉ queue.map Prod.fst) :
    findSession (queue.foldl (restampSession opts) sessions) id = findSession sessions id := by
  induction queue generalizing sessions with
  | nil => rfl
  | cons entry queue ih =>
    rw [List.map_cons, List.mem_cons, not_or] at h
    rw [List.foldl_cons, ih h.2, find_restampSession]
    cases hfound : findSession sessions id with
    | none => rfl
    | some s =>
      have hid : s.id = id := (lookup_mem hfound).2
      rw [Option.map_some, if_neg (by rw [hid]; exact h.1)]

theorem find_restampAll {id : SessionId} {value : String} {s : SessionRow} (hkeyed : Keyed Prod.fst queue)
    (h : (id, value) ∈ queue) (hs : findSession sessions id = some s) :
    findSession (queue.foldl (restampSession opts) sessions) id = some (opts.column.setSession value s) := by
  induction queue generalizing sessions with
  | nil => cases h
  | cons entry queue ih =>
    obtain ⟨hnew, hrest⟩ := List.nodup_cons.1 hkeyed
    have hid : s.id = id := (lookup_mem hs).2
    rw [List.foldl_cons]
    rcases List.mem_cons.1 h with rfl | h
    · rw [find_restampAll_other hnew, find_restampSession, hs, Option.map_some, if_pos hid]
    · have hother : id ≠ entry.1 := fun heq => hnew (List.mem_map.2 ⟨(id, value), h, heq⟩)
      apply ih hrest h
      rw [find_restampSession, hs, Option.map_some, if_neg (by rw [hid]; exact hother)]

/-- a session is in the map because of one of its rows -/
theorem mem_queued {rows : List Memory} {id : SessionId}
    (h : id ∈ (rows.foldl (queueSession G opts sessions) []).map Prod.fst) :
    ∃ row ∈ rows, row.sessionId = some id ∧ (fixIdentity G opts sessions row).isSome = true := by
  induction rows using List.reverseRecOn with
  | nil => cases h
  | append_singleton rows row ih =>
    rw [List.foldl_concat, queueSession] at h
    have hearlier : id ∈ (rows.foldl (queueSession G opts sessions) []).map Prod.fst →
        ∃ r ∈ rows ++ [row], r.sessionId = some id ∧ (fixIdentity G opts sessions r).isSome = true := by
      intro hin
      obtain ⟨r, hr, hrow⟩ := ih hin
      exact ⟨r, List.mem_append_left _ hr, hrow⟩
    split at h
    next sessionId value hid hfix =>
      split at h
      next =>
        obtain ⟨e, he, rfl⟩ := List.mem_map.1 h
        rcases OwnMap.mem_set_cases he with rfl | he
        · exact ⟨row, by simp, hid, by rw [hfix, Option.isSome_some]⟩
        · exact hearlier (List.mem_map_of_mem he)
      next => exact hearlier h
    next => exact hearlier h

/-- a session that was stamped is not stale, -/
theorem not_stale_of_restamped (hqueued : Queued G opts sessions queue) {id : SessionId} (h : id ∈ queue.map Prod.fst) :
    ¬ StaleSession G opts (queue.foldl (restampSession opts) sessions) id := by
  rintro ⟨s, r, hs, hr, hne⟩
  obtain ⟨⟨id, value⟩, hentry, rfl⟩ := List.mem_map.1 h
  obtain ⟨s', r', hs', hr', rfl, -⟩ := hqueued.stale _ hentry
  rw [find_restampAll hqueued.keyed hentry hs'] at hs
  obtain rfl := Option.some.inj hs
  rw [sessionIdentity_setSession, hr'] at hr
  obtain rfl := Option.some.inj hr
  apply hne
  cases opts.column <;> rfl

/-- and one that is stale was stale before -/
theorem stale_of_restamp (hqueued : Queued G opts sessions queue) {id : SessionId}
    (h : StaleSession G opts (queue.foldl (restampSession opts) sessions) id) : StaleSession G opts sessions id := by
  have hother : id ∉ queue.map Prod.fst := fun hin => not_stale_of_restamped hqueued hin h
  obtain ⟨s, r, hs, hr, hne⟩ := h
  rw [find_restampAll_other hother] at hs
  exact ⟨s, r, hs, hr, hne⟩

/-! ## Runs -/

/-- the sessions a run stamps -/
def restampQueue (G : GitAnswers) (opts : RepoIdentityBackfillOptions) (limit : Option ℕ) (db : TagDb) :
    OwnMap SessionId String :=
  if opts.includeSessions then
    ((identityRules G opts).scannedRows db limit).foldl (queueSession G opts db.sessions) []
  else []

theorem queued_restampQueue (limit : Option ℕ) (db : TagDb) :
    Queued G opts db.sessions (restampQueue G opts limit db) := by
  unfold restampQueue
  split
  · exact queued_foldl _
  · exact ⟨List.nodup_nil, fun e he => by cases he⟩

theorem run_sessions (limit : Option ℕ) (db : TagDb) : (repoIdentityRun G now opts false limit db).db.sessions =
    (restampQueue G opts limit db).foldl (restampSession opts) db.sessions := by
  have hscan := scanned_run G now opts false limit db
  change ((if opts.includeSessions then Scan.sessionsToRestamp _ else []).foldl (restampSession opts) (Scan.db _).sessions) = _
  rw [hscan.scans.sessions, hscan.queue]
  rfl

theorem run_sessionUpdates (limit : Option ℕ) (db : TagDb) :
    (repoIdentityRun G now opts false limit db).sessionUpdates = (restampQueue G opts limit db).map Prod.fst := by
  have hscan := scanned_run G now opts false limit db
  change (if opts.includeSessions then Scan.sessionsToRestamp _ else []).map Prod.fst = _
  rw [hscan.queue]
  rfl

theorem dry_sessions (limit : Option ℕ) (db : TagDb) : (repoIdentityRun G now opts true limit db).sessionUpdates = [] ∧
    (repoIdentityRun G now opts true limit db).reportedSessions = (restampQueue G opts limit db).length := by
  have hscan := scanned_run G now opts true limit db
  refine ⟨rfl, ?_⟩
  change (if opts.includeSessions then Scan.sessionsToRestamp _ else []).length = _
  rw [hscan.queue]
  rfl

/-- **The re-stamp follows its rules.** -/
theorem runRepoIdentityBackfill_follows (G : GitAnswers) (now : ℕ → Time) (opts : RepoIdentityBackfillOptions) :
    Follows (identityRules G opts) now (repoIdentityRun G now opts) where
  updates limit db _ := (scanned_run G now opts false limit db).scans.updates
  memories limit db _ := by
    have hmemories := congrArg TagDb.memories (scanned_run G now opts false limit db).scans.db
    exact hmemories
  sessions limit db m _ := by
    have hsessions := (scanned_run G now opts false limit db).scans.sessions
    change fixIdentity G opts
      (List.foldl (restampSession opts) (scanRows G now opts false limit _ { db := db }).db.sessions _) m =
        fixIdentity G opts db.sessions m
    rw [hsessions, fixIdentity, rowIdentity_restamp, fixIdentity]
  dry limit db _ := by
    have hscan := scanned_run G now opts true limit db
    refine ⟨?_, hscan.scans.updates, hscan.scans.reported⟩
    exact hscan.scans.db
  applied dryRun limit db _ := (scanned_run G now opts dryRun limit db).scans.applied

/-- a run without rows to write stamps no session -/
theorem restampQueue_nil {limit : Option ℕ} {db : TagDb} (h : (identityRules G opts).proposals db limit = []) :
    restampQueue G opts limit db = [] := by
  have hqueue : ∀ rows : List Memory, (∀ row ∈ rows, fixIdentity G opts db.sessions row = none) →
      rows.foldl (queueSession G opts db.sessions) [] = [] := by
    intro rows hrows
    induction rows with
    | nil => rfl
    | cons row rows ih =>
      have hrow : queueSession G opts db.sessions [] row = [] := by
        rw [queueSession, hrows row List.mem_cons_self]
        cases row.sessionId <;> rfl
      rw [List.foldl_cons, hrow]
      exact ih fun r hr => hrows r (List.mem_cons_of_mem row hr)
  rw [restampQueue, hqueue, ite_self]
  intro row hrow
  exact Option.map_eq_none_iff.1 (List.filterMap_eq_nil_iff.1 h row hrow)

/-- a session that is stale behind some runs was stale before them -/
theorem stale_of_after {limit m n : ℕ} {db : TagDb} {id : SessionId} (hmn : m ≤ n)
    (h : StaleSession G opts (after (repoIdentityRun G now opts) limit db n).sessions id) :
    StaleSession G opts (after (repoIdentityRun G now opts) limit db m).sessions id := by
  induction n, hmn using Nat.le_induction with
  | base => exact h
  | succ n _ ih =>
    apply ih
    rw [after_succ, run_sessions] at h
    exact stale_of_restamp (queued_restampQueue _ _) h

/-- a session that a run stamps has a row that the run writes, as it was at the start -/
theorem sessionWrites_row {limit : ℕ} (hlimit : 1 ≤ limit) {db : TagDb} {n : ℕ} {k : SessionId}
    (hk : k ∈ sessionWrites (repoIdentityRun G now opts) limit db n) : ∃ r ∈ db.memories, r.sessionId = some k ∧
      (identityRules G opts).selects r = true ∧ r.id ∈ writes (repoIdentityRun G now opts) limit db n := by
  have hfollows : Follows (identityRules G opts) now (repoIdentityRun G now opts) :=
    runRepoIdentityBackfill_follows G now opts
  have hsettles : Settles (repoIdentityRun G now opts) (identityRules G opts).selects limit db := hfollows.settles hlimit
  rw [sessionWrites, run_sessionUpdates, restampQueue] at hk
  split at hk
  next =>
    obtain ⟨row, hrow, hid, hfix⟩ := mem_queued hk
    obtain ⟨value, hvalue⟩ := Option.isSome_iff_exists.1 hfix
    have hmem := (mem_scannedRows hrow).1
    have hwritten : row.id ∈ writes (repoIdentityRun G now opts) limit db n := by
      rw [writes, hfollows.updates _ _ (some_ne_zero hlimit)]
      refine List.mem_map.2 ⟨(row.id, value), List.mem_filterMap.2 ⟨row, hrow, ?_⟩, rfl⟩
      rw [identity_proposal, hvalue, Option.map_some]
    -- no earlier run has written the row
    obtain ⟨r, hr, hkey, hselects⟩ := hsettles.selected n _ hwritten
    have hnever : ∀ m < n, r.id ∉ writes (repoIdentityRun G now opts) limit db m := by
      intro m hm hearlier
      rw [hkey] at hearlier
      exact hsettles.once.2 m n hm _ hearlier hwritten
    have hsame : r = row :=
      (after (repoIdentityRun G now opts) limit db n).keyed.inj (hsettles.untouched n r hr hnever) hmem hkey
    exact ⟨r, hr, hsame ▸ hid, hselects, hkey ▸ hwritten⟩
  next => cases hk

theorem settlesSessions (G : GitAnswers) (now : ℕ → Time) (opts : RepoIdentityBackfillOptions) {limit : ℕ}
    (hlimit : 1 ≤ limit) (db : TagDb) :
    SettlesSessions (repoIdentityRun G now opts) (identityRules G opts).selects limit db where
  left n hleft := by
    rw [wouldWrite, (runRepoIdentityBackfill_follows G now opts).updates none _ (by simp), List.map_eq_nil_iff] at hleft
    rw [run_sessionUpdates, restampQueue_nil hleft]
    rfl
  once := by
    constructor
    · intro n
      rw [sessionWrites, run_sessionUpdates]
      exact (queued_restampQueue _ _).keyed
    · intro m n hmn k hm hn
      rw [sessionWrites, run_sessionUpdates] at hm hn
      obtain ⟨e, he, rfl⟩ := List.mem_map.1 hn
      obtain ⟨s, r, hs, hr, heq, hne⟩ := (queued_restampQueue (some limit) _).stale e he
      have hstale : StaleSession G opts (after (repoIdentityRun G now opts) limit db (m + 1)).sessions e.1 :=
        stale_of_after hmn ⟨s, r, hs, hr, heq ▸ hne⟩
      rw [after_succ, run_sessions] at hstale
      exact not_stale_of_restamped (queued_restampQueue _ _) hm hstale
  selected n k hk := sessionWrites_row hlimit hk
  dry n := by
    rw [sessionWrites, run_sessionUpdates, List.length_map]
    exact dry_sessions (some limit) _

end

end AstramemLocal.TagHygiene
