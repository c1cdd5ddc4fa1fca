/-
`src/tag-hygiene/backfill.ts`: the rows without a repo or a project get theirs from their session, and where that says
nothing, when the second tier is on, from what a model infers. `runTagHygieneBackfill_follows`: without the second tier a run
does what `tagRules` say.

`limited_backfills`: what repeating either backfill with one limit comes to.
-/
import AstramemLocal.TagHygiene.RepoIdentityBackfill

namespace AstramemLocal.TagHygiene

open AstramemLocal.Store AstramemLocal.Core

/-! ## Options and results -/

structure BackfillOptions where
  tier2Enabled : Bool
  confidenceThreshold : ℚ

structure TagCandidatePair where
  repo : String
  project : String
deriving DecidableEq, Repr

structure Tier2Inference where
  repo : Option String
  project : Option String
  confidence : ℚ

/-- what the model answers for a text, with the pairs it may choose from -/
abbrev Tier2InferFn := String → List TagCandidatePair → Tier2Inference

inductive BackfillTier where
  | tier1 | tier2
deriving DecidableEq, Repr

structure BackfillCandidate where
  id : AtomId
  currentRepo : Option String
  currentProject : Option String
  proposedRepo : Option String
  proposedProject : Option String
  tier : Option BackfillTier
  confidence : Option ℚ
  applied : Bool
deriving DecidableEq, Repr

structure BackfillResult where
  scanned : ℕ
  tier1Applied : ℕ
  tier2Applied : ℕ
  leftUntagged : ℕ
  dryRun : Bool
  candidates : List BackfillCandidate
deriving DecidableEq, Repr

/-! ## A row -/

def isBlank (v : Option String) : Bool := v.all fun s => trim s.toList = []

/-- `column IS NULL OR TRIM(column) = ''` -/
def sqlBlank (v : Option String) : Bool := v.all fun s => sqlTrim s = []

/-- the variables of one round of the loop -/
structure TagProposal where
  proposedRepo : Option String
  proposedProject : Option String
  tier : Option BackfillTier := none
  confidence : Option ℚ := none
deriving DecidableEq, Repr

/-- `isBlank(v) ? null : v` -/
def nonBlank (v : Option String) : Option String := if isBlank v then none else v

def startProposal (row : Memory) : TagProposal where
  proposedRepo := nonBlank row.repo
  proposedProject := nonBlank row.project

/-- `isBlank(proposed) && !isBlank(found)` -/
def fills (proposed found : Option String) : Bool := isBlank proposed && !isBlank found

def fill (proposed found : Option String) : Option String := if fills proposed found then found else proposed

section
variable (G : GitAnswers)

def sessionRepo (session : SessionRow) : Option String := session.repo.or (deriveRepoFromCwd G session.cwd)

def sessionProject (session : SessionRow) : Option String :=
  session.project.or (deriveProject session.cwd (sessionRepo G session))

/-- tier 1: session metadata -/
def tier1 (sessions : List SessionRow) (row : Memory) (p : TagProposal) : TagProposal :=
  match row.sessionId.bind (findSession sessions) with
  | none => p
  | some session =>
    { p with
      proposedRepo := fill p.proposedRepo (sessionRepo G session)
      proposedProject := fill p.proposedProject (sessionProject G session)
      tier := if fills p.proposedRepo (sessionRepo G session) || fills p.proposedProject (sessionProject G session) then
          some .tier1
        else p.tier }

/-- tier 2: only where tier 1 found nothing -/
def tier2 (opts : BackfillOptions) (tier2Infer : Option Tier2InferFn) (knownPairs : List TagCandidatePair) (row : Memory)
    (p : TagProposal) : TagProposal :=
  match tier2Infer with
  | none => p
  | some infer =>
    if p.tier = none ∧ opts.tier2Enabled ∧ (isBlank p.proposedRepo ∨ isBlank p.proposedProject) then
      let inferred := infer row.text knownPairs
      if opts.confidenceThreshold ≤ inferred.confidence then
        let proposedRepo := fill p.proposedRepo inferred.repo
        let proposedProject := fill p.proposedProject inferred.project
        ⟨proposedRepo, proposedProject, if !isBlank proposedRepo || !isBlank proposedProject then some .tier2 else p.tier,
          some inferred.confidence⟩
      else { p with confidence := some inferred.confidence }
    else p

def willApply (row : Memory) (p : TagProposal) : Bool :=
  p.tier.isSome && (p.proposedRepo ≠ row.repo || p.proposedProject ≠ row.project)

end

/-! ## The run -/

/-- the variables of the loop, and the UPDATEs so far -/
structure TagScan where
  db : TagDb
  updates : List (AtomId × Option String × Option String) := []
  candidates : List BackfillCandidate := []
  tier1Applied : ℕ := 0
  tier2Applied : ℕ := 0
  leftUntagged : ℕ := 0

def setTags (tags : Option String × Option String) (m : Memory) : Memory := { m with repo := tags.1, project := tags.2 }

section
variable (G : GitAnswers) (now : ℕ → Time) (opts : BackfillOptions) (tier2Infer : Option Tier2InferFn) (dryRun : Bool)

/-- the end of one round -/
def TagScan.settle (scan : TagScan) (row : Memory) (p : TagProposal) : TagScan where
  db := if willApply row p ∧ !dryRun then
      scan.db.updateMemory now row.id (setTags (p.proposedRepo, p.proposedProject)) fun _ => rfl
    else scan.db
  updates := if willApply row p ∧ !dryRun then scan.updates ++ [(row.id, p.proposedRepo, p.proposedProject)]
    else scan.updates
  candidates := scan.candidates ++ [
    { id := row.id
      currentRepo := row.repo
      currentProject := row.project
      proposedRepo := p.proposedRepo
      proposedProject := p.proposedProject
      tier := if willApply row p then p.tier else none
      confidence := p.confidence
      applied := willApply row p && !dryRun }]
  tier1Applied := if willApply row p ∧ p.tier = some .tier1 then scan.tier1Applied + 1 else scan.tier1Applied
  tier2Applied := if willApply row p ∧ p.tier = some .tier2 then scan.tier2Applied + 1 else scan.tier2Applied
  leftUntagged := if willApply row p then scan.leftUntagged else scan.leftUntagged + 1

/-- one round; `row` is as the SELECT has read it -/
def TagScan.visit (knownPairs : List TagCandidatePair) (scan : TagScan) (row : Memory) : TagScan :=
  scan.settle now dryRun row (tier2 opts tier2Infer knownPairs row (tier1 G scan.db.sessions row (startProposal row)))

/-- `SELECT DISTINCT repo, project`, of the rows that have both -/
def knownPairs (db : TagDb) : List TagCandidatePair :=
  if opts.tier2Enabled ∧ tier2Infer.isSome then
    (db.memories.filterMap fun m =>
      match m.repo, m.project with
      | some repo, some project => if sqlTrim repo ≠ [] ∧ sqlTrim project ≠ [] then some ⟨repo, project⟩ else none
      | _, _ => none).dedup
  else []

/-- the rows of the query -/
def untagged (row : Memory) : Bool := sqlBlank row.repo || sqlBlank row.project

def runTagHygieneBackfill (limit : Option ℕ) (db : TagDb) :
    TagDb × BackfillResult × List (AtomId × Option String × Option String) :=
  let rows := takeLimit (limit.map (max 1 ·)) ((byCreation db.memories).filter untagged)
  let scan := rows.foldl (TagScan.visit G now opts tier2Infer dryRun (knownPairs opts tier2Infer db)) { db := db }
  (scan.db,
    { scanned := rows.length
      tier1Applied := scan.tier1Applied
      tier2Applied := scan.tier2Applied
      leftUntagged := scan.leftUntagged
      dryRun := dryRun
      candidates := scan.candidates },
    scan.updates)

/-- a candidate with a tier reports its row -/
def taggedRow (c : BackfillCandidate) : Option (AtomId × Option String × Option String) :=
  c.tier.map fun _ => (c.id, c.proposedRepo, c.proposedProject)

/-- a run with the options, the second tier off -/
def tagHygieneRun (limit : Option ℕ) (db : TagDb) : Run (Option String × Option String) :=
  let r := runTagHygieneBackfill G now { opts with tier2Enabled := false } tier2Infer dryRun limit db
  { db := r.1
    updates := r.2.2
    applied := r.2.1.tier1Applied + r.2.1.tier2Applied
    reported := r.2.1.candidates.filterMap taggedRow }

end

/-! ## The rules -/

theorem nonBlank_nonBlank (v : Option String) : nonBlank (nonBlank v) = nonBlank v := by
  by_cases hv : isBlank v = true
  · rw [nonBlank, nonBlank, if_pos hv]
    exact if_pos rfl
  · have hsame : nonBlank v = v := if_neg hv
    rw [hsame, hsame]

/-- what a field is filled with stays, -/
theorem nonBlank_fill (v found : Option String) : nonBlank (fill (nonBlank v) found) = fill (nonBlank v) found := by
  unfold fill
  by_cases hfills : fills (nonBlank v) found = true
  · rw [if_pos hfills]
    have hfound : isBlank found = false := by
      rw [fills, Bool.and_eq_true, Bool.not_eq_true'] at hfills
      exact hfills.2
    exact if_neg (by rw [hfound]; decide)
  · rw [if_neg hfills]
    exact nonBlank_nonBlank v

/-- and is not filled again -/
theorem fills_fill (v found : Option String) : fills (fill v found) found = false := by
  unfold fill
  by_cases hfills : fills v found = true
  · rw [if_pos hfills, fills, Bool.and_not_self]
  · rw [if_neg hfills]
    exact Bool.eq_false_iff.2 hfills

section
variable (G : GitAnswers)

/-- the proposal of the first tier -/
def tierOne (sessions : List SessionRow) (m : Memory) : TagProposal := tier1 G sessions m (startProposal m)

/-- what a row is given -/
def fixTags (sessions : List SessionRow) (m : Memory) : Option (Option String × Option String) :=
  if willApply m (tierOne G sessions m) then
    some ((tierOne G sessions m).proposedRepo, (tierOne G sessions m).proposedProject)
  else none

variable {G} {sessions : List SessionRow} {m : Memory} {tags : Option String × Option String}

theorem tierOne_none (h : m.sessionId.bind (findSession sessions) = none) : (tierOne G sessions m).tier = none := by
  rw [tierOne, tier1, h]
  rfl

theorem tierOne_some {session : SessionRow} (h : m.sessionId.bind (findSession sessions) = some session) :
    tierOne G sessions m =
      { proposedRepo := fill (nonBlank m.repo) (sessionRepo G session)
        proposedProject := fill (nonBlank m.project) (sessionProject G session)
        tier := if fills (nonBlank m.repo) (sessionRepo G session) || fills (nonBlank m.project) (sessionProject G session)
          then some .tier1 else none } := by
  rw [tierOne, tier1, h]
  rfl

/-- a row is given tags by its session -/
theorem fixTags_some (h : fixTags G sessions m = some tags) : ∃ session,
    m.sessionId.bind (findSession sessions) = some session ∧
      tags = (fill (nonBlank m.repo) (sessionRepo G session), fill (nonBlank m.project) (sessionProject G session)) := by
  unfold fixTags at h
  split at h
  next happly =>
    obtain rfl := Option.some.inj h
    cases hsession : m.sessionId.bind (findSession sessions) with
    | none =>
      rw [willApply, tierOne_none hsession] at happly
      cases happly
    | some session =>
      refine ⟨session, rfl, ?_⟩
      rw [tierOne_some hsession]
  next => cases h

/-- a row that has its session's tags is left alone -/
theorem fixTags_filled {session : SessionRow} {repo project : Option String}
    (hsession : m.sessionId.bind (findSession sessions) = some session)
    (hrepo : m.repo = fill (nonBlank repo) (sessionRepo G session))
    (hproject : m.project = fill (nonBlank project) (sessionProject G session)) : fixTags G sessions m = none := by
  have htier : (tierOne G sessions m).tier = none := by
    rw [tierOne_some hsession, hrepo, hproject]
    dsimp only
    rw [nonBlank_fill, nonBlank_fill, fills_fill, fills_fill]
    rfl
  rw [fixTags, willApply, htier]
  rfl

theorem fixTags_setTags (h : fixTags G sessions m = some tags) (t : Time) :
    fixTags G sessions { setTags tags m with updatedAt := t } = none := by
  obtain ⟨session, hsession, rfl⟩ := fixTags_some h
  exact @fixTags_filled G sessions _ session m.repo m.project hsession rfl rfl

variable (G)

def tagRules : Rules (Option String × Option String) where
  selects := untagged
  fix := fixTags G
  write := setTags
  write_id _ _ := rfl
  write_createdAt _ _ := rfl
  fix_write _ _ _ h t := fixTags_setTags h t

end

/-! ## The loop -/

section
variable {G : GitAnswers} {now : ℕ → Time} {opts : BackfillOptions} {tier2Infer : Option Tier2InferFn} {dryRun : Bool}
  {pairs : List TagCandidatePair} {scan : TagScan} {row : Memory}

theorem tier2_off (p : TagProposal) : tier2 { opts with tier2Enabled := false } tier2Infer pairs row p = p := by
  unfold tier2
  cases tier2Infer with
  | none => rfl
  | some infer => exact if_neg (by simp)

/-- what the loop has done behind some rows -/
def TagScanned (G : GitAnswers) (now : ℕ → Time) (dryRun : Bool) (start : TagDb) (rows : List Memory) (scan : TagScan) :
    Prop :=
  (tagRules G).Scans now dryRun start rows scan.db scan.updates (scan.candidates.filterMap taggedRow)
    (scan.tier1Applied + scan.tier2Applied)

theorem TagScanned.visit {start : TagDb} {rows : List Memory} (h : TagScanned G now dryRun start rows scan) (row : Memory) :
    TagScanned G now dryRun start (rows ++ [row])
      (scan.visit G now { opts with tier2Enabled := false } tier2Infer dryRun pairs row) := by
  have hvisit : scan.visit G now { opts with tier2Enabled := false } tier2Infer dryRun pairs row =
      scan.settle now dryRun row (tierOne G start.sessions row) := by
    rw [TagScan.visit, tier2_off, Rules.Scans.sessions h]
    rfl
  rw [hvisit]
  cases happly : willApply row (tierOne G start.sessions row) with
  | false =>
    have hfix : (tagRules G).fix start.sessions row = none := if_neg (by rw [happly]; decide)
    have hreported : (scan.settle now dryRun row (tierOne G start.sessions row)).candidates.filterMap taggedRow =
        scan.candidates.filterMap taggedRow := by
      rw [TagScan.settle, List.filterMap_append, happly]
      exact List.append_nil _
    have hskip := Rules.Scans.skip h hfix
    unfold TagScanned
    rw [hreported]
    simpa [TagScan.settle, happly] using hskip
  | true =>
    have hfix : (tagRules G).fix start.sessions row =
        some ((tierOne G start.sessions row).proposedRepo, (tierOne G start.sessions row).proposedProject) := if_pos happly
    have hwrite := Rules.Scans.write h hfix
    obtain ⟨tier, htier⟩ : ∃ tier, (tierOne G start.sessions row).tier = some tier := by
      rw [willApply, Bool.and_eq_true] at happly
      exact Option.isSome_iff_exists.1 happly.1
    have hreported : (scan.settle now dryRun row (tierOne G start.sessions row)).candidates.filterMap taggedRow =
        scan.candidates.filterMap taggedRow ++
          [(row.id, (tierOne G start.sessions row).proposedRepo, (tierOne G start.sessions row).proposedProject)] := by
      rw [TagScan.settle, List.filterMap_append, happly, htier]
      rfl
    have hcount : (scan.settle now dryRun row (tierOne G start.sessions row)).tier1Applied +
        (scan.settle now dryRun row (tierOne G start.sessions row)).tier2Applied =
          scan.tier1Applied + scan.tier2Applied + 1 := by
      rw [TagScan.settle, happly, htier]
      cases tier with
      | tier1 => exact Nat.add_right_comm _ _ _
      | tier2 => exact (Nat.add_assoc _ _ _).symm
    unfold TagScanned
    rw [hreported, hcount]
    cases dryRun with
    | true => simpa [TagScan.settle] using hwrite
    | false =>
      have hdb : (scan.settle now false row (tierOne G start.sessions row)).db = (tagRules G).stamp now scan.db
          (row.id, (tierOne G start.sessions row).proposedRepo, (tierOne G start.sessions row).proposedProject) :=
        if_pos ⟨happly, rfl⟩
      have hupdates : (scan.settle now false row (tierOne G start.sessions row)).updates = scan.updates ++
          [(row.id, (tierOne G start.sessions row).proposedRepo, (tierOne G start.sessions row).proposedProject)] :=
        if_pos ⟨happly, rfl⟩
      rw [hdb, hupdates]
      exact hwrite

theorem tagScanned_foldl (start : TagDb) (rows : List Memory) : TagScanned G now dryRun start rows
    (rows.foldl (TagScan.visit G now { opts with tier2Enabled := false } tier2Infer dryRun pairs) { db := start }) := by
  induction rows using List.reverseRecOn with
  | nil => exact .nil
  | append_singleton rows row ih =>
    rw [List.foldl_concat]
    exact ih.visit row

/-- a run scans the rows the rules select -/
theorem tagScanned_run (G : GitAnswers) (now : ℕ → Time) (opts : BackfillOptions) (tier2Infer : Option Tier2InferFn)
    (dryRun : Bool) {limit : Option ℕ} (hlimit : limit ≠ some 0) (db : TagDb) :
    (tagRules G).Scans now dryRun db ((tagRules G).scannedRows db limit)
      (tagHygieneRun G now opts tier2Infer dryRun limit db).db (tagHygieneRun G now opts tier2Infer dryRun limit db).updates
      (tagHygieneRun G now opts tier2Infer dryRun limit db).reported
      (tagHygieneRun G now opts tier2Infer dryRun limit db).applied := by
  have hmax : limit.map (max 1 ·) = limit := by
    cases limit with
    | none => rfl
    | some n =>
      have hn : n ≠ 0 := fun hn => hlimit (congrArg some hn)
      rw [Option.map_some, max_eq_right (Nat.one_le_iff_ne_zero.2 hn)]
  have hrows : takeLimit (limit.map (max 1 ·)) ((byCreation db.memories).filter untagged) =
      (tagRules G).scannedRows db limit := by
    rw [hmax]
    rfl
  unfold tagHygieneRun runTagHygieneBackfill
  rw [hrows]
  exact tagScanned_foldl db _

/-- **The backfill follows its rules.** -/
theorem runTagHygieneBackfill_follows (G : GitAnswers) (now : ℕ → Time) (opts : BackfillOptions)
    (tier2Infer : Option Tier2InferFn) : Follows (tagRules G) now (tagHygieneRun G now opts tier2Infer) where
  updates limit db hlimit := (tagScanned_run G now opts tier2Infer false hlimit db).updates
  memories limit db hlimit := congrArg TagDb.memories (tagScanned_run G now opts tier2Infer false hlimit db).db
  sessions limit db m hlimit := by
    rw [(tagScanned_run G now opts tier2Infer false hlimit db).sessions]
  dry limit db hlimit := by
    have hscan := tagScanned_run G now opts tier2Infer true hlimit db
    exact ⟨hscan.db, hscan.updates, hscan.reported⟩
  applied dryRun limit db hlimit := (tagScanned_run G now opts tier2Infer dryRun hlimit db).applied

theorem run_tagSessions (limit : Option ℕ) (hlimit : limit ≠ some 0) (db : TagDb) :
    (tagHygieneRun G now opts tier2Infer false limit db).db.sessions = db.sessions :=
  (tagScanned_run G now opts tier2Infer false hlimit db).sessions

end

/-! ## Limited runs -/

/-- **Limited backfills.** For any tables and any limit of at least one, repeated runs of either backfill come to a run that
applies nothing, and what is left then stands behind as many rows that cannot be resolved; no row is written twice, none that
was not selected at the start, and a dry run reports what the real one writes. The second tier is off. -/
theorem limited_backfills (G : GitAnswers) (now : ℕ → Time) (limit : ℕ) (hlimit : 1 ≤ limit) (db : TagDb) :
    (∀ opts : RepoIdentityBackfillOptions,
      Settles (repoIdentityRun G now opts) (fun m => hasValue opts m && matchesRow opts m) limit db ∧
      SettlesSessions (repoIdentityRun G now opts) (fun m => hasValue opts m && matchesRow opts m) limit db) ∧
    ∀ (opts : BackfillOptions) (tier2Infer : Option Tier2InferFn),
      Settles (tagHygieneRun G now opts tier2Infer) untagged limit db ∧
      ∀ n, (after (tagHygieneRun G now opts tier2Infer) limit db n).sessions = db.sessions := by
  constructor
  · intro opts
    exact ⟨(runRepoIdentityBackfill_follows G now opts).settles hlimit, settlesSessions G now opts hlimit db⟩
  · intro opts tier2Infer
    refine ⟨(runTagHygieneBackfill_follows G now opts tier2Infer).settles hlimit, ?_⟩
    intro n
    induction n with
    | zero => rfl
    | succ n ih =>
      rw [after_succ, run_tagSessions _ (some_ne_zero hlimit)]
      exact ih

/-- a row with the name of a worktree for a repo, and without a project -/
def worktreeRow (id : AtomId) (sessionId : Option SessionId) : Memory :=
  { rowid := id, id, type := .fact, text := "", normalizedText := "", repo := some "agent-abcdef", project := none,
    branch := none, agent := none, sessionId, importance := 0, confidence := 0, hash := id, createdAt := id, updatedAt := id,
    sourceHash := none, evidence := none, validFrom := id, scope := .priv }

/-- a row without a session, and a later one with a session in a worktree -/
def widgets : TagDb where
  memories := [worktreeRow 1 none, worktreeRow 2 (some 1)]
  sessions := [⟨1, none, none, some "/src/widgets/.claude/worktrees/agent-abcdef"⟩]
  keyed := by decide

def noGit : GitAnswers := ⟨fun _ => none⟩

theorem limited_backfills_widgets :
    Settles (repoIdentityRun noGit (fun _ => 0) {}) (fun m => hasValue {} m && matchesRow {} m) 1 widgets ∧
    Settles (tagHygieneRun noGit (fun _ => 0) ⟨false, 0⟩ none) untagged 1 widgets := by
  have hsettles := limited_backfills noGit (fun _ => 0) 1 le_rfl widgets
  exact ⟨(hsettles.1 {}).1, (hsettles.2 ⟨false, 0⟩ none).1⟩

/-- with a limit of one either backfill applies nothing, where an unlimited run would write the later row -/
theorem limited_backfill_starved :
    (repoIdentityRun noGit (fun _ => 0) {} false (some 1) widgets).applied = 0 ∧
    writes (repoIdentityRun noGit (fun _ => 0) {}) 1 widgets 0 = [] ∧
    wouldWrite (repoIdentityRun noGit (fun _ => 0) {}) 1 widgets 0 = [2] ∧
    (tagHygieneRun noGit (fun _ => 0) ⟨false, 0⟩ none false (some 1) widgets).applied = 0 ∧
    writes (tagHygieneRun noGit (fun _ => 0) ⟨false, 0⟩ none) 1 widgets 0 = [] ∧
    wouldWrite (tagHygieneRun noGit (fun _ => 0) ⟨false, 0⟩ none) 1 widgets 0 = [2] := by
  decide +kernel

end AstramemLocal.TagHygiene
