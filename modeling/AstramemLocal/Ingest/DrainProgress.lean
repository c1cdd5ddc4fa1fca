/-
Progress of the drain over many ticks. A tick meets its own circumstances (`Tick`): a file that cannot be read is
skipped without a count, and an ingest that throws counts as a failed attempt. What is left to do is the sum of the
attempts the files still have; every file a tick takes up and can read lowers it (`settle_attemptsLeft`).
- `tickIn_calm`: a tick with readable files and no throws is that of `SpoolDrain`;
- `drain_progress`: when the files can be read, the spool is empty after finitely many ticks, every file has been
  ingested or quarantined, and none is lost on the way;
- `unreadable_starves`: unreadable files that fill the head of the listing keep every file where it is.
-/
import AstramemLocal.Core.Runs
import AstramemLocal.Ingest.SpoolDrain
import AstramemLocal.Server.IngestSpec
import Mathlib.Algebra.BigOperators.Group.List.Basic
import Mathlib.Algebra.GroupWithZero.Nat

namespace AstramemLocal.Ingest

open AstramemLocal.Core AstramemLocal.Store AstramemLocal.Server

/-! ## Ticks -/

/-- what a tick meets: the time, the database, what it can read, and whose ingest throws for a reason outside the data,
as a locked database or a full disk -/
structure Tick where
  now : Time
  db : Db
  readable : SpoolFile → Bool
  throws : SpoolFile → Option DrainFailure

variable (E : Env)

/-- what reaches the ingest -/
def parsed (file : SpoolFile) : Option Envelope := file.content.bind (safeParse E.isDatetime)

/-- one file of a tick; `none` where `readFileSync` throws -/
def attempt (T : Tick) (db : Db) (file : SpoolFile) : Option DrainVerdict × Db :=
  if E.config.spoolMaxBytes < file.size then (some .oversize, db)
  else if T.readable file = false then (none, db)
  else
    match parsed E file, T.throws file with
    | some _, some reason => (some (.failed reason), db)
    | _, _ => (some (drainFile E db file).1, (drainFile E db file).2)

/-- the state of the drain, and what it has made of the files so far -/
structure Watched where
  st : DrainState
  log : List (SpoolFile × DrainVerdict) := []

def drainNextIn (T : Tick) (w : Watched) (file : SpoolFile) : Watched :=
  match attempt E T w.st.db file with
  | (none, db) => { w with st := { w.st with db } }
  | (some verdict, db) => ⟨settle E { w.st with db } file verdict, w.log ++ [(file, verdict)]⟩

/-- the state a tick starts its loop from -/
def opened (T : Tick) (w : Watched) : Watched :=
  { w with st := { db := T.db, spool := pruneExpiredQuarantine w.st.spool T.now } }

/-- the files the tick takes up -/
def batch (maxPerTick : ℕ) (T : Tick) (w : Watched) : List SpoolFile :=
  (listSpoolFiles E (opened T w).st.spool).take maxPerTick

def tickIn (maxPerTick : ℕ) (T : Tick) (w : Watched) : Watched :=
  (batch E maxPerTick T w).foldl (drainNextIn E T) (opened T w)

/-- the first ticks of a run -/
def ticks (maxPerTick : ℕ) (T : ℕ → Tick) (spool : Spool) : ℕ → Watched
  | 0 => { st := { db := (T 0).db, spool } }
  | n + 1 => tickIn E maxPerTick (T n) (ticks maxPerTick T spool n)

/-! ## What a tick does -/

variable {E} {T : Tick} {w : Watched} {st : DrainState} {file : SpoolFile} {spool : Spool}

theorem attempt_calm {db : Db} (hread : T.readable file = true) (hthrows : T.throws file = none) :
    attempt E T db file = (some (drainFile E db file).1, (drainFile E db file).2) := by
  unfold attempt
  split
  next hsize =>
    unfold drainFile
    rw [if_pos hsize]
  next =>
    rw [if_neg (by simp [hread]), hthrows]
    split
    next heq => cases heq
    next => rfl

/-- **A calm tick** is one of `SpoolDrain`. -/
theorem tickIn_calm (maxPerTick : ℕ) (hread : ∀ f, T.readable f = true) (hthrows : ∀ f, T.throws f = none) :
    (tickIn E maxPerTick T w).st = drainIngestSpool E T.db w.st.spool T.now maxPerTick := by
  have hfold : ∀ (files : List SpoolFile) (w : Watched),
      (files.foldl (drainNextIn E T) w).st = files.foldl (drainNext E) w.st := by
    intro files
    induction files with
    | nil =>
      intro w
      rfl
    | cons file files ih =>
      intro w
      rw [List.foldl_cons, List.foldl_cons, ih, drainNextIn, attempt_calm (hread file) (hthrows file)]
      rfl
  exact hfold _ _

/-- the failed attempts of the key so far -/
def failures (spool : Spool) (key : String) : ℕ := (spool.failureCounts.lookup key).getD 0

/-- the verdict takes the file out of the spool -/
def takesOut (spool : Spool) (file : SpoolFile) : DrainVerdict → Bool
  | .failed _ => maxDrainAttempts ≤ failures spool file.key + 1
  | _ => true

theorem settle_last {reason : DrainFailure} (h : takesOut st.spool file (.failed reason) = true) :
    settle E st file (.failed reason) =
      { st with
        spool := quarantineSpoolFile (forgetFailures st.spool file.key) file
          (.poison (failures st.spool file.key + 1) reason)
        quarantined := st.quarantined + 1 } := by
  simp only [takesOut, decide_eq_true_eq] at h
  exact if_pos h

theorem settle_retry {reason : DrainFailure} (h : takesOut st.spool file (.failed reason) = false) :
    settle E st file (.failed reason) =
      { st with
        spool := { forgetFailures st.spool file.key with
          failureCounts := (forgetFailures st.spool file.key).failureCounts ++
            [(file.key, failures st.spool file.key + 1)] } } := by
  simp only [takesOut, decide_eq_false_iff_not] at h
  exact if_neg h

theorem settle_files (verdict : DrainVerdict) : (settle E st file verdict).spool.files =
    if takesOut st.spool file verdict then deleteWhere (·.key = file.key) st.spool.files else st.spool.files := by
  cases verdict with
  | failed reason =>
    cases hout : takesOut st.spool file (.failed reason) with
    | true =>
      rw [settle_last hout]
      rfl
    | false =>
      rw [settle_retry hout]
      rfl
  | _ => rfl

/-- the file is in the quarantine behind a verdict that is no success -/
theorem settle_quarantined {verdict : DrainVerdict} (hout : takesOut st.spool file verdict = true)
    (hstored : verdict ≠ .stored) (hreplayed : verdict ≠ .replayed) :
    ∃ reason, (file, reason) ∈ (settle E st file verdict).spool.quarantine := by
  cases verdict with
  | stored => exact absurd rfl hstored
  | replayed => exact absurd rfl hreplayed
  | oversize => exact ⟨_, List.mem_append_right _ List.mem_cons_self⟩
  | conflict => exact ⟨_, List.mem_append_right _ List.mem_cons_self⟩
  | failed reason =>
    rw [settle_last hout]
    exact ⟨_, List.mem_append_right _ List.mem_cons_self⟩

/-- an entry of another key stays in the quarantine -/
theorem settle_keeps_quarantined {verdict : DrainVerdict} {entry : SpoolFile × QuarantineReason}
    (h : entry ∈ st.spool.quarantine) (hkey : entry.1.key ≠ file.key) :
    entry ∈ (settle E st file verdict).spool.quarantine := by
  have hmoved : ∀ (spool : Spool) (reason : QuarantineReason), spool.quarantine = st.spool.quarantine →
      entry ∈ (quarantineSpoolFile spool file reason).quarantine := by
    intro spool reason hsame
    refine List.mem_append_left _ (mem_deleteWhere.2 ⟨?_, hkey⟩)
    show entry ∈ spool.quarantine
    rw [hsame]
    exact h
  cases verdict with
  | stored => exact h
  | replayed => exact h
  | oversize => exact hmoved _ _ rfl
  | conflict => exact hmoved _ _ rfl
  | failed reason =>
    cases hout : takesOut st.spool file (.failed reason) with
    | true =>
      rw [settle_last hout]
      exact hmoved _ _ rfl
    | false =>
      rw [settle_retry hout]
      exact h

/-! ## Attempts left -/

theorem lookup_forget (counts : List (String × ℕ)) (key other : String) :
    (deleteWhere (·.1 = key) counts).lookup other = if other = key then none else counts.lookup other := by
  induction counts with
  | nil => simp [deleteWhere]
  | cons count counts ih =>
    unfold deleteWhere at ih ⊢
    by_cases hkey : count.1 = key
    · rw [List.filter_cons_of_neg (by simpa using hkey), ih]
      split
      next => rfl
      next hother =>
        have hne : (other == count.1) = false := by simpa [hkey] using hother
        rw [List.lookup_cons, hne]
    · rw [List.filter_cons_of_pos (by simpa using hkey), List.lookup_cons, List.lookup_cons, ih]
      by_cases heq : other = count.1
      · have hne : other ≠ key := heq ▸ hkey
        simp [heq, hkey]
      · have hfalse : (other == count.1) = false := by simpa using heq
        simp [hfalse]

theorem failures_settle {verdict : DrainVerdict} (other : String) :
    failures (settle E st file verdict).spool other =
      if other = file.key then if takesOut st.spool file verdict then 0 else failures st.spool file.key + 1
      else failures st.spool other := by
  have hforgot : ((deleteWhere (·.1 = file.key) st.spool.failureCounts).lookup other).getD 0 =
      if other = file.key then 0 else failures st.spool other := by
    rw [lookup_forget]
    split <;> rfl
  cases verdict with
  | failed reason =>
    cases hout : takesOut st.spool file (.failed reason) with
    | true =>
      rw [settle_last hout]
      exact hforgot
    | false =>
      rw [settle_retry hout]
      simp only [failures, forgetFailures, List.lookup_append, lookup_forget, Bool.false_eq_true, if_false]
      by_cases hother : other = file.key
      · simp [hother]
      · have hfalse : (other == file.key) = false := by simpa using hother
        simp [hother, hfalse, List.lookup_cons]
  | stored => exact hforgot
  | replayed => exact hforgot
  | oversize => exact hforgot
  | conflict => exact hforgot

/-- the attempts the files still have, all together -/
def attemptsLeft (spool : Spool) : ℕ :=
  (spool.files.map fun f => maxDrainAttempts - 1 - failures spool f.key + 1).sum

/-- **A verdict costs an attempt.** -/
theorem settle_attemptsLeft {verdict : DrainVerdict} (hkeys : Keyed (·.key) st.spool.files)
    (hfile : file ∈ st.spool.files) :
    attemptsLeft (settle E st file verdict).spool + 1 ≤ attemptsLeft st.spool := by
  obtain ⟨before, after, hsplit⟩ := List.append_of_mem hfile
  rw [hsplit] at hkeys
  have hdelete := hkeys.deleteWhere_split
  have hothers : ∀ f ∈ before ++ after, f.key ≠ file.key := by
    intro f hf
    rw [← hdelete] at hf
    exact (mem_deleteWhere.1 hf).2
  have hsame : ∀ f ∈ before ++ after, failures (settle E st file verdict).spool f.key = failures st.spool f.key := by
    intro f hf
    rw [failures_settle, if_neg (hothers f hf)]
  have hsum : ((before ++ after).map fun f => maxDrainAttempts - 1 -
      failures (settle E st file verdict).spool f.key + 1) =
        (before ++ after).map fun f => maxDrainAttempts - 1 - failures st.spool f.key + 1 := by
    apply List.map_congr_left
    intro f hf
    rw [hsame f hf]
  have hown : failures (settle E st file verdict).spool file.key =
      if takesOut st.spool file verdict then 0 else failures st.spool file.key + 1 := by
    rw [failures_settle, if_pos rfl]
  simp only [List.map_append] at hsum
  unfold attemptsLeft
  rw [settle_files, hsplit]
  cases hout : takesOut st.spool file verdict with
  | true =>
    rw [if_pos rfl, hdelete]
    simp only [List.map_append, List.map_cons, hsum]
    simp only [List.sum_append, List.sum_cons]
    omega
  | false =>
    rw [hout, if_neg Bool.false_ne_true] at hown
    have hmore : failures st.spool file.key + 1 < maxDrainAttempts := by
      cases verdict with
      | failed reason =>
        simp only [takesOut, decide_eq_false_iff_not] at hout
        omega
      | _ => cases hout
    have hsums := congrArg List.sum hsum
    rw [if_neg Bool.false_ne_true]
    simp only [List.map_append, List.map_cons, List.sum_append, List.sum_cons, hown] at hsums ⊢
    omega

/-! ## The loop of a tick -/

/-- the files still to come are in the spool, each under its own key -/
structure Ready (w : Watched) (rest : List SpoolFile) : Prop where
  keyed : Keyed (·.key) w.st.spool.files
  pending : ∀ f ∈ rest, f ∈ w.st.spool.files
  restKeyed : Keyed (·.key) rest

/-- what a round does: nothing but to the database, or a verdict -/
theorem drainNextIn_cases (T : Tick) (w : Watched) (file : SpoolFile) :
    (attempt E T w.st.db file).1 = none ∧ (drainNextIn E T w file).st.spool = w.st.spool ∧
        (drainNextIn E T w file).log = w.log ∨
      ∃ verdict db, (attempt E T w.st.db file).1 = some verdict ∧
        drainNextIn E T w file = ⟨settle E { w.st with db } file verdict, w.log ++ [(file, verdict)]⟩ := by
  unfold drainNextIn
  rcases hattempt : attempt E T w.st.db file with ⟨_ | verdict, db⟩
  · exact .inl ⟨rfl, rfl, rfl⟩
  · exact .inr ⟨verdict, db, rfl, rfl⟩

theorem drainNextIn_files (T : Tick) (w : Watched) (file : SpoolFile) :
    (drainNextIn E T w file).st.spool.files = w.st.spool.files ∨
      (drainNextIn E T w file).st.spool.files = deleteWhere (·.key = file.key) w.st.spool.files := by
  rcases drainNextIn_cases T w file with ⟨-, hspool, -⟩ | ⟨verdict, db, -, hw⟩
  · exact .inl (congrArg Spool.files hspool)
  · rw [hw]
    dsimp only
    rw [settle_files]
    split
    next => exact .inr rfl
    next => exact .inl rfl

theorem Ready.next {rest : List SpoolFile} (h : Ready w (file :: rest)) : Ready (drainNextIn E T w file) rest := by
  have hkeys := List.nodup_cons.1 h.restKeyed
  rcases drainNextIn_files (E := E) T w file with hfiles | hfiles
  · refine ⟨by rw [hfiles]; exact h.keyed, ?_, hkeys.2⟩
    intro f hf
    rw [hfiles]
    exact h.pending f (List.mem_cons_of_mem _ hf)
  · refine ⟨by rw [hfiles]; exact h.keyed.deleteWhere, ?_, hkeys.2⟩
    intro f hf
    rw [hfiles, mem_deleteWhere]
    refine ⟨h.pending f (List.mem_cons_of_mem _ hf), ?_⟩
    intro heq
    exact hkeys.1 (List.mem_map.2 ⟨f, hf, heq⟩)

/-- every file that can be read costs an attempt -/
theorem Ready.attemptsLeft {files : List SpoolFile} (h : Ready w files)
    (hread : ∀ f ∈ files, f.size ≤ E.config.spoolMaxBytes → T.readable f = true) :
    Ingest.attemptsLeft (files.foldl (drainNextIn E T) w).st.spool + files.length ≤ Ingest.attemptsLeft w.st.spool := by
  induction files generalizing w with
  | nil => exact le_rfl
  | cons file files ih =>
    have hnext : Ready (drainNextIn E T w file) files := h.next
    have hrest := ih hnext fun f hf => hread f (List.mem_cons_of_mem _ hf)
    have hstep : Ingest.attemptsLeft (drainNextIn E T w file).st.spool + 1 ≤ Ingest.attemptsLeft w.st.spool := by
      rcases drainNextIn_cases (E := E) T w file with ⟨hnone, -⟩ | ⟨verdict, db, -, hw⟩
      · have hreadable := hread file List.mem_cons_self
        unfold attempt at hnone
        split at hnone
        · cases hnone
        · rename_i hsize
          rw [if_neg (by simp [hreadable (not_lt.1 hsize)])] at hnone
          split at hnone <;> cases hnone
      · rw [hw]
        have hkeyed : Keyed (·.key) { w.st with db }.spool.files := h.keyed
        exact settle_attemptsLeft hkeyed (h.pending file List.mem_cons_self)
    rw [List.foldl_cons, List.length_cons]
    omega

theorem ready_batch (maxPerTick : ℕ) (hkeyed : Keyed (·.key) w.st.spool.files) :
    Ready (opened T w) (batch E maxPerTick T w) := by
  have hlist : (listSpoolFiles E (opened T w).st.spool).Perm w.st.spool.files := List.perm_insertionSort _ _
  refine ⟨hkeyed, ?_, ?_⟩
  · intro f hf
    exact hlist.mem_iff.1 (List.mem_of_mem_take hf)
  · have hkeys : Keyed (·.key) (listSpoolFiles E (opened T w).st.spool) := (hlist.map _).nodup_iff.2 hkeyed
    exact hkeys.sublist ((List.take_sublist _ _).map _)

/-! ## What becomes of a file -/

/-- small enough, an envelope, and past the checks before the transaction -/
def Ingestible (E : Env) (file : SpoolFile) : Prop :=
  file.size ≤ E.config.spoolMaxBytes ∧
    ∃ data, parsed E file = some data ∧ data.kind = .transcript ∧ Admitted E data

def Ingested (w : Watched) (file : SpoolFile) : Prop := (file, .stored) ∈ w.log ∨ (file, .replayed) ∈ w.log

def InQuarantine (w : Watched) (file : SpoolFile) : Prop := ∃ reason, (file, reason) ∈ w.st.spool.quarantine

/-- it can never be ingested -/
def Refused (E : Env) (w : Watched) (file : SpoolFile) : Prop := ¬ Ingestible E file ∨ (file, .conflict) ∈ w.log

/-- at the last attempt at an ingestible file nothing throws, and the ids drawn are new -/
def LastAttempt (E : Env) (T : Tick) (w : Watched) (file : SpoolFile) : Prop :=
  Ingestible E file → maxDrainAttempts ≤ failures w.st.spool file.key + 1 →
    T.throws file = none ∧ FreshIds E w.st.db

theorem drainFile_ingestible {db : Db} (h : (drainFile E db file).1 = .stored ∨ (drainFile E db file).1 = .replayed) :
    Ingestible E file := by
  unfold drainFile at h
  split at h
  next => rcases h with h | h <;> cases h
  next hsize =>
    split at h
    next => rcases h with h | h <;> cases h
    next value hcontent =>
      split at h
      next => rcases h with h | h <;> cases h
      next data hparse =>
        have hparsed : parsed E file = some data := by rw [parsed, hcontent, Option.bind_some, hparse]
        have hchecked : data.kind = .transcript ∧ Admitted E data := by
          by_cases hgate : data.kind = .events ∨ data.turns.getD [] = []
          · have heq : ingestCanonicalTranscript E db data (some file.key) none = .error .requiresTurns := by
              unfold ingestCanonicalTranscript
              rw [if_pos hgate]
            rw [heq] at h
            rcases h with h | h <;> cases h
          · by_cases hcaptions : data.captureSource = some .meetingCaptions ∧ ¬ E.config.meetingCaptionsEnabled
            · have heq : ingestCanonicalTranscript E db data (some file.key) none = .error .meetingCaptionsDisabled := by
                unfold ingestCanonicalTranscript
                rw [if_neg hgate, if_pos hcaptions]
              rw [heq] at h
              rcases h with h | h <;> cases h
            · obtain ⟨hkind, hturns⟩ := not_or.1 hgate
              refine ⟨?_, fun _ => ⟨hturns, hcaptions⟩⟩
              cases hdata : data.kind with
              | transcript => rfl
              | events => exact absurd hdata hkind
        exact ⟨not_lt.1 hsize, data, hparsed, hchecked⟩

/-- with new ids, an ingestible file is stored, a replay or a conflict -/
theorem drainFile_settled {db : Db} (hfile : Ingestible E file) (hfresh : FreshIds E db) :
    (drainFile E db file).1 = .stored ∨ (drainFile E db file).1 = .replayed ∨ (drainFile E db file).1 = .conflict := by
  obtain ⟨hsize, data, hparsed, hkind, hadmitted⟩ := hfile
  obtain ⟨value, hcontent, hparse⟩ := Option.bind_eq_some_iff.1 hparsed
  unfold drainFile
  rw [if_neg (not_lt.2 hsize), hcontent]
  dsimp only
  rw [hparse]
  dsimp only
  rw [ingestCanonicalTranscript_eq hkind]
  by_cases hfree : SlotFree db file.key (bodyHash E data)
  · rcases ingestCanonical_fresh hadmitted hfresh hfree with ⟨⟨result, after⟩, hok⟩ | ⟨n, hreplay⟩
    · rw [hok]
      exact .inl rfl
    · rw [hreplay]
      exact .inr (.inl rfl)
  · rw [(ingestCanonical_conflict hadmitted).2 hfree]
    exact .inr (.inr rfl)

theorem lastAttempt_settled {reason : DrainFailure} (hlast : LastAttempt E T w file)
    (hout : takesOut w.st.spool file (.failed reason) = true)
    (hfailed : (attempt E T w.st.db file).1 = some (.failed reason)) : ¬ Ingestible E file := by
  intro hfile
  obtain ⟨hthrows, hfresh⟩ := hlast hfile (by simpa [takesOut] using hout)
  have hsettled := drainFile_settled hfile hfresh
  unfold attempt at hfailed
  rw [if_neg (not_lt.2 hfile.1), hthrows] at hfailed
  split at hfailed
  · cases hfailed
  · split at hfailed
    next heq => cases heq
    next =>
      rw [Option.some.inj hfailed] at hsettled
      rcases hsettled with h | h | h <;> cases h

/-- what is ingested was ingestible -/
theorem attempt_ingestible {db : Db}
    (h : (attempt E T db file).1 = some .stored ∨ (attempt E T db file).1 = some .replayed) : Ingestible E file := by
  unfold attempt at h
  split at h
  next => rcases h with h | h <;> cases h
  next =>
    split at h
    next => rcases h with h | h <;> cases h
    next =>
      split at h
      next => rcases h with h | h <;> cases h
      next => exact drainFile_ingestible (h.imp Option.some.inj Option.some.inj)

theorem attempt_oversize {db : Db} (h : (attempt E T db file).1 = some .oversize) : ¬ Ingestible E file := by
  intro hwell
  unfold attempt at h
  rw [if_neg (not_lt.2 hwell.1)] at h
  split at h
  · cases h
  · split at h
    · cases h
    · have hdrain := Option.some.inj h
      unfold drainFile at hdrain
      rw [if_neg (not_lt.2 hwell.1)] at hdrain
      split at hdrain
      · cases hdrain
      · split at hdrain
        · cases hdrain
        · split at hdrain <;> cases hdrain

/-- a file the round takes out is ingested, or it is quarantined for good -/
theorem takenOut_fate {verdict : DrainVerdict} (hverdict : (attempt E T w.st.db file).1 = some verdict)
    (hlast : LastAttempt E T w file) (hout : takesOut w.st.spool file verdict = true) (db : Db) :
    (verdict = .stored ∨ verdict = .replayed) ∨
      (∃ reason, (file, reason) ∈ (settle E { w.st with db } file verdict).spool.quarantine) ∧
        (¬ Ingestible E file ∨ verdict = .conflict) := by
  have hmoved (hs : verdict ≠ .stored) (hr : verdict ≠ .replayed) :
      ∃ reason, (file, reason) ∈ (settle E { w.st with db } file verdict).spool.quarantine := by
    have houtdb : takesOut { w.st with db }.spool file verdict = true := hout
    exact settle_quarantined houtdb hs hr
  cases verdict with
  | stored => exact .inl (.inl rfl)
  | replayed => exact .inl (.inr rfl)
  | oversize => exact .inr ⟨hmoved (by simp) (by simp), .inl (attempt_oversize hverdict)⟩
  | conflict => exact .inr ⟨hmoved (by simp) (by simp), .inr rfl⟩
  | failed reason => exact .inr ⟨hmoved (by simp) (by simp), .inl (lastAttempt_settled hlast hout hverdict)⟩

/-- the files of the start of a loop, each in the spool, ingested, or quarantined behind the loop -/
def Fates (E : Env) (start : List SpoolFile) (w : Watched) (rest : List SpoolFile) : Prop :=
  ∀ f ∈ start, f ∈ w.st.spool.files ∨ Ingested w f ∨
    InQuarantine w f ∧ Refused E w f ∧ f.key ∉ rest.map (·.key)

theorem Ingested.snoc {entry : SpoolFile × DrainVerdict} {st' : DrainState} {f : SpoolFile} (h : Ingested w f) :
    Ingested ⟨st', w.log ++ [entry]⟩ f := h.imp (List.mem_append_left _) (List.mem_append_left _)

theorem Refused.snoc {entry : SpoolFile × DrainVerdict} {st' : DrainState} {f : SpoolFile} (h : Refused E w f) :
    Refused E ⟨st', w.log ++ [entry]⟩ f := h.imp_right (List.mem_append_left _)

theorem Fates.next {start rest : List SpoolFile} (h : Fates E start w (file :: rest)) (hready : Ready w (file :: rest))
    (hlast : LastAttempt E T w file) : Fates E start (drainNextIn E T w file) rest := by
  intro f hf
  have hfile := hready.pending file List.mem_cons_self
  rcases drainNextIn_cases (E := E) T w file with ⟨-, hspool, hlog⟩ | ⟨verdict, db, hverdict, hw⟩
  · rcases h f hf with hin | hingested | ⟨hquarantined, hrefused, hkey⟩
    · exact .inl (hspool ▸ hin)
    · refine .inr (.inl ?_)
      unfold Ingested
      rw [hlog]
      exact hingested
    · refine .inr (.inr ⟨?_, ?_, fun hmem => hkey (List.mem_cons_of_mem _ hmem)⟩)
      · unfold InQuarantine
        rw [hspool]
        exact hquarantined
      · unfold Refused
        rw [hlog]
        exact hrefused
  · rw [hw]
    have hfiles : (settle E { w.st with db } file verdict).spool.files =
        if takesOut w.st.spool file verdict then deleteWhere (·.key = file.key) w.st.spool.files else w.st.spool.files :=
      settle_files verdict
    rcases h f hf with hin | hingested | ⟨hquarantined, hrefused, hkey⟩
    · cases hout : takesOut w.st.spool file verdict with
      | false =>
        refine .inl ?_
        dsimp only
        rw [hfiles, hout]
        exact hin
      | true =>
        by_cases hsame : f = file
        · subst hsame
          rcases takenOut_fate hverdict hlast hout db with hstored | ⟨hmoved, hwhy⟩
          · refine .inr (.inl (hstored.imp ?_ ?_))
            · rintro rfl
              exact List.mem_append_right _ List.mem_cons_self
            · rintro rfl
              exact List.mem_append_right _ List.mem_cons_self
          · refine .inr (.inr ⟨hmoved, hwhy.imp_right ?_, (List.nodup_cons.1 hready.restKeyed).1⟩)
            rintro rfl
            exact List.mem_append_right _ List.mem_cons_self
        · refine .inl ?_
          dsimp only
          rw [hfiles, hout, if_pos rfl, mem_deleteWhere]
          exact ⟨hin, fun heq => hsame (hready.keyed.inj hin hfile heq)⟩
    · exact .inr (.inl hingested.snoc)
    · have hne : f.key ≠ file.key := fun heq => hkey (heq ▸ List.mem_cons_self)
      obtain ⟨reason, hreason⟩ := hquarantined
      have hkept : (f, reason) ∈ { w.st with db }.spool.quarantine := hreason
      refine .inr (.inr ⟨⟨reason, ?_⟩, hrefused.snoc, fun hmem => hkey (List.mem_cons_of_mem _ hmem)⟩)
      exact settle_keeps_quarantined hkept hne

/-! ## Runs -/

theorem drainNextIn_log (T : Tick) (w : Watched) (file : SpoolFile) : w.log <+: (drainNextIn E T w file).log := by
  rcases drainNextIn_cases (E := E) T w file with ⟨-, -, hlog⟩ | ⟨verdict, db, -, hw⟩
  · exact hlog ▸ List.prefix_rfl
  · rw [hw]
    exact List.prefix_append _ _

theorem drainNextIn_shrinks (T : Tick) (w : Watched) (file : SpoolFile) :
    (drainNextIn E T w file).st.spool.files ⊆ w.st.spool.files := by
  rcases drainNextIn_files (E := E) T w file with hfiles | hfiles
  · rw [hfiles]
    exact List.Subset.refl _
  · rw [hfiles]
    intro f hf
    exact (mem_deleteWhere.1 hf).1

/-- a loop adds to the log, takes from the files and decides their fates -/
theorem loop_fates {start files : List SpoolFile} (hready : Ready w files) (hfates : Fates E start w files)
    (hlast : Along (drainNextIn E T) (LastAttempt E T) w files) :
    Keyed (·.key) (files.foldl (drainNextIn E T) w).st.spool.files ∧
      Fates E start (files.foldl (drainNextIn E T) w) [] := by
  induction files generalizing w with
  | nil => exact ⟨hready.keyed, hfates⟩
  | cons file files ih => exact ih hready.next (hfates.next hready hlast.1) hlast.2

theorem loop_log (files : List SpoolFile) : w.log <+: (files.foldl (drainNextIn E T) w).log := by
  induction files generalizing w with
  | nil => exact List.prefix_rfl
  | cons file files ih => exact (drainNextIn_log T w file).trans ih

theorem loop_shrinks (files : List SpoolFile) :
    (files.foldl (drainNextIn E T) w).st.spool.files ⊆ w.st.spool.files := by
  induction files generalizing w with
  | nil => exact List.Subset.refl _
  | cons file files ih =>
    intro f hf
    exact drainNextIn_shrinks T w file (ih hf)

variable {maxPerTick : ℕ} {T : ℕ → Tick}

/-- no last attempt at an ingestible file goes wrong in the run -/
def Calm (E : Env) (maxPerTick : ℕ) (T : ℕ → Tick) (spool : Spool) : Prop :=
  ∀ n, Along (drainNextIn E (T n)) (LastAttempt E (T n)) (opened (T n) (ticks E maxPerTick T spool n))
    (batch E maxPerTick (T n) (ticks E maxPerTick T spool n))

theorem ticks_shrinks (n : ℕ) : (ticks E maxPerTick T spool n).st.spool.files ⊆ spool.files := by
  induction n with
  | zero => exact List.Subset.refl _
  | succ n ih =>
    intro f hf
    exact ih (loop_shrinks (w := opened (T n) (ticks E maxPerTick T spool n)) _ hf)

theorem ticks_log (n : ℕ) : (ticks E maxPerTick T spool n).log <+: (ticks E maxPerTick T spool (n + 1)).log :=
  loop_log (w := opened (T n) (ticks E maxPerTick T spool n)) _

/-- the fate of a file after the ticks: still there, ingested, or quarantined for good -/
def Fate (E : Env) (maxPerTick : ℕ) (T : ℕ → Tick) (spool : Spool) (n : ℕ) (f : SpoolFile) : Prop :=
  f ∈ (ticks E maxPerTick T spool n).st.spool.files ∨ Ingested (ticks E maxPerTick T spool n) f ∨
    (∃ k ≤ n, InQuarantine (ticks E maxPerTick T spool k) f) ∧ Refused E (ticks E maxPerTick T spool n) f

/-- **Nothing is lost.** -/
theorem ticks_fate (hkeys : Keyed (·.key) spool.files) (hcalm : Calm E maxPerTick T spool) (n : ℕ) :
    Keyed (·.key) (ticks E maxPerTick T spool n).st.spool.files ∧ ∀ f ∈ spool.files, Fate E maxPerTick T spool n f := by
  induction n with
  | zero => exact ⟨hkeys, fun f hf => .inl hf⟩
  | succ n ih =>
    obtain ⟨hkeyed, hfate⟩ := ih
    have hloop := loop_fates (ready_batch maxPerTick hkeyed)
      (fun f hf => .inl hf : Fates E (ticks E maxPerTick T spool n).st.spool.files
        (opened (T n) (ticks E maxPerTick T spool n)) _) (hcalm n)
    refine ⟨hloop.1, ?_⟩
    intro f hf
    have hlog : (ticks E maxPerTick T spool n).log ⊆ (ticks E maxPerTick T spool (n + 1)).log := (ticks_log n).subset
    rcases hfate f hf with hin | hingested | ⟨⟨k, hk, hquarantined⟩, hrefused⟩
    · rcases hloop.2 f hin with hin | hingested | ⟨hquarantined, hrefused, -⟩
      · exact .inl hin
      · exact .inr (.inl hingested)
      · exact .inr (.inr ⟨⟨n + 1, le_rfl, hquarantined⟩, hrefused⟩)
    · exact .inr (.inl (hingested.imp (hlog ·) (hlog ·)))
    · exact .inr (.inr ⟨⟨k, by omega, hquarantined⟩, hrefused.imp_right (hlog ·)⟩)

/-- every success in the log is of an ingestible file -/
def LogIngestible (E : Env) (w : Watched) : Prop := ∀ f, Ingested w f → Ingestible E f

theorem loop_logIngestible {T : Tick} {files : List SpoolFile} (h : LogIngestible E w) :
    LogIngestible E (files.foldl (drainNextIn E T) w) := by
  induction files generalizing w with
  | nil => exact h
  | cons file files ih =>
    apply ih
    intro f hf
    rcases drainNextIn_cases (E := E) T w file with ⟨-, -, hlog⟩ | ⟨verdict, db, hverdict, hw⟩
    · apply h f
      unfold Ingested at hf ⊢
      rw [hlog] at hf
      exact hf
    · unfold Ingested at hf
      rw [hw] at hf
      simp only [List.mem_append, List.mem_singleton, Prod.mk.injEq] at hf
      rcases hf with (hold | ⟨rfl, rfl⟩) | hold | ⟨rfl, rfl⟩
      · exact h f (.inl hold)
      · exact attempt_ingestible (.inl hverdict)
      · exact h f (.inr hold)
      · exact attempt_ingestible (.inr hverdict)

theorem ticks_logIngestible (n : ℕ) : LogIngestible E (ticks E maxPerTick T spool n) := by
  induction n with
  | zero =>
    intro f hf
    rcases hf with hf | hf <;> cases hf
  | succ n ih =>
    have hopened : LogIngestible E (opened (T n) (ticks E maxPerTick T spool n)) := ih
    exact loop_logIngestible hopened

/-- **A tick makes progress**, when it can read what it takes up. -/
theorem tick_attemptsLeft {T : Tick} (hlimit : 0 < maxPerTick) (hkeyed : Keyed (·.key) w.st.spool.files)
    (hread : ∀ f ∈ w.st.spool.files, f.size ≤ E.config.spoolMaxBytes → T.readable f = true)
    (hfiles : w.st.spool.files ≠ []) : attemptsLeft (tickIn E maxPerTick T w).st.spool < attemptsLeft w.st.spool := by
  have hready := ready_batch (E := E) (T := T) maxPerTick hkeyed
  have hcost : attemptsLeft ((batch E maxPerTick T w).foldl (drainNextIn E T) (opened T w)).st.spool +
      (batch E maxPerTick T w).length ≤ attemptsLeft (opened T w).st.spool :=
    hready.attemptsLeft fun f hf => hread f (hready.pending f hf)
  have hlist : (listSpoolFiles E (opened T w).st.spool).length = w.st.spool.files.length :=
    (List.perm_insertionSort _ _).length_eq
  have hsize : 0 < (batch E maxPerTick T w).length := by
    rw [batch, List.length_take, hlist]
    have := List.length_pos_iff.2 hfiles
    omega
  have hsame : attemptsLeft (opened T w).st.spool = attemptsLeft w.st.spool := rfl
  unfold tickIn
  omega

/-- after finitely many ticks the spool is empty, every ingestible file has been ingested, but for conflicts, and every
other file has been quarantined -/
def Drains (E : Env) (maxPerTick : ℕ) (T : ℕ → Tick) (spool : Spool) : Prop :=
  ∃ n, (ticks E maxPerTick T spool n).st.spool.files = [] ∧ ∀ f ∈ spool.files,
    (Ingestible E f → Ingested (ticks E maxPerTick T spool n) f ∨ (f, .conflict) ∈ (ticks E maxPerTick T spool n).log) ∧
    (¬ Ingestible E f → ∃ k ≤ n, InQuarantine (ticks E maxPerTick T spool k) f)

/-- **Progress of the drain.** Where from some tick on the files can be read and no last attempt at an ingestible file
goes wrong, the spool drains. At no time is a file gone that was neither ingested nor quarantined. -/
theorem drain_progress (E : Env) (maxPerTick : ℕ) (T : ℕ → Tick) (spool : Spool) (hlimit : 0 < maxPerTick)
    (hkeys : Keyed (·.key) spool.files) (hcalm : Calm E maxPerTick T spool)
    (hread : ∃ start, ∀ n, start ≤ n → ∀ f ∈ spool.files, f.size ≤ E.config.spoolMaxBytes → (T n).readable f = true) :
    Drains E maxPerTick T spool ∧ ∀ n, ∀ f ∈ spool.files, Fate E maxPerTick T spool n f := by
  refine ⟨?_, fun n => (ticks_fate hkeys hcalm n).2⟩
  obtain ⟨start, hread⟩ := hread
  obtain ⟨n, hempty⟩ := exists_done (s := ticks E maxPerTick T spool) (fun w => attemptsLeft w.st.spool)
    (fun w => w.st.spool.files = []) start fun n hn hfiles =>
      tick_attemptsLeft hlimit (ticks_fate hkeys hcalm n).1 (fun f hf => hread n hn f (ticks_shrinks n hf)) hfiles
  refine ⟨n, hempty, ?_⟩
  intro f hf
  rcases (ticks_fate hkeys hcalm n).2 f hf with hin | hingested | ⟨hquarantined, hrefused⟩
  · rw [hempty] at hin
    cases hin
  · exact ⟨fun _ => .inl hingested, fun hnot => absurd (ticks_logIngestible n f hingested) hnot⟩
  · exact ⟨fun hwell => hrefused.elim (absurd hwell) .inr, fun _ => hquarantined⟩

/-- a file that is no JSON -/
def tornFile : SpoolFile := ⟨"a", 512, none, 0⟩

/-- every tick finds every file readable -/
def calmTick (n : ℕ) : Tick := ⟨n, {}, fun _ => true, fun _ => none⟩

theorem drain_progress_torn : Drains (tableEnv [] []) 1 calmTick { files := [tornFile] } ∧
    ∀ n, ∀ f ∈ [tornFile], Fate (tableEnv [] []) 1 calmTick { files := [tornFile] } n f := by
  apply drain_progress (tableEnv [] []) 1 calmTick { files := [tornFile] } (by decide) (List.nodup_singleton _)
  · intro n
    have hbatch : ∀ f ∈ batch (tableEnv [] []) 1 (calmTick n) (ticks (tableEnv [] []) 1 calmTick { files := [tornFile] } n),
        f = tornFile := by
      intro f hf
      have hlist := (List.mem_insertionSort _).1 (List.mem_of_mem_take hf)
      exact List.mem_singleton.1 (ticks_shrinks n hlist)
    apply ((along_trivial _ _ _).and_forall hbatch).mono
    intro w f h hfile
    rw [h.2] at hfile
    obtain ⟨-, data, hparsed, -⟩ := hfile
    cases hparsed
  · exact ⟨0, fun n _ f _ _ => rfl⟩

/-! ## Starvation -/

/-- **Unreadable files.** When no file at the head of the listing can be read, nothing behind them is drained, ever. -/
theorem unreadable_starves
    (hread : ∀ n, ∀ f ∈ (listSpoolFiles E spool).take maxPerTick,
      (T n).readable f = false ∧ f.size ≤ E.config.spoolMaxBytes) (n : ℕ) :
    (ticks E maxPerTick T spool n).st.spool.files = spool.files ∧ (ticks E maxPerTick T spool n).log = [] := by
  have hskips : ∀ {T : Tick} (files : List SpoolFile) (w : Watched),
      (∀ f ∈ files, T.readable f = false ∧ f.size ≤ E.config.spoolMaxBytes) →
        (files.foldl (drainNextIn E T) w).st.spool = w.st.spool ∧ (files.foldl (drainNextIn E T) w).log = w.log := by
    intro T files
    induction files with
    | nil => exact fun w _ => ⟨rfl, rfl⟩
    | cons file files ih =>
      intro w h
      obtain ⟨hunreadable, hsize⟩ := h file List.mem_cons_self
      have hskip : attempt E T w.st.db file = (none, w.st.db) := by
        rw [attempt, if_neg (not_lt.2 hsize), if_pos hunreadable]
      have hrest := ih (drainNextIn E T w file) fun f hf => h f (List.mem_cons_of_mem _ hf)
      rw [List.foldl_cons, hrest.1, hrest.2, drainNextIn, hskip]
      exact ⟨rfl, rfl⟩
  induction n with
  | zero => exact ⟨rfl, rfl⟩
  | succ n ih =>
    obtain ⟨hfiles, hlog⟩ := ih
    have hlist : listSpoolFiles E (opened (T n) (ticks E maxPerTick T spool n)).st.spool = listSpoolFiles E spool := by
      unfold listSpoolFiles
      show (ticks E maxPerTick T spool n).st.spool.files.insertionSort _ = _
      rw [hfiles]
    have hrest := hskips (T := T n) (batch E maxPerTick (T n) (ticks E maxPerTick T spool n))
      (opened (T n) (ticks E maxPerTick T spool n)) (by
        rw [batch, hlist]
        exact hread n)
    refine ⟨?_, hrest.2.trans hlog⟩
    show (tickIn E maxPerTick (T n) (ticks E maxPerTick T spool n)).st.spool.files = spool.files
    rw [tickIn, hrest.1]
    exact hfiles

/-- the smallest envelope the ingest takes -/
def spooledGreeting : Envelope where
  event := .sessionEnd
  sessionId := "s"
  projectId := "p"
  capturedAt := "2026-01-01T00:00:00.000Z"
  turns := some [{ role := .user, text := "hi" }]
  clientScrubApplied := false
  clientScrubHits := 0
  clientVersion := "1"
  clientScrubVersion := "none"
  wireVersion := "v1.0"

def greetingFile : SpoolFile := ⟨"b", 512, some spooledGreeting.toJson, 0⟩

def instantEnv : Env := tableEnv [] [("2026-01-01T00:00:00.000Z", 0)]

/-- a file that no tick can read stands before it -/
def lockedSpool : Spool := { files := [tornFile, greetingFile] }

def lockedTick (n : ℕ) : Tick := { calmTick n with readable := fun f => f.key ≠ "a" }

/-- **Starvation.** The envelope behind an unreadable file stays in the spool, tick after tick. -/
theorem locked_head_starves : Ingestible instantEnv greetingFile ∧ (∀ n, (lockedTick n).readable greetingFile = true) ∧
    (∀ n, greetingFile ∈ (ticks instantEnv 1 lockedTick lockedSpool n).st.spool.files ∧
      ¬ Ingested (ticks instantEnv 1 lockedTick lockedSpool n) greetingFile) ∧
    ¬ Drains instantEnv 1 lockedTick lockedSpool := by
  have hfile : Ingestible instantEnv greetingFile := by
    have hparse : safeParse instantEnv.isDatetime spooledGreeting.toJson = some spooledGreeting :=
      safeParse_toJson instantEnv.isDatetime spooledGreeting (by decide +kernel)
    refine ⟨by decide, spooledGreeting, hparse, rfl, ?_⟩
    intro _
    exact ⟨by decide, by decide⟩
  have hunreadable : ∀ n, ∀ f ∈ (listSpoolFiles instantEnv lockedSpool).take 1,
      (lockedTick n).readable f = false ∧ f.size ≤ instantEnv.config.spoolMaxBytes := by
    intro n f hf
    have hhead : (listSpoolFiles instantEnv lockedSpool).take 1 = [tornFile] := rfl
    rw [hhead] at hf
    obtain rfl := List.mem_singleton.1 hf
    exact ⟨rfl, by decide⟩
  have hstays := unreadable_starves hunreadable
  have hgreeting : greetingFile ∈ lockedSpool.files := List.mem_cons_of_mem _ List.mem_cons_self
  refine ⟨hfile, fun n => rfl, ?_, ?_⟩
  · intro n
    refine ⟨(hstays n).1 ▸ hgreeting, ?_⟩
    unfold Ingested
    rw [(hstays n).2]
    simp
  · intro h
    obtain ⟨n, hempty, -⟩ := h
    rw [(hstays n).1] at hempty
    cases hempty

end AstramemLocal.Ingest
