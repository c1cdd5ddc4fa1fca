/-
Stages 4 and 5 over the checkpoint store (`04-compact.ts`, `05-extract.ts`, `cost-cap.ts`, `pipeline.ts`): pipeline runs
of any transcripts and settings, first attempts and retries alike, share one store and interleave at every await. A key
names the source hash, the stage, the chunk and the extraction profile. What it leaves out is shared by whoever reads
the entry: `checkpoints_transparent` says that every entry read was computed from the reader's inputs exactly when every
reader agrees with the writer of the entry on what the key leaves out, and the cost cap let the writer's call through.
- `recorded_step`: an entry is what was last computed under its key; eviction and `clear` never bring an older one back.
- `stale_checkpoints`: the same transcript on two dates, under two profiles, and a retry after a capped call.
-/
import AstramemLocal.Core.Json
import AstramemLocal.Core.Runs
import AstramemLocal.Distill.ChunkCheckpoint
import AstramemLocal.Distill.DualPass

namespace AstramemLocal.Distill

open AstramemLocal.Core

/-! ## `cost-cap.ts` -/

structure DistillCostCapConfig where
  enabled : Bool
  maxCallsPerJob : Option ℕ := none
  maxWallClockMs : Option ℕ := none
deriving DecidableEq, Repr

def DistillCostCapConfig.shouldStop (cap : DistillCostCapConfig) (callsThisJob elapsed : ℕ) : Bool :=
  cap.enabled && (cap.maxCallsPerJob.any (· ≤ callsThisJob) || cap.maxWallClockMs.any (· ≤ elapsed))

def DistillCostCapConfig.recordCall (cap : DistillCostCapConfig) (callsThisJob : ℕ) : ℕ :=
  if cap.enabled then callsThisJob + 1 else callsThisJob

/-! ## The gate of stage 4 -/

inductive CompactionMode where
  | auto | always | never
deriving DecidableEq, Repr

def shouldCompact (profile : ExtractProfile) : CompactionMode → Bool
  | .always => true
  | .never => false
  | .auto => profile ≠ .conversational

def compactionFitsThresholdChars : ℕ := 800

def chunkAlreadyFits (text : String) : Bool := (codeUnits text).length ≤ compactionFitsThresholdChars

inductive CompactSkipReason where
  | modeNever | profile | size
deriving DecidableEq, Repr

structure CompactionDecision where
  compact : Bool
  skipReason : Option CompactSkipReason := none
deriving DecidableEq, Repr

def compactionDecisionFor (text : String) (profile : ExtractProfile) : CompactionMode → CompactionDecision
  | .never => ⟨false, some .modeNever⟩
  | .always => ⟨true, none⟩
  | .auto =>
    if profile = .conversational then ⟨false, some .profile⟩
    else if chunkAlreadyFits text then ⟨false, some .size⟩
    else ⟨true, none⟩

/-! ## A pipeline run -/

structure Chunk where
  index : ℕ
  text : String
deriving DecidableEq, Repr

/-- the transcript and the settings a run resolves before stage 4 -/
structure PipelineContext where
  sourceHash : Option String
  chunksForExtraction : List Chunk
  resolvedExtractProfile : ExtractProfile
  compactionMode : CompactionMode
  sessionDateIso : Option String
  costCap : DistillCostCapConfig
  extractionPasses : ℕ
  sweepOnlyBelowAtoms : ℕ
deriving DecidableEq, Repr

/-- `compact`, `extract` and `extractSpecifics` -/
inductive StageCall where
  | compact | extract | extractSpecifics
deriving DecidableEq, Repr

inductive StageResult where
  | compacted (text : String)
  | extracted (atoms : List Atom)
deriving DecidableEq, Repr

/-- why a chunk is not sent to the provider, or that it is -/
inductive Dispatch where
  | unneeded | capped | called
deriving DecidableEq, Repr

/-- what comes back from a provider: its text, or the atoms parsed from it -/
structure Reply where
  text : String := ""
  atoms : List Atom := []
deriving DecidableEq, Repr

structure Attempt where
  ctx : PipelineContext
  startedAt : ℕ
  callsThisJob : ℕ := 0
  /-- a chunk was rejected, or the run is over: nothing further is dispatched -/
  stopped : Bool := false
  /-- the calls whose look-ups are made -/
  opened : List StageCall := []
  inFlight : List (StageCall × Chunk × Dispatch) := []
  results : List ((StageCall × ℕ) × StageResult) := []
deriving DecidableEq, Repr

namespace PipelineContext

variable (ctx : PipelineContext)

/-- an empty hash is falsy -/
def checkpointJobKey : Option String := ctx.sourceHash.filter (· ≠ "")

/-- the job key a call uses the store with; `compact` returns before the look-ups when it has nothing to do -/
def storeKey : StageCall → Option String
  | .compact => if shouldCompact ctx.resolvedExtractProfile ctx.compactionMode then ctx.checkpointJobKey else none
  | .extract | .extractSpecifics => ctx.checkpointJobKey

def cacheId (jobKey : String) (index : ℕ) : StageCall → CacheId
  | .compact => ⟨jobKey, .compact, index, .none⟩
  | .extract => ⟨jobKey, .extract, index, .profile ctx.resolvedExtractProfile⟩
  | .extractSpecifics => ⟨jobKey, .extract, index, .specificsSweeper⟩

/-- `compactionDecisionFor` and the test for an empty chunk come before the cap -/
def verdict (chk : Chunk) (callsThisJob elapsed : ℕ) (call : StageCall) : Dispatch :=
  if call = .compact ∧ (compactionDecisionFor chk.text ctx.resolvedExtractProfile ctx.compactionMode).compact = false ∨
      trim chk.text.toList = [] then .unneeded
  else if ctx.costCap.shouldStop callsThisJob elapsed then .capped
  else .called

end PipelineContext

namespace Attempt

variable (a : Attempt)

def resultOf (call : StageCall) (index : ℕ) : Option StageResult :=
  (lookup Prod.fst (call, index) a.results).map Prod.snd

/-- `r.text || chunk.text` -/
def compactedText (chk : Chunk) : String :=
  match a.resultOf .compact chk.index with
  | some (.compacted text) => if text = "" then chk.text else text
  | _ => chk.text

def compactedChunks : List Chunk := a.ctx.chunksForExtraction.map fun chk => ⟨chk.index, a.compactedText chk⟩

def passAAtoms (index : ℕ) : ℕ :=
  match a.resultOf .extract index with
  | some (.extracted atoms) => atoms.length
  | _ => 0

/-- the chunks a call is given -/
def targets : StageCall → List Chunk
  | .compact => a.ctx.chunksForExtraction
  | .extract => a.compactedChunks
  | .extractSpecifics =>
    if 0 < a.ctx.sweepOnlyBelowAtoms then
      a.compactedChunks.filter fun chk => a.passAAtoms chk.index < a.ctx.sweepOnlyBelowAtoms
    else a.compactedChunks

def complete (call : StageCall) : Bool :=
  call ∈ a.opened ∧ ∀ chk ∈ a.targets call, (a.resultOf call chk.index).isSome

/-- the run has come to the call -/
def ready (call : StageCall) : Bool :=
  !a.stopped && call ∉ a.opened && match call with
    | .compact => true
    | .extract => a.complete .compact
    | .extractSpecifics => a.ctx.extractionPasses = 2 ∧ a.complete .extract

def finished : Bool :=
  !a.stopped && a.complete .extract && (a.ctx.extractionPasses ≠ 2 || a.complete .extractSpecifics)

/-- a chunk that waits to be dispatched -/
def pending (call : StageCall) (index : ℕ) : Option Chunk :=
  if a.stopped ∨ call ∉ a.opened ∨ (a.resultOf call index).isSome ∨
      (∃ f ∈ a.inFlight, f.1 = call ∧ f.2.1.index = index) then none
  else (a.targets call).find? (·.index = index)

end Attempt

/-- what a chunk's call returns; `none` when the budget, the provider or the parse throws -/
def outcome (call : StageCall) : Dispatch → Option Reply → Option StageResult
  | .called, none => none
  | .called, some reply =>
    match call with
    | .compact => some (.compacted (String.ofList (trim reply.text.toList)))
    | .extract | .extractSpecifics => some (.extracted reply.atoms)
  | .unneeded, _ | .capped, _ =>
    match call with
    | .compact => some (.compacted "")
    | .extract | .extractSpecifics => some (.extracted [])

/-! ## Inputs -/

/-- what the result of a stage depends on -/
inductive StageInputs where
  | compact (text : String) (profile : ExtractProfile) (mode : CompactionMode)
  | extract (text : String) (sessionDateIso : Option String) (prompt : Variant)
deriving DecidableEq, Repr

def PipelineContext.inputs (ctx : PipelineContext) (chk : Chunk) : StageCall → StageInputs
  | .compact => .compact chk.text ctx.resolvedExtractProfile ctx.compactionMode
  | .extract => .extract chk.text ctx.sessionDateIso (.profile ctx.resolvedExtractProfile)
  | .extractSpecifics => .extract chk.text ctx.sessionDateIso .specificsSweeper

/-- an entry of the store, with what it was computed from -/
structure Cached where
  result : StageResult
  inputs : StageInputs
  capSkipped : Bool
deriving DecidableEq, Repr

/-- a computation of the log: who computed what for which key -/
structure Computed where
  id : CacheId
  ctx : PipelineContext
  call : StageCall
  chunk : Chunk
  capSkipped : Bool
deriving DecidableEq, Repr

/-! ## Runs -/

structure CheckpointSt where
  store : ChunkCheckpointStore Cached
  attempts : List Attempt
  /-- the computations so far, the newest first -/
  computed : List Computed

inductive CheckpointOp where
  /-- the handler calls `runPipeline`: a new job, or the retry of one -/
  | start (ctx : PipelineContext) (now : ℕ)
  | look (attempt : ℕ) (call : StageCall)
  | dispatch (attempt : ℕ) (call : StageCall) (index now : ℕ)
  | settle (attempt : ℕ) (call : StageCall) (index : ℕ) (reply : Option Reply)
  | succeed (attempt : ℕ)
deriving DecidableEq, Repr

namespace CheckpointSt

def init (maxEntries : ℕ) : CheckpointSt := ⟨.empty maxEntries, [], []⟩

variable (st : CheckpointSt)

/-- the chunks of a call that have an entry, with it -/
def hits (a : Attempt) (call : StageCall) : List (Chunk × Cached) :=
  match a.ctx.storeKey call with
  | none => []
  | some jobKey =>
    (a.targets call).filterMap fun chk => (st.store.get (a.ctx.cacheId jobKey chk.index call)).map (chk, ·)

def look (i : ℕ) (a : Attempt) (call : StageCall) : CheckpointSt :=
  let cached := (st.hits a call).map fun hit => ((call, hit.1.index), hit.2.result)
  { st with attempts := st.attempts.set i { a with opened := a.opened ++ [call], results := a.results ++ cached } }

def dispatch (i : ℕ) (a : Attempt) (call : StageCall) (index now : ℕ) : CheckpointSt :=
  match a.pending call index with
  | none => st
  | some chk =>
    let verdict := a.ctx.verdict chk a.callsThisJob (now - a.startedAt) call
    { st with attempts := st.attempts.set i { a with inFlight := a.inFlight ++ [(call, chk, verdict)] } }

/-- `chunkCheckpoints.set`, and the log -/
def record (a : Attempt) (call : StageCall) (chk : Chunk) (verdict : Dispatch) (result : StageResult) : CheckpointSt :=
  match a.ctx.storeKey call with
  | none => st
  | some jobKey =>
    let id := a.ctx.cacheId jobKey chk.index call
    { st with
      store := st.store.set id ⟨result, a.ctx.inputs chk call, verdict = .capped⟩
      computed := ⟨id, a.ctx, call, chk, verdict = .capped⟩ :: st.computed }

def settle (i : ℕ) (a : Attempt) (call : StageCall) (index : ℕ) (reply : Option Reply) : CheckpointSt :=
  match a.inFlight.find? fun f => f.1 = call ∧ f.2.1.index = index with
  | none => st
  | some (_, chk, verdict) =>
    let inFlight := a.inFlight.filter fun f => ¬ (f.1 = call ∧ f.2.1.index = index)
    match outcome call verdict reply with
    | none => { st with attempts := st.attempts.set i { a with inFlight, stopped := true } }
    | some result =>
      let callsThisJob := if verdict = .called then a.ctx.costCap.recordCall a.callsThisJob else a.callsThisJob
      let a' := { a with inFlight, callsThisJob, results := a.results ++ [((call, chk.index), result)] }
      { st.record a call chk verdict result with attempts := st.attempts.set i a' }

/-- stages 6 to 8 are through -/
def succeed (i : ℕ) (a : Attempt) : CheckpointSt :=
  if a.finished then
    { st with
      store := match a.ctx.checkpointJobKey with
        | none => st.store
        | some jobKey => st.store.clear jobKey
      attempts := st.attempts.set i { a with stopped := true } }
  else st

def step (st : CheckpointSt) : CheckpointOp → CheckpointSt
  | .start ctx now => { st with attempts := st.attempts ++ [{ ctx, startedAt := now }] }
  | .look i call =>
    match st.attempts[i]? with
    | none => st
    | some a => if a.ready call then st.look i a call else st
  | .dispatch i call index now =>
    match st.attempts[i]? with
    | none => st
    | some a => st.dispatch i a call index now
  | .settle i call index reply =>
    match st.attempts[i]? with
    | none => st
    | some a => st.settle i a call index reply
  | .succeed i =>
    match st.attempts[i]? with
    | none => st
    | some a => st.succeed i a

/-! ## The property and its condition -/

/-- every entry that the look-ups of a call read was computed from the reader's inputs, by a call the cap let through -/
def Transparent : CheckpointOp → Prop
  | .look i call => ∀ a ∈ st.attempts[i]?, a.ready call = true → ∀ hit ∈ st.hits a call,
      hit.2.inputs = a.ctx.inputs hit.1 call ∧ hit.2.capSkipped = false
  | _ => True

def lastWriter (id : CacheId) : Option Computed := st.computed.find? (·.id = id)

/-- two runs agree on what the key leaves out -/
def Agrees (w : Computed) (ctx : PipelineContext) (chk : Chunk) : StageCall → Prop
  | .compact => w.chunk.text = chk.text ∧ w.ctx.resolvedExtractProfile = ctx.resolvedExtractProfile ∧
      w.ctx.compactionMode = ctx.compactionMode
  | .extract | .extractSpecifics => w.chunk.text = chk.text ∧ w.ctx.sessionDateIso = ctx.sessionDateIso

/-- whoever looks up a key that has an entry agrees with its last writer, whom the cap let through -/
def ReusesAlike : CheckpointOp → Prop
  | .look i call => ∀ a ∈ st.attempts[i]?, a.ready call = true → ∀ jobKey ∈ a.ctx.storeKey call,
      ∀ chk ∈ a.targets call, (st.store.get (a.ctx.cacheId jobKey chk.index call)).isSome = true →
        ∀ w ∈ st.lastWriter (a.ctx.cacheId jobKey chk.index call), Agrees w a.ctx chk call ∧ w.capSkipped = false
  | _ => True

instance Transparent.decidable : ∀ op, Decidable (st.Transparent op)
  | .start _ _ | .dispatch _ _ _ _ | .settle _ _ _ _ | .succeed _ => isTrue trivial
  | .look i call => inferInstanceAs (Decidable (∀ a ∈ st.attempts[i]?, a.ready call = true → ∀ hit ∈ st.hits a call,
      hit.2.inputs = a.ctx.inputs hit.1 call ∧ hit.2.capSkipped = false))

/-! ## What the store holds -/

structure Recorded : Prop where
  /-- an entry is the last computation under its key -/
  last : ∀ id c, st.store.get id = some c →
    ∃ w, st.lastWriter id = some w ∧ c.inputs = w.ctx.inputs w.chunk w.call ∧ c.capSkipped = w.capSkipped
  named : ∀ w ∈ st.computed, ∃ jobKey, w.id = w.ctx.cacheId jobKey w.chunk.index w.call

variable {st}

theorem recorded_init (maxEntries : ℕ) : (init maxEntries).Recorded where
  last := by
    intro id c h
    cases h
  named := by
    intro w hw
    cases hw

theorem Recorded.clear (h : st.Recorded) (jobKey : String) :
    ({ st with store := st.store.clear jobKey } : CheckpointSt).Recorded :=
  { h with last := fun id c hget => h.last id c (ChunkCheckpointStore.get_of_clear hget) }

theorem Recorded.attempts (h : st.Recorded) (attempts : List Attempt) : ({ st with attempts } : CheckpointSt).Recorded :=
  ⟨h.last, h.named⟩

theorem Recorded.record (h : st.Recorded) (a : Attempt) (call : StageCall) (chk : Chunk) (verdict : Dispatch)
    (result : StageResult) : (st.record a call chk verdict result).Recorded := by
  unfold CheckpointSt.record
  split
  · exact h
  next jobKey _ =>
    constructor
    · intro id c hget
      by_cases hid : id = a.ctx.cacheId jobKey chk.index call
      · subst hid
        rw [ChunkCheckpointStore.get_set_self, Option.some.injEq] at hget
        subst hget
        exact ⟨⟨a.ctx.cacheId jobKey chk.index call, a.ctx, call, chk, verdict = .capped⟩, by simp [lastWriter], rfl, rfl⟩
      · obtain ⟨w, hw, hrest⟩ := h.last id c (ChunkCheckpointStore.get_set_of_ne hid hget)
        refine ⟨w, ?_, hrest⟩
        rw [lastWriter, List.find?_cons_of_neg (by simpa using Ne.symm hid)]
        exact hw
    · intro w hw
      rcases List.mem_cons.1 hw with rfl | hw
      · exact ⟨jobKey, rfl⟩
      · exact h.named w hw

theorem Recorded.dispatch (h : st.Recorded) (i : ℕ) (a : Attempt) (call : StageCall) (index now : ℕ) :
    (st.dispatch i a call index now).Recorded := by
  unfold CheckpointSt.dispatch
  split
  · exact h
  · exact h.attempts _

theorem Recorded.settle (h : st.Recorded) (i : ℕ) (a : Attempt) (call : StageCall) (index : ℕ) (reply : Option Reply) :
    (st.settle i a call index reply).Recorded := by
  unfold CheckpointSt.settle
  split
  · exact h
  next chk verdict _ =>
    dsimp only
    split
    · exact h.attempts _
    · exact (h.record a call chk verdict _).attempts _

theorem Recorded.succeed (h : st.Recorded) (i : ℕ) (a : Attempt) : (st.succeed i a).Recorded := by
  unfold CheckpointSt.succeed
  split
  · cases a.ctx.checkpointJobKey with
    | none => exact h.attempts _
    | some jobKey => exact (h.clear jobKey).attempts _
  · exact h

theorem recorded_step (st : CheckpointSt) (op : CheckpointOp) (h : st.Recorded) : (step st op).Recorded := by
  cases op with
  | start ctx now => exact h.attempts _
  | look i call =>
    simp only [step]
    split
    · exact h
    next a _ =>
      split
      · exact h.attempts _
      · exact h
  | dispatch i call index now =>
    simp only [step]
    split
    · exact h
    · exact h.dispatch i _ call index now
  | settle i call index reply =>
    simp only [step]
    split
    · exact h
    · exact h.settle i _ call index reply
  | succeed i =>
    simp only [step]
    split
    · exact h
    · exact h.succeed i _

/-! ## Keys and inputs -/

/-- a key names the call, and for pass A its profile -/
theorem cacheId_inj {ctx ctx' : PipelineContext} {jobKey jobKey' : String} {i i' : ℕ} {call call' : StageCall}
    (h : ctx.cacheId jobKey i call = ctx'.cacheId jobKey' i' call') :
    call = call' ∧ (call = .extract → ctx.resolvedExtractProfile = ctx'.resolvedExtractProfile) := by
  cases call <;> cases call' <;> simp_all [PipelineContext.cacheId]

/-- under one key, equal inputs are inputs that agree on the rest -/
theorem inputs_eq_iff {w : Computed} {ctx : PipelineContext} {chk : Chunk} {jobKey jobKey' : String} {i : ℕ}
    {call : StageCall} (h : w.ctx.cacheId jobKey' w.chunk.index w.call = ctx.cacheId jobKey i call) :
    w.ctx.inputs w.chunk w.call = ctx.inputs chk call ↔ Agrees w ctx chk call := by
  obtain ⟨hcall, hprofile⟩ := cacheId_inj h
  rw [hcall] at hprofile ⊢
  cases call with
  | compact => simp [PipelineContext.inputs, Agrees]
  | extract => simp [PipelineContext.inputs, Agrees, hprofile rfl]
  | extractSpecifics => simp [PipelineContext.inputs, Agrees]

theorem mem_hits {a : Attempt} {call : StageCall} {hit : Chunk × Cached} : hit ∈ st.hits a call ↔
    ∃ jobKey ∈ a.ctx.storeKey call, hit.1 ∈ a.targets call ∧
      st.store.get (a.ctx.cacheId jobKey hit.1.index call) = some hit.2 := by
  unfold hits
  cases hkey : a.ctx.storeKey call with
  | none => simp
  | some jobKey =>
    simp only [List.mem_filterMap, Option.map_eq_some_iff, Option.mem_some, exists_eq_left']
    constructor
    · rintro ⟨chk, hchk, c, hc, rfl⟩
      exact ⟨hchk, hc⟩
    · rintro ⟨hchk, hc⟩
      exact ⟨hit.1, hchk, hit.2, hc, rfl⟩

theorem transparent_iff (h : st.Recorded) (op : CheckpointOp) : st.Transparent op ↔ st.ReusesAlike op := by
  cases op with
  | look i call =>
    unfold Transparent ReusesAlike
    refine forall_congr' fun a => imp_congr_right fun _ => imp_congr_right fun _ => ?_
    constructor
    · intro ht jobKey hkey chk hchk hsome w hw
      obtain ⟨c, hc⟩ := Option.isSome_iff_exists.1 hsome
      obtain ⟨w', hw', hinputs, hskip⟩ := h.last _ c hc
      obtain rfl : w' = w := Option.some.inj (hw'.symm.trans hw)
      obtain ⟨key', hname⟩ := h.named w' (List.mem_of_find?_eq_some hw')
      have hid : w'.id = a.ctx.cacheId jobKey chk.index call := by simpa using List.find?_some hw'
      obtain ⟨hin, hcap⟩ := ht (chk, c) (mem_hits.2 ⟨jobKey, hkey, hchk, hc⟩)
      exact ⟨(inputs_eq_iff (hname.symm.trans hid)).1 (hinputs.symm.trans hin), hskip.symm.trans hcap⟩
    · intro hr hit hhit
      obtain ⟨jobKey, hkey, hchk, hc⟩ := mem_hits.1 hhit
      obtain ⟨w, hw, hinputs, hskip⟩ := h.last _ _ hc
      obtain ⟨key', hname⟩ := h.named w (List.mem_of_find?_eq_some hw)
      have hid : w.id = a.ctx.cacheId jobKey hit.1.index call := by simpa using List.find?_some hw
      obtain ⟨hagree, hcap⟩ := hr jobKey hkey hit.1 hchk (Option.isSome_iff_exists.2 ⟨_, hc⟩) w hw
      exact ⟨hinputs.trans ((inputs_eq_iff (hname.symm.trans hid)).2 hagree), hskip.trans hcap⟩
  | start ctx now => exact Iff.rfl
  | dispatch i call index now => exact Iff.rfl
  | settle i call index reply => exact Iff.rfl
  | succeed i => exact Iff.rfl

/-- **Checkpoint transparency.** In every interleaving, every entry read was computed from the reader's own inputs and
was not skipped by the cap, exactly when every reader of an entry agrees with its writer on what the key leaves out and
the cap let the writer through. -/
theorem checkpoints_transparent (maxEntries : ℕ) (ops : List CheckpointOp) :
    Along step Transparent (init maxEntries) ops ↔ Along step ReusesAlike (init maxEntries) ops := by
  constructor
  · intro h
    exact h.carry Recorded (fun st op hst _ => recorded_step st op hst) (fun st op hst => (transparent_iff hst op).1)
      (recorded_init maxEntries)
  · intro h
    exact h.carry Recorded (fun st op hst _ => recorded_step st op hst) (fun st op hst => (transparent_iff hst op).2)
      (recorded_init maxEntries)

/-! ## What goes wrong -/

/-- two chunks of a conversation on a day; a few chars each, so compaction leaves them alone unless it is forced -/
def twoChunks (date : String) : PipelineContext where
  sourceHash := some "2cf24dba"
  chunksForExtraction := [⟨0, "user: we met yesterday"⟩, ⟨1, "user: bye"⟩]
  resolvedExtractProfile := .engineering
  compactionMode := .never
  sessionDateIso := some date
  costCap := ⟨false, none, none⟩
  extractionPasses := 1
  sweepOnlyBelowAtoms := 0

/-- one chunk through a call -/
def oneChunk (attempt : ℕ) (call : StageCall) (index : ℕ) (reply : Option Reply) : List CheckpointOp :=
  [.dispatch attempt call index 0, .settle attempt call index reply]

/-- the compaction of both chunks, up to the look-ups of extraction -/
def upToExtract (attempt : ℕ) : List CheckpointOp :=
  .look attempt .compact :: oneChunk attempt .compact 0 none ++ oneChunk attempt .compact 1 none ++ [.look attempt .extract]

/-- a job and its retry: the entry of the first chunk is read, and was computed from the same inputs -/
example : Along step Transparent (init 5000) (.start (twoChunks "2026-07-01") 0 :: upToExtract 0 ++
    oneChunk 0 .extract 0 (some ⟨"", []⟩) ++ oneChunk 0 .extract 1 none ++
    .start (twoChunks "2026-07-01") 5 :: upToExtract 1 ++ oneChunk 1 .extract 1 (some ⟨"", []⟩) ++ [.succeed 1]) := by
  decide +kernel

/-- the transcript captured on two days: the first job fails on its second chunk -/
def twoDates : List CheckpointOp :=
  .start (twoChunks "2026-07-01") 0 :: upToExtract 0 ++
    oneChunk 0 .extract 0 (some ⟨"", [⟨"they met on 2026-06-30", 1, none⟩]⟩) ++ oneChunk 0 .extract 1 none ++
    .start (twoChunks "2026-07-13") 0 :: upToExtract 1

/-- one call for the job: the second chunk is skipped, and a later stage fails -/
def cappedRetry : List CheckpointOp :=
  let ctx := { twoChunks "2026-07-01" with costCap := ⟨true, some 1, none⟩ }
  .start ctx 0 :: upToExtract 0 ++ oneChunk 0 .extract 0 (some ⟨"", []⟩) ++ oneChunk 0 .extract 1 none ++
    .start ctx 0 :: upToExtract 1

/-- compaction forced, the transcript under both profiles -/
def twoProfiles : List CheckpointOp :=
  let ctx := { twoChunks "2026-07-01" with compactionMode := .always }
  .start ctx 0 :: .look 0 .compact :: oneChunk 0 .compact 0 (some ⟨"met yesterday", []⟩) ++
    oneChunk 0 .compact 1 none ++
    [.start { ctx with resolvedExtractProfile := .conversational } 0, .look 1 .compact]

/-- **A stale entry is read.** -/
theorem stale_checkpoints :
    ¬ Along step Transparent (init 5000) twoDates ∧ ¬ Along step Transparent (init 5000) cappedRetry ∧
      ¬ Along step Transparent (init 5000) twoProfiles := by
  decide +kernel

end CheckpointSt

end AstramemLocal.Distill
