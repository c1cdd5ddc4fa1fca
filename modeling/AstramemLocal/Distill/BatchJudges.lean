/-
The three batched judges: atom triage (`src/distill/atom-triage.ts`, swept by `08-embed-index.ts`), the gatekeeper
(`src/distill/gatekeeper.ts`) and the dup judge (`src/consolidate/dup-judge.ts`, swept by `consolidate.ts`). Each shows the
model a batch of numbered items and trusts the numbers of its answer. The first two merge the answers to all batches into one
map; the third looks up each item in the answer to its own batch. An item is its number here.

- `judges_fair_iff`: a sweep decides what it was shown iff, for every item, the last verdict that any answer has for it (for
  the dup judge: the answer to its batch) comes from its own batch, and no answer contradicts it if it is destructive.
- `later_batch_drops_atom`: the answer to the second batch drops an atom of the first.
-/
import AstramemLocal.Core.Json
import AstramemLocal.Ingest.Envelope
import AstramemLocal.Store.Schema

namespace AstramemLocal.Distill

open AstramemLocal.Core AstramemLocal.Store

/-! ## Maps -/

abbrev VerdictMap (V : Type) := ℕ → Option V

section
variable {V : Type} (index : V → ℕ)

/-- `Map.set` -/
def setVerdict (m : VerdictMap V) (v : V) : VerdictMap V := fun i => if i = index v then some v else m i

/-- what an iteration over `new` writes over `old` -/
def mergeVerdicts (old new : VerdictMap V) : VerdictMap V := fun i => (new i).or (old i)

/-- the last verdict of a list for an item -/
def lastFor (verdicts : List V) (i : ℕ) : Option V := (verdicts.filter fun v => i = index v).getLast?

theorem lastFor_append (l l' : List V) (i : ℕ) :
    lastFor index (l ++ l') i = (lastFor index l' i).or (lastFor index l i) := by
  unfold lastFor
  rw [List.filter_append, List.getLast?_append]

theorem lastFor_mem {l : List V} {i : ℕ} {v : V} (h : lastFor index l i = some v) : v ∈ l ∧ index v = i := by
  have hmem := List.mem_filter.1 (List.mem_of_getLast? h)
  exact ⟨hmem.1, (by simpa using hmem.2 : i = index v).symm⟩

/-- writing verdicts one after the other leaves the last one of each item -/
theorem foldl_setVerdict (l : List V) (m : VerdictMap V) (i : ℕ) :
    l.foldl (setVerdict index) m i = (lastFor index l i).or (m i) := by
  induction l generalizing m with
  | nil => simp [lastFor]
  | cons v l ih =>
    rw [List.foldl_cons, ih, ← List.singleton_append, lastFor_append, Option.or_assoc]
    congr 1
    unfold setVerdict lastFor
    by_cases hi : i = index v
    · simp [hi]
    · simp [hi]

end

/-! ## Answers -/

/-- the fields of an object -/
def field (key : String) : Json → Option Json
  | .obj members => (members.find? fun m => m.1 = key).map (·.2)
  | _ => none

/-- `z.number().int().min(0)` -/
def asIndex : Json → Option ℕ
  | .num n => if n.den = 1 ∧ 0 ≤ n.num ∧ Ingest.isSafeInteger n.num.toNat then some n.num.toNat else none
  | _ => none

/-- `z.number().min(0).max(1)` -/
def asConfidence : Json → Option ℚ
  | .num n => if 0 ≤ n ∧ n ≤ 1 then some n else none
  | _ => none

/-- `z.enum` -/
def asLabel {L : Type} (labels : List (String × L)) : Json → Option L
  | .str s => (labels.find? fun l => l.1 = s).map (·.2)
  | _ => none

def asBoolean : Json → Option Bool
  | .bool b => some b
  | _ => none

/-- `.optional()`: a key that is there must parse -/
def optional {α : Type} (parse : Json → Option α) (value : Option Json) : Option (Option α) :=
  match value with
  | none => some none
  | some v => (parse v).map some

structure Verdict (L : Type) where
  index : ℕ
  verdict : L
  confidence : ℚ
  /-- of atom triage only, like the next -/
  corrected_type : Option MemoryType := none
  evidence_supported : Option Bool := none
deriving DecidableEq, Repr

/-- the fields that all three judges ask for -/
def baseVerdict {L : Type} (labels : List (String × L)) (raw : Json) : Option (Verdict L) :=
  match (field "index" raw).bind asIndex, (field "verdict" raw).bind (asLabel labels),
    (field "confidence" raw).bind asConfidence with
  | some index, some verdict, some confidence => some { index, verdict, confidence }
  | _, _, _ => none

/-- The valid entries of an answer; `none` where the call fails, the text is no JSON or has no `verdicts`, which leaves the
whole batch without verdicts. -/
def validEntries {L : Type} (safeParse : Json → Option (Verdict L)) (answer : Option Json) : Option (List (Verdict L)) :=
  match answer.bind (field "verdicts") with
  | some (.arr items) => some (items.filterMap safeParse)
  | _ => none

/-- the map a batch call returns -/
def judgeBatch {L : Type} (entries : Option (List (Verdict L))) : VerdictMap (Verdict L) :=
  (entries.getD []).foldl (setVerdict (·.index)) fun _ => none

/-! ## The judges -/

structure Judge (L : Type) where
  safeParse : Json → Option (Verdict L)
  /-- the labels that lose something -/
  destructive : L → Bool

inductive TriageVerdictLabel where
  | keep | junk | metaEcho | capabilityDisclaimer | ephemeral | rephraseOfExisting
deriving DecidableEq, Repr

def triageLabels : List (String × TriageVerdictLabel) :=
  [("keep", .keep), ("junk", .junk), ("meta-echo", .metaEcho), ("capability-disclaimer", .capabilityDisclaimer),
    ("ephemeral", .ephemeral), ("rephrase-of-existing", .rephraseOfExisting)]

def correctedTypeLabels : List (String × MemoryType) :=
  [("decision", .decision), ("fact", .fact), ("lesson", .lesson), ("command", .command), ("todo", .todo), ("note", .note),
    ("event", .event)]

/-- `triageBatch` -/
def triage : Judge TriageVerdictLabel where
  safeParse raw := do
    let verdict ← baseVerdict triageLabels raw
    let corrected_type ← optional (asLabel correctedTypeLabels) (field "corrected_type" raw)
    let evidence_supported ← optional asBoolean (field "evidence_supported" raw)
    return { verdict with corrected_type, evidence_supported }
  destructive label := label ≠ .keep

inductive GatekeeperVerdictLabel where
  | keep | skip
deriving DecidableEq, Repr

/-- `gatekeeperBatch` -/
def gatekeeper : Judge GatekeeperVerdictLabel where
  safeParse := baseVerdict [("keep", .keep), ("skip", .skip)]
  destructive label := label = .skip

inductive DupVerdictLabel where
  | sameFactMerge | distinctKeepSeparate | unclearLeavePending
deriving DecidableEq, Repr

/-- `dupJudgeBatch` -/
def dupJudge : Judge DupVerdictLabel where
  safeParse := baseVerdict [("same-fact-merge", .sameFactMerge), ("distinct-keep-separate", .distinctKeepSeparate),
    ("unclear-leave-pending", .unclearLeavePending)]
  destructive label := label = .sameFactMerge

/-! ## Sweeps -/

structure Caps where
  maxPerRun : ℚ
  maxWallClockMs : ℚ
deriving DecidableEq, Repr

/-- `RunCapTracker.shouldStop` -/
def shouldStop (caps : Caps) (calls : ℕ) (elapsed : ℚ) : Bool :=
  caps.maxPerRun ≤ calls || caps.maxWallClockMs ≤ elapsed

/-- what the model answers to the calls of a sweep, and how long the sweep runs before each -/
structure World where
  answer : ℕ → Option Json
  elapsed : ℕ → ℚ

/-- `slice(start, start + batchSize)` for each start -/
def batches (batchSize : ℕ) (items : List ℕ) : List (List ℕ) :=
  (List.range ((items.length + batchSize - 1) / batchSize)).map fun k => (items.drop (k * batchSize)).take batchSize

/-- a call: the items it shows and the valid entries of its answer -/
structure Asked (L : Type) where
  batch : List ℕ
  entries : Option (List (Verdict L))
deriving DecidableEq, Repr

/-- the calls of a sweep; a reached cap ends it -/
def ask {L : Type} (J : Judge L) (caps : Caps) (W : World) : ℕ → List (List ℕ) → List (Asked L)
  | _, [] => []
  | calls, batch :: rest =>
    if shouldStop caps calls (W.elapsed calls) then []
    else ⟨batch, validEntries J.safeParse (W.answer calls)⟩ :: ask J caps W (calls + 1) rest

def calls {L : Type} (J : Judge L) (caps : Caps) (W : World) (batchSize : ℕ) (items : List ℕ) : List (Asked L) :=
  ask J caps W 0 (batches batchSize items)

/-- `runGatekeeperSweep`, and the sweep of `embedAndIndex` -/
def sweepVerdicts {L : Type} (asked : List (Asked L)) : VerdictMap (Verdict L) :=
  asked.foldl (fun verdicts a => mergeVerdicts verdicts (judgeBatch a.entries)) fun _ => none

/-- the rows that `runDupJudgeSweep` finds a verdict for, in its order -/
def sweepDecisions {L : Type} (asked : List (Asked L)) : List (ℕ × Verdict L) :=
  asked.flatMap fun a => a.batch.filterMap fun i => (judgeBatch a.entries i).map (i, ·)

/-! ### What becomes of an item -/

inductive AtomTriageMode where
  | off | dryRun | repairOnly | enabled
deriving DecidableEq, Repr

/-- the atom reaches `insertWithCreateEvent` -/
def persisted (mode : AtomTriageMode) (verdict : Option (Verdict TriageVerdictLabel)) : Bool :=
  !(mode = .enabled && verdict.any fun v => v.verdict ≠ .keep)

inductive SweepMode where
  | off | dryRun | enabled
deriving DecidableEq, Repr

def chunksForExtraction (mode : SweepMode) (chunks : List ℕ) (verdicts : VerdictMap (Verdict GatekeeperVerdictLabel)) :
    List ℕ :=
  if mode = .enabled then chunks.filter fun c => (verdicts c).map (·.verdict) ≠ some .skip else chunks

inductive DupAction where
  | previewed | guardBlocked | pending | merged | keptSeparate
deriving DecidableEq, Repr

/-- `commandGuard` tells whether the command guard refuses the row -/
def dupAction (mode : SweepMode) (minConfidence : ℚ) (commandGuard : Bool) (v : Verdict DupVerdictLabel) : DupAction :=
  if mode = .dryRun then .previewed
  else if commandGuard then .guardBlocked
  else if v.verdict = .unclearLeavePending ∨ v.confidence < minConfidence then .pending
  else if v.verdict = .sameFactMerge then .merged
  else .keptSeparate

/-! ## The property -/

section
variable {L : Type} (J : Judge L) (asked : List (Asked L))

/-- every valid verdict of the answers, in order -/
def answers : List (Verdict L) := asked.flatMap fun a => a.entries.getD []

/-- the item is in the batch of this call, and the answer has the verdict for it -/
def Asked.gives (a : Asked L) (i : ℕ) (v : Verdict L) : Prop := i ∈ a.batch ∧ v ∈ a.entries.getD [] ∧ v.index = i

/-- no answer gives the item another label -/
def Uncontradicted (i : ℕ) (v : Verdict L) : Prop := ∀ w ∈ answers asked, w.index = i → w.verdict = v.verdict

/-- A sweep that decides what it was shown: `Records` are the verdicts it has for the items, `Kept` says that an item stays. -/
structure Fair (items : List ℕ) (Records : ℕ → Verdict L → Prop) (Kept : ℕ → Prop) : Prop where
  own : ∀ i ∈ items, ∀ v, Records i v → ∃ a ∈ asked, a.gives i v
  kept : ∀ i ∈ items, (∀ a ∈ asked, i ∈ a.batch → a.entries = none) → (∀ v, ¬ Records i v) ∧ Kept i
  safe : ∀ i ∈ items, ∀ v, Records i v → J.destructive v.verdict = true → Uncontradicted asked i v

/-- The last verdict of all answers for an item is in the answer to its batch; a destructive one is not contradicted. -/
def LastIsOwn (items : List ℕ) : Prop :=
  ∀ i ∈ items, ∀ v, lastFor (·.index) (answers asked) i = some v →
    (∃ a ∈ asked, a.gives i v) ∧ (J.destructive v.verdict = true → Uncontradicted asked i v)

/-- A destructive verdict that is the last of the answer to an item's batch is not contradicted. -/
def LastUncontradicted : Prop :=
  ∀ a ∈ asked, ∀ i ∈ a.batch, ∀ v, lastFor (·.index) (a.entries.getD []) i = some v → J.destructive v.verdict = true →
    Uncontradicted asked i v

end

variable {L : Type} {J : Judge L} {asked : List (Asked L)} {items : List ℕ} {i : ℕ} {v : Verdict L}

/-! ## What a sweep records -/

theorem judgeBatch_eq (entries : Option (List (Verdict L))) (i : ℕ) :
    judgeBatch entries i = lastFor (·.index) (entries.getD []) i := by
  unfold judgeBatch
  rw [foldl_setVerdict, Option.or_none]

/-- the merged map holds the last verdict of all answers -/
theorem sweepVerdicts_eq (asked : List (Asked L)) (i : ℕ) : sweepVerdicts asked i = lastFor (·.index) (answers asked) i := by
  have hmerge : ∀ m : VerdictMap (Verdict L),
      asked.foldl (fun verdicts a => mergeVerdicts verdicts (judgeBatch a.entries)) m i =
        (lastFor (·.index) (answers asked) i).or (m i) := by
    induction asked with
    | nil => simp [answers, lastFor]
    | cons a asked ih =>
      intro m
      rw [List.foldl_cons, ih]
      unfold mergeVerdicts answers
      rw [List.flatMap_cons, lastFor_append, judgeBatch_eq, Option.or_assoc]
  unfold sweepVerdicts
  rw [hmerge, Option.or_none]

theorem mem_sweepDecisions : (i, v) ∈ sweepDecisions asked ↔
    ∃ a ∈ asked, i ∈ a.batch ∧ lastFor (·.index) (a.entries.getD []) i = some v := by
  unfold sweepDecisions
  simp only [List.mem_flatMap, List.mem_filterMap, Option.map_eq_some_iff, Prod.mk.injEq, judgeBatch_eq]
  constructor
  · rintro ⟨a, ha, j, hj, w, hw, rfl, rfl⟩
    exact ⟨a, ha, hj, hw⟩
  · rintro ⟨a, ha, hi, hv⟩
    exact ⟨a, ha, i, hi, v, hv, rfl, rfl⟩

/-- an item whose batches have no answer has no verdict of its own -/
theorem not_gives (h : ∀ a ∈ asked, i ∈ a.batch → a.entries = none) : ¬ ∃ a ∈ asked, a.gives i v := by
  rintro ⟨a, ha, hi, hv, -⟩
  rw [h a ha hi] at hv
  cases hv

/-- the merged map is fair iff the last verdicts are -/
theorem fair_merged_iff {Kept : ℕ → Prop} (hkept : ∀ i ∈ items, sweepVerdicts asked i = none → Kept i) :
    Fair J asked items (fun i v => sweepVerdicts asked i = some v) Kept ↔ LastIsOwn J asked items := by
  constructor
  · intro h i hi v hv
    rw [← sweepVerdicts_eq] at hv
    exact ⟨h.own i hi v hv, h.safe i hi v hv⟩
  · intro h
    have hlast : ∀ i ∈ items, ∀ v, sweepVerdicts asked i = some v →
        (∃ a ∈ asked, a.gives i v) ∧ (J.destructive v.verdict = true → Uncontradicted asked i v) := by
      intro i hi v hv
      rw [sweepVerdicts_eq] at hv
      exact h i hi v hv
    refine ⟨fun i hi v hv => (hlast i hi v hv).1, fun i hi hnone => ?_, fun i hi v hv => (hlast i hi v hv).2⟩
    have hno : ∀ v, sweepVerdicts asked i ≠ some v := fun v hv => not_gives hnone (hlast i hi v hv).1
    exact ⟨hno, hkept i hi (Option.eq_none_iff_forall_ne_some.2 hno)⟩

/-- each item looked up in the answer to its batch: the first two clauses hold -/
theorem fair_decisions_iff (hitems : ∀ a ∈ asked, ∀ i ∈ a.batch, i ∈ items) :
    Fair J asked items (fun i v => (i, v) ∈ sweepDecisions asked) (fun i => ∀ v, (i, v) ∉ sweepDecisions asked) ↔
      LastUncontradicted J asked := by
  constructor
  · intro h a ha i hi v hv
    exact h.safe i (hitems a ha i hi) v (mem_sweepDecisions.2 ⟨a, ha, hi, hv⟩)
  · intro h
    have hown : ∀ i v, (i, v) ∈ sweepDecisions asked → ∃ a ∈ asked, a.gives i v := by
      intro i v hv
      obtain ⟨a, ha, hi, hlast⟩ := mem_sweepDecisions.1 hv
      exact ⟨a, ha, hi, lastFor_mem _ hlast⟩
    refine ⟨fun i _ v hv => hown i v hv, fun i _ hnone => ?_, fun i _ v hv => ?_⟩
    · have hno : ∀ v, (i, v) ∉ sweepDecisions asked := fun v hv => not_gives hnone (hown i v hv)
      exact ⟨hno, hno⟩
    · obtain ⟨a, ha, hi, hlast⟩ := mem_sweepDecisions.1 hv
      exact h a ha i hi v hlast

/-! ## The calls show the items -/

theorem ask_batches {caps : Caps} {W : World} {n : ℕ} {l : List (List ℕ)} {a : Asked L} (h : a ∈ ask J caps W n l) :
    a.batch ∈ l := by
  induction l generalizing n with
  | nil => cases h
  | cons batch rest ih =>
    unfold ask at h
    split at h
    · cases h
    · rcases List.mem_cons.1 h with rfl | h
      · exact List.mem_cons_self
      · exact List.mem_cons_of_mem _ (ih h)

theorem calls_show {caps : Caps} {W : World} {batchSize : ℕ} {a : Asked L} (h : a ∈ calls J caps W batchSize items)
    (hi : i ∈ a.batch) : i ∈ items := by
  obtain ⟨k, -, hk⟩ := List.mem_map.1 (ask_batches h)
  rw [← hk] at hi
  exact List.mem_of_mem_drop (List.mem_of_mem_take hi)

/-- **Batched judges.** For all items, batch sizes, caps and answers: the triage and gatekeeper sweeps are fair iff the last
verdict for each item is its own, the dup sweep iff no answer contradicts a destructive verdict it takes. -/
theorem judges_fair_iff (items : List ℕ) (batchSize : ℕ) (caps : Caps) (W : World) :
    (∀ mode, Fair triage (calls triage caps W batchSize items) items
        (fun i v => sweepVerdicts (calls triage caps W batchSize items) i = some v)
        (fun i => persisted mode (sweepVerdicts (calls triage caps W batchSize items) i) = true) ↔
      LastIsOwn triage (calls triage caps W batchSize items) items) ∧
    (∀ mode, Fair gatekeeper (calls gatekeeper caps W batchSize items) items
        (fun i v => sweepVerdicts (calls gatekeeper caps W batchSize items) i = some v)
        (fun i => i ∈ chunksForExtraction mode items (sweepVerdicts (calls gatekeeper caps W batchSize items))) ↔
      LastIsOwn gatekeeper (calls gatekeeper caps W batchSize items) items) ∧
    (Fair dupJudge (calls dupJudge caps W batchSize items) items
        (fun i v => (i, v) ∈ sweepDecisions (calls dupJudge caps W batchSize items))
        (fun i => ∀ v, (i, v) ∉ sweepDecisions (calls dupJudge caps W batchSize items)) ↔
      LastUncontradicted dupJudge (calls dupJudge caps W batchSize items)) := by
  refine ⟨fun mode => fair_merged_iff fun i _ hnone => ?_, fun mode => fair_merged_iff fun i hi hnone => ?_,
    fair_decisions_iff fun a ha i hi => calls_show ha hi⟩
  · simp [persisted, hnone]
  · unfold chunksForExtraction
    split
    · exact List.mem_filter.2 ⟨hi, by simp [hnone]⟩
    · exact hi

/-- an answer with these verdicts -/
def verdictsAnswer (verdicts : List (ℕ × String)) : Json :=
  .obj [("verdicts", .arr (verdicts.map fun v =>
    .obj [("index", .num v.1), ("verdict", .str v.2), ("confidence", .num 1)]))]

/-- two batches of one atom: the answer to the first keeps it, the answer to the second calls it junk -/
def crossTalk : List (Asked TriageVerdictLabel) :=
  calls triage ⟨10, 10⟩ ⟨fun call => some (verdictsAnswer (if call = 0 then [(0, "keep")] else [(0, "junk"), (1, "keep")])), fun _ => 0⟩
    1 [0, 1]

/-- Atom 0 is kept by the answer to its batch and dropped by the other. -/
theorem later_batch_drops_atom :
    crossTalk.map (·.batch) = [[0], [1]] ∧
      (crossTalk.head?.bind fun a => (judgeBatch a.entries 0).map (·.verdict)) = some .keep ∧
      (sweepVerdicts crossTalk 0).map (·.verdict) = some .junk ∧ persisted .enabled (sweepVerdicts crossTalk 0) = false := by
  decide

end AstramemLocal.Distill
