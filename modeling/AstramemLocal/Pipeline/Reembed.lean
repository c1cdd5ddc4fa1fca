/-
`src/pipeline/handlers/reembed.ts`, `src/pipeline/oversize.ts` and `src/vector/sqlite-vec.ts`: the job that recomputes
the vector of one memory. The handler reads the row and awaits the embed provider, stores the vector under the rowid
the memory has by then and awaits the store, then updates the row and clears its marker. Between these parts any other
operation of the daemon can run. Each vector of the index is tagged with the memory and the text it was computed for;
the tags are no columns.
- `index_filed`: in every run the index has vectors of existing memories only, each under the rowid of its own.
- `marker_current`: a marker is cleared only over a vector of the memory's current text.
- `reembed_completes_iff`: a job whose memory is gone completes without an error exactly in the runs where every embed
  call comes back to an existing memory.
- `erased_in_flight_fails`: the erase during the embed call.
-/
import AstramemLocal.Core.JsString
import AstramemLocal.Daemon.Rowids
import Mathlib.Logic.Function.Basic

namespace AstramemLocal.Pipeline.Reembed

open AstramemLocal.Core AstramemLocal.Store AstramemLocal.Daemon

/-! ## Oversize texts -/

def embedContextTokens : ℕ := 512

def charsPerToken : ℕ := 4

/-- `EMBED_MAX_INPUT_CHARS`: 85 percent, rounded down -/
def embedMaxInputChars : ℕ := embedContextTokens * charsPerToken * 85 / 100

structure Truncation where
  text : JsString
  truncated : Bool
deriving DecidableEq, Repr

def truncateForEmbedding (text : JsString) : Truncation :=
  if text.length ≤ embedMaxInputChars then ⟨text, false⟩ else ⟨text.take embedMaxInputChars, true⟩

/-- what a rejected promise carries -/
structure Thrown where
  isError : Bool
  message : String
deriving DecidableEq, Repr

def isContextLengthExceededError (E : Store.Env) (err : Thrown) : Bool :=
  err.isError && (occurs "context length" (E.toLowerCase err.message) ||
    occurs "input length exceeds" (E.toLowerCase err.message))

inductive ReembedError where
  /-- the provider's own error, passed through -/
  | provider (err : Thrown)
  /-- `DeterministicError`: 'Embed input still exceeds context budget after truncation to .. chars (memory .., original
  .. chars): ..' -/
  | oversize (length : ℕ) (memoryId : AtomId) (originalLength : ℕ) (err : Thrown)
  /-- 'embed provider returned no vector for memory ..' -/
  | noVector (memoryId : AtomId)
  /-- 'expected dim .., got ..' -/
  | wrongDim (expected got : ℕ)
  /-- 'memory .. not in memories table — insert there first' -/
  | notInTable (memoryId : AtomId)
deriving DecidableEq, Repr

/-! ## The index -/

/-- a row of `memories_vec` but for its rowid -/
structure Embedding (V : Type) where
  vec : List V
  /-- the memory it was computed for -/
  owner : AtomId
  /-- the text the provider was given -/
  source : JsString
deriving DecidableEq, Repr

inductive Stage where
  /-- awaits the embed call -/
  | embedding
  /-- awaits `vecStore.upsert`, whose statements have run -/
  | storing
deriving DecidableEq, Repr

/-- a call of the handler that has not returned -/
structure Job where
  number : ℕ
  memoryId : AtomId
  embedText : JsString
  originalLength : ℕ
  stage : Stage
deriving DecidableEq, Repr

inductive Outcome where
  | completed
  | failed (err : ReembedError)
deriving DecidableEq, Repr

structure Ended where
  number : ℕ
  memoryId : AtomId
  outcome : Outcome
deriving DecidableEq, Repr

structure State (V : Type) where
  db : St
  /-- what `memories_vec` has under a rowid of `db.memoriesVec` -/
  embedding : ℕ → Embedding V
  /-- the memories with `needs_vec_index = 1` -/
  needsVecIndex : List AtomId := []
  jobs : List Job := []
  ended : List Ended := []

variable {V : Type}

/-- an empty database -/
def start (sessions : List SessionId) : State V := { db := { sessions }, embedding := fun _ => ⟨[], 0, []⟩ }

/-- `SqliteVecStore.upsert`; `allocateRowid` reads the rowid the memory has now -/
def upsert (dim : ℕ) (s : State V) (id : AtomId) (source : JsString) (vec : List V) : Except ReembedError (State V) :=
  if vec.length ≠ dim then .error (.wrongDim dim vec.length)
  else
    match findRow s.db id with
    | none => .error (.notInTable id)
    | some row =>
      .ok { s with
        db := { s.db with
          memoriesVec := if row.rowid ∈ s.db.memoriesVec then s.db.memoriesVec else s.db.memoriesVec ++ [row.rowid] }
        embedding := Function.update s.embedding row.rowid ⟨vec, id, source⟩ }

/-! ## The handler -/

/-- up to the embed call -/
def handle (s : State V) (number : ℕ) (memoryId : AtomId) : State V :=
  match findRow s.db memoryId with
  | none => { s with ended := s.ended ++ [⟨number, memoryId, .completed⟩] }
  | some memory =>
    let text := JsString.ofString memory.text
    { s with jobs := s.jobs ++ [⟨number, memoryId, (truncateForEmbedding text).text, text.length, .embedding⟩] }

/-- what `embedWithOversizeGuard` makes of the provider's answer -/
def embedWithOversizeGuard (E : Store.Env) (job : Job) : Except Thrown (List (List V)) → Except ReembedError (List (List V))
  | .ok vecs => .ok vecs
  | .error err =>
    if isContextLengthExceededError E err then
      .error (.oversize job.embedText.length job.memoryId job.originalLength err)
    else .error (.provider err)

/-- from the embed call to the await of the upsert -/
def embedded (E : Store.Env) (dim : ℕ) (s : State V) (job : Job) (answer : Except Thrown (List (List V))) :
    Except ReembedError (State V) :=
  match embedWithOversizeGuard E job answer with
  | .error err => .error err
  | .ok [] => .error (.noVector job.memoryId)
  | .ok (vec :: _) => upsert dim s job.memoryId job.embedText vec

/-- the two UPDATEs behind the upsert; they name the memory by its id -/
def finish (E : Store.Env) (s : State V) (memoryId : AtomId) : State V :=
  { s with
    db := updateRow (tick s.db) memoryId fun m => { m with updatedAt := E.now s.db.clock }
    needsVecIndex := s.needsVecIndex.filter (· ≠ memoryId) }

/-- the promise of the handler settles -/
def settle (s : State V) (job : Job) (outcome : Outcome) : State V :=
  { s with jobs := s.jobs.erase job, ended := s.ended ++ [⟨job.number, job.memoryId, outcome⟩] }

/-! ## Runs -/

inductive Op (V : Type) where
  /-- another operation of the daemon -/
  | daemon (op : Daemon.Op)
  /-- `vecStore.upsert` behind an insert, by stage 8 and /remember -/
  | write (id : AtomId) (source : JsString) (vec : List V)
  /-- `markNeedsVecIndex` -/
  | mark (id : AtomId)
  /-- the worker calls the handler -/
  | begin (number : ℕ) (memoryId : AtomId)
  /-- the embed call of a job comes back -/
  | answer (number : ℕ) (answer : Except Thrown (List (List V)))
  /-- a job goes on behind its upsert -/
  | resume (number : ℕ)

def waiting (s : State V) (number : ℕ) (stage : Stage) : Option Job :=
  s.jobs.find? fun j => j.number = number ∧ j.stage = stage

def step (E : Store.Env) (dim : ℕ) (s : State V) : Op V → State V
  | .daemon op =>
    let t := Daemon.step E s.db op
    -- the marker is a column of the row
    { s with db := t, needsVecIndex := s.needsVecIndex.filter fun a => (findRow t a).isSome }
  | .write id source vec =>
    match upsert dim s id source vec with
    | .error _ => s
    | .ok t => t
  | .mark id => if (findRow s.db id).isSome then { s with needsVecIndex := s.needsVecIndex ++ [id] } else s
  | .begin number memoryId => handle s number memoryId
  | .answer number answer =>
    match waiting s number .embedding with
    | none => s
    | some job =>
      match embedded E dim s job answer with
      | .error err => settle s job (.failed err)
      | .ok t => { t with jobs := t.jobs.erase job ++ [{ job with stage := .storing }] }
  | .resume number =>
    match waiting s number .storing with
    | none => s
    | some job => settle (finish E s job.memoryId) job .completed

def run (E : Store.Env) (dim : ℕ) (s : State V) (ops : List (Op V)) : State V := ops.foldl (step E dim) s

/-- what the runs assume: stage 8's index is its insert and its `write`, an insert draws none of the ids that the jobs
work on, and no one else writes the vector of a memory between the upsert of a job and the two UPDATEs -/
def Legal (E : Store.Env) (s : State V) : Op V → Prop
  | .daemon op => op.isIndex = false ∧ ∀ j ∈ s.jobs, DrawsOther E j.memoryId s.db op
  | .write id _ _ => ∀ j ∈ s.jobs, j.stage = .storing → j.memoryId ≠ id
  | _ => True

instance (E : Store.Env) : ∀ (s : State V) (op : Op V), Decidable (Legal E s op)
  | s, .daemon op => inferInstanceAs (Decidable (op.isIndex = false ∧ ∀ j ∈ s.jobs, DrawsOther E j.memoryId s.db op))
  | s, .write id _ _ => inferInstanceAs (Decidable (∀ j ∈ s.jobs, j.stage = .storing → j.memoryId ≠ id))
  | _, .mark _ | _, .begin .. | _, .answer .. | _, .resume _ => isTrue trivial

/-! ## What is asked of a run -/

/-- the vector under this rowid belongs to an existing memory with this rowid, and no other memory has it -/
structure Filed (s : State V) (r : ℕ) : Prop where
  own : ∃ m, findRow s.db (s.embedding r).owner = some m ∧ m.rowid = r
  only : ∀ m ∈ s.db.memories, m.rowid = r → m.id = (s.embedding r).owner

/-- a job that ends in this step with its memory gone ends without an error -/
def CompletesGone (E : Store.Env) (dim : ℕ) (s : State V) (op : Op V) : Prop :=
  ∀ o, (step E dim s op).ended = s.ended ++ [o] → findRow (step E dim s op).db o.memoryId = none → o.outcome = .completed

/-- a marker this step clears is that of a memory whose vector was computed from its text -/
def ClearsCurrent (E : Store.Env) (dim : ℕ) (s : State V) (op : Op V) : Prop :=
  ∀ a ∈ s.needsVecIndex, a ∉ (step E dim s op).needsVecIndex → ∀ m, findRow (step E dim s op).db a = some m →
    m.rowid ∈ (step E dim s op).db.memoriesVec ∧ ((step E dim s op).embedding m.rowid).owner = a ∧
      ((step E dim s op).embedding m.rowid).source = (truncateForEmbedding (.ofString m.text)).text

/-- the embed call of a job comes back to a memory that is still there -/
def AnswersPresent (s : State V) : Op V → Prop
  | .answer number _ => ∀ job ∈ waiting s number .embedding, findRow s.db job.memoryId ≠ none
  | _ => True

instance : ∀ (s : State V) (op : Op V), Decidable (AnswersPresent s op)
  | s, .answer number _ =>
    inferInstanceAs (Decidable (∀ job ∈ waiting s number .embedding, findRow s.db job.memoryId ≠ none))
  | _, .daemon _ | _, .write .. | _, .mark _ | _, .begin .. | _, .resume _ => isTrue trivial

variable {E : Store.Env} {dim : ℕ} {s t : State V} {id : AtomId} {job : Job}

/-! ## What the parts do -/

theorem waiting_some {number : ℕ} {stage : Stage} (h : waiting s number stage = some job) :
    job ∈ s.jobs ∧ job.stage = stage := by
  have hfound := List.find?_some h
  simp only [decide_eq_true_eq] at hfound
  exact ⟨List.mem_of_find?_eq_some h, hfound.2⟩

/-- `t` is `s` with the vector `e` under the rowid of `row` -/
structure Upserted (s t : State V) (row : Memory) (e : Embedding V) : Prop where
  found : findRow s.db e.owner = some row
  memories : t.db.memories = s.db.memories
  log : records t.db = records s.db
  vec : ∀ r, r ∈ t.db.memoriesVec ↔ r ∈ s.db.memoriesVec ∨ r = row.rowid
  embedding : t.embedding = Function.update s.embedding row.rowid e
  flags : t.needsVecIndex = s.needsVecIndex
  jobs : t.jobs = s.jobs
  ended : t.ended = s.ended

theorem upsert_ok {source : JsString} {vec : List V} (h : upsert dim s id source vec = .ok t) :
    ∃ row, Upserted s t row ⟨vec, id, source⟩ := by
  unfold upsert at h
  split_ifs at h
  split at h
  · cases h
  · rename_i row hrow
    obtain rfl := Except.ok.inj h
    refine ⟨row, hrow, rfl, rfl, fun r => ?_, rfl, rfl, rfl, rfl⟩
    simp only
    split_ifs with hin
    · exact ⟨Or.inl, fun hr => hr.elim (fun hr => hr) fun hr => hr ▸ hin⟩
    · simp

/-- `allocateRowid` throws where the row is gone -/
theorem upsert_gone {source : JsString} {vec : List V} (h : findRow s.db id = none) :
    ∃ err, upsert dim s id source vec = .error err := by
  unfold upsert
  split_ifs
  · exact ⟨_, rfl⟩
  · rw [h]
    exact ⟨_, rfl⟩

theorem embedded_ok {answer : Except Thrown (List (List V))} (h : embedded E dim s job answer = .ok t) :
    ∃ vec, upsert dim s job.memoryId job.embedText vec = .ok t := by
  unfold embedded at h
  split at h
  · cases h
  · cases h
  · exact ⟨_, h⟩

theorem embedded_gone (h : findRow s.db job.memoryId = none) (answer : Except Thrown (List (List V))) :
    ∃ err, embedded E dim s job answer = .error err := by
  unfold embedded
  split
  · exact ⟨_, rfl⟩
  · exact ⟨_, rfl⟩
  · exact upsert_gone h

/-! ## The invariant -/

/-- the memory of a job is erased, or it still has the text the job embeds, and behind the upsert the vector of it -/
def Tracked (s : State V) (j : Job) : Prop :=
  Departed j.memoryId s.db ∨ ∃ m, findRow s.db j.memoryId = some m ∧
    (truncateForEmbedding (.ofString m.text)).text = j.embedText ∧
      (j.stage = .storing → m.rowid ∈ s.db.memoriesVec ∧ (s.embedding m.rowid).source = j.embedText)

structure Consistent (s : State V) : Prop where
  keys : ∀ k, Unique k s.db
  rowids : UniqueRowids s.db
  own : ∀ r ∈ s.db.memoriesVec, ∃ m, findRow s.db (s.embedding r).owner = some m ∧ m.rowid = r
  tracked : ∀ j ∈ s.jobs, Tracked s j

theorem consistent_start (sessions : List SessionId) : Consistent (start sessions : State V) where
  keys _ := List.nodup_nil
  rowids := List.nodup_nil
  own _ hr := absurd hr List.not_mem_nil
  tracked _ hj := absurd hj List.not_mem_nil

theorem Consistent.filed (h : Consistent s) {r : ℕ} (hr : r ∈ s.db.memoriesVec) : Filed s r := by
  obtain ⟨m, hm, hrowid⟩ := h.own r hr
  refine ⟨⟨m, hm, hrowid⟩, fun x hx hxr => ?_⟩
  rw [h.rowids.eq hx (findRow_mem hm) (hxr.trans hrowid.symm)]
  exact findRow_id hm

/-- an operation on the database that follows -/
theorem Consistent.follows (h : Consistent s) {u : St} (hfollows : Follows s.db u) (hkeys : ∀ k, Unique k u)
    (hdep : ∀ j ∈ s.jobs, Departed j.memoryId s.db → Departed j.memoryId u) (flags : List AtomId) :
    Consistent { s with db := u, needsVecIndex := flags } where
  keys := hkeys
  rowids := hfollows.rowids
  own r hr := by
    obtain ⟨m, hm, hrowid⟩ := h.own r (hfollows.vec r hr)
    rcases hfollows.row _ m hm with hheld | ⟨-, hgone⟩
    · obtain ⟨x, hx, hxr, -⟩ := hheld.row
      exact ⟨x, hx, hxr.trans hrowid⟩
    · exact absurd (hrowid ▸ hr) hgone
  tracked j hj := by
    rcases h.tracked j hj with hgone | ⟨m, hm, htext, hstored⟩
    · exact Or.inl (hdep j hj hgone)
    rcases hfollows.row _ m hm with hheld | ⟨hgone, -⟩
    · obtain ⟨x, hx, hxr, hxt⟩ := hheld.row
      refine Or.inr ⟨x, hx, hxt ▸ htext, fun hst => ?_⟩
      obtain ⟨hvec, hsource⟩ := hstored hst
      rw [hxr]
      exact ⟨hheld.vec hvec, hsource⟩
    · exact Or.inl hgone

/-- a vector goes in; the jobs behind their own upsert for this memory embed the same text -/
theorem Consistent.upserted (h : Consistent s) {row : Memory} {e : Embedding V} (hop : Upserted s t row e)
    (hsame : ∀ j ∈ s.jobs, j.stage = .storing → j.memoryId = e.owner → j.embedText = e.source) : Consistent t where
  keys k := (h.keys k).sublist (by rw [hop.memories])
  rowids := h.rowids.sublist (by rw [hop.memories])
  own r hr := by
    rw [hop.embedding]
    by_cases hnew : r = row.rowid
    · subst hnew
      rw [Function.update_self, findRow_congr hop.memories]
      exact ⟨row, hop.found, rfl⟩
    · rw [Function.update_of_ne hnew, findRow_congr hop.memories]
      exact h.own r (((hop.vec r).1 hr).resolve_right hnew)
  tracked j hj := by
    rw [hop.jobs] at hj
    rcases h.tracked j hj with hgone | ⟨m, hm, htext, hstored⟩
    · exact Or.inl (hgone.of_row (fun e he => hop.log ▸ he) ((findRow_congr hop.memories _).trans hgone.row))
    refine Or.inr ⟨m, (findRow_congr hop.memories _).trans hm, htext, fun hst => ?_⟩
    obtain ⟨hvec, hsource⟩ := hstored hst
    refine ⟨(hop.vec _).2 (Or.inl hvec), ?_⟩
    rw [hop.embedding]
    by_cases hnew : m.rowid = row.rowid
    · -- the memory written is the job's
      have hmr : m = row := h.rowids.eq (findRow_mem hm) (findRow_mem hop.found) hnew
      have hid : j.memoryId = e.owner := by rw [← findRow_id hm, hmr, findRow_id hop.found]
      rw [hnew, Function.update_self]
      exact (hsame j hj hst hid).symm
    · rw [Function.update_of_ne hnew]
      exact hsource

/-- jobs come and go -/
theorem Consistent.jobs (h : Consistent s) {jobs : List Job} (hjobs : ∀ j ∈ jobs, Tracked s j) (ended : List Ended) :
    Consistent { s with jobs, ended } :=
  ⟨h.keys, h.rowids, h.own, hjobs⟩

theorem Consistent.settle (h : Consistent s) (job : Job) (outcome : Outcome) : Consistent (settle s job outcome) :=
  h.jobs (fun j hj => h.tracked j (List.mem_of_mem_erase hj)) _

theorem Consistent.finish (h : Consistent s) (id : AtomId) : Consistent (finish E s id) := by
  unfold Reembed.finish
  refine h.follows ?_ (fun k => ?_) (fun j _ hj => ?_) _
  · exact (Follows.refl (h.keys .id) h.rowids).tick.updateRow id fun _ => ⟨rfl, rfl, rfl⟩
  · exact Unique.updateRow (s := tick s.db) (h.keys k) id fun _ => by cases k <;> rfl
  · refine ⟨hj.erased, ?_⟩
    rw [findRow_updateRow _ _ _ (by intro _; rfl), findRow_tick, hj.row, Option.map_none]

/-- the vector of a job goes in -/
theorem Consistent.embedded (h : Consistent s) {answer : Except Thrown (List (List V))} (hj : job ∈ s.jobs)
    (hop : embedded E dim s job answer = .ok t) :
    Consistent { t with jobs := t.jobs.erase job ++ [{ job with stage := .storing }] } := by
  obtain ⟨vec, hup⟩ := embedded_ok hop
  obtain ⟨row, hup⟩ := upsert_ok hup
  -- every job of this memory embeds the text it has now
  have hcurrent : ∀ j ∈ s.jobs, j.memoryId = job.memoryId →
      (truncateForEmbedding (.ofString row.text)).text = j.embedText := by
    intro j hj hid
    have hrow : findRow s.db j.memoryId = some row := hid ▸ hup.found
    rcases h.tracked j hj with hgone | ⟨m, hm, htext, -⟩
    · rw [hgone.row] at hrow
      cases hrow
    · rw [hrow, Option.some.injEq] at hm
      exact hm ▸ htext
  have hcons : Consistent t :=
    h.upserted hup fun j hj' _ hid => (hcurrent j hj' hid).symm.trans (hcurrent job hj rfl)
  refine hcons.jobs (fun j hj' => ?_) _
  rcases List.mem_append.1 hj' with hj' | hj'
  · exact hcons.tracked j (List.mem_of_mem_erase hj')
  · rw [List.mem_singleton.1 hj']
    refine Or.inr ⟨row, (findRow_congr hup.memories _).trans hup.found, hcurrent job hj rfl, fun _ => ?_⟩
    rw [hup.embedding, Function.update_self]
    exact ⟨(hup.vec _).2 (Or.inr rfl), rfl⟩

/-- **Step lemma.** -/
theorem Consistent.step (h : Consistent s) {op : Op V} (hlegal : Legal E s op) : Consistent (step E dim s op) := by
  cases op with
  | daemon op =>
    obtain ⟨hindex, hfresh⟩ := hlegal
    refine h.follows (step_follows (h.keys .id) h.rowids hindex) (fun k => ?_) (fun j hj hgone => ?_) _
    · exact Unique.step (h.keys .id) (h.keys k) op
    · exact hgone.step (h.keys .id) (hfresh j hj)
  | write id source vec =>
    unfold Reembed.step
    simp only
    split
    · exact h
    · rename_i t hop
      obtain ⟨row, hup⟩ := upsert_ok hop
      exact h.upserted hup fun j hj hst hid => absurd hid (hlegal j hj hst)
  | mark id =>
    unfold Reembed.step
    simp only
    split_ifs
    · exact ⟨h.keys, h.rowids, h.own, h.tracked⟩
    · exact h
  | begin number memoryId =>
    unfold Reembed.step handle
    simp only
    split
    · exact h.jobs h.tracked _
    · rename_i memory hm
      refine h.jobs (fun j hj => ?_) _
      rcases List.mem_append.1 hj with hj | hj
      · exact h.tracked j hj
      · rw [List.mem_singleton.1 hj]
        exact Or.inr ⟨memory, hm, rfl, fun hst => by cases hst⟩
  | answer number answer =>
    unfold Reembed.step
    simp only
    split
    · exact h
    · rename_i job hjob
      split
      · exact h.settle job _
      · rename_i t ht
        exact h.embedded (waiting_some hjob).1 ht
  | resume number =>
    unfold Reembed.step
    simp only
    split
    · exact h
    · rename_i job hjob
      exact (h.finish job.memoryId).settle job _

/-- the vector behind a job's upsert is that of its memory's text -/
theorem Consistent.stored (h : Consistent s) (hj : job ∈ s.jobs) (hst : job.stage = .storing) {m : Memory}
    (hm : findRow s.db job.memoryId = some m) : m.rowid ∈ s.db.memoriesVec ∧
      (s.embedding m.rowid).owner = job.memoryId ∧
        (s.embedding m.rowid).source = (truncateForEmbedding (.ofString m.text)).text := by
  rcases h.tracked job hj with hgone | ⟨x, hx, htext, hstored⟩
  · rw [hgone.row] at hm
    cases hm
  · obtain rfl : x = m := Option.some.inj (hx.symm.trans hm)
    obtain ⟨hvec, hsource⟩ := hstored hst
    refine ⟨hvec, ?_, hsource.trans htext.symm⟩
    rw [← findRow_id hm]
    exact ((h.filed hvec).only x (findRow_mem hm) rfl).symm

theorem mem_filter_mem {p : AtomId → Bool} {a : AtomId} {flags : List AtomId} (ha : a ∈ flags)
    (hn : a ∉ flags.filter p) : p a = false := by
  by_contra hp
  exact hn (List.mem_filter.2 ⟨ha, by simpa using hp⟩)

/-- **Markers.** -/
theorem Consistent.clearsCurrent (h : Consistent s) (op : Op V) : ClearsCurrent E dim s op := by
  intro a ha hcleared m hm
  cases op with
  | daemon op =>
    -- the marker went with the row
    have hgone := mem_filter_mem ha hcleared
    rw [show findRow (Daemon.step E s.db op) a = some m from hm] at hgone
    cases hgone
  | write id source vec =>
    unfold Reembed.step at hcleared
    simp only at hcleared
    split at hcleared
    · exact absurd ha hcleared
    · rename_i t hop
      obtain ⟨row, hup⟩ := upsert_ok hop
      exact absurd (hup.flags ▸ ha) hcleared
  | mark id =>
    unfold Reembed.step at hcleared
    simp only at hcleared
    split_ifs at hcleared
    · exact absurd (List.mem_append_left _ ha) hcleared
    · exact absurd ha hcleared
  | begin number memoryId =>
    unfold Reembed.step handle at hcleared
    simp only at hcleared
    split at hcleared <;> exact absurd ha hcleared
  | answer number answer =>
    unfold Reembed.step at hcleared
    simp only at hcleared
    split at hcleared
    · exact absurd ha hcleared
    · split at hcleared
      · exact absurd ha hcleared
      · rename_i job _ _ t ht
        obtain ⟨vec, hup⟩ := embedded_ok ht
        obtain ⟨row, hup⟩ := upsert_ok hup
        exact absurd (show a ∈ t.needsVecIndex from hup.flags ▸ ha) hcleared
  | resume number =>
    cases hw : waiting s number .storing with
    | none =>
      simp only [Reembed.step, hw] at hcleared
      exact absurd ha hcleared
    | some job =>
      simp only [Reembed.step, hw] at hcleared hm ⊢
      obtain ⟨hj, hst⟩ := waiting_some hw
      have hself : a = job.memoryId := by simpa using mem_filter_mem ha hcleared
      subst hself
      exact (h.finish job.memoryId).stored hj hst hm

/-! ## Missing memories -/

/-- an operation that ends no job -/
theorem completesGone_of_ended {s : State V} {op : Op V} (hsame : (step E dim s op).ended = s.ended) :
    CompletesGone E dim s op := by
  intro o ho
  rw [hsame] at ho
  simp at ho

theorem completesGone_begin (s : State V) (number : ℕ) (memoryId : AtomId) :
    CompletesGone E dim s (.begin number memoryId) := by
  cases hrow : findRow s.db memoryId with
  | none =>
    intro o ho hgone
    simp only [step, handle, hrow, List.append_cancel_left_eq, List.cons.injEq, and_true] at ho
    rw [← ho]
  | some memory =>
    apply completesGone_of_ended
    simp only [step, handle, hrow]

theorem completesGone_resume (s : State V) (number : ℕ) : CompletesGone E dim s (.resume number) := by
  cases hw : waiting s number .storing with
  | none =>
    apply completesGone_of_ended
    simp only [step, hw]
  | some job =>
    intro o ho hgone
    simp only [step, hw, settle, finish, List.append_cancel_left_eq, List.cons.injEq, and_true] at ho
    rw [← ho]

/-- an answer to a memory that is gone fails the job -/
theorem completesGone_answer_iff (s : State V) (number : ℕ) (answer : Except Thrown (List (List V))) :
    CompletesGone E dim s (.answer number answer) ↔ AnswersPresent s (.answer number answer) := by
  cases hw : waiting s number .embedding with
  | none =>
    refine iff_of_true (completesGone_of_ended ?_) ?_
    · simp only [step, hw]
    · intro job hjob
      rw [hw] at hjob
      cases hjob
  | some job =>
    constructor
    · intro hcomplete j hj hgone
      obtain rfl : job = j := Option.some.inj (hw.symm.trans hj)
      obtain ⟨err, herr⟩ : ∃ err, embedded E dim s job answer = .error err := embedded_gone hgone answer
      have hstep : step E dim s (.answer number answer) = settle s job (.failed err) := by
        simp only [step, hw, herr]
      have hfailed := hcomplete ⟨job.number, job.memoryId, .failed err⟩ (by rw [hstep]; rfl) (by rw [hstep]; exact hgone)
      cases hfailed
    · intro hpresent
      have hrow := hpresent job hw
      cases hx : embedded E dim s job answer with
      | error err =>
        intro o ho hgone
        simp only [step, hw, hx, settle, List.append_cancel_left_eq, List.cons.injEq, and_true] at ho hgone
        rw [← ho] at hgone
        exact absurd hgone hrow
      | ok t =>
        apply completesGone_of_ended
        obtain ⟨vec, hup⟩ := embedded_ok hx
        obtain ⟨row, hup⟩ := upsert_ok hup
        simp only [step, hw, hx]
        exact hup.ended

theorem completesGone_iff (s : State V) (op : Op V) : CompletesGone E dim s op ↔ AnswersPresent s op := by
  cases op with
  | daemon op => exact iff_of_true (completesGone_of_ended rfl) trivial
  | write id source vec =>
    refine iff_of_true (completesGone_of_ended ?_) trivial
    simp only [step]
    split
    · rfl
    · rename_i t hop
      obtain ⟨row, hup⟩ := upsert_ok hop
      exact hup.ended
  | mark id =>
    refine iff_of_true (completesGone_of_ended ?_) trivial
    simp only [step]
    split_ifs <;> rfl
  | begin number memoryId => exact iff_of_true (completesGone_begin s number memoryId) trivial
  | answer number answer => exact completesGone_answer_iff s number answer
  | resume number => exact iff_of_true (completesGone_resume s number) trivial

/-! ## Runs -/

variable {ops : List (Op V)}

theorem consistent_run {s : State V} (h : Consistent s) (hlegal : Along (step E dim) (Legal E) s ops) :
    Consistent (run E dim s ops) :=
  along_inv Consistent (fun _ _ hu hop => hu.step hop) h hlegal

/-- **The index.** -/
theorem index_filed (E : Store.Env) (dim : ℕ) (sessions : List SessionId) (ops : List (Op V))
    (hlegal : Along (step E dim) (Legal E) (start sessions) ops) :
    ∀ r ∈ (run E dim (start sessions) ops).db.memoriesVec, Filed (run E dim (start sessions) ops) r :=
  fun _ hr => (consistent_run (consistent_start sessions) hlegal).filed hr

theorem marker_current (E : Store.Env) (dim : ℕ) (sessions : List SessionId) (ops : List (Op V))
    (hlegal : Along (step E dim) (Legal E) (start sessions) ops) :
    Along (step E dim) (ClearsCurrent E dim) (start sessions) ops :=
  hlegal.carry Consistent (fun _ _ hu hop => hu.step hop) (fun _ op hu _ => hu.clearsCurrent op)
    (consistent_start sessions)

/-- **Re-embedding in flight.** In every run from an empty database the index has vectors of existing memories under
their own rowids only, and clears no marker but over a vector of the memory's text. A job whose memory is gone completes
without an error exactly where every embed call comes back to an existing memory. -/
theorem reembed_completes_iff (E : Store.Env) (dim : ℕ) (sessions : List SessionId) (ops : List (Op V))
    (hlegal : Along (step E dim) (Legal E) (start sessions) ops) :
    (Along (step E dim) (CompletesGone E dim) (start sessions) ops ∧
      (∀ pre, pre <+: ops → ∀ r ∈ (run E dim (start sessions) pre).db.memoriesVec,
        Filed (run E dim (start sessions) pre) r) ∧
      Along (step E dim) (ClearsCurrent E dim) (start sessions) ops) ↔
    Along (step E dim) AnswersPresent (start sessions) ops := by
  constructor
  · rintro ⟨hcomplete, -, -⟩
    exact hcomplete.mono fun u op => (completesGone_iff u op).1
  · intro hpresent
    refine ⟨hpresent.mono fun u op => (completesGone_iff u op).2, fun pre hpre => ?_, ?_⟩
    · exact index_filed E dim sessions pre (hlegal.initial hpre)
    · exact marker_current E dim sessions ops hlegal

/-- memory 0 is erased behind the upsert, and another memory takes its rowid -/
def eraseBehindUpsert : List (Op Unit) :=
  [.daemon (.remember (rememberInput 7 "text")), .mark 0, .begin 1 0, .answer 1 (.ok [[()]]), .daemon (.erase 0 none),
    .daemon (.remember (rememberInput 8 "other")), .resume 1]

theorem reembed_completes_behind : Along (step countingEnv 1) (CompletesGone countingEnv 1) (start []) eraseBehindUpsert ∧
    (run countingEnv 1 (start []) eraseBehindUpsert).ended = [⟨1, 0, .completed⟩] ∧
    (run countingEnv 1 (start []) eraseBehindUpsert).db.memoriesVec = [] :=
  ⟨((reembed_completes_iff countingEnv 1 [] eraseBehindUpsert (by decide)).2 (by decide)).1, by decide, by decide⟩

/-- memory 0 is erased during the embed call -/
def eraseInFlight : List (Op Unit) :=
  [.daemon (.remember (rememberInput 7 "text")), .begin 1 0, .daemon (.erase 0 none), .answer 1 (.ok [[()]])]

/-- **An erase in flight.** The job read the row and embeds its text; by then the row is gone and `allocateRowid`
throws. -/
theorem erased_in_flight_fails : Along (step countingEnv 1) (Legal countingEnv) (start []) eraseInFlight ∧
    findRow (run countingEnv 1 (start []) eraseInFlight).db 0 = none ∧
    (run countingEnv 1 (start []) eraseInFlight).ended = [⟨1, 0, .failed (.notInTable 0)⟩] ∧
    ¬ Along (step countingEnv 1) (CompletesGone countingEnv 1) (start []) eraseInFlight := by
  refine ⟨by decide, by decide, by decide, ?_⟩
  rintro ⟨-, -, -, hanswer, -⟩
  have hfailed := hanswer ⟨1, 0, .failed (.notInTable 0)⟩ (by decide) (by decide)
  cases hfailed

end AstramemLocal.Pipeline.Reembed
