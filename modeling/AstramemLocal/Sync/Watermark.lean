/-
The pull watermark against a server whose history only grows. A cursor is a resume token: `Tokens` says which position
of the history a token stands for, and NULL (`never pulled`) stands for the start. `serve` is an answer of the server:
events from the position on, as many as it likes, and the token after them, or `null` when nothing follows.
- `watermark_kept`: no run skips an event, since a request never starts past what committed batches delivered; and a run
  in which every non-empty answer carries a token never goes back, so it never asks for a delivered event again.
- `last_page_resets`: the answer with the last page, as `PullBatch` documents it, sends the watermark back to the start.
-/
import AstramemLocal.Sync.Convergence
import AstramemLocal.Sync.PullForks

namespace AstramemLocal.Sync

open AstramemLocal.Store AstramemLocal.Core

/-! ## The server -/

structure Tokens where
  token : ℕ → Cursor
  /-- the number of events before the position -/
  pos : Cursor → ℕ
  pos_token : ∀ n, pos (token n) = n

def Tokens.position (T : Tokens) : Option Cursor → ℕ
  | none => 0
  | some c => T.pos c

/-- an answer of `size` events at most; a server that `closes` says `null` when nothing is beyond the batch -/
def serve (T : Tokens) (history : List RemotePullEvent) (cursor : Option Cursor) (size : ℕ) (closes : Bool) : PullBatch :=
  let events := (history.drop (T.position cursor)).take size
  let next := T.position cursor + events.length
  ⟨events, if closes ∧ history.length ≤ next then none else some (T.token next)⟩

/-! ## Rounds and drains -/

structure Puller where
  db : St
  history : List RemotePullEvent := []
  /-- how many events of the history committed batches delivered -/
  delivered : ℕ := 0
deriving DecidableEq, Repr

inductive PullOp where
  | arrive (events : List RemotePullEvent)
  /-- `pullOnce` -/
  | pull (size : ℕ) (closes : Bool)
  /-- the request fails, or the process dies before the transaction commits -/
  | crash
deriving DecidableEq, Repr

def Puller.answer (T : Tokens) (st : Puller) (size : ℕ) (closes : Bool) : PullBatch :=
  serve T st.history (getPullWatermark st.db) size closes

/-- the round committed `t` -/
def Puller.commit (T : Tokens) (st : Puller) (batch : PullBatch) (t : St) : Puller :=
  { st with db := t, delivered := max st.delivered (T.position (getPullWatermark st.db) + batch.events.length) }

def pullerStep (E : Env) (T : Tokens) (st : Puller) : PullOp → Puller
  | .arrive events => { st with history := st.history ++ events }
  | .pull size closes =>
    match pullOnce E st.db (st.answer T size closes) with
    | .error _ => st
    | .ok t => st.commit T (st.answer T size closes) t
  | .crash => st

def pullerRun (E : Env) (T : Tokens) (st : Puller) (ops : List PullOp) : Puller := ops.foldl (pullerStep E T) st

/-- what happens before and in one round of a drain -/
structure DrainRound where
  arrivals : List RemotePullEvent
  size : ℕ
  closes : Bool
deriving DecidableEq, Repr

def DrainRound.ops (r : DrainRound) : List PullOp := [.arrive r.arrivals, .pull r.size r.closes]

/-- `drainPull`: rounds until one is idle or says that nothing follows. Where `rounds` ends, a request fails. -/
def drainPull (E : Env) (T : Tokens) : ℕ → List DrainRound → Puller → Puller
  | 0, _, st => st
  | _ + 1, [], st => st
  | n + 1, r :: rounds, st =>
    let st := pullerStep E T st (.arrive r.arrivals)
    let batch := st.answer T r.size r.closes
    match pullOnce E st.db batch with
    | .error _ => st
    | .ok t =>
      if batch.events = [] ∨ batch.nextCursor = none then st.commit T batch t
      else drainPull E T n rounds (st.commit T batch t)

variable {E : Env} {T : Tokens} {st : Puller} {op : PullOp} {size : ℕ} {closes : Bool}

theorem pullerStep_ok {t : St} (h : pullOnce E st.db (st.answer T size closes) = .ok t) :
    pullerStep E T st (.pull size closes) = st.commit T (st.answer T size closes) t := by
  simp [pullerStep, h]

theorem pullerStep_error {e : PullError} (h : pullOnce E st.db (st.answer T size closes) = .error e) :
    pullerStep E T st (.pull size closes) = st := by
  simp [pullerStep, h]

/-- a drain is the first of its rounds -/
theorem drainPull_rounds (n : ℕ) (rounds : List DrainRound) (st : Puller) :
    ∃ ops, ops <+: rounds.flatMap DrainRound.ops ∧ drainPull E T n rounds st = pullerRun E T st ops := by
  induction n generalizing rounds st with
  | zero => exact ⟨[], List.nil_prefix, rfl⟩
  | succ n ih =>
    cases rounds with
    | nil => exact ⟨[], List.nil_prefix, rfl⟩
    | cons r rounds =>
      have hone : r.ops <+: (r :: rounds).flatMap DrainRound.ops := List.prefix_append _ _
      have hrun : pullerRun E T st r.ops =
          pullerStep E T (pullerStep E T st (.arrive r.arrivals)) (.pull r.size r.closes) := rfl
      simp only [drainPull]
      generalize pullerStep E T st (.arrive r.arrivals) = u at hrun ⊢
      cases hx : pullOnce E u.db (u.answer T r.size r.closes) with
      | error e => exact ⟨r.ops, hone, by rw [hrun, pullerStep_error hx]⟩
      | ok t =>
        rw [pullerStep_ok hx] at hrun
        simp only
        split_ifs
        · exact ⟨r.ops, hone, hrun.symm⟩
        · obtain ⟨ops, hpre, heq⟩ := ih rounds (u.commit T (u.answer T r.size r.closes) t)
          refine ⟨r.ops ++ ops, (List.prefix_append_right_inj _).2 hpre, ?_⟩
          rw [heq, ← hrun]
          exact List.foldl_append.symm

/-! ## What a round delivers -/

/-- everything before the end of the last committed batch is in the log, and the next request starts no later -/
structure NoGap (T : Tokens) (st : Puller) : Prop where
  reached : T.position (getPullWatermark st.db) ≤ st.delivered
  within : st.delivered ≤ st.history.length
  known : ∀ e ∈ st.history.take st.delivered, e.eventId ∈ eventIds st.db

/-- the answer is idle, or says where to go on -/
def Resumable (T : Tokens) (st : Puller) : PullOp → Prop
  | .pull size closes => (st.answer T size closes).events ≠ [] → (st.answer T size closes).nextCursor ≠ none
  | _ => True

instance (T : Tokens) (st : Puller) : ∀ op, Decidable (Resumable T st op)
  | .pull size closes =>
    inferInstanceAs (Decidable ((st.answer T size closes).events ≠ [] → (st.answer T size closes).nextCursor ≠ none))
  | .arrive _ | .crash => isTrue trivial

theorem answer_position {c : Cursor} (h : (st.answer T size closes).nextCursor = some c) :
    T.pos c = T.position (getPullWatermark st.db) + (st.answer T size closes).events.length := by
  unfold Puller.answer serve at h ⊢
  simp only at h ⊢
  split_ifs at h
  rw [← Option.some.inj h, T.pos_token]

/-- the history up to the end of an answer -/
theorem take_answer (st : Puller) (size : ℕ) (closes : Bool) :
    st.history.take (T.position (getPullWatermark st.db) + (st.answer T size closes).events.length) =
      st.history.take (T.position (getPullWatermark st.db)) ++ (st.answer T size closes).events := by
  have hpre : (st.answer T size closes).events <+: st.history.drop (T.position (getPullWatermark st.db)) :=
    List.take_prefix _ _
  rw [List.take_add, ← List.prefix_iff_eq_take.1 hpre]

/-- the watermark after a committed round -/
theorem commit_cursor {batch : PullBatch} {s t : St} (h : pullOnce E s batch = .ok t) :
    t.cursor = if batch.events = [] then s.cursor else batch.nextCursor := by
  split_ifs with hnil
  · rw [pullOnce, if_pos hnil] at h
    rw [Except.ok.inj h]
  · rcases pullOnce_ok h with ⟨hn, -⟩ | ⟨m, touched, u, -, -, rfl⟩
    · exact absurd hn hnil
    · rfl

theorem NoGap.step (h : NoGap T st) (op : PullOp) : NoGap T (pullerStep E T st op) := by
  obtain ⟨hreached, hwithin, hknown⟩ := h
  cases op with
  | arrive events =>
    refine ⟨hreached, ?_, ?_⟩
    · simp only [pullerStep, List.length_append]
      omega
    · simp only [pullerStep, List.take_append_of_le_length hwithin]
      exact hknown
  | crash => exact ⟨hreached, hwithin, hknown⟩
  | pull size closes =>
    cases hx : pullOnce E st.db (st.answer T size closes) with
    | error e =>
      rw [pullerStep_error hx]
      exact ⟨hreached, hwithin, hknown⟩
    | ok t =>
      rw [pullerStep_ok hx]
      obtain ⟨hold, hnew⟩ := pull_eventIds hx
      have hlen : (st.answer T size closes).events.length ≤
          st.history.length - T.position (getPullWatermark st.db) := by
        simp only [Puller.answer, serve, List.length_take, List.length_drop]
        omega
      refine ⟨?_, ?_, fun e he => ?_⟩
      · simp only [Puller.commit, getPullWatermark, commit_cursor hx]
        split_ifs
        · exact hreached.trans (Nat.le_max_left _ _)
        · cases hc : (st.answer T size closes).nextCursor with
          | none => exact Nat.zero_le _
          | some c =>
            have hpos := answer_position hc
            simp only [Tokens.position, getPullWatermark] at hpos ⊢
            omega
      · simp only [Puller.commit]
        omega
      · simp only [Puller.commit] at he
        rcases max_choice st.delivered
          (T.position (getPullWatermark st.db) + (st.answer T size closes).events.length) with hmax | hmax
        · rw [hmax] at he
          exact hold _ (hknown e he)
        · rw [hmax, take_answer] at he
          rcases List.mem_append.1 he with he | he
          · exact hold _ (hknown e (List.take_subset_take_left _ hreached he))
          · exact hnew e he

theorem delivered_le (st : Puller) (op : PullOp) : st.delivered ≤ (pullerStep E T st op).delivered := by
  cases op with
  | arrive events => exact le_rfl
  | crash => exact le_rfl
  | pull size closes =>
    cases hx : pullOnce E st.db (st.answer T size closes) with
    | error e => rw [pullerStep_error hx]
    | ok t =>
      rw [pullerStep_ok hx]
      exact Nat.le_max_left _ _

/-- the next request starts at the first event no committed batch delivered -/
def UpToDate (T : Tokens) (st : Puller) : Prop := T.position (getPullWatermark st.db) = st.delivered

theorem UpToDate.step (h : UpToDate T st) (hop : Resumable T st op) : UpToDate T (pullerStep E T st op) := by
  cases op with
  | arrive events => exact h
  | crash => exact h
  | pull size closes =>
    cases hx : pullOnce E st.db (st.answer T size closes) with
    | error e =>
      rw [pullerStep_error hx]
      exact h
    | ok t =>
      rw [pullerStep_ok hx]
      simp only [UpToDate, Puller.commit, getPullWatermark, commit_cursor hx] at h ⊢
      split_ifs with hnil
      · rw [hnil, List.length_nil]
        omega
      · obtain ⟨c, hc⟩ := Option.ne_none_iff_exists'.1 (hop hnil)
        have hpos := answer_position hc
        rw [hc]
        simp only [Tokens.position, getPullWatermark] at hpos h ⊢
        omega

/-! ## Runs -/

/-- a device that never pulled -/
def neverPulled (db : St) : Puller := ⟨{ db with cursor := none }, [], 0⟩

theorem noGap_run (E : Env) (T : Tokens) (db : St) (ops : List PullOp) : NoGap T (pullerRun E T (neverPulled db) ops) :=
  along_inv (NoGap T) (fun _ op h _ => h.step op)
    ⟨le_rfl, le_rfl, fun e he => by simp [neverPulled] at he⟩ (along_trivial _ _ ops)

theorem upToDate_run {ops : List PullOp} (h : UpToDate T st) (hops : Along (pullerStep E T) (Resumable T) st ops) :
    UpToDate T (pullerRun E T st ops) :=
  along_inv (UpToDate T) (fun _ _ hk hop => hk.step hop) h hops

theorem delivered_run (st : Puller) (ops : List PullOp) : st.delivered ≤ (pullerRun E T st ops).delivered :=
  along_inv (fun u : Puller => st.delivered ≤ u.delivered) (fun u op hu _ => hu.trans (delivered_le u op)) le_rfl
    (along_trivial _ _ ops)

/-- **Watermark.** Against every history that grows and every paging of it:
- every drain is a sequence of rounds, and no run of rounds and crashes skips an event: a request starts at or before
  the first event that no committed batch delivered, and what was delivered is in the log;
- along a run whose non-empty answers all carry a token a request starts exactly there, and the watermark never moves
  to an earlier position;
- a committed batch without a token sends the watermark to the start, before what was delivered. -/
theorem watermark_kept (E : Env) (T : Tokens) (db : St) (ops : List PullOp) :
    (∀ n rounds st, ∃ ops, ops <+: rounds.flatMap DrainRound.ops ∧ drainPull E T n rounds st = pullerRun E T st ops) ∧
    NoGap T (pullerRun E T (neverPulled db) ops) ∧
    (Along (pullerStep E T) (Resumable T) (neverPulled db) ops → ∀ pre, pre <+: ops →
      UpToDate T (pullerRun E T (neverPulled db) pre) ∧ ∀ post, pre ++ post <+: ops →
        T.position (getPullWatermark (pullerRun E T (neverPulled db) pre).db) ≤
          T.position (getPullWatermark (pullerRun E T (neverPulled db) (pre ++ post)).db)) ∧
    ∀ st size closes t, pullOnce E st.db (st.answer T size closes) = .ok t → (st.answer T size closes).events ≠ [] →
      (st.answer T size closes).nextCursor = none →
      getPullWatermark (pullerStep E T st (.pull size closes)).db = none ∧
        ¬ UpToDate T (pullerStep E T st (.pull size closes)) := by
  refine ⟨drainPull_rounds, noGap_run E T db ops, fun h pre hpre => ?_, fun st size closes t ht hne hnone => ?_⟩
  · have hkept : ∀ p, p <+: ops → UpToDate T (pullerRun E T (neverPulled db) p) := fun p hp => upToDate_run rfl (h.initial hp)
    refine ⟨hkept pre hpre, fun post hpost => ?_⟩
    rw [hkept pre hpre, hkept _ hpost, pullerRun, pullerRun, List.foldl_append]
    exact delivered_run _ post
  · have hcursor : t.cursor = none := by
      rw [commit_cursor ht, if_neg hne]
      exact hnone
    have hpos := List.length_pos_of_ne_nil hne
    rw [pullerStep_ok ht]
    simp only [UpToDate, Puller.commit, getPullWatermark, hcursor, Tokens.position]
    exact ⟨trivial, by omega⟩

/-! ## The last page -/

/-- tokens are positions -/
def positions : Tokens := ⟨fun n => n, fun n => n, fun _ => rfl⟩

/-- two events, pulled one by one from a server that always gives a token -/
def openPaging : List PullOp := [.arrive [createEvent 1 1 0, createEvent 2 2 1], .pull 1 false, .crash, .pull 1 false]

theorem watermark_kept_openPaging :
    (pullerRun (device 0) positions (neverPulled {}) openPaging).delivered = 2 ∧
      UpToDate positions (pullerRun (device 0) positions (neverPulled {}) openPaging) :=
  ⟨by decide, ((watermark_kept (device 0) positions {} openPaging).2.2.1 (by decide) openPaging
    (List.prefix_refl _)).1⟩

/-- **The last page resets the watermark.** A server that says `null` when nothing is beyond the batch sends the
watermark back to the start, and the next drain asks for the delivered events again. -/
theorem last_page_resets :
    (pullerRun (device 0) positions (neverPulled {}) [.arrive [createEvent 1 1 0, createEvent 2 2 1], .pull 1 true]).db.cursor
      = some 1 ∧
    (drainPull (device 0) positions 1000 [⟨[createEvent 1 1 0, createEvent 2 2 1], 1, true⟩, ⟨[], 1, true⟩]
      (neverPulled {})).db.cursor = none ∧
    ((drainPull (device 0) positions 1000 [⟨[createEvent 1 1 0, createEvent 2 2 1], 1, true⟩, ⟨[], 1, true⟩]
      (neverPulled {})).answer positions 5 true).events.map (·.eventId) = [1, 2] := by
  decide

end AstramemLocal.Sync
